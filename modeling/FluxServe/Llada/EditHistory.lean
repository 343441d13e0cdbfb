import FluxServe.Llada.Decoders
import FluxServe.Llada.LevenshteinSafety

namespace FluxServe.Llada

open Engine

section Records

variable {L : Nat}

/-- What a pass does to a row: where the block starts that it works on, whether the row is active,
and its block before the edit. -/
structure PassRecord (L : Nat) where
  blockStart : Int
  active : Bool
  blockResult : Fin L → Token

/-- The results of the active passes over the block that starts at `blockStart`, the oldest first.
The records have the latest pass first. -/
def blockResults (blockStart : Int) (records : List (PassRecord L)) : List (Fin L → Token) :=
  (((records.takeWhile fun e => e.blockStart = blockStart).filter PassRecord.active).map
    PassRecord.blockResult).reverse

/-- The blocks recorded for a row. -/
def LevenshteinRowState.seenStates {history : Nat} (s : LevenshteinRowState L history) :
    Finset (Fin L → Token) := ((List.ofFn s.seenBlocks).take s.seenCount).toFinset

variable {e : PassRecord L} {es : List (PassRecord L)} {b : Int}

theorem blockResults_other (h : e.blockStart ≠ b) : blockResults b (e::es) = [] := by
  simp [blockResults,h]

theorem blockResults_cons (h : e.blockStart = b) : blockResults b (e::es) =
    if e.active then blockResults b es ++ [e.blockResult] else blockResults b es := by
  cases ha : e.active <;> simp [blockResults,h,ha]

end Records

/-- A pass over some rows of a decode loop, in the fused graph or after the forward. -/
structure DecoderPass (L V : Nat) (Logit : Type) where
  rows : List (DecoderRow (Fin L → Fin V → Logit))
  distinct : (rows.map DecoderRow.seqId).Nodup
  order : ScatterOrder L := {}
  fused : Bool := false

namespace LevenshteinJointDecoder

variable {L V : Nat} [NeZero L] [NeZero V] {Logit Conf : Type} [LinearOrder Logit]
  [OrderBot Logit] [LinearOrder Conf]

section Passes

variable (d : LevenshteinJointDecoder V Conf) (softmax : (Fin V → Logit) → Fin V → Conf)

def makeRowState : Nat → LevenshteinRowState L d.maxBlockIters := fun _ =>
  { isOriginalMask := fun _ => false
    initialMaskCount := 0
    stepId := 0
    postSteps := 0
    finalized := false
    blockStart := -1
    seenBlocks := fun _ _ => 0
    seenCount := 0 }

/-- The row state that a pass leaves. -/
def afterPass (p : DecoderPass L V Logit) (s : Nat → LevenshteinRowState L d.maxBlockIters) :
    Nat → LevenshteinRowState L d.maxBlockIters :=
  let decoder := d.decoder softmax p.order
  match decoder.graphStep,p.fused with
  | some step,true => (step p.rows s).2
  | _,_ => (decoder.batchDecode p.rows s).2

/-- The row state after some passes, the latest first. -/
def afterPasses : List (DecoderPass L V Logit) → Nat → LevenshteinRowState L d.maxBlockIters
  | [] => d.makeRowState
  | p::earlier => d.afterPass softmax p (afterPasses earlier)

/-- What the step of a row is given. -/
def rowInput (p : DecoderPass L V Logit) (row : DecoderRow (Fin L → Fin V → Logit))
    (s : LevenshteinRowState L d.maxBlockIters) : StepInput L V d.maxBlockIters Logit :=
  d.stepInput p.order row (gatherBlock L row.row row.blockStart) s

/-- What the passes do to the row of a sequence. -/
def records (r : Nat) : List (DecoderPass L V Logit) → List (PassRecord L)
  | [] => []
  | p::earlier =>
    match findRow p.rows r with
    | none => records r earlier
    | some row =>
      let input := d.rowInput p row (d.afterPasses softmax earlier r)
      ⟨row.blockStart,!input.finalized,d.blockResult softmax input⟩ :: records r earlier

end Passes

section History

variable {d : LevenshteinJointDecoder V Conf} {softmax : (Fin V → Logit) → Fin V → Conf}
  {s : LevenshteinRowState L d.maxBlockIters} {results : List (Fin L → Token)}
  {blk : Fin L → Token} {b : Int}

/-- A row whose history holds these results. Every active pass counts a step, and the last one that
the cap admits finalizes the row. -/
structure Holds (s : LevenshteinRowState L d.maxBlockIters) (results : List (Fin L → Token)) :
    Prop where
  count : s.seenCount = results.length
  steps : s.stepId = results.length
  bound : results.length ≤ d.maxStepsPerBlock
  active : s.finalized = false → results.length < d.maxStepsPerBlock
  slots : ∀ k : Fin d.maxBlockIters, (k : Nat) < results.length →
    results[(k : Nat)]? = some (s.seenBlocks k)

namespace Holds

omit [NeZero L] in
theorem lt_maxBlockIters (h : Holds s results) : results.length < d.maxBlockIters :=
  Nat.lt_succ_of_le h.bound

omit [NeZero L] in
theorem recorded_eq (h : Holds s results) :
    (List.ofFn s.seenBlocks).take s.seenCount = results := by
  have hlt := h.lt_maxBlockIters
  apply List.ext_getElem?
  intro k
  rw [h.count]
  by_cases hk : k < results.length
  · rw [List.getElem?_take_of_lt hk,List.getElem?_ofFn,dif_pos (by omega)]
    exact (h.slots ⟨k,by omega⟩ hk).symm
  · rw [List.getElem?_eq_none (by simp; omega),List.getElem?_eq_none (by omega)]

omit [NeZero L] in
theorem seenStates_eq (h : Holds s results) : s.seenStates = results.toFinset :=
  congrArg List.toFinset h.recorded_eq

omit [NeZero L] in
/-- `block_seen` looks the block up among the results. -/
theorem seen_iff (h : Holds s results) :
    blockSeen blk s.seenBlocks s.seenCount = true ↔ blk ∈ results := by
  have hlt := h.lt_maxBlockIters
  have hslot : blockSeen blk s.seenBlocks s.seenCount = true ↔
      ∃ k : Fin d.maxBlockIters, (k : Nat) < results.length ∧ s.seenBlocks k = blk := by
    simp [blockSeen,h.count,funext_iff]
  rw [hslot,List.mem_iff_getElem?]
  constructor
  · intro hk
    obtain ⟨k,hk,hblk⟩ := hk
    exact ⟨k,by rw [h.slots k hk,hblk]⟩
  · intro hk
    obtain ⟨k,hk⟩ := hk
    obtain ⟨hin,_⟩ := List.getElem?_eq_some_iff.mp hk
    have hsome := h.slots ⟨k,by omega⟩ hin
    rw [hk] at hsome
    exact ⟨⟨k,by omega⟩,hin,(Option.some.inj hsome).symm⟩

omit [NeZero L] in
/-- A row enters a new block with an empty history. -/
theorem new (x : Fin L → Token) (h : s.blockStart ≠ b) : Holds (d.beginBlockRow s b x) [] := by
  have hsteps := d.two_le_maxStepsPerBlock
  rw [beginBlockRow,if_neg h]
  constructor
  · rfl
  · rfl
  · exact Nat.zero_le _
  · intro _
    show 0 < d.maxStepsPerBlock
    omega
  · intro k hk
    exact absurd hk (Nat.not_lt_zero _)

/-- What a pass commits: the result of an active row goes into the next slot. -/
theorem commit {input : StepInput L V d.maxBlockIters Logit}
    (h : Holds input.toLevenshteinRowState results) :
    Holds (d.commitRowState input.toLevenshteinRowState (d.graphStep softmax input))
      (if input.finalized then results else results ++ [d.blockResult softmax input]) := by
  have hlt := h.lt_maxBlockIters
  have hcount : input.seenCount = results.length := h.count
  have hsteps : input.stepId = results.length := h.steps
  have hmax : d.maxBlockIters = d.maxStepsPerBlock+1 := rfl
  cases hfin : input.finalized with
  | true =>
    constructor
    · simp [commitRowState,graphStep,hfin,hcount]
      omega
    · simp [commitRowState,graphStep,hfin,hsteps]
    · exact h.bound
    · simp [commitRowState,graphStep,hfin]
    · intro k hk
      simpa [commitRowState,graphStep,hfin] using h.slots k hk
  | false =>
    have hactive := h.active hfin
    constructor
    · simp [commitRowState,graphStep,hfin,hcount]
      omega
    · simp [commitRowState,graphStep,hfin,hsteps]
    · simp
      omega
    · intro hopen
      have hround : d.finalRound softmax input = false := by
        simpa [commitRowState,graphStep,hfin] using hopen
      have hcap : ¬d.maxStepsPerBlock-1 ≤ input.stepId := by
        intro hle
        simp [finalRound,hfin,hle] at hround
      simp
      omega
    · intro k hk
      have hslot : min input.seenCount (d.maxBlockIters-1) = results.length := by omega
      by_cases hlast : (k : Nat) = results.length
      · simp [commitRowState,graphStep,hfin,hslot,hlast]
      · have hin : (k : Nat) < results.length := by
          simp at hk
          omega
        simpa [commitRowState,graphStep,hfin,hslot,hlast,List.getElem?_append_left hin] using
          h.slots k hin

end Holds

section Runs

variable {p : DecoderPass L V Logit} {earlier passes : List (DecoderPass L V Logit)} {r : Nat}
  {row : DecoderRow (Fin L → Fin V → Logit)} {records : List (PassRecord L)}

theorem afterPass_eq (s : Nat → LevenshteinRowState L d.maxBlockIters) :
    d.afterPass softmax p s r = match findRow p.rows r with
      | none => s r
      | some row =>
        let input := d.rowInput p row (s r)
        d.commitRowState input.toLevenshteinRowState (d.graphStep softmax input) := by
  have hstep : d.afterPass softmax p s r = ((stepRow (fun row block s =>
      let input := d.stepInput p.order row block s
      let step := d.graphStep softmax input
      (step.newBlock,d.commitRowState input.toLevenshteinRowState step)) p.rows s r).map
        fun x => x.2.2).getD (s r) := by
    cases hfused : p.fused <;> simp [afterPass,decoder,BlockDecoder.ofRows,hfused]
  rw [hstep,stepRow]
  cases findRow p.rows r <;> rfl

/-- The history of a row that begins a pass over the block at `b`. -/
theorem Holds.begin (h : Holds s (blockResults s.blockStart records))
    (hlast : ∀ e ∈ records.head?, s.blockStart = e.blockStart) (x : Fin L → Token) :
    Holds (d.beginBlockRow s b x) (blockResults b records) := by
  by_cases hb : s.blockStart = b
  · rw [beginBlockRow,if_pos hb,← hb]
    exact h
  · have hnone : blockResults b records = [] := by
      cases records with
      | nil => rfl
      | cons e es => exact blockResults_other fun he => hb ((hlast e rfl).trans he)
    rw [hnone]
    exact Holds.new x hb

theorem holds_makeRowState : Holds (d.makeRowState (L := L) r) [] := by
  have hsteps := d.two_le_maxStepsPerBlock
  constructor
  · rfl
  · rfl
  · exact Nat.zero_le _
  · intro _
    show 0 < d.maxStepsPerBlock
    omega
  · intro k hk
    exact absurd hk (Nat.not_lt_zero _)

theorem beginBlockRow_blockStart (x : Fin L → Token) : (d.beginBlockRow s b x).blockStart = b := by
  unfold beginBlockRow
  split
  · assumption
  · rfl

variable (d softmax) in
/-- The row state is at the block of the latest pass and holds its results. -/
theorem afterPasses_holds (passes : List (DecoderPass L V Logit)) (r : Nat) :
    let s := d.afterPasses softmax passes r
    Holds s (blockResults s.blockStart (d.records softmax r passes)) ∧
      ∀ e ∈ (d.records softmax r passes).head?, s.blockStart = e.blockStart := by
  induction passes with
  | nil =>
    apply And.intro holds_makeRowState
    intro e he
    cases he
  | cons p earlier ih =>
    obtain ⟨hholds,hlast⟩ := ih
    simp only [afterPasses,LevenshteinJointDecoder.records,afterPass_eq]
    cases findRow p.rows r with
    | none => exact ⟨hholds,hlast⟩
    | some row =>
      dsimp only
      have hstart : (d.rowInput p row (d.afterPasses softmax earlier r)).blockStart =
          row.blockStart := beginBlockRow_blockStart _
      have hbegun : Holds (d.rowInput p row (d.afterPasses softmax earlier r)).toLevenshteinRowState
          (blockResults row.blockStart (d.records softmax r earlier)) :=
        hholds.begin hlast (gatherBlock L row.row row.blockStart)
      generalize d.rowInput p row (d.afterPasses softmax earlier r) = input at *
      have hcommit : Holds (d.commitRowState input.toLevenshteinRowState
          (d.graphStep softmax input)) _ := hbegun.commit
      constructor
      · show Holds _ (blockResults input.blockStart _)
        rw [hstart]
        let record : PassRecord L := ⟨row.blockStart,!input.finalized,d.blockResult softmax input⟩
        have hcons : blockResults row.blockStart (record :: d.records softmax r earlier) = _ :=
          blockResults_cons rfl
        rw [hcons]
        cases hfin : input.finalized <;> simpa [hfin,record] using hcommit
      · intro e he
        cases he
        exact hstart

/-- After any passes a row's history holds the results of its active passes over its current block,
each of them and no others, and `block_seen` looks blocks up among them, in the next pass too; the
capacity of the history never cuts the count. -/
theorem editHistory_exact (d : LevenshteinJointDecoder V Conf)
    (softmax : (Fin V → Logit) → Fin V → Conf) (passes : List (DecoderPass L V Logit)) (r : Nat) :
    let s := d.afterPasses softmax passes r
    let results := blockResults s.blockStart (d.records softmax r passes)
    (∀ e ∈ (d.records softmax r passes).head?, s.blockStart = e.blockStart) ∧
    s.seenCount = results.length ∧ s.seenStates = results.toFinset ∧
    (∀ blk, blockSeen blk s.seenBlocks s.seenCount = true ↔ blk ∈ results) ∧
    ∀ (p : DecoderPass L V Logit), ∀ row ∈ p.rows, row.seqId = r →
      let input := d.rowInput p row s
      let step := d.graphStep softmax input
      (∀ blk, blockSeen blk input.seenBlocks input.seenCount = true ↔
        blk ∈ blockResults row.blockStart (d.records softmax r passes)) ∧
      min step.seenCount (d.maxBlockIters-1) = step.seenCount ∧
      min (step.seenCount+step.historyAppend.toNat) d.maxBlockIters =
        step.seenCount+step.historyAppend.toNat := by
  obtain ⟨hholds,hlast⟩ := afterPasses_holds d softmax passes r
  refine ⟨hlast,hholds.count,hholds.seenStates_eq,fun _ => hholds.seen_iff,?_⟩
  intro p row _ _ input step
  have hbegun : Holds input.toLevenshteinRowState _ :=
    hholds.begin (b := row.blockStart) hlast (gatherBlock L row.row row.blockStart)
  have hlt := hbegun.lt_maxBlockIters
  have hcount : step.seenCount = _ := hbegun.count
  have happend := Bool.toNat_le step.historyAppend
  apply And.intro fun _ => hbegun.seen_iff
  constructor <;> omega

end Runs

end History

local instance passColumns_neZero : NeZero 5 := ⟨by decide⟩

/-- Two rows at different blocks. -/
def smallPass : DecoderPass 2 5 Nat where
  rows := [
    { seqId := 0,blockStart := 0,row := fun _ => 0,promptLength := 1,allowEdit := false
      logits := fun _ t => if t = 2 then 9 else if t = 4 then 8 else 1 },
    { seqId := 1,blockStart := 4,row := fun _ => 0,promptLength := 1,allowEdit := false
      logits := fun _ t => if t = 2 then 9 else if t = 4 then 8 else 1 }]
  distinct := by decide

theorem editHistory_exact_small :
    let s := BlockRun.smallDecoder.afterPasses (fun _ _ => 1) [smallPass,smallPass] 1
    s.seenCount = 2 ∧ s.seenStates = (blockResults 4
      (BlockRun.smallDecoder.records (fun _ _ => 1) 1 [smallPass,smallPass])).toFinset := by
  have hexact := editHistory_exact BlockRun.smallDecoder (fun _ _ => 1) [smallPass,smallPass] 1
  apply And.intro _ hexact.2.2.1
  rw [hexact.2.1]
  decide

end LevenshteinJointDecoder

end FluxServe.Llada
