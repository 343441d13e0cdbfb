import FluxServe.Llada.Decoders

namespace FluxServe.Llada

open Engine

section Rows

variable {α : Type} {L : Nat} {seqIds : List Nat} {vals t : Nat → α} {r : Nat} {row : Nat → α}
  {start p : Nat} {blk : Fin L → α}

theorem putRows_of_mem (h : r ∈ seqIds) : putRows seqIds vals t r = vals r := if_pos h

theorem putRows_of_notMem (h : r ∉ seqIds) : putRows seqIds vals t r = t r := if_neg h

theorem writeBlock_outside (h : ¬(start ≤ p ∧ p < start+L)) : writeBlock row start blk p = row p :=
  dif_neg h

@[simp]
theorem writeBlock_inside (i : Fin L) : writeBlock row start blk (start+i) = blk i := by
  have hi : start ≤ start+i.val ∧ start+i.val < start+L := by omega
  rw [writeBlock,dif_pos hi]
  congr 1
  apply Fin.ext
  simp

theorem gatherBlock_writeBlock : gatherBlock L (writeBlock row start blk) start = blk :=
  funext fun i => writeBlock_inside i

end Rows

namespace LladaRunner

variable {Logits Kv S : Type} {R : LladaRunner Logits Kv S}

section Batch

variable {c : DecodeCall} {σ σ' : DecodeLoop Kv S} {seqIds : List Nat} {cacheLength r p : Nat}

/-- A position of the block that a row is decoding. -/
def InBlock (R : LladaRunner Logits Kv S) (σ : DecodeLoop Kv S) (r p : Nat) : Prop :=
  σ.decodingStart r ≤ p ∧ p < σ.decodingStart r + R.blockLength

theorem inBlock_add (i : Fin R.blockLength) : R.InBlock σ r (σ.decodingStart r + i) :=
  ⟨Nat.le_add_right _ _,Nat.add_lt_add_left i.isLt _⟩

theorem exists_of_inBlock (h : R.InBlock σ r p) :
    ∃ i : Fin R.blockLength, σ.decodingStart r + i = p := by
  obtain ⟨hge,hlt⟩ := h
  exact ⟨⟨p-σ.decodingStart r,by omega⟩,by simp only; omega⟩

/-- Neither path of the decoder's step leaves the active block. -/
theorem tail_outside (hnd : seqIds.Nodup) (hr : r ∈ seqIds) (hp : ¬R.InBlock σ r p) :
    (R.tail c σ seqIds cacheLength).rows r p = σ.x r p := by
  have heager : (R.decoder.batchDecode (seqIds.map (R.decoderRow c σ seqIds cacheLength))
      σ.rowState).1 r p = σ.x r p := by
    refine R.decoder.inside _ σ.rowState ?_ (R.decoderRow c σ seqIds cacheLength r)
      (List.mem_map_of_mem hr) p hp
    rw [List.map_map]
    exact (List.map_id _).symm ▸ hnd
  unfold tail
  dsimp only
  split
  · exact heager
  · split
    · exact writeBlock_outside hp
    · exact heager

/-- The block a row is judged by is the one it is left with. -/
theorem tail_after (i : Fin R.blockLength) :
    (R.tail c σ seqIds cacheLength).after r i =
      (R.tail c σ seqIds cacheLength).rows r (σ.decodingStart r + i) := by
  unfold tail
  dsimp only
  split
  · rfl
  · split
    · exact (writeBlock_inside i).symm
    · rfl

theorem unchanged_of_finished (h : R.blockFinished c σ seqIds cacheLength r = true)
    (i : Fin R.blockLength) : (R.tail c σ seqIds cacheLength).after r i = R.block σ r i := by
  have hchanged : R.changed c σ seqIds cacheLength r = false := by
    have h' := (Bool.and_eq_true_iff.mp h).2
    simpa using h'
  have hall := List.any_eq_false.mp hchanged i (List.mem_finRange i)
  simpa using hall

theorem unmasked_of_finished (h : R.blockFinished c σ seqIds cacheLength r = true)
    (i : Fin R.blockLength) : R.block σ r i ≠ R.maskId := by
  have hmask : R.hadMask σ r = false := by
    have h' := (Bool.and_eq_true_iff.mp h).1
    simpa using h'
  have hall := List.any_eq_false.mp hmask i (List.mem_finRange i)
  simpa using hall

/-- What a pass over a batch does to the rows. -/
structure Passed (R : LladaRunner Logits Kv S) (c : DecodeCall) (σ : DecodeLoop Kv S)
    (seqIds : List Nat) (cacheLength : Nat) (σ' : DecodeLoop Kv S) : Prop where
  fits : ∀ r ∈ seqIds, σ.decodingStart r + R.blockLength ≤ c.width
  x : σ'.x = putRows seqIds (R.tail c σ seqIds cacheLength).rows σ.x
  decodingStart : σ'.decodingStart =
    putRows seqIds (R.newStart c σ seqIds cacheLength) σ.decodingStart
  kv : σ'.kv = putRows (seqIds.filter (R.writesKv c σ seqIds cacheLength))
    (fun r => writeBlock (σ.kv r) (σ.decodingStart r)
      fun i => some ((R.output σ seqIds cacheLength r).kv i)) σ.kv

theorem decodeBatch_passed (h : R.decodeBatch c σ seqIds cacheLength = .ok σ') :
    R.Passed c σ seqIds cacheLength σ' := by
  unfold decodeBatch at h
  split at h
  · cases h
  · next hwidth =>
    dsimp only at h
    split at h
    · cases h
    · cases h
      refine ⟨fun r hr => ?_,rfl,rfl,rfl⟩
      by_contra hlt
      apply hwidth
      exact List.any_eq_true.mpr ⟨r,hr,by simpa using hlt⟩

section Passed

variable (h : R.Passed c σ seqIds cacheLength σ')
include h

theorem Passed.decodingStart_of_notMem (hr : r ∉ seqIds) :
    σ'.decodingStart r = σ.decodingStart r := by
  rw [h.decodingStart,putRows_of_notMem hr]

/-- A row stays at its block until a pass finishes it. -/
theorem Passed.decodingStart_cases : σ'.decodingStart r = σ.decodingStart r ∨
    r ∈ seqIds ∧ R.blockFinished c σ seqIds cacheLength r = true ∧
      (σ'.decodingStart r = σ.decodingStart r + R.blockLength ∨
        R.earlyStop = true ∧ σ'.decodingStart r = c.totalLength) := by
  by_cases hr : r ∈ seqIds
  · have hstart : σ'.decodingStart r = R.newStart c σ seqIds cacheLength r := by
      rw [h.decodingStart,putRows_of_mem hr]
    unfold newStart at hstart
    dsimp only at hstart
    cases hfin : R.blockFinished c σ seqIds cacheLength r with
    | false =>
      rw [hfin,Bool.and_false,Bool.false_and,if_neg Bool.false_ne_true,
        if_neg Bool.false_ne_true] at hstart
      exact .inl hstart
    | true =>
      right
      refine ⟨hr,rfl,?_⟩
      rw [hfin,if_pos rfl] at hstart
      split at hstart
      · next hstop =>
        right
        refine ⟨?_,hstart⟩
        rw [Bool.and_true] at hstop
        exact (Bool.and_eq_true_iff.mp hstop).1
      · exact .inl hstart
  · exact .inl (h.decodingStart_of_notMem hr)

/-- A pass writes tokens in the active blocks of its rows only. -/
theorem Passed.x_outside (hnd : seqIds.Nodup) (hp : r ∈ seqIds → ¬R.InBlock σ r p) :
    σ'.x r p = σ.x r p := by
  rw [h.x]
  by_cases hr : r ∈ seqIds
  · rw [putRows_of_mem hr]
    exact tail_outside hnd hr (hp hr)
  · rw [putRows_of_notMem hr]

/-- So it is for the KV. -/
theorem Passed.kv_outside (hp : r ∈ seqIds → ¬R.InBlock σ r p) : σ'.kv r p = σ.kv r p := by
  rw [h.kv]
  by_cases hr : r ∈ seqIds.filter (R.writesKv c σ seqIds cacheLength)
  · rw [putRows_of_mem hr]
    exact writeBlock_outside (hp (List.mem_filter.mp hr).1)
  · rw [putRows_of_notMem hr]

/-- A pass that finishes a block leaves its tokens as its forward got them, -/
theorem Passed.x_finished (hr : r ∈ seqIds)
    (hfin : R.blockFinished c σ seqIds cacheLength r = true) (i : Fin R.blockLength) :
    σ'.x r (σ.decodingStart r + i) = R.block σ r i := by
  rw [h.x,putRows_of_mem hr,← tail_after]
  exact unchanged_of_finished hfin i

/-- and its KV as the forward gave it. -/
theorem Passed.kv_finished (hr : r ∈ seqIds)
    (hfin : R.blockFinished c σ seqIds cacheLength r = true) (i : Fin R.blockLength) :
    σ'.kv r (σ.decodingStart r + i) = some ((R.output σ seqIds cacheLength r).kv i) := by
  have hwrites : R.writesKv c σ seqIds cacheLength r = true := by
    unfold writesKv
    cases hgraph : R.usesGraph seqIds.length cacheLength with
    | true =>
      rw [R.graphWrites _ _ hgraph]
      rfl
    | false =>
      rw [hfin]
      exact Bool.or_true _
  rw [h.kv,putRows_of_mem (List.mem_filter.mpr ⟨hr,hwrites⟩)]
  exact writeBlock_inside i

end Passed

end Batch

section Parts

theorem splitParts_flatten (parts seqIds : List Nat) :
    (splitParts parts seqIds).flatten <+: seqIds := by
  induction parts generalizing seqIds with
  | nil => exact List.nil_prefix
  | cons part parts ih =>
    have htail := ih (seqIds.drop part)
    calc (splitParts (part::parts) seqIds).flatten
        = seqIds.take part ++ (splitParts parts (seqIds.drop part)).flatten := rfl
      _ <+: seqIds.take part ++ seqIds.drop part := (List.prefix_append_right_inj _).mpr htail
      _ = seqIds := List.take_append_drop part seqIds

/-- The parts of a batch are rows of it, each at most once. -/
theorem components_flatten (R : LladaRunner Logits Kv S) (seqIds : List Nat) :
    (R.components seqIds).flatten.Sublist seqIds := by
  have hwhole : ([seqIds] : List (List Nat)).flatten = seqIds := by simp
  unfold components
  split
  · rw [hwhole]
  · dsimp only
    split
    · exact (splitParts_flatten _ seqIds).sublist
    · rw [hwhole]

end Parts

section Loop

variable {c : BatchesCall} {ℓ ℓ₁ ℓ' : Looping Kv S} {r p : Nat} {part : List Nat}
  {parts : List (List Nat)}

/-- The batch that is under way holds rows that still decode, each of them once. -/
structure Fits (R : LladaRunner Logits Kv S) (c : BatchesCall) (ℓ : Looping Kv S) : Prop where
  distinct : ℓ.parts.flatten.Nodup
  running : ∀ r ∈ ℓ.parts.flatten, R.mayDecode c ℓ.toDecodeLoop r = true
  flags : ℓ.parts = [] → ∀ r, ℓ.decodingFlag r = true → R.mayDecode c ℓ.toDecodeLoop r = true

theorem fits_enter (σ : DecodeLoop Kv S) : R.Fits c (R.enter c σ) where
  distinct := List.nodup_nil
  running _ hr := by cases hr
  flags _ _ hr := hr

theorem selectDecodeSequences_flagged {rows : List Nat} (hrows : rows.Sublist (flagged c ℓ)) :
    (R.selectDecodeSequences c ℓ rows).Nodup ∧
      ∀ r ∈ R.selectDecodeSequences c ℓ rows, ℓ.decodingFlag r = true := by
  have hnd : (flagged c ℓ).Nodup := List.nodup_range.filter _
  have hperm := R.selector.perm (R.maskNumber c ℓ) rows
  constructor
  · exact (hperm.nodup_iff.mpr (hnd.sublist hrows)).sublist (List.take_sublist _ _)
  · intro r hr
    have hmem := hrows.subset (hperm.mem_iff.mp (List.mem_of_mem_take hr))
    exact (List.mem_filter.mp hmem).2

theorem Fits.selected (h : R.Fits c ℓ) (hparts : ℓ.parts = []) {seqIds : List Nat} {length : Nat}
    (hnd : seqIds.Nodup) (hflags : ∀ r ∈ seqIds, ℓ.decodingFlag r = true) :
    R.Fits c (R.selected ℓ seqIds length) := by
  unfold LladaRunner.selected
  split
  · exact h
  · next hne =>
    have hsub := components_flatten R seqIds
    refine ⟨hnd.sublist hsub,fun r hr => h.flags hparts r (hflags r (hsub.subset hr)),?_⟩
    intro _ r hr
    exact h.flags hparts r hr

theorem Fits.select (h : R.Fits c ℓ) (hparts : ℓ.parts = []) : R.Fits c (R.select c ℓ) := by
  have hround (cacheLength : Nat) : R.Fits c (R.selected { ℓ with currentCacheLength := cacheLength }
      (R.selectDecodeSequences c ℓ (R.current c ℓ cacheLength)) cacheLength) := by
    have hsel : (R.current c ℓ cacheLength).Sublist (flagged c ℓ) := List.filter_sublist
    have h' : R.Fits c { ℓ with currentCacheLength := cacheLength } :=
      ⟨h.distinct,h.running,h.flags⟩
    exact h'.selected hparts (selectDecodeSequences_flagged hsel).1
      (selectDecodeSequences_flagged hsel).2
  have hall (length : Nat) :
      R.Fits c (R.selected ℓ (R.selectDecodeSequences c ℓ (flagged c ℓ)) length) :=
    h.selected hparts (selectDecodeSequences_flagged (List.Sublist.refl _)).1
      (selectDecodeSequences_flagged (List.Sublist.refl _)).2
  unfold LladaRunner.select
  cases R.mode with
  | dense | flashinferDefault => exact hround _
  | flashinferMaxBatch | fa4 => exact hall _

theorem step_select (hparts : ℓ.parts = []) : R.step c ℓ = .ok (R.select c ℓ) := by
  unfold step
  rw [hparts]
  rfl

/-- A step that runs a part of the batch. -/
theorem step_part (hparts : ℓ.parts = part::parts) (h : R.step c ℓ = .ok ℓ') :
    R.Passed c.toDecodeCall ℓ.toDecodeLoop part (R.lengthOf ℓ part) ℓ'.toDecodeLoop ∧
      ℓ'.parts = parts ∧ ∀ r, parts = [] → ℓ'.decodingFlag r = true →
        R.mayDecode c ℓ'.toDecodeLoop r = true := by
  unfold step at h
  rw [hparts] at h
  dsimp only at h
  cases hrun : R.decodeBatch c.toDecodeCall ℓ.toDecodeLoop part (R.lengthOf ℓ part) with
  | error e =>
    rw [hrun] at h
    cases h
  | ok σ =>
    rw [hrun] at h
    cases h
    refine ⟨decodeBatch_passed hrun,rfl,?_⟩
    rintro r rfl hflag
    exact (Bool.and_eq_true_iff.mp hflag).2

theorem Fits.step (h : R.Fits c ℓ) (hstep : R.step c ℓ = .ok ℓ') : R.Fits c ℓ' := by
  cases hparts : ℓ.parts with
  | nil =>
    rw [step_select hparts] at hstep
    cases hstep
    exact h.select hparts
  | cons part parts =>
    obtain ⟨hpassed,hparts',hflags⟩ := step_part hparts hstep
    have hnd := h.distinct
    rw [hparts,List.flatten_cons,List.nodup_append] at hnd
    refine ⟨hparts' ▸ hnd.2.1,fun r hr => ?_,fun hnil r => hflags r (hparts' ▸ hnil)⟩
    rw [hparts'] at hr
    have hr' : r ∉ part := fun hmem => hnd.2.2 r hmem r hr rfl
    have hrun := h.running r (by
      rw [hparts,List.flatten_cons]
      exact List.mem_append_right _ hr)
    unfold mayDecode at hrun ⊢
    rw [hpassed.decodingStart_of_notMem hr']
    exact hrun

end Loop

section Run

variable {c : BatchesCall} {ℓ ℓ₁ ℓ' : Looping Kv S} {r p : Nat}
  {ps later : List (Pass R.blockLength Kv)}

/-- What a step leaves of a row: nothing below its block changes, and its decoding goes on there or
further on. -/
structure Keeps (R : LladaRunner Logits Kv S) (ℓ ℓ' : Looping Kv S) : Prop where
  start_le : ∀ r, ℓ.decodingStart r ≤ ℓ'.decodingStart r
  x : ∀ r p, p < ℓ.decodingStart r → ℓ'.x r p = ℓ.x r p
  kv : ∀ r p, p < ℓ.decodingStart r → ℓ'.kv r p = ℓ.kv r p

theorem Keeps.refl (ℓ : Looping Kv S) : R.Keeps ℓ ℓ :=
  ⟨fun _ => le_rfl,fun _ _ _ => rfl,fun _ _ _ => rfl⟩

theorem Keeps.trans (h : R.Keeps ℓ ℓ₁) (h' : R.Keeps ℓ₁ ℓ') : R.Keeps ℓ ℓ' where
  start_le r := (h.start_le r).trans (h'.start_le r)
  x r p hp := (h'.x r p (hp.trans_le (h.start_le r))).trans (h.x r p hp)
  kv r p hp := (h'.kv r p (hp.trans_le (h.start_le r))).trans (h.kv r p hp)

theorem select_loop : (R.select c ℓ).toDecodeLoop = ℓ.toDecodeLoop := by
  have hselected (ℓ : Looping Kv S) (seqIds : List Nat) (length : Nat) :
      (R.selected ℓ seqIds length).toDecodeLoop = ℓ.toDecodeLoop := by
    unfold LladaRunner.selected
    split <;> rfl
  unfold LladaRunner.select
  split <;> exact hselected _ _ _

theorem Fits.keeps (h : R.Fits c ℓ) (hstep : R.step c ℓ = .ok ℓ') : R.Keeps ℓ ℓ' := by
  cases hparts : ℓ.parts with
  | nil =>
    rw [step_select hparts] at hstep
    cases hstep
    have heq := select_loop (R := R) (c := c) (ℓ := ℓ)
    constructor
    · intro r
      rw [heq]
    · intro r p _
      rw [heq]
    · intro r p _
      rw [heq]
  | cons part parts =>
    obtain ⟨hpassed,_,_⟩ := step_part hparts hstep
    have hnd : part.Nodup := by
      have hnd := h.distinct
      rw [hparts,List.flatten_cons,List.nodup_append] at hnd
      exact hnd.1
    have hbelow {r p : Nat} (hp : p < ℓ.decodingStart r) : ¬R.InBlock ℓ.toDecodeLoop r p :=
      fun hin => absurd hin.1 (by omega)
    refine ⟨fun r => ?_,fun r p hp => ?_,fun r p hp => ?_⟩
    · obtain hsame | ⟨hr,_,hnext | ⟨_,hend⟩⟩ := hpassed.decodingStart_cases (r := r)
      · exact hsame.ge
      · omega
      · have hrun := h.running r (by
          rw [hparts,List.flatten_cons]
          exact List.mem_append_left _ hr)
        have hlt := of_decide_eq_true hrun
        have hbound := c.bounded r
        change _ = c.totalLength at hend
        omega
    · exact hpassed.x_outside hnd fun _ => hbelow hp
    · exact hpassed.kv_outside fun _ => hbelow hp

/-- A row goes through a forward with the block it is decoding, which is within its length. -/
theorem Fits.pass (h : R.Fits c ℓ) {pass : Pass R.blockLength Kv} (hpass : pass ∈ R.passes ℓ) :
    pass.start = ℓ.decodingStart pass.seqId ∧
      pass.start+R.blockLength ≤ c.decodeLengths pass.seqId := by
  unfold passes at hpass
  split at hpass
  · cases hpass
  · next part parts hparts =>
    obtain ⟨r,hr,rfl⟩ := List.mem_map.mp hpass
    have hrun := h.running r (by
      rw [hparts,List.flatten_cons]
      exact List.mem_append_left _ hr)
    exact ⟨rfl,of_decide_eq_true hrun⟩

theorem Runs.fits (h : R.Runs c ℓ ps ℓ') (hfits : R.Fits c ℓ) : R.Fits c ℓ' := by
  induction h with
  | here => exact hfits
  | step _ run _ ih => exact ih (hfits.step run)

theorem Runs.keeps (h : R.Runs c ℓ ps ℓ') (hfits : R.Fits c ℓ) : R.Keeps ℓ ℓ' := by
  induction h with
  | here => exact Keeps.refl _
  | step _ run _ ih => exact (hfits.keeps run).trans (ih (hfits.step run))

/-- No forward of a run goes back behind where a row's decoding stands. -/
theorem Runs.pass (h : R.Runs c ℓ ps ℓ') (hfits : R.Fits c ℓ) {pass : Pass R.blockLength Kv}
    (hpass : pass ∈ ps) : ℓ.decodingStart pass.seqId ≤ pass.start ∧
      pass.start+R.blockLength ≤ c.decodeLengths pass.seqId := by
  induction h with
  | here => cases hpass
  | step _ run _ ih =>
    obtain hpass | hpass := List.mem_append.mp hpass
    · obtain ⟨hstart,hlen⟩ := hfits.pass hpass
      exact ⟨hstart.ge,hlen⟩
    · obtain ⟨hstart,hlen⟩ := ih (hfits.step run) hpass
      exact ⟨((hfits.keeps run).start_le _).trans hstart,hlen⟩

/-- A block is committed by the pass that finished it: its tokens are the ones the forward got, its
KV is what the forward gave, and every later forward of the row is behind it. -/
structure Committed (R : LladaRunner Logits Kv S) (pass : Pass R.blockLength Kv)
    (later : List (Pass R.blockLength Kv)) (ℓ' : Looping Kv S) : Prop where
  tokens : ∀ i : Fin R.blockLength, ℓ'.x pass.seqId (pass.start+i) = pass.block i
  kv : ∀ i : Fin R.blockLength, ℓ'.kv pass.seqId (pass.start+i) = some (pass.kv i)
  last : ∀ q ∈ later, q.seqId = pass.seqId → pass.start+R.blockLength ≤ q.start

/-- In every run of a decode loop the step that takes a row past the block it is decoding commits
that block; an early stop takes the row to the end, and no forward gets it again. Tokens below the
start of a row's decoding never change. -/
theorem decode_commits {σ : DecodeLoop Kv S} (h : R.Runs c (R.enter c σ) ps ℓ)
    (hstep : R.step c ℓ = .ok ℓ₁) (hlater : R.Runs c ℓ₁ later ℓ') :
    (∀ r p, p < ℓ.decodingStart r → ℓ'.x r p = ℓ.x r p) ∧
    ∀ r, ℓ₁.decodingStart r ≠ ℓ.decodingStart r →
      ∃ pass ∈ R.passes ℓ, pass.seqId = r ∧ pass.start = ℓ.decodingStart r ∧
        R.Committed pass later ℓ' ∧ (ℓ₁.decodingStart r = pass.start+R.blockLength ∨
          R.earlyStop = true ∧ ℓ₁.decodingStart r = c.totalLength ∧ ∀ q ∈ later, q.seqId ≠ r) := by
  have hfits := h.fits (fits_enter σ)
  have hfits₁ := hfits.step hstep
  have hkeeps := hfits.keeps hstep
  have hkeeps' := hlater.keeps hfits₁
  refine ⟨(hkeeps.trans hkeeps').x,fun r hmoved => ?_⟩
  cases hparts : ℓ.parts with
  | nil =>
    rw [step_select hparts] at hstep
    cases hstep
    rw [select_loop] at hmoved
    exact absurd rfl hmoved
  | cons part parts =>
    obtain ⟨hpassed,_,_⟩ := step_part hparts hstep
    obtain hsame | ⟨hr,hfin,hgo⟩ := hpassed.decodingStart_cases (r := r)
    · exact absurd hsame hmoved
    · have hrun := of_decide_eq_true (hfits.running r (by
        rw [hparts,List.flatten_cons]
        exact List.mem_append_left _ hr))
      have hbound := c.bounded r
      have hpast : ℓ.decodingStart r + R.blockLength ≤ ℓ₁.decodingStart r := by
        obtain hnext | ⟨_,hend⟩ := hgo
        · exact hnext.ge
        · exact hrun.trans (hbound.trans hend.ge)
      have hpass : (⟨r,ℓ.decodingStart r,R.block ℓ.toDecodeLoop r,
          (R.output ℓ.toDecodeLoop part (R.lengthOf ℓ part) r).kv⟩ : Pass R.blockLength Kv) ∈
            R.passes ℓ := by
        unfold passes
        rw [hparts]
        exact List.mem_map_of_mem hr
      refine ⟨_,hpass,rfl,rfl,⟨fun i => ?_,fun i => ?_,fun q hq hid => ?_⟩,?_⟩
      · have hbelow : ℓ.decodingStart r + i < ℓ₁.decodingStart r := by omega
        rw [hkeeps'.x r _ hbelow]
        exact hpassed.x_finished hr hfin i
      · have hbelow : ℓ.decodingStart r + i < ℓ₁.decodingStart r := by omega
        rw [hkeeps'.kv r _ hbelow]
        exact hpassed.kv_finished hr hfin i
      · have hq' := (hlater.pass hfits₁ hq).1
        rw [hid] at hq'
        exact hpast.trans hq'
      · obtain hnext | ⟨hearly,hend⟩ := hgo
        · exact .inl hnext
        · right
          refine ⟨hearly,hend,fun q hq hid => ?_⟩
          obtain ⟨hq₁,hq₂⟩ := hlater.pass hfits₁ hq
          have hpos := R.blockLength_pos
          rw [hid] at hq₁ hq₂
          change _ = c.totalLength at hend
          omega

/-- Some steps of the loop. -/
def runFor (R : LladaRunner Logits Kv S) (c : BatchesCall) :
    Nat → Looping Kv S → Option (List (Pass R.blockLength Kv) × Looping Kv S)
  | 0,ℓ => some ([],ℓ)
  | n+1,ℓ =>
    match done c ℓ,R.step c ℓ with
    | false,.ok ℓ₁ => (runFor R c n ℓ₁).map fun x => (R.passes ℓ ++ x.1,x.2)
    | _,_ => none

theorem runs_of_runFor {n : Nat} (h : runFor R c n ℓ = some (ps,ℓ')) : R.Runs c ℓ ps ℓ' := by
  induction n generalizing ℓ ps with
  | zero =>
    cases h
    exact .here
  | succ n ih =>
    unfold runFor at h
    split at h
    · next go run =>
      obtain ⟨⟨ps',ℓ''⟩,hrest,heq⟩ := Option.map_eq_some_iff.mp h
      cases heq
      exact .step go run (ih hrest)
    · cases h

/-- Blocks of two tokens, of which a model always predicts the same; its KV of a token is the token. -/
def smallRunner (mode : DecodeMode) (earlyStop : Bool) (token : Token) :
    LladaRunner (Fin 2 → Fin 4 → Nat) Token (Nat → Unit) where
  blockLength := 2
  blockLength_pos := Nat.two_pos
  miniBatchSize := 1
  miniBatchSize_pos := Nat.one_pos
  maskId := 0
  eosIds := [3]
  earlyStop
  mode
  forwardWrites := mode == .fa4
  graphWrites _ _ h := by cases h
  selector := .byMaskNumber
  forward _ rows r :=
    { logits := fun _ v => if (v : Token) = token then 1 else 0
      kv := fun i => ((rows.find? fun row => row.seqId == r).map fun row => row.block i).getD 0 }
  decoder := ThresholdParallelDecoder.decoder ⟨0,0,fun c => c⟩ fun l v => l v

/-- Two rows of four tokens that are all to be generated. -/
def smallCall : BatchesCall :=
  Canvas.call (smallRunner .dense false 2).toRunnerConfig ⟨0,[(0,4),(0,4)],by decide⟩ false

def maskedLoop : DecodeLoop Token (Nat → Unit) where
  x _ _ := 0
  decodingStart _ := 0
  kv _ _ := none
  editBudget := { maxPostSteps := 16, maxBlockIters := 19 }
  rowState _ := ()

/-- The next state of a loop that does not raise. -/
def next (R : LladaRunner Logits Kv S) (c : BatchesCall) (ℓ : Looping Kv S) : Option (Looping Kv S) :=
  match R.step c ℓ with
  | .ok ℓ₁ => some ℓ₁
  | .error _ => none

theorem step_of_next (h : R.next c ℓ = some ℓ₁) : R.step c ℓ = .ok ℓ₁ := by
  unfold next at h
  split at h
  · next run =>
    cases h
    exact run
  · cases h

/-- Two rows that take turns: the first one's block is committed and stays. -/
theorem decode_commits_turns : ∃ ps ℓ ℓ₁ later ℓ',
    (smallRunner .dense false 2).Runs smallCall
      ((smallRunner .dense false 2).enter smallCall maskedLoop) ps ℓ ∧
    (smallRunner .dense false 2).step smallCall ℓ = .ok ℓ₁ ∧
    (smallRunner .dense false 2).Runs smallCall ℓ₁ later ℓ' ∧ later.length = 2 ∧
    ∃ pass ∈ (smallRunner .dense false 2).passes ℓ, pass.seqId = 0 ∧ pass.start = 0 ∧
      (smallRunner .dense false 2).Committed pass later ℓ' := by
  obtain ⟨⟨ps,ℓ⟩,hrun,hstart,ℓ₁,hnext,hmoved,⟨later,ℓ'⟩,hlater,htwo⟩ : ∃ x,
      runFor (smallRunner .dense false 2) smallCall 5
        ((smallRunner .dense false 2).enter smallCall maskedLoop) = some x ∧
      x.2.decodingStart 0 = 0 ∧ ∃ y, next (smallRunner .dense false 2) smallCall x.2 = some y ∧
        y.decodingStart 0 ≠ x.2.decodingStart 0 ∧
        ∃ z, runFor (smallRunner .dense false 2) smallCall 4 y = some z ∧ z.1.length = 2 := by
    decide
  have hcommits := decode_commits (runs_of_runFor hrun) (step_of_next hnext) (runs_of_runFor hlater)
  obtain ⟨pass,hpass,hid,hzero,hcommitted,_⟩ := hcommits.2 0 hmoved
  exact ⟨ps,ℓ,ℓ₁,later,ℓ',runs_of_runFor hrun,step_of_next hnext,runs_of_runFor hlater,htwo,
    pass,hpass,hid,hzero.trans hstart,hcommitted⟩

/-- An early stop takes a row past a block of masks that no forward of the step got. -/
theorem earlyStop_skips : ∃ ps ℓ ℓ₁,
    (smallRunner .dense true 3).Runs smallCall
      ((smallRunner .dense true 3).enter smallCall maskedLoop) ps ℓ ∧
    (smallRunner .dense true 3).step smallCall ℓ = .ok ℓ₁ ∧
    ℓ.decodingStart 0 ≤ 2 ∧ 2+2 ≤ ℓ₁.decodingStart 0 ∧ ℓ₁.x 0 2 = 0 ∧ ℓ₁.kv 0 2 = none ∧
    ∀ pass ∈ (smallRunner .dense true 3).passes ℓ, pass.seqId = 0 → pass.start ≠ 2 := by
  obtain ⟨⟨ps,ℓ⟩,hrun,ℓ₁,hnext,hskips⟩ : ∃ x,
      runFor (smallRunner .dense true 3) smallCall 5
        ((smallRunner .dense true 3).enter smallCall maskedLoop) = some x ∧
      ∃ y, next (smallRunner .dense true 3) smallCall x.2 = some y ∧
        x.2.decodingStart 0 ≤ 2 ∧ 2+2 ≤ y.decodingStart 0 ∧ y.x 0 2 = 0 ∧ y.kv 0 2 = none ∧
        ∀ pass ∈ (smallRunner .dense true 3).passes x.2, pass.seqId = 0 → pass.start ≠ 2 := by
    decide
  exact ⟨ps,ℓ,ℓ₁,runs_of_runFor hrun,step_of_next hnext,hskips⟩

end Run

end LladaRunner

end FluxServe.Llada
