import FluxServe.Llada.Transfer
import Mathlib.Order.Lattice.Nat

namespace FluxServe.Llada

open Engine

variable {L V : Nat} [NeZero V] {Logit Conf : Type} [LinearOrder Logit] [OrderBot Logit]
  [LinearOrder Conf]

/-- A row of a pass: its logits, where its block starts, and whether it may be edited. -/
structure RowPass (L V : Nat) (Logit : Type) where
  seqId : Nat
  logits : Fin L → Fin V → Logit
  blockStart : Nat
  allowEdit : Bool

def RowPass.decoderRow (q : RowPass L V Logit) (promptLengths : Nat → Nat) (x : Nat → Nat → Token) :
    DecoderRow (Fin L → Fin V → Logit) where
  seqId := q.seqId
  logits := q.logits
  blockStart := q.blockStart
  row := x q.seqId
  promptLength := promptLengths q.seqId
  allowEdit := q.allowEdit

namespace JointThresholdDecoder

variable (d : JointThresholdDecoder Conf) (softmax : (Fin V → Logit) → Fin V → Conf)
  (promptLengths : Nat → Nat)

section Passes

variable [NeZero L]

/-- The token array after a pass over a batch. -/
def pass (x : Nat → Nat → Token) (batch : List (RowPass L V Logit)) : Nat → Nat → Token :=
  putRows (batch.map RowPass.seqId)
    ((d.decoder softmax).batchDecode (batch.map fun q => q.decoderRow promptLengths x)
      fun _ => ()).1 x

/-- The token array after passes one after the other. -/
def passes (x : Nat → Nat → Token) (batches : List (List (RowPass L V Logit))) :
    Nat → Nat → Token :=
  batches.foldl (d.pass softmax promptLengths) x

end Passes

section Update

variable {d softmax} {row : DecoderRow (Fin L → Fin V → Logit)} {block : Fin L → Token} {i : Fin L}

/-- Neither path writes a prompt token that is no mask. -/
theorem updated_prompt (hprompt : row.blockStart + i < row.promptLength) (hi : block i ≠ d.maskId) :
    d.updated softmax row block i = block i := by
  have hm2t : transferred d.slack d.threshold (d.confidence softmax row block) i = false := by
    cases htransfer : transferred d.slack d.threshold (d.confidence softmax row block) i with
    | false => rfl
    | true =>
      apply absurd _ (transferred_candidate htransfer)
      unfold confidence
      rw [if_neg hi]
  have ht2t : d.t2t softmax row block i = false := by
    have hin : promptUpTo L ((row.promptLength : Int)-row.blockStart) i = true :=
      decide_eq_true (by omega)
    simp [t2t,hin]
  unfold updated
  rw [hm2t,ht2t,Bool.or_false,if_neg Bool.false_ne_true]

/-- Where all positions get the same logits, every mask is transferred at once. -/
theorem updated_constant (hslack : ∀ c, d.slack c ≤ c) {f : Fin V → Logit}
    (hlogits : ∀ i, row.logits i = f) (hi : block i = d.maskId) :
    d.updated softmax row block i = ((d.x0 row i : Nat) : Token) := by
  have hprob (j : Fin L) : d.x0Prob softmax row j = d.x0Prob softmax row i := by
    simp only [x0Prob,x0,maskedLogits,hlogits]
  have hconf : d.confidence softmax row block i = (d.x0Prob softmax row i : WithBot Conf) := by
    unfold confidence
    rw [if_pos hi]
  have htransfer : transferred d.slack d.threshold (d.confidence softmax row block) i = true := by
    apply transferred_of_greatest hslack
    · rw [hconf]
      exact WithBot.coe_ne_bot
    · intro j
      rw [hconf]
      unfold confidence
      split
      · rw [hprob]
      · exact bot_le
  unfold updated
  rw [htransfer,Bool.true_or,if_pos rfl]

/-- The candidate is not the mask where some other column is finite. -/
theorem x0_ne_mask (h : ∃ v, v ≠ LevenshteinJointDecoder.column V d.maskId ∧ row.logits i v ≠ ⊥) :
    ((d.x0 row i : Nat) : Token) ≠ d.maskId := by
  obtain ⟨v,hv,hfinite⟩ := h
  apply ne_of_ne_column
  apply (suppress_ne_bot (f := row.logits i) _).1
  intro hbot
  have hle := le_argmax (d.maskedLogits row i) v
  change d.maskedLogits row i (argmax (d.maskedLogits row i)) = ⊥ at hbot
  rw [hbot,le_bot_iff,maskedLogits,suppress,Function.update_of_ne hv] at hle
  exact hfinite hle

end Update

section Protection

variable [NeZero L] {d softmax promptLengths} {x : Nat → Nat → Token}
  {batch : List (RowPass L V Logit)} {q : RowPass L V Logit} {r p : Nat}

theorem pass_of_mem (hnd : (batch.map RowPass.seqId).Nodup) (hq : q ∈ batch) :
    d.pass softmax promptLengths x batch q.seqId =
      writeBlock (x q.seqId) q.blockStart (d.updated softmax (q.decoderRow promptLengths x)
        (gatherBlock L (x q.seqId) q.blockStart)) := by
  have hids : (batch.map fun q => q.decoderRow promptLengths x).map DecoderRow.seqId =
      batch.map RowPass.seqId := by
    rw [List.map_map]
    rfl
  have hfind := findRow_of_mem (hids.symm ▸ hnd)
    (List.mem_map_of_mem (f := fun q => q.decoderRow promptLengths x) hq)
  have hfind' : findRow (batch.map fun q => q.decoderRow promptLengths x) q.seqId =
    some (q.decoderRow promptLengths x) := hfind
  unfold pass
  rw [putRows_of_mem (List.mem_map_of_mem hq)]
  funext p
  simp only [decoder,BlockDecoder.ofRows,stepRow,hfind',Option.map_some,Option.getD_some]
  rfl

theorem pass_of_notMem (hr : r ∉ batch.map RowPass.seqId) :
    d.pass softmax promptLengths x batch r = x r := putRows_of_notMem hr

theorem pass_prompt (hnd : (batch.map RowPass.seqId).Nodup) (hp : p < promptLengths r)
    (h : ∀ q ∈ batch, q.seqId = r → q.blockStart ≤ p → p < q.blockStart+L → x r p ≠ d.maskId) :
    d.pass softmax promptLengths x batch r p = x r p := by
  by_cases hr : r ∈ batch.map RowPass.seqId
  · obtain ⟨q,hq,rfl⟩ := List.mem_map.mp hr
    rw [pass_of_mem hnd hq]
    by_cases hin : q.blockStart ≤ p ∧ p < q.blockStart+L
    · have hmask := h q hq rfl hin.1 hin.2
      have hi : p-q.blockStart < L := by omega
      have hpos : q.blockStart+(p-q.blockStart) = p := by omega
      have hgather : gatherBlock L (x q.seqId) q.blockStart ⟨p-q.blockStart,hi⟩ = x q.seqId p :=
        congrArg (x q.seqId) hpos
      unfold writeBlock
      rw [dif_pos hin,updated_prompt _ (hgather ▸ hmask),hgather]
      exact hpos.symm ▸ hp
    · exact writeBlock_outside hin
  · rw [pass_of_notMem hr]

/-- The prompts stay as they are in passes over blocks that begin at these places, whatever the
logits are and whichever rows may be edited, if and only if none of the blocks holds a mask below
the prompt length. -/
theorem passes_prompt_iff [Nontrivial Logit] (hslack : ∀ c, d.slack c ≤ c) (hcolumns : 1 < V)
    (starts : Nat → Nat → Prop) :
    (∀ batches : List (List (RowPass L V Logit)),
      (∀ batch ∈ batches, (batch.map RowPass.seqId).Nodup ∧
        ∀ q ∈ batch, starts q.seqId q.blockStart) →
      ∀ r p, p < promptLengths r → d.passes softmax promptLengths x batches r p = x r p) ↔
    ∀ r b p, starts r b → b ≤ p → p < b+L → p < promptLengths r → x r p ≠ d.maskId := by
  constructor
  · intro h r b p hstart hge hlt hp hmask
    obtain ⟨a,ha⟩ := exists_ne (⊥ : Logit)
    -- every column but the mask's is as likely as the others
    let q : RowPass L V Logit := ⟨r,fun _ _ => a,b,false⟩
    have hmem : q ∈ [q] := List.mem_cons_self
    have hnd : ([q].map RowPass.seqId).Nodup := List.nodup_singleton _
    have hkept := h [[q]] (by simpa [q] using hstart) r p hp
    have hwritten : d.passes softmax promptLengths x [[q]] r p =
        writeBlock (x r) b (d.updated softmax (q.decoderRow promptLengths x)
          (gatherBlock L (x r) b)) p :=
      congrFun (pass_of_mem hnd hmem) p
    have hi : p-b < L := by omega
    have hpos : b+(p-b) = p := by omega
    have hgather : gatherBlock L (x r) b ⟨p-b,hi⟩ = d.maskId :=
      (congrArg (x r) hpos).trans hmask
    rw [hwritten,writeBlock,dif_pos ⟨hge,hlt⟩,
      updated_constant hslack (f := fun _ => a) (fun _ => rfl) hgather,hmask] at hkept
    have hother : ∃ v : Fin V, v ≠ LevenshteinJointDecoder.column V d.maskId :=
      have : Nontrivial (Fin V) := Fin.nontrivial_iff_two_le.mpr hcolumns
      exists_ne _
    obtain ⟨v,hv⟩ := hother
    exact absurd hkept (x0_ne_mask ⟨v,hv,ha⟩)
  · intro h batches hbatches r p hp
    have hrun (batches : List (List (RowPass L V Logit))) (y : Nat → Nat → Token)
        (hy : y r p = x r p) (hbatches : ∀ batch ∈ batches, (batch.map RowPass.seqId).Nodup ∧
          ∀ q ∈ batch, starts q.seqId q.blockStart) :
        d.passes softmax promptLengths y batches r p = x r p := by
      induction batches generalizing y with
      | nil => exact hy
      | cons batch batches ih =>
        obtain ⟨hnd,hstarts⟩ := hbatches batch List.mem_cons_self
        have hpass : d.pass softmax promptLengths y batch r p = y r p := by
          apply pass_prompt hnd hp
          intro q hq hr hge hlt
          rw [hy]
          exact h r q.blockStart p (hr ▸ hstarts q hq) hge hlt hp
        exact ih _ (hpass.trans hy) fun batch hmem => hbatches batch (List.mem_cons_of_mem _ hmem)
    exact hrun batches x rfl hbatches

end Protection

end JointThresholdDecoder

/-- Two columns of which the second is the mask. -/
def maskSecond : JointThresholdDecoder Nat := ⟨1,0,0,fun c => c⟩

/-- In a prompt without masks a pass over an editable block changes no prompt token. -/
theorem maskSecond_keeps_prompt : maskSecond.passes (fun l v => l v) (fun _ => 1) (fun _ p => 2*p)
    [[(⟨0,fun _ _ => 3,0,true⟩ : RowPass 2 2 Nat)]] 0 0 = 0 := by
  have hkept : ∀ batches : List (List (RowPass 2 2 Nat)),
      (∀ batch ∈ batches, (batch.map RowPass.seqId).Nodup ∧ ∀ q ∈ batch, q.blockStart = 0) →
      ∀ r p, p < 1 → maskSecond.passes (fun l v => l v) (fun _ => 1) (fun _ p => 2*p) batches r p =
        2*p := by
    apply (JointThresholdDecoder.passes_prompt_iff (d := maskSecond) (x := fun _ p => 2*p)
      (fun _ => le_rfl) (by decide) fun _ b => b = 0).mpr
    intro r b p _ _ _ hp
    obtain rfl : p = 0 := Nat.lt_one_iff.mp hp
    decide
  exact hkept [[⟨0,fun _ _ => 3,0,true⟩]] (by simp) 0 0 Nat.one_pos

/-- A prompt token that is the mask is overwritten. -/
theorem maskSecond_overwrites_prompt :
    maskSecond.passes (fun l v => l v) (fun _ => 1) (fun _ _ => 1)
      [[(⟨0,fun _ _ => 3,0,false⟩ : RowPass 2 2 Nat)]] 0 0 ≠ (1 : Token) := by
  decide

end FluxServe.Llada
