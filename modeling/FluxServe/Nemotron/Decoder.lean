import FluxServe.Fsm.States
import Mathlib.Data.List.MinMax
import Mathlib.Order.WithBot

namespace FluxServe.Engine

/-- What the Nemotron runners raise. -/
inductive NemotronFault
  | emptyPrompt
  | contextLimit (requested limit : Nat)
  | blockBudgetExceeded (remaining steps prefixLength : Nat)
  | draftLeftMasks (remaining calls prefixLength : Nat)
  | indexOutOfRange
  | emptyReduction
  | prefillLengths
  | noSeed (rid : RequestId)
  deriving DecidableEq, Repr

/-- `normalize_eos_ids` and the settings of `NemotronThresholdDecoder`, over the confidences that
the model's softmax gives. -/
structure ThresholdDecoder (Confidence : Type) where
  threshold : Confidence
  maskId : Token
  eosIds : List Token

namespace ThresholdDecoder

variable {Confidence Logits : Type} [LinearOrder Confidence] (d : ThresholdDecoder Confidence)

def hasMasks (block : List Token) : Bool := decide (d.maskId ∈ block)

def isEos (t : Token) : Bool := decide (t ∈ d.eosIds)

/-- An end of sequence exists and nothing before the first of them is still masked. -/
def eosIsTerminal (block : List Token) : Bool :=
  block.any d.isEos && !d.hasMasks (block.takeWhile fun t => !d.isEos t)

/-- The index of the first end of sequence, or the length if there is none. The minimum over a row
of no tokens raises. -/
def firstEosIndex (tokens : List Token) : Except NemotronFault Nat :=
  if tokens.isEmpty then throw .emptyReduction else pure (tokens.findIdx d.isEos)

/-- The confidence of a masked position; an unmasked one ranks below every other. -/
def confidenceAt (confidence : Logits → Confidence) (logits : List Logits) (block : List Token)
    (i : Nat) : WithBot Confidence :=
  match logits[i]?,block[i]? with
  | some l,some t => if t = d.maskId then confidence l else ⊥
  | _,_ => ⊥

/-- `select`: which masked positions a denoising step commits, those at or above the threshold
and the first of the highest confidence. -/
def transfer (confidence : Logits → Confidence) (logits : List Logits) (block : List Token)
    (i : Nat) : Bool :=
  let best := (List.range block.length).argmax (d.confidenceAt confidence logits block)
  decide (d.threshold ≤ d.confidenceAt confidence logits block i) || decide (best = some i)

/-- `step`: one denoising step on a block. -/
def step (predict : Logits → Token) (confidence : Logits → Confidence) (logits : List Logits)
    (block : List Token) : List Token :=
  block.mapIdx fun i t =>
    match logits[i]? with
    | some l => if t = d.maskId ∧ d.transfer confidence logits block i then predict l else t
    | none => t

variable {predict : Logits → Token} {confidence : Logits → Confidence} {logits : List Logits}
  {block : List Token}

@[simp] theorem step_length : (d.step predict confidence logits block).length = block.length := by
  simp [step]

/-- A step leaves what is decided. -/
theorem step_decided {i : Nat} {t : Token} (h : block[i]? = some t) (ht : t ≠ d.maskId) :
    (d.step predict confidence logits block)[i]? = some t := by
  simp only [step,List.getElem?_mapIdx,h,Option.map_some,ht,false_and,if_false]
  split <;> rfl

theorem step_of_resolved (h : d.hasMasks block = false) :
    d.step predict confidence logits block = block := by
  apply List.ext_getElem? fun i => ?_
  cases hi : block[i]? with
  | none => rw [List.getElem?_eq_none_iff] at hi ⊢; simpa using hi
  | some t =>
    refine d.step_decided hi fun ht => ?_
    simp only [hasMasks,decide_eq_false_iff_not] at h
    exact h (ht ▸ List.mem_of_getElem? hi)

end ThresholdDecoder

/-- The thinking budget, when it is set: the tokens allowed and the end marker. -/
structure ThinkingBudget where
  setting : Option (Nat × Token) := none
  deriving DecidableEq, Repr

namespace ThinkingBudget

def enabled (b : ThinkingBudget) : Bool := b.setting.isSome

/-- Has the marker already been produced? Then nothing is forced. -/
def satisfied (b : ThinkingBudget) (generated : List Token) : Bool :=
  match b.setting with
  | none => true
  | some (_,marker) => decide (marker ∈ generated)

/-- `block_injection_offset`: where in the next block the limit falls. -/
def blockInjectionOffset (b : ThinkingBudget) (tokensBefore blockLength : Nat) : Option Nat :=
  match b.setting with
  | none => none
  | some (limit,_) => if tokensBefore+blockLength ≤ limit then none else some (limit-tokensBefore)

def forceNextToken (b : ThinkingBudget) (generatedCount : Nat) : Bool :=
  match b.setting with
  | none => false
  | some (limit,_) => decide (limit < generatedCount)

/-- The marker, where self-speculation has to place it after these tokens. -/
def due (b : ThinkingBudget) (generated : List Token) : Option Token :=
  if b.forceNextToken generated.length && !b.satisfied generated then b.setting.map Prod.snd
  else none

/-- `_apply_thinking_budget`: the marker in a block of the diffusion runners, if it is due. -/
def apply (b : ThinkingBudget) (block produced : List Token) : List Token :=
  if !b.enabled || b.satisfied produced || b.satisfied block then block
  else
    match b.blockInjectionOffset produced.length block.length,b.setting with
    | some offset,some (_,marker) => block.set offset marker
    | _,_ => block

@[simp] theorem apply_length (b : ThinkingBudget) (block produced : List Token) :
    (b.apply block produced).length = block.length := by
  unfold apply
  split
  · rfl
  · split <;> simp

@[simp] theorem due_disabled (generated : List Token) :
    (ThinkingBudget.mk none).due generated = none := rfl

end ThinkingBudget

end FluxServe.Engine
