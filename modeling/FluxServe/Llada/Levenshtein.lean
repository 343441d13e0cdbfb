import FluxServe.Llada.EditScan
import Mathlib.Data.List.MinMax
import Mathlib.Order.WithBot

namespace FluxServe.Llada

open Engine

section Reductions

variable {n : Nat} {α : Type} [LinearOrder α]

/-- The lowest index of a greatest value. -/
def argmax [NeZero n] (f : Fin n → α) : Fin n := ((List.finRange n).argmax f).getD 0

/-- The lowest index of a least value. -/
def argmin [NeZero n] (f : Fin n → α) : Fin n := ((List.finRange n).argmin f).getD 0

def count (f : Fin n → Bool) : Nat := (List.finRange n).countP f

def any (f : Fin n → Bool) : Bool := (List.finRange n).any f

def suppress [OrderBot α] (t : Fin n) (f : Fin n → α) : Fin n → α := Function.update f t ⊥

/-- The place of each position when they are sorted, the greatest value first. -/
def rank (f : Fin n → α) (i : Fin n) : Nat :=
  ((List.finRange n).mergeSort fun i j => decide (f j ≤ f i)).idxOf i

end Reductions

/-- The settings of `LevenshteinJointDecoder` that its constructor accepts. The ids are columns of
the logits. -/
structure LevenshteinJointDecoder (V : Nat) (Conf : Type) extends EditIds where
  threshold : Conf
  editingThreshold : Conf
  steps : Nat := 32
  maxPostSteps : Nat := 16
  maxStepsPerBlock : Nat := 1000
  steps_pos : 1 ≤ steps
  two_le_maxStepsPerBlock : 2 ≤ maxStepsPerBlock
  maskColumn : -(V : Int) ≤ maskId ∧ maskId < V
  deleteColumn : -(V : Int) ≤ deleteTokenId ∧ deleteTokenId < V
  splitColumn : -(V : Int) ≤ splitTokenId ∧ splitTokenId < V

/-- A row of `LevenshteinRowState`. -/
structure LevenshteinRowState (L history : Nat) where
  isOriginalMask : Fin L → Bool
  initialMaskCount : Nat
  stepId : Nat
  postSteps : Nat
  finalized : Bool
  blockStart : Int
  seenBlocks : Fin history → Fin L → Token
  seenCount : Nat

/-- A row of the arguments of `levenshtein_graph_step`, and the orders in which its scatters write. -/
structure StepInput (L V history : Nat) (Logit : Type) extends LevenshteinRowState L history where
  logits : Fin L → Fin V → Logit
  xBlock : Fin L → Token
  promptPositions : Fin L → Bool
  order : ScatterOrder L := {}

/-- A row of `levenshtein_graph_step`'s results. -/
structure StepResult (L : Nat) where
  newBlock : Fin L → Token
  isOriginalMask : Fin L → Bool
  stepId : Nat
  postSteps : Nat
  finalized : Bool
  seenCount : Nat
  blockResult : Fin L → Token
  historyAppend : Bool
  hadMask : Bool
  changed : Bool
  blockFinished : Bool

namespace LevenshteinJointDecoder

variable {L V : Nat} [NeZero L] [NeZero V] {Logit Conf : Type} [LinearOrder Logit]
  [OrderBot Logit] [LinearOrder Conf]

/-- A row's history holds a block for each iteration that it can run. -/
def maxBlockIters (d : LevenshteinJointDecoder V Conf) : Nat := d.maxStepsPerBlock+1

/-- An index into the columns; a negative one counts from the end. -/
def column (V : Nat) [NeZero V] (id : Token) : Fin V := Fin.ofNat V (id % V).toNat

section Step

variable (d : LevenshteinJointDecoder V Conf) (softmax : (Fin V → Logit) → Fin V → Conf)
  (s : StepInput L V d.maxBlockIters Logit)

def maskIndex (i : Fin L) : Bool := s.xBlock i == d.maskId && !s.promptPositions i

def originalCnt : Nat := count fun i => d.maskIndex s i && s.isOriginalMask i

def newCnt : Nat := count (d.maskIndex s) - d.originalCnt s

/-- The counter of passes without an original mask, after the top of the iteration. -/
def postSteps : Nat :=
  if s.finalized then s.postSteps else if d.originalCnt s = 0 then s.postSteps+1 else 0

/-- The logits without the mask. -/
def maskedLogits (i : Fin L) : Fin V → Logit := suppress (column V d.maskId) (s.logits i)

/-- The greedy candidate of a position. -/
def top1 (i : Fin L) : Fin V := argmax (d.maskedLogits s i)

def x0Prob (i : Fin L) : Conf := softmax (d.maskedLogits s i) (d.top1 s i)

def top2 (i : Fin L) : Fin V := argmax (suppress (d.top1 s i) (d.maskedLogits s i))

/-- The best candidate that is no edit token. -/
def altX0 (i : Fin L) : Fin V :=
  argmax (suppress (column V d.splitTokenId)
    (suppress (column V d.deleteTokenId) (d.maskedLogits s i)))

def maskConf (i : Fin L) : WithBot Conf :=
  if d.maskIndex s i then (d.x0Prob softmax s i : WithBot Conf) else ⊥

def highConf (i : Fin L) : Bool :=
  decide ((d.threshold : WithBot Conf) < d.maskConf softmax s i) && d.maskIndex s i

/-- The floor of the transfer schedule. -/
def numNeed : Nat :=
  s.initialMaskCount/d.steps + (if s.stepId < s.initialMaskCount % d.steps then 1 else 0) +
    d.newCnt s

/-- The masks that are to be replaced, before the final round is known. -/
def transfers (i : Fin L) : Bool :=
  let take := min (d.numNeed s) (count (d.maskIndex s))
  let byRank := decide (rank (d.maskConf softmax s) i < take)
  let m2t := if d.numNeed s ≤ count (d.highConf softmax s) then d.highConf softmax s i else byRank
  let m2t := if d.steps ≤ s.stepId then d.maskIndex s i else m2t
  m2t && !s.finalized && any (d.maskIndex s)

def t2t (i : Fin L) : Bool :=
  let editable := !d.maskIndex s i && !s.promptPositions i
  let conf := if editable then (d.x0Prob softmax s i : WithBot Conf) else ⊥
  decide ((d.editingThreshold : WithBot Conf) < conf) && editable &&
    decide (((d.top1 s i : Nat) : Token) ≠ s.xBlock i)

def finalRound : Bool :=
  let remainingOriginal (i : Fin L) := d.maskIndex s i && s.isOriginalMask i
  let spent :=
    if 0 < d.maxPostSteps then decide (d.maxPostSteps ≤ d.postSteps s)
    else any remainingOriginal &&
      decide (count (fun i => remainingOriginal i && !d.transfers softmax s i) = 0)
  (spent || decide (d.maxStepsPerBlock-1 ≤ s.stepId)) && !s.finalized

/-- The masks that are replaced. -/
def m2t (i : Fin L) : Bool :=
  if d.finalRound softmax s then d.maskIndex s i else d.transfers softmax s i

def x0 (i : Fin L) : Token :=
  let top1 : Token := (d.top1 s i : Nat)
  let isEditToken := decide (top1 = d.deleteTokenId) || decide (top1 = d.splitTokenId)
  if d.finalRound softmax s && (d.m2t softmax s i || d.t2t softmax s i) && isEditToken then
    (d.altX0 s i : Nat)
  else top1

/-- The block once the writes are applied. -/
def written (i : Fin L) : Token :=
  if (d.m2t softmax s i || d.t2t softmax s i) && !s.finalized then d.x0 softmax s i else s.xBlock i

/-- `block_seen`. -/
def blockSeen {history : Nat} (blk : Fin L → Token) (seenBlocks : Fin history → Fin L → Token)
    (seenCount : Nat) : Bool :=
  (List.finRange history).any fun slot =>
    decide (slot < seenCount) && (List.finRange L).all fun i => seenBlocks slot i == blk i

/-- The changed position with the least confidence. -/
def escapePos (blk : Fin L → Token) : Fin L :=
  argmin fun i => if blk i != s.xBlock i then (d.x0Prob softmax s i : WithTop Conf) else ⊤

/-- Whether a round of the escape resamples. -/
def resamples (blk : Fin L → Token) : Bool :=
  let escapable := !s.finalized && !d.finalRound softmax s
  blockSeen blk s.seenBlocks s.seenCount && escapable && any fun i => blk i != s.xBlock i

/-- One round of the anti-loop escape. -/
def escapeRound (blk : Fin L → Token) : Fin L → Token :=
  let pos := d.escapePos softmax s blk
  let top1 : Token := (d.top1 s pos : Nat)
  let replacement : Token := if blk pos = top1 then (d.top2 s pos : Nat) else top1
  Function.update blk pos (if d.resamples softmax s blk then replacement else blk pos)

/-- The block before its edit tokens are consumed; the escape has five rounds. -/
def blockResult : Fin L → Token := (d.escapeRound softmax s)^[5] (d.written softmax s)

/-- `levenshtein_graph_step`, every operation of which stays inside its row. -/
def graphStep : StepResult L :=
  let blk := d.blockResult softmax s
  let edited := applyEditRow d.toEditIds blk s.xBlock s.isOriginalMask s.promptPositions s.order
  let newBlock := if s.finalized then blk else edited.1
  let hadMask := any fun i => s.xBlock i == d.maskId
  let changed := any fun i => newBlock i != s.xBlock i
  { newBlock
    isOriginalMask := if s.finalized then s.isOriginalMask else edited.2
    stepId := s.stepId + (if s.finalized then 0 else 1)
    postSteps := d.postSteps s
    finalized := s.finalized || d.finalRound softmax s
    seenCount := s.seenCount
    blockResult := blk
    historyAppend := !s.finalized
    hadMask
    changed
    blockFinished := !hadMask && !changed }

end Step

section Rows

variable (d : LevenshteinJointDecoder V Conf)

/-- `_begin_block_rows` for a row. -/
def beginBlockRow (s : LevenshteinRowState L d.maxBlockIters) (blockStart : Int)
    (xBlock : Fin L → Token) : LevenshteinRowState L d.maxBlockIters :=
  if s.blockStart = blockStart then s
  else
    let isMask (i : Fin L) := xBlock i == d.maskId
    { s with
      isOriginalMask := isMask
      initialMaskCount := count isMask
      stepId := 0
      postSteps := 0
      finalized := count isMask == 0
      blockStart
      seenCount := 0 }

/-- `commit_row_state` for a row. -/
def commitRowState (s : LevenshteinRowState L d.maxBlockIters) (step : StepResult L) :
    LevenshteinRowState L d.maxBlockIters :=
  let slot := min step.seenCount (d.maxBlockIters-1)
  { s with
    isOriginalMask := step.isOriginalMask
    stepId := step.stepId
    postSteps := step.postSteps
    finalized := step.finalized
    seenBlocks := fun i => if i = slot ∧ step.historyAppend then step.blockResult else s.seenBlocks i
    seenCount := min (step.seenCount + step.historyAppend.toNat) d.maxBlockIters }

end Rows

end LevenshteinJointDecoder

end FluxServe.Llada
