import FluxServe.Resource.Types
import Mathlib.Data.List.FinRange

namespace FluxServe.Gemma

/-- The settings that decide how long a canvas is denoised. -/
structure DiffusionGemmaSamplingConfig where
  maxDenoisingSteps : Nat
  stabilityThreshold : Nat
  one_le_maxDenoisingSteps : 1 ≤ maxDenoisingSteps := by decide
  one_le_stabilityThreshold : 1 ≤ stabilityThreshold := by decide

structure DiffusionGemmaSamplingState (L : Nat) (Soft : Type) where
  canvas : Fin L → Token
  argmaxCanvas : Fin L → Token
  softEmbeds : Option Soft := none
  step : Nat := 0
  history : List (Fin L → Token) := []

structure DiffusionGemmaBatchSamplingState (B L : Nat) (Soft : Type) where
  canvas : Fin B → Fin L → Token
  argmaxCanvas : Fin B → Fin L → Token
  active : Fin B → Bool
  steps : Fin B → Nat
  softEmbeds : Option (Fin B → Soft) := none
  history : List (Fin B → Fin L → Token) := []

/-- What a step takes from the logits of a row: its greedy, sampled and random tokens, the positions
that the entropy bound accepts, the test of the mean entropy and the soft embeddings. -/
structure ModelResult (L : Nat) (Soft : Type) where
  argmax : Fin L → Token
  sampled : Fin L → Token
  randomTokens : Fin L → Token
  accept : Fin L → Bool
  confident : Bool
  soft : Soft

/-- The model and the sampler of a row: what a pass makes of its canvas, its soft embeddings and the
steps that remain, which set the temperature. -/
abbrev RowModel (L : Nat) (Soft : Type) :=
  Nat → (Fin L → Token) → Option Soft → Nat → ModelResult L Soft

namespace DiffusionGemmaDecoder

section Window

/-- The window of the last argmax canvases. -/
def pushHistory {α : Type} (cfg : DiffusionGemmaSamplingConfig) (history : List α) (x : α) :
    List α :=
  let history := history ++ [x]
  if cfg.stabilityThreshold < history.length then history.tail else history

/-- All tokens of a row agree. -/
def equal {L : Nat} (x y : Fin L → Token) : Bool := (List.finRange L).all fun i => x i == y i

end Window

variable {B L : Nat} {Soft : Type} (cfg : DiffusionGemmaSamplingConfig)

section Single

def newState (canvas : Fin L → Token) : DiffusionGemmaSamplingState L Soft :=
  { canvas, argmaxCanvas := canvas }

/-- The window is full and its canvases are the same. -/
def stable (history : List (Fin L → Token)) : Bool :=
  decide (cfg.stabilityThreshold ≤ history.length) && match history with
    | [] => true
    | reference :: items => items.all fun item => equal reference item

/-- `step`, and whether the canvas has converged. -/
def step (o : ModelResult L Soft) (s : DiffusionGemmaSamplingState L Soft) :
    DiffusionGemmaSamplingState L Soft × Bool :=
  let canvas i := if o.accept i then o.sampled i else o.randomTokens i
  let step := s.step+1
  let history := pushHistory cfg s.history o.argmax
  let converged := (stable cfg history && o.confident) || decide (cfg.maxDenoisingSteps ≤ step)
  ({ canvas := if converged then o.argmax else canvas
     argmaxCanvas := o.argmax
     softEmbeds := some o.soft
     step, history },converged)

/-- What the model makes of a row's state in a pass. -/
def modelResult (m : RowModel L Soft) (n : Nat) (s : DiffusionGemmaSamplingState L Soft) :
    ModelResult L Soft :=
  m n s.canvas s.softEmbeds (max (cfg.maxDenoisingSteps-s.step) 1)

/-- The denoising loop of one row, from a pass on. -/
def denoise (m : RowModel L Soft) : Nat → Nat → DiffusionGemmaSamplingState L Soft →
    DiffusionGemmaSamplingState L Soft
  | 0, _, s => s
  | k+1, n, s =>
    let next := step cfg (modelResult cfg m n s) s
    if next.2 then next.1 else denoise m k (n+1) next.1

end Single

section Batched

def newBatchState (canvas : Fin B → Fin L → Token) : DiffusionGemmaBatchSamplingState B L Soft :=
  { canvas, argmaxCanvas := canvas, active := fun _ => true, steps := fun _ => 0 }

/-- The test of a row in the shared window. -/
def stableRow (history : List (Fin B → Fin L → Token)) (r : Fin B) : Bool :=
  decide (cfg.stabilityThreshold ≤ history.length) && match history with
    -- Not reached: the window holds the canvas that was just stored.
    | [] => false
    | reference :: items => items.all fun item => equal (item r) (reference r)

/-- `step_batch`, and which rows have converged in it. -/
def stepBatch (o : Fin B → ModelResult L Soft) (s : DiffusionGemmaBatchSamplingState B L Soft) :
    DiffusionGemmaBatchSamplingState B L Soft × (Fin B → Bool) :=
  let proposedCanvas r i := if (o r).accept i then (o r).sampled i else (o r).randomTokens i
  let canvas r := if s.active r then proposedCanvas r else s.canvas r
  let argmaxCanvas r := if s.active r then (o r).argmax else s.argmaxCanvas r
  let steps r := s.steps r + (s.active r).toNat
  let history := pushHistory cfg s.history argmaxCanvas
  let converged r := s.active r &&
    ((stableRow cfg history r && (o r).confident) || decide (cfg.maxDenoisingSteps ≤ steps r))
  let softEmbeds r := match s.softEmbeds with
    | none => (o r).soft
    | some old => if s.active r then (o r).soft else old r
  ({ canvas := fun r => if converged r then argmaxCanvas r else canvas r
     argmaxCanvas
     active := fun r => s.active r && !converged r
     steps
     softEmbeds := some softEmbeds
     history },converged)

/-- What the model makes of the rows of a batch in a pass. -/
def modelResults (m : Fin B → RowModel L Soft) (n : Nat)
    (s : DiffusionGemmaBatchSamplingState B L Soft) (r : Fin B) : ModelResult L Soft :=
  m r n (s.canvas r) (s.softEmbeds.map (· r)) (max (cfg.maxDenoisingSteps-s.steps r) 1)

/-- The denoising loop of a batch, from a pass on. -/
def denoiseBatch (m : Fin B → RowModel L Soft) : Nat → Nat →
    DiffusionGemmaBatchSamplingState B L Soft → DiffusionGemmaBatchSamplingState B L Soft
  | 0, _, s => s
  | k+1, n, s =>
    let next := (stepBatch cfg (modelResults cfg m n s) s).1
    if (List.finRange B).all fun r => !next.active r then next else denoiseBatch m k (n+1) next

end Batched

end DiffusionGemmaDecoder

end FluxServe.Gemma
