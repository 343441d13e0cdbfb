import FluxServe.Framework.Loop
import FluxServe.Engine.Request
import Mathlib.Data.List.Sort

namespace FluxServe.Engine

/-- The settings of the LLaDA runner that its loops read. -/
structure RunnerConfig where
  blockLength : Nat
  blockLength_pos : 0 < blockLength
  miniBatchSize : Nat
  miniBatchSize_pos : 0 < miniBatchSize
  prefillingLimit : Nat := 128
  /-- Whether `attention_backend` is `flex`. -/
  flex : Bool := false
  /-- Whether the decoder keeps a state for each row, so that rows are taken in their order. -/
  needsRowState : Bool := false
  maxCacheLengthAlign : Nat := 128
  maxLength : Nat := 2048
  maskId : Token
  eosIds : List Token
  earlyStop : Bool := true
  genLength : Nat := 1024

/-- What the model and its decoder do to one row of a batch. `Row` is the row's KV cache with the
decoder's own state of the row; `iterate` runs one decode iteration on a block, whose cache is cut
at `window` positions, and commits the block's KV when it comes out as it went in. A block settles:
its masks are filled and the edits stop, which the edit budget of the decode loop enforces. -/
structure RowModel (maskId : Token) where
  Row : Type
  prefill : List Token → Row
  iterate : (window start promptLength : Nat) → List Token × Row → List Token × Row
  iterate_length : ∀ window start promptLength x,
    (iterate window start promptLength x).1.length = x.1.length
  settles : ∀ window start promptLength x, ∃ k,
    maskId ∉ ((iterate window start promptLength)^[k] x).1 ∧
      ((iterate window start promptLength)^[k+1] x).1 =
        ((iterate window start promptLength)^[k] x).1

/-- `align_exp2`: the least power of two above. -/
def alignExp2 (x : Nat) : Nat := if x = 0 then 1 else 2^(x.log2+1)

/-- Rounding up to whole blocks. -/
def ceilTo (b n : Nat) : Nat := (n+b-1)/b*b

/-- One row of the token canvas during `generate`. -/
structure Lane (ρ : Type) where
  tokens : List Token
  promptLength : Nat
  start : Nat
  decodeLength : Nat
  row : ρ

section Generate

variable (c : RunnerConfig) (model : RowModel c.maskId)

def Lane.active {ρ : Type} (l : Lane ρ) : Bool := l.start+c.blockLength ≤ l.decodeLength

/-- Whether the row's next block lies within the cache window of this round. -/
def Lane.current {ρ : Type} (window : Nat) (l : Lane ρ) : Bool :=
  l.active c && l.start+c.blockLength ≤ window

/-- `current_cache_length` for the rows that are furthest behind at `start`. -/
def cacheLength (maxLength start : Nat) : Nat :=
  min (max c.maxCacheLengthAlign (alignExp2 (start+c.blockLength))) maxLength

/-- `generated_eos_hit` on one row. -/
def generatedEosHit (tokens : List Token) (promptLength blockEnd : Nat) : Bool :=
  ((tokens.take blockEnd).drop promptLength).any fun t => t ∈ c.eosIds

def maskCount {ρ : Type} (l : Lane ρ) : Nat := l.tokens.count c.maskId

/-- One decode iteration of one row. -/
def Lane.advance (earlyStop : Bool) (totalLength window : Nat) (l : Lane model.Row) :
    Lane model.Row :=
  let block := (l.tokens.drop l.start).take c.blockLength
  let (after,row) := model.iterate window l.start l.promptLength (block,l.row)
  let tokens := l.tokens.take l.start ++ after ++ l.tokens.drop (l.start+c.blockLength)
  let finished := c.maskId ∉ block ∧ after = block
  let start := if finished then l.start+c.blockLength else l.start
  { l with
    tokens
    row
    start :=
      if earlyStop ∧ finished ∧ generatedEosHit c tokens l.promptLength start then totalLength
      else start }

/-- `_select_decode_sequences`: the first rows, or those with the most masks in a stable order. -/
def selectDecodeSequences {ρ : Type} (lanes : List (Lane ρ)) (window : Nat) : List Nat :=
  let candidates := (List.range lanes.length).filter fun i => (lanes[i]?).any (Lane.current c window)
  let masks (i : Nat) : Nat := ((lanes[i]?).map (maskCount c)).getD 0
  let sorted :=
    if c.needsRowState then candidates
    else candidates.insertionSort fun i j => masks j ≤ masks i
  sorted.take c.miniBatchSize

/-- What the decode loops change: the window of the round and the rows. -/
structure Decoding (ρ : Type) where
  window : Nat
  lanes : List (Lane ρ)

/-- The window the next iteration runs in: the round goes on while some row is within it. -/
def nextWindow {ρ : Type} (maxLength : Nat) (d : Decoding ρ) : Nat :=
  if d.lanes.any (Lane.current c d.window) then d.window
  else
    let starts := (d.lanes.filter (Lane.active c)).map Lane.start
    cacheLength c maxLength (starts.min?.getD 0)

def Decoding.done {ρ : Type} (d : Decoding ρ) : Bool := !d.lanes.any (Lane.active c)

/-- One turn of the two nested loops of `_decode_batches`. -/
def Decoding.turn (earlyStop : Bool) (maxLength totalLength : Nat) (d : Decoding model.Row) :
    Decoding model.Row :=
  let window := nextWindow c maxLength d
  let selected := selectDecodeSequences c d.lanes window
  { window
    lanes := d.lanes.mapIdx fun i l =>
      if i ∈ selected then l.advance c model earlyStop totalLength window else l }

/-- Where a row's decoding starts: after its whole prompt blocks, or at the prefilling limit. -/
def decodingStart (promptLength : Nat) : Nat :=
  let aligned := promptLength/c.blockLength*c.blockLength
  if c.flex then aligned else min aligned c.prefillingLimit

/-- A row before decoding: its prompt up to the start is prefilled. -/
def prepareLane (genLength totalLength : Nat) (prompt : List Token) : Lane model.Row :=
  let promptLength := (prompt.filter fun t => t ≠ c.maskId).length
  let start := decodingStart c promptLength
  let tokens := prompt ++ List.replicate (totalLength-prompt.length) c.maskId
  { tokens, promptLength, start
    decodeLength :=
      if 0 < genLength then ceilTo c.blockLength (promptLength+genLength) else start
    row := model.prefill
      (if start = 0 then []
        else tokens.take (if c.flex then ceilTo c.blockLength promptLength else start)) }

/-- The canvas as it is returned: masks beyond the row's own output limit. -/
def Lane.output {ρ : Type} (genLength : Nat) (l : Lane ρ) : List Token :=
  let outputEnd := l.promptLength+genLength
  l.tokens.take outputEnd ++ List.replicate (l.tokens.length-outputEnd) c.maskId

def promptWidth (prompts : List (List Token)) : Nat := (prompts.map List.length).max?.getD 0

/-- `preprocess_inputs`: the length of the canvas. -/
def totalLength (prompts : List (List Token)) : Nat :=
  ceilTo c.blockLength (promptWidth prompts+c.genLength)

/-- `generate` on a rectangle of prompts; the runner's `max_length` grows with the canvas. -/
def generate (fuel : Nat) (prompts : List (List Token)) :
    Option (List (List Token) × RunnerConfig) := do
  let total := totalLength c prompts
  let maxLength := max c.maxLength total
  let start : Decoding model.Row := ⟨0,prompts.map (prepareLane c model c.genLength total)⟩
  let d ← loop (Decoding.done c) (Decoding.turn c model c.earlyStop maxLength total) fuel start
  return (d.lanes.map (Lane.output c c.genLength),{ c with maxLength })

end Generate

end FluxServe.Engine
