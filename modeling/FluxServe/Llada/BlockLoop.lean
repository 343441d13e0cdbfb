import FluxServe.Engine.BatchProof

namespace FluxServe.Llada

open Engine

section Rows

variable {α : Type} {L : Nat}

/-- `gather_blocks` on a row. -/
def gatherBlock (L : Nat) (row : Nat → α) (start : Nat) (i : Fin L) : α := row (start+i)

/-- A row of which one block is replaced. -/
def writeBlock (row : Nat → α) (start : Nat) (block : Fin L → α) (p : Nat) : α :=
  if h : start ≤ p ∧ p < start+L then block ⟨p-start,by omega⟩ else row p

/-- `t[seq_ids] = vals`. -/
def putRows (seqIds : List Nat) (vals t : Nat → α) (r : Nat) : α :=
  if r ∈ seqIds then vals r else t r

end Rows

/-- `DecodeEditBudget`, by sequence. -/
structure DecodeEditBudget where
  maxPostSteps : Nat
  maxBlockIters : Nat
  postSteps : Nat → Nat := fun _ => 0
  blockIters : Nat → Nat := fun _ => 0
  updateCalls : Nat := 0

namespace DecodeEditBudget

variable (b : DecodeEditBudget)

def allowEdit (r : Nat) : Bool := decide (b.postSteps r < b.maxPostSteps)

/-- `update`; `none` stands for the error about rows that do not finish their block, for which it
looks every `max_block_iters` calls. -/
def update (numRows : Nat) (seqIds : List Nat) (hadMask changed blockFinished : Nat → Bool) :
    Option DecodeEditBudget :=
  let postSteps := putRows seqIds
    (fun r => if blockFinished r then 0 else b.postSteps r + (!hadMask r && changed r).toNat)
    b.postSteps
  let blockIters := putRows seqIds (fun r => if blockFinished r then 0 else b.blockIters r + 1)
    b.blockIters
  let updateCalls := b.updateCalls+1
  if updateCalls % b.maxBlockIters = 0 ∧ ∃ r < numRows, b.maxBlockIters ≤ blockIters r then none
  else some { b with postSteps, blockIters, updateCalls }

end DecodeEditBudget

section Interfaces

/-- A row as the model's forward gets it: its block, where that is, and the KV of the row. -/
structure ForwardRow (L : Nat) (Kv : Type) where
  seqId : Nat
  start : Nat
  block : Fin L → Token
  cache : Nat → Option Kv

/-- What a forward gives for a row: its logits and the KV of its block. -/
structure ForwardOutput (L : Nat) (Logits Kv : Type) where
  logits : Logits
  kv : Fin L → Kv

/-- A row as a decoder gets it. -/
structure DecoderRow (Logits : Type) where
  seqId : Nat
  logits : Logits
  blockStart : Nat
  row : Nat → Token
  promptLength : Nat
  allowEdit : Bool

/-- A decoder that writes inside the active block only. Its results are by sequence; `S` is what it
keeps of the rows. `graphStep` gives the updated blocks where the step is part of the graph. -/
structure BlockDecoder (L : Nat) (Logits S : Type) where
  batchDecode : List (DecoderRow Logits) → S → (Nat → Nat → Token) × S
  graphStep : Option (List (DecoderRow Logits) → S → (Nat → Fin L → Token) × S) := none
  inside : ∀ rows s, (rows.map DecoderRow.seqId).Nodup → ∀ row ∈ rows, ∀ p,
    ¬(row.blockStart ≤ p ∧ p < row.blockStart+L) → (batchDecode rows s).1 row.seqId p = row.row p

/-- The order in which candidate rows are taken, which may look at how many masks they have. -/
structure Selector where
  arrange : (Nat → Nat) → List Nat → List Nat
  perm : ∀ masks rows, (arrange masks rows).Perm rows

/-- `select_batch_sequences_by_order`. -/
def Selector.byOrder : Selector := ⟨fun _ rows => rows,fun _ _ => .refl _⟩

/-- `select_batch_sequences_by_mask_number`: most masks first, in a stable order. -/
def Selector.byMaskNumber : Selector where
  arrange masks rows := rows.insertionSort fun i j => masks j ≤ masks i
  perm _ rows := List.perm_insertionSort _ rows

/-- The `_decode_batches` of the three runners; FlashInfer has two. -/
inductive DecodeMode
  | dense
  | flashinferDefault
  | flashinferMaxBatch
  | fa4
  deriving DecidableEq, Repr

/-- A runner with its model and decoder. With paged attention the forward writes the KV of the block;
a graph runs with paged attention only. `captureSizes` are there where irregular batches are split. -/
structure LladaRunner (Logits Kv S : Type) extends RunnerConfig where
  mode : DecodeMode
  forwardWrites : Bool
  usesGraph : Nat → Nat → Bool := fun _ _ => false
  graphWrites : ∀ batchSize cacheLength, usesGraph batchSize cacheLength = true →
    forwardWrites = true
  captureSizes : Option (List Nat) := none
  selector : Selector
  forward : Nat → List (ForwardRow blockLength Kv) → Nat → ForwardOutput blockLength Logits Kv
  decoder : BlockDecoder blockLength Logits S

/-- What a decode loop does not change: the number of rows, their width, where an early stop puts
them, and the lengths of their prompts. -/
structure DecodeCall where
  numRows : Nat
  width : Nat
  totalLength : Nat
  promptLengths : Nat → Nat

/-- What a decode loop changes, by sequence. -/
structure DecodeLoop (Kv S : Type) where
  x : Nat → Nat → Token
  decodingStart : Nat → Nat
  kv : Nat → Nat → Option Kv
  editBudget : DecodeEditBudget
  rowState : S

/-- The ways in which a decode loop raises. -/
inductive LoopFault
  | outOfRange
  | stuck
  | unfinished (seqIds : List Nat)
  | tooLong
  deriving DecidableEq, Repr

end Interfaces

namespace LladaRunner

variable {Logits Kv S : Type} (R : LladaRunner Logits Kv S) (c : DecodeCall)

section Batch

variable (σ : DecodeLoop Kv S) (seqIds : List Nat) (cacheLength : Nat)

def block (r : Nat) : Fin R.blockLength → Token :=
  gatherBlock R.blockLength (σ.x r) (σ.decodingStart r)

def forwardRow (r : Nat) : ForwardRow R.blockLength Kv :=
  ⟨r,σ.decodingStart r,R.block σ r,σ.kv r⟩

/-- The forward on a batch. -/
def output : Nat → ForwardOutput R.blockLength Logits Kv :=
  R.forward cacheLength (seqIds.map (R.forwardRow σ))

def decoderRow (r : Nat) : DecoderRow Logits where
  seqId := r
  logits := (R.output σ seqIds cacheLength r).logits
  blockStart := σ.decodingStart r
  row := σ.x r
  promptLength := c.promptLengths r
  allowEdit := σ.editBudget.allowEdit r

/-- What the decoder leaves of the selected rows, the blocks it is judged by, and what it keeps. -/
structure Tail (L : Nat) (S : Type) where
  rows : Nat → Nat → Token
  after : Nat → Fin L → Token
  rowState : S

/-- The decoder's step, in the graph or after it. -/
def tail : Tail R.blockLength S :=
  let rows := seqIds.map (R.decoderRow c σ seqIds cacheLength)
  let eager :=
    let x := R.decoder.batchDecode rows σ.rowState
    ⟨x.1,fun r => gatherBlock R.blockLength (x.1 r) (σ.decodingStart r),x.2⟩
  match R.decoder.graphStep with
  | none => eager
  | some step =>
    if R.usesGraph seqIds.length cacheLength then
      let x := step rows σ.rowState
      ⟨fun r => writeBlock (σ.x r) (σ.decodingStart r) (x.1 r),x.1,x.2⟩
    else eager

def hadMask (r : Nat) : Bool := (List.finRange R.blockLength).any fun i => R.block σ r i == R.maskId

def changed (r : Nat) : Bool :=
  (List.finRange R.blockLength).any fun i =>
    (R.tail c σ seqIds cacheLength).after r i != R.block σ r i

/-- A block is finished by a pass that met no mask in it and left it as it was. -/
def blockFinished (r : Nat) : Bool := !R.hadMask σ r && !R.changed c σ seqIds cacheLength r

/-- `generated_eos_hit` on a row. -/
def generatedEosHit (row : Nat → Token) (promptLength blockEnd : Nat) : Bool :=
  (List.range' promptLength (blockEnd-promptLength)).any fun p => decide (row p ∈ R.eosIds)

/-- Where a row's decoding goes on. -/
def newStart (r : Nat) : Nat :=
  let finished := R.blockFinished c σ seqIds cacheLength r
  let start := if finished then σ.decodingStart r + R.blockLength else σ.decodingStart r
  if R.earlyStop && finished &&
      R.generatedEosHit ((R.tail c σ seqIds cacheLength).rows r) (c.promptLengths r) start then
    c.totalLength
  else start

/-- Whether the pass writes the KV of a row's block: the attention does, or the commit of a finished
block that was not run by a graph. -/
def writesKv (r : Nat) : Bool :=
  R.forwardWrites ||
    R.blockFinished c σ seqIds cacheLength r && !R.usesGraph seqIds.length cacheLength

/-- The body of `_decode_selected_batch`, on a batch that is not split. -/
def decodeBatch : Except LoopFault (DecodeLoop Kv S) :=
  if seqIds.any fun r => decide (c.width < σ.decodingStart r + R.blockLength) then
    throw .outOfRange
  else
    let tail := R.tail c σ seqIds cacheLength
    match σ.editBudget.update c.numRows seqIds (R.hadMask σ) (R.changed c σ seqIds cacheLength)
        (R.blockFinished c σ seqIds cacheLength) with
    | none => throw .stuck
    | some editBudget => pure
      { x := putRows seqIds tail.rows σ.x
        decodingStart := putRows seqIds (R.newStart c σ seqIds cacheLength) σ.decodingStart
        kv := putRows (seqIds.filter (R.writesKv c σ seqIds cacheLength))
          (fun r => writeBlock (σ.kv r) (σ.decodingStart r)
            fun i => some ((R.output σ seqIds cacheLength r).kv i)) σ.kv
        editBudget
        rowState := tail.rowState }

end Batch

section Split

/-- `decompose_batch_size`: the captured sizes are ascending. -/
def decomposeBatchSize (sizes : List Nat) (batchSize : Nat) : List Nat :=
  (sizes.reverse.foldl (fun x bucket =>
    (x.1 ++ List.replicate (x.2/bucket) bucket,x.2 % bucket)) ([],batchSize)).1

def splitParts : List Nat → List Nat → List (List Nat)
  | [],_ => []
  | part::parts,seqIds => seqIds.take part :: splitParts parts (seqIds.drop part)

/-- The batches that a selected one is run as. A captured size is not split again. -/
def components (seqIds : List Nat) : List (List Nat) :=
  match R.captureSizes with
  | none => [seqIds]
  | some sizes =>
    let parts := decomposeBatchSize sizes seqIds.length
    if 1 < parts.length then splitParts parts seqIds else [seqIds]

/-- The length that reaches the end of every block of a batch. -/
def reach (σ : DecodeLoop Kv S) (seqIds : List Nat) : Nat :=
  (seqIds.map fun r => σ.decodingStart r + R.blockLength).max?.getD 0

end Split

end LladaRunner

/-- A call of `_decode_batches`: the rows decode up to their lengths. -/
structure BatchesCall extends DecodeCall where
  decodeLengths : Nat → Nat
  bounded : ∀ r, decodeLengths r ≤ totalLength

/-- The canvas of `generate`: for each row the lengths of its prompt and of what is generated. -/
structure Canvas where
  promptWidth : Nat
  rows : List (Nat × Nat)
  fits : ∀ row ∈ rows, row.1 ≤ promptWidth

namespace Canvas

variable (c : RunnerConfig) (g : Canvas)

def totalLength : Nat :=
  ceilTo c.blockLength (g.promptWidth+((g.rows.map Prod.snd).max?.getD 0))

/-- Where a row's decoding starts; a paged prefill knows no limit. -/
def startOf (unbounded : Bool) (promptLength : Nat) : Nat :=
  if unbounded then promptLength/c.blockLength*c.blockLength else decodingStart c promptLength

theorem startOf_le (unbounded : Bool) (promptLength : Nat) :
    startOf c unbounded promptLength ≤ promptLength := by
  unfold startOf
  split
  · exact Nat.div_mul_le_self _ _
  · exact decodingStart_le promptLength

/-- A row's own aligned end, or its start where nothing is to be generated. -/
def decodeLength (unbounded : Bool) (row : Nat × Nat) : Nat :=
  if 0 < row.2 then ceilTo c.blockLength (row.1+row.2) else startOf c unbounded row.1

theorem decodeLength_le {row : Nat × Nat} (unbounded : Bool) (h : row ∈ g.rows) :
    decodeLength c unbounded row ≤ g.totalLength c := by
  have hwidth := g.fits row h
  have hmax : row.2 ≤ (g.rows.map Prod.snd).max?.getD 0 := by
    have hmem : row.2 ∈ g.rows.map Prod.snd := List.mem_map_of_mem h
    cases hmax : (g.rows.map Prod.snd).max? with
    | none => simp [List.max?_eq_none_iff.mp hmax] at hmem
    | some m => exact (List.max?_eq_some_iff.mp hmax).2 _ hmem
  have hsum : row.1+row.2 ≤ g.promptWidth+((g.rows.map Prod.snd).max?.getD 0) := by omega
  unfold decodeLength totalLength
  split
  · exact ceilTo_mono _ hsum
  · calc startOf c unbounded row.1
        ≤ row.1 := startOf_le c unbounded row.1
      _ ≤ g.promptWidth+((g.rows.map Prod.snd).max?.getD 0) := by omega
      _ ≤ _ := le_ceilTo c.blockLength_pos _

/-- The call of `_decode_batches` that `generate` makes. -/
def call (unbounded : Bool) : BatchesCall where
  numRows := g.rows.length
  width := g.totalLength c
  totalLength := g.totalLength c
  promptLengths r := ((g.rows[r]?).map Prod.fst).getD 0
  decodeLengths r := ((g.rows[r]?).map (decodeLength c unbounded)).getD 0
  bounded r := by
    cases hrow : g.rows[r]? with
    | none => exact Nat.zero_le _
    | some row => exact decodeLength_le c g unbounded (List.mem_of_getElem? hrow)

end Canvas

/-- A decode loop under way: the rows that still decode, the cache length of the round, and what is
left to run of the batch that was selected last, with its length unless it is split. -/
structure Looping (Kv S : Type) extends DecodeLoop Kv S where
  decodingFlag : Nat → Bool
  currentCacheLength : Nat := 0
  parts : List (List Nat) := []
  partLength : Option Nat := none

namespace LladaRunner

variable {Logits Kv S : Type} (R : LladaRunner Logits Kv S) (c : BatchesCall)

def mayDecode (σ : DecodeLoop Kv S) (r : Nat) : Bool :=
  decide (σ.decodingStart r + R.blockLength ≤ c.decodeLengths r)

/-- The start of `_decode_batches`. -/
def enter (σ : DecodeLoop Kv S) : Looping Kv S :=
  { σ with decodingFlag := R.mayDecode c σ }

section Select

variable (ℓ : Looping Kv S)

def flagged : List Nat := (List.range c.numRows).filter ℓ.decodingFlag

/-- The rows of a round with this cache length. -/
def current (cacheLength : Nat) : List Nat :=
  (flagged c ℓ).filter fun r => decide (ℓ.decodingStart r + R.blockLength ≤ cacheLength)

def maskNumber (r : Nat) : Nat := (List.range c.width).countP fun p => ℓ.x r p == R.maskId

/-- `_select_decode_sequences`. -/
def selectDecodeSequences (rows : List Nat) : List Nat :=
  (R.selector.arrange (R.maskNumber c ℓ) rows).take R.miniBatchSize

/-- `current_cache_length`: a round goes on while some row is within it. -/
def nextCacheLength : Nat :=
  if (R.current c ℓ ℓ.currentCacheLength).isEmpty then
    cacheLength R.toRunnerConfig R.maxLength (((flagged c ℓ).map ℓ.decodingStart).min?.getD 0)
  else ℓ.currentCacheLength

/-- A selected batch, in the parts it is run as. -/
def selected (seqIds : List Nat) (length : Nat) : Looping Kv S :=
  if seqIds.isEmpty then ℓ
  else
    let parts := R.components seqIds
    { ℓ with parts, partLength := if 1 < parts.length then none else some length }

/-- The next batch of a round, in the loops that have rounds, or of all rows that decode. -/
def select : Looping Kv S :=
  match R.mode with
  | .dense | .flashinferDefault =>
    let currentCacheLength := R.nextCacheLength c ℓ
    R.selected { ℓ with currentCacheLength }
      (R.selectDecodeSequences c ℓ (R.current c ℓ currentCacheLength)) currentCacheLength
  | .flashinferMaxBatch | .fa4 =>
    let seqIds := R.selectDecodeSequences c ℓ (flagged c ℓ)
    R.selected ℓ seqIds (R.reach ℓ.toDecodeLoop seqIds)

end Select

/-- The cache length that a part is run with. -/
def lengthOf (ℓ : Looping Kv S) (part : List Nat) : Nat :=
  ℓ.partLength.getD (R.reach ℓ.toDecodeLoop part)

/-- A step of `_decode_batches`: a batch is selected, or the next part of it is run. A row that was
stopped early is past its length, so that its flag goes down with the others. -/
def step (ℓ : Looping Kv S) : Except LoopFault (Looping Kv S) :=
  match ℓ.parts with
  | [] => pure (R.select c ℓ)
  | part::parts => do
    let σ ← R.decodeBatch c.toDecodeCall ℓ.toDecodeLoop part (R.lengthOf ℓ part)
    return { ℓ with
      toDecodeLoop := σ
      parts
      decodingFlag := if parts.isEmpty then fun r => ℓ.decodingFlag r && R.mayDecode c σ r
        else ℓ.decodingFlag }

/-- The loop has an end once no row decodes. -/
def done (ℓ : Looping Kv S) : Bool := ℓ.parts.isEmpty && (flagged c ℓ).isEmpty

/-- A row in a forward: the tokens of its block that the forward got, and the KV it gave for them. -/
structure Pass (L : Nat) (Kv : Type) where
  seqId : Nat
  start : Nat
  block : Fin L → Token
  kv : Fin L → Kv

/-- The rows of the forward that a step runs, if it runs one. -/
def passes (ℓ : Looping Kv S) : List (Pass R.blockLength Kv) :=
  match ℓ.parts with
  | [] => []
  | part::_ => part.map fun r =>
    ⟨r,ℓ.decodingStart r,R.block ℓ.toDecodeLoop r,
      (R.output ℓ.toDecodeLoop part (R.lengthOf ℓ part) r).kv⟩

/-- Steps of the loop one after the other, with all that went through their forwards. -/
inductive Runs : Looping Kv S → List (Pass R.blockLength Kv) → Looping Kv S → Prop
  | here {ℓ : Looping Kv S} : Runs ℓ [] ℓ
  | step {ℓ ℓ₁ ℓ' : Looping Kv S} {ps : List (Pass R.blockLength Kv)} (go : done c ℓ = false)
      (run : R.step c ℓ = .ok ℓ₁) (rest : Runs ℓ₁ ps ℓ') : Runs ℓ (R.passes ℓ ++ ps) ℓ'

end LladaRunner

end FluxServe.Llada
