import FluxServe.Framework.Guards
import Mathlib.Data.List.Range

namespace FluxServe.Paging

inductive Phase
  | prefill
  | decode
  deriving DecidableEq, Repr

inductive MetadataError
  | valueError (what : String)
  deriving DecidableEq, Repr

/-- A page table in `int32`, all of whose rows have one length. -/
structure PageTable where
  cols : Nat
  rows : List (List Int32)
  rect : ∀ row ∈ rows, row.length = cols := by decide

/-- `PagedAttentionMetadata`, as `build_block_diffusion_paged_metadata` makes it. -/
structure PagedAttentionMetadata where
  phase : Phase
  batchSize : Nat
  maxInputLen : Nat
  blockLength : Nat
  pageSize : Nat
  qLensCpu : List Nat
  qOffsetsCpu : List Nat
  qTokenIndices : List Nat
  qoIndptr : List Nat
  kvLens : List Nat
  pageTable : List (List Int32)
  slotMapping : List Int
  maxQLen : Nat
  maxKvLen : Nat
  causal : Bool
  deriving DecidableEq, Repr

/-- What one request adds to the plan. -/
structure RequestPlan where
  qIndices : List Nat
  taskKvLens : List Nat
  slotPart : List Int
  deriving DecidableEq, Repr

/-- A tuple of numbers as text. -/
def tupleText (l : List Int) : String :=
  let inside := ", ".intercalate (l.map toString)
  if l.length = 1 then "(" ++ inside ++ ",)" else "(" ++ inside ++ ")"

/-- The slot of a position in the pages of a row. -/
def slotOf (pageSize : Nat) (pages : List Int32) (p : Nat) : Int :=
  (pages[p / pageSize]?.getD 0).toInt*pageSize + (p % pageSize : Nat)

/-- One turn of the loop over the requests. -/
def planRequest (maxInputLen blockLength pageSize cols row : Nat) (pages : List Int32)
    (qOffset qLen : Nat) : Except MetadataError RequestPlan := do
  let kvLen := qOffset+qLen
  let requiredPages := (kvLen+pageSize-1)/pageSize
  throwIf (cols < requiredPages)
    (.valueError (s!"request {row} needs {requiredPages} pages for kv_len={kvLen}, " ++
      s!"but page_table has {cols} columns"))
  throwIf ((pages.take requiredPages).any (·.toInt < 0) = true)
    (.valueError s!"request {row} contains an invalid negative page id")
  let localStarts := List.range' 0 ((qLen+blockLength-1)/blockLength) blockLength
  pure {
    qIndices := localStarts.flatMap fun localStart =>
      List.range' (row*maxInputLen+localStart) blockLength
    taskKvLens := localStarts.map fun localStart => qOffset+(localStart+blockLength)
    slotPart := (List.range' qOffset qLen).map (slotOf pageSize pages) }

def buildBlockDiffusionPagedMetadata (phase : Phase) (qOffsets qLens : List Int)
    (pageTable : PageTable) (maxInputLen blockLength pageSize : Int) (causal : Bool := false) :
    Except MetadataError PagedAttentionMetadata := do
  throwIf (blockLength ≤ 0 ∨ pageSize ≤ 0 ∨ maxInputLen ≤ 0)
    (.valueError "block_length, page_size, and max_input_len must be positive")
  throwIf (pageSize % 16 ≠ 0)
    (.valueError s!"paged FA4 requires page_size to be a multiple of 16, got {pageSize}")
  throwIf (qOffsets.length ≠ qLens.length)
    (.valueError "q_offsets and q_lens must contain one value per request")
  throwIf (pageTable.rows.length ≠ qLens.length)
    (.valueError ("page_table must have one row per request, got " ++
      s!"shape={tupleText [pageTable.rows.length,pageTable.cols]} and batch_size={qLens.length}"))
  throwIf (qLens = [] ∨ ∃ n ∈ qLens, n ≤ 0)
    (.valueError "paged attention requires positive query lengths")
  throwIf (∃ n ∈ qLens, maxInputLen < n)
    (.valueError s!"query length exceeds max_input_len={maxInputLen}: {tupleText qLens}")
  throwIf (∃ q ∈ qOffsets, q < 0)
    (.valueError s!"query offsets must be non-negative: {tupleText qOffsets}")
  throwIf (∃ q ∈ qOffsets, q % blockLength ≠ 0)
    (.valueError ("LLaDA block attention requires block-aligned query offsets: " ++
      s!"{tupleText qOffsets}"))
  throwIf (∃ n ∈ qLens, n % blockLength ≠ 0)
    (.valueError ("LLaDA block attention requires block-aligned query lengths: " ++
      s!"{tupleText qLens}"))
  throwIf (phase = .decode ∧ ∃ n ∈ qLens, n ≠ blockLength)
    (.valueError ("LLaDA decode requires one denoising block per request, got " ++
      s!"q_lens={tupleText qLens}, block_length={blockLength}"))
  -- From here on no number is negative.
  let maxInputLen := maxInputLen.toNat
  let blockLength := blockLength.toNat
  let pageSize := pageSize.toNat
  let qOffsetsCpu := qOffsets.map Int.toNat
  let qLensCpu := qLens.map Int.toNat
  let plans ← ((qOffsetsCpu.zip qLensCpu).zip pageTable.rows).zipIdx.mapM fun x =>
    planRequest maxInputLen blockLength pageSize pageTable.cols x.2 x.1.2 x.1.1.1 x.1.1.2
  let kvLens := plans.flatMap RequestPlan.taskKvLens
  let taskRows := plans.zipIdx.flatMap fun x => List.replicate x.1.taskKvLens.length x.2
  let maxKvLen := kvLens.max?.getD 0
  let maxTaskPages := (maxKvLen+pageSize-1)/pageSize
  let visiblePageTable := pageTable.rows.map (List.take maxTaskPages)
  pure {
    phase, maxInputLen, blockLength, pageSize, qLensCpu, qOffsetsCpu, kvLens, maxKvLen, causal
    batchSize := qLensCpu.length
    qTokenIndices := plans.flatMap RequestPlan.qIndices
    qoIndptr := (List.range (kvLens.length+1)).map (· * blockLength)
    pageTable := match phase with
      | .decode => visiblePageTable
      | .prefill => taskRows.map fun row => visiblePageTable[row]?.getD []
    slotMapping := plans.flatMap RequestPlan.slotPart
    maxQLen := blockLength }

namespace PagedAttentionMetadata

/-- The forward pass uses its tokens as they are. -/
def isIdentityMapping (m : PagedAttentionMetadata) : Bool :=
  m.qLensCpu.all (· = m.maxInputLen)

/-- The tokens whose queries a task holds. -/
def queries (m : PagedAttentionMetadata) (t : Nat) : List Nat :=
  let first := m.qoIndptr[t]?.getD 0
  let last := m.qoIndptr[t+1]?.getD 0
  (m.qTokenIndices.drop first).take (last-first)

/-- The slots of the keys that a task reads: its first positions in its row of pages. -/
def keys (m : PagedAttentionMetadata) (t : Nat) : List Int :=
  (List.range (m.kvLens[t]?.getD 0)).map (slotOf m.pageSize (m.pageTable[t]?.getD []))

end PagedAttentionMetadata

section Mask

variable {α : Type}

def repeatInterleave (l : List α) (n : Nat) : List α := l.flatMap (List.replicate n)

/-- `build_block_attention_mask` for one sequence. -/
def buildBlockAttentionMask (blockLength numBlocks : Nat) : List (List Bool) :=
  let tril := (List.range numBlocks).map fun i =>
    (List.range numBlocks).map fun j => decide (j ≤ i)
  repeatInterleave (tril.map fun row => repeatInterleave row blockLength) blockLength

end Mask

end FluxServe.Paging
