import FluxServe.Framework.Guards
import Mathlib.Algebra.GroupWithZero.Nat
import Mathlib.Algebra.Notation.Defs
import Mathlib.Data.List.FinRange
import Mathlib.Logic.Function.Basic

namespace FluxServe.Paging

inductive CacheError
  | valueError (what : String)
  | indexError
  deriving DecidableEq, Repr

/-- An index into so many entries; a negative one counts from the end. -/
def index (n : Nat) (i : Int) : Except CacheError (Fin n) :=
  let j := if i < 0 then i+n else i
  if h : 0 ≤ j ∧ j < n then .ok ⟨j.toNat,by omega⟩ else .error .indexError

/-- `PagedKVCache`. A value of `data` is what all layers and heads store of one position, keys and
values. -/
structure PagedKVCache (α : Type) where
  batchSize : Nat
  maxLength : Nat
  pageSize : Nat
  numPages : Nat
  usesExternalPageTable : Bool
  pageSize_pos : 0 < pageSize
  numPages_pos : 0 < numPages
  pageTable : Fin batchSize → Fin ((maxLength+pageSize-1)/pageSize) → Fin numPages
  data : Fin numPages × Fin pageSize → α

/-- The arguments of a `write_range`; `order` is the one in which the values are stored. -/
structure WriteRange (α : Type) where
  seqId : Int
  start : Int
  kv : List α
  order : List Nat := List.range kv.length
  perm : order.Perm (List.range kv.length) := by exact List.Perm.refl _

/-- The CSR triple of `flashinfer_paged_metadata`. -/
structure PagedMetadata where
  indptr : List Nat
  indices : List Nat
  lastPageLen : List Nat
  deriving DecidableEq, Repr

namespace PagedKVCache

variable {α : Type}

/-- `__init__`; `num_pages` is given for an external page table. -/
def new [Zero α] (batchSize maxLength pageSize : Nat) (numPages : Option Nat)
    (reserveDummyPage : Nat) : Except CacheError (PagedKVCache α) :=
  if hpage : pageSize = 0 then
    .error (.valueError s!"page_size must be positive, got {pageSize}")
  else if maxLength = 0 then
    .error (.valueError s!"max_length must be positive, got {maxLength}")
  else
    let pagesPerSequence := (maxLength+pageSize-1)/pageSize
    let defaultNumPages := batchSize*pagesPerSequence
    let total := numPages.getD defaultNumPages + reserveDummyPage
    if htotal : total = 0 then
      .error (.valueError s!"num_pages must be positive, got {total}")
    else
      .ok {
        batchSize, maxLength, pageSize
        numPages := total
        usesExternalPageTable := numPages.isSome
        pageSize_pos := Nat.pos_of_ne_zero hpage
        numPages_pos := Nat.pos_of_ne_zero htotal
        pageTable := fun s k =>
          if h : numPages = none then
            ⟨s*pagesPerSequence+k,by
              have hrow := Nat.mul_le_mul_right pagesPerSequence (Nat.succ_le_of_lt s.isLt)
              rw [Nat.succ_mul] at hrow
              have hk : (k : Nat) < pagesPerSequence := k.isLt
              simp only [total,h,Option.getD_none,defaultNumPages]
              omega⟩
          else ⟨0,Nat.pos_of_ne_zero htotal⟩
        data := fun _ => 0 }

variable (c : PagedKVCache α)

def pagesPerSequence : Nat := (c.maxLength+c.pageSize-1)/c.pageSize

/-- A page of a new row, and no page past its end. -/
def pageEntry (pages : List Int) (h : ∀ page ∈ pages, page < c.numPages) (k : Nat) :
    Fin c.numPages :=
  ⟨(pages[k]?.getD 0).toNat,by
    have hpos := c.numPages_pos
    cases hk : pages[k]? with
    | none => simpa using hpos
    | some page =>
      have hlt := h page (List.mem_of_getElem? hk)
      simp only [Option.getD_some]
      omega⟩

def setPageTable (seqId : Int) (pages : List Int) : Except CacheError (PagedKVCache α) :=
  if hseq : seqId < 0 ∨ c.batchSize ≤ seqId then
    .error (.valueError s!"seq_id must be in [0, {c.batchSize}), got {seqId}")
  else if c.pagesPerSequence < pages.length then
    .error (.valueError ("page table row exceeds sequence capacity: " ++
      s!"got {pages.length} pages, capacity={c.pagesPerSequence}"))
  else if pages = [] then .ok c
  else if ∃ page ∈ pages, page ≤ 0 then
    .error (.valueError s!"scheduler page ids must be positive; got {pages}")
  else if hpages : ∃ page ∈ pages, (c.numPages : Int) ≤ page then
    .error (.valueError s!"scheduler page ids must be < num_pages={c.numPages}; got {pages}")
  else
    let row : Fin c.batchSize := ⟨seqId.toNat,by omega⟩
    .ok { c with
      pageTable := Function.update c.pageTable row fun k =>
        c.pageEntry pages (fun page hmem => by
          by_contra hge
          exact hpages ⟨page,hmem,by omega⟩) k }

def setPageTables (seqIds : List Int) (pageRows : List (List Int)) :
    Except CacheError (PagedKVCache α) := do
  throwIf (seqIds.length ≠ pageRows.length)
    (.valueError ("seq_ids and page_rows must have matching lengths, " ++
      s!"got {seqIds.length} and {pageRows.length}"))
  (seqIds.zip pageRows).foldlM (fun c x => c.setPageTable x.1 x.2) c

def offset (p : Int) : Fin c.pageSize :=
  ⟨(p % c.pageSize).toNat,by
    have hpos := c.pageSize_pos
    have hlt := Int.emod_lt_of_pos p (by omega : (0 : Int) < c.pageSize)
    omega⟩

/-- Where a row has a position: `page_table[seq, position // page_size]` with the offset. -/
def place (s : Fin c.batchSize) (p : Int) :
    Except CacheError (Fin c.numPages × Fin c.pageSize) := do
  let k ← index _ (p / c.pageSize)
  pure (c.pageTable s k,c.offset p)

def lookup (seqId : Int) (positions : List Int) :
    Except CacheError (List (Fin c.numPages × Fin c.pageSize)) := do
  let s ← index c.batchSize seqId
  positions.mapM (c.place s)

/-- Some of the pages are not set. -/
def unset (places : List (Fin c.numPages × Fin c.pageSize)) : Bool :=
  c.usesExternalPageTable && places.any fun x => (x.1 : Nat) ≤ 0

/-- The number of a slot when the pages stand one behind the other. -/
def slot (x : Fin c.numPages × Fin c.pageSize) : Nat := x.1*c.pageSize+x.2

/-- `slot_mapping`, given each sequence with its row of positions. -/
def slotMapping (rows : List (Int × List Int)) : Except CacheError (List (List Nat)) := do
  let places ← rows.mapM fun r => c.lookup r.1 r.2
  throwIf (places.any c.unset = true)
    (.valueError "external page table has unset page ids for slot mapping")
  pure (places.map fun row => row.map c.slot)

/-- The pages of a row that hold its first positions. -/
def selectedPages (seqId : Int) (pageCount : Nat) : Except CacheError (List Nat) := do
  let s ← index c.batchSize seqId
  let selected := ((List.finRange _).take pageCount).map fun k => (c.pageTable s k : Nat)
  throwIf ((c.usesExternalPageTable && selected.any (· ≤ 0)) = true)
    (.valueError ("external page table has unset page ids for " ++
      s!"seq_id={seqId}, page_count={pageCount}"))
  pure selected

def flashinferPagedMetadata (seqIds lengths : List Int) : Except CacheError PagedMetadata := do
  throwIf (lengths.length ≠ seqIds.length)
    (.valueError ("lengths must have one entry per seq_id, " ++
      s!"got {lengths.length} lengths for {seqIds.length} seq_ids"))
  throwIf (∃ n ∈ lengths, n ≤ 0)
    (.valueError "FlashInfer paged metadata requires positive KV lengths.")
  throwIf (∃ n ∈ lengths, (c.maxLength : Int) < n)
    (.valueError s!"KV lengths must be <= max_length={c.maxLength}, got {lengths}")
  let pageCounts := lengths.map fun (n : Int) => ((n+c.pageSize-1)/c.pageSize).toNat
  let selected ← (seqIds.zip pageCounts).mapM fun x => c.selectedPages x.1 x.2
  pure {
    indptr := (List.range (seqIds.length+1)).map fun i => (pageCounts.take i).sum
    indices := selected.flatten
    lastPageLen := lengths.map fun (n : Int) => ((n-1) % c.pageSize + 1).toNat }

/-- Where a `write_range` is to store its values. -/
def writePlaces (w : WriteRange α) :
    Except CacheError (List (Fin c.numPages × Fin c.pageSize)) := do
  throwIf (w.start < 0 ∨ (c.maxLength : Int) < w.start+w.kv.length)
    (.valueError ("range must be inside cache capacity, " ++
      s!"got start={w.start}, length={w.kv.length}, max_length={c.maxLength}"))
  if w.kv = [] then pure []
  else
    let places ← c.lookup w.seqId ((List.range w.kv.length).map fun (i : Nat) => w.start+i)
    throwIf (c.unset places = true)
      (.valueError "external page table has unset page ids for write")
    pure places

def writeRange (w : WriteRange α) : Except CacheError (PagedKVCache α) := do
  let places ← c.writePlaces w
  let writes := w.order.filterMap fun i => (places.zip w.kv)[i]?
  pure { c with data := writes.foldl (fun data x => Function.update data x.1 x.2) c.data }

/-- The first positions of each sequence. -/
def materialize (seqIds : List Int) (length : Int) : Except CacheError (List (List α)) := do
  throwIf (length < 0 ∨ (c.maxLength : Int) < length)
    (.valueError s!"length must be in [0, {c.maxLength}], got {length}")
  if length = 0 then pure (seqIds.map fun _ => [])
  else
    seqIds.mapM fun seqId => do
      let places ← c.lookup seqId ((List.range length.toNat).map fun (p : Nat) => (p : Int))
      pure (places.map c.data)

end PagedKVCache

namespace PagedMetadata

/-- The slots that a kernel reads for one request of a CSR triple: whole pages, and the last one up
to its length. -/
def slots (m : PagedMetadata) (pageSize i : Nat) : List Nat :=
  let first := m.indptr[i]?.getD 0
  let last := m.indptr[i+1]?.getD 0
  let pages := (m.indices.drop first).take (last-first)
  pages.zipIdx.flatMap fun x =>
    let length := if x.2+1 = pages.length then m.lastPageLen[i]?.getD 0 else pageSize
    (List.range length).map fun o => x.1*pageSize+o

end PagedMetadata

end FluxServe.Paging
