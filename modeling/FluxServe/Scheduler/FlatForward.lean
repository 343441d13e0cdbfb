import FluxServe.Scheduler.PlanRows
import Mathlib.Logic.Function.Basic

namespace FluxServe

section Maps

variable {β : Type}

/-- A `std::map` over group ids, by what it has for a key. -/
abbrev GroupMap (β : Type) := String → Option β

namespace GroupMap

/-- `m[gid]`, which makes an entry where there is none. -/
def touch (m : GroupMap β) (gid : String) (fresh : β) : GroupMap β :=
  Function.update m gid (some ((m gid).getD fresh))

/-- `m[gid][row] = v`. -/
def assign (m : GroupMap (List β)) (gid : String) (row : Nat) (v : β) : GroupMap (List β) :=
  Function.update m gid (some (((m gid).getD []).set row v))

def touchAll {α : Type} (m : GroupMap β) (entries : List (String × α)) (fresh : β) : GroupMap β :=
  entries.foldl (fun m e => m.touch e.1 fresh) m

def assignRow (m : GroupMap (List β)) (row : Nat) (entries : List (String × β)) :
    GroupMap (List β) :=
  entries.foldl (fun m e => m.assign e.1 row e.2) m

end GroupMap

end Maps

def ForwardOperation.shiftedInputIds : ForwardOperation → List Token
  | prefill _ _ shiftedInputIds _ => shiftedInputIds
  | decode _ _ _ => []

def ForwardOperation.decodeInputId : ForwardOperation → Int
  | prefill _ _ _ _ => -1
  | decode _ decodeInputId _ => decodeInputId

def ForwardOperation.histTokenLen : ForwardOperation → Int
  | prefill _ _ _ _ => -1
  | decode _ _ histTokenLen => histTokenLen

/-- A forward operation with the tables of its request. A prefill takes its length and its tokens
from one window of the prompt. -/
structure GroupedOperation where
  op : ForwardOperation
  pagedCachePages : List (String × List Int) := []
  pagedCachePageBaseOffsets : List (String × Int) := []
  measured : op.isPrefill = true → op.base.inputLength = op.inputIds.length
  pages_nodup : (pagedCachePages.map Prod.fst).Nodup := by decide
  offsets_nodup : (pagedCachePageBaseOffsets.map Prod.fst).Nodup := by decide

def GroupedOperation.isPrefill (o : GroupedOperation) : Bool := o.op.isPrefill

structure FlatForwardOperation where
  requestIds : List RequestId := []
  requestPoolIndices : List Int := []
  inputLengths : List Int := []
  prefillLengths : List Int := []
  occupiedPages : List (List PageId) := []
  starts : List Int := []
  sizes : List Int := []
  inputIds : List Token := []
  shiftedInputIds : List Token := []
  extendPrefixLens : List Int := []
  decodeInputIds : List Int := []
  histTokenLens : List Int := []
  pagedCacheBlockTables : GroupMap (List (List Int)) := fun _ => none
  pagedCacheBlockTableBaseOffsets : GroupMap (List Int) := fun _ => none

namespace FlatForwardOperation

def numExtends (flat : FlatForwardOperation) : Nat := flat.extendPrefixLens.length

/-- The first pass over an operation. -/
def pushRow (flat : FlatForwardOperation) (o : GroupedOperation) : FlatForwardOperation :=
  let base := o.op.base
  let flat := { flat with
    requestIds := flat.requestIds ++ [base.requestId]
    requestPoolIndices := flat.requestPoolIndices ++ [base.requestPoolIndex]
    inputLengths := flat.inputLengths ++ [base.inputLength]
    prefillLengths := flat.prefillLengths ++ [base.prefillLength]
    occupiedPages := flat.occupiedPages ++ [base.occupiedPages]
    starts := flat.starts ++ [base.start]
    sizes := flat.sizes ++ [base.size]
    pagedCacheBlockTables := flat.pagedCacheBlockTables.touchAll o.pagedCachePages []
    pagedCacheBlockTableBaseOffsets :=
      flat.pagedCacheBlockTableBaseOffsets.touchAll o.pagedCachePageBaseOffsets [] }
  match o.op with
  | .prefill _ inputIds shiftedInputIds extendPrefixLen =>
    { flat with
      inputIds := flat.inputIds ++ inputIds
      shiftedInputIds := flat.shiftedInputIds ++ shiftedInputIds
      extendPrefixLens := flat.extendPrefixLens ++ [extendPrefixLen] }
  | .decode _ decodeInputId histTokenLen =>
    { flat with
      decodeInputIds := flat.decodeInputIds ++ [decodeInputId]
      histTokenLens := flat.histTokenLens ++ [histTokenLen] }

/-- `table.assign(num_reqs, fresh)` for every table. -/
def clearTables {β : Type} (numReqs : Nat) (fresh : β) (m : GroupMap (List β)) :
    GroupMap (List β) := fun gid => (m gid).map fun _ => List.replicate numReqs fresh

/-- The second pass, which puts what each operation has for a group into its row. -/
def fillRows {β : Type} (entriesOf : GroupedOperation → List (String × β)) :
    Nat → List GroupedOperation → GroupMap (List β) → GroupMap (List β)
  | _,[],m => m
  | row,o::ops,m => fillRows entriesOf (row+1) ops (m.assignRow row (entriesOf o))

/-- `row.resize(columns, -1)` for a row that is not longer. -/
def padRow (columns : Nat) (row : List Int) : List Int :=
  row ++ List.replicate (columns-row.length) (-1)

def maxColumns (table : List (List Int)) : Nat :=
  table.foldl (fun columns row => max columns row.length) 0

def padRectangularMinusOne (tables : GroupMap (List (List Int))) : GroupMap (List (List Int)) :=
  fun gid => (tables gid).map fun table => table.map (padRow (maxColumns table))

/-- The constructor. -/
def ofOperations (ops : List GroupedOperation) : FlatForwardOperation :=
  let (prefills,decodes) := ops.partition GroupedOperation.isPrefill
  let ops := prefills ++ decodes
  let flat := ops.foldl pushRow {}
  let numReqs := flat.requestIds.length
  let tables := clearTables numReqs [] flat.pagedCacheBlockTables
  let offsets := clearTables numReqs 0 flat.pagedCacheBlockTableBaseOffsets
  { flat with
    pagedCacheBlockTables :=
      padRectangularMinusOne (fillRows GroupedOperation.pagedCachePages 0 ops tables)
    pagedCacheBlockTableBaseOffsets :=
      fillRows GroupedOperation.pagedCachePageBaseOffsets 0 ops offsets }

end FlatForwardOperation

section Decoder

inductive PagedPrefillFault
  | metadata (numExtends extendPrefixLens : Nat)
  | inputIds (consumed : Int) (total : Nat)
  deriving DecidableEq, Repr

/-- `xs[i:j]`, where a negative index counts from the end. -/
def pySlice {α : Type} (xs : List α) (i j : Int) : List α :=
  let bound (k : Int) : Nat :=
    if k < 0 then (k+xs.length).toNat else min k.toNat xs.length
  (xs.take (bound j)).drop (bound i)

def cutChunks (inputIds : List Token) : Int → List Int → List (List Token) × Int
  | cursor,[] => ([],cursor)
  | cursor,length::lengths =>
    let (chunks,last) := cutChunks inputIds (cursor+length) lengths
    (pySlice inputIds cursor (cursor+length) :: chunks,last)

/-- How `_execute_paged_prefill` cuts the tokens of a plan, and its checks of the cut. -/
def cutPagedPrefill (op : FlatForwardOperation) (numPrefill : Nat) :
    Except PagedPrefillFault (List (List Token)) :=
  if op.extendPrefixLens.length ≠ numPrefill then
    throw (.metadata numPrefill op.extendPrefixLens.length)
  else
    let (chunks,cursor) := cutChunks op.inputIds 0 (op.inputLengths.take numPrefill)
    if cursor ≠ op.inputIds.length then throw (.inputIds cursor op.inputIds.length)
    else pure chunks

end Decoder

section RoundTrip

variable {β : Type} {m : GroupMap (List β)} {gid : String} {v : β} {row : Nat}
  {ops rows : List GroupedOperation} {flat : FlatForwardOperation}

open FlatForwardOperation

theorem touchAll_isSome {α : Type} {m : GroupMap β} {fresh : β} (entries : List (String × α)) :
    (m.touchAll entries fresh gid).isSome = true ↔
      (m gid).isSome = true ∨ gid ∈ entries.map Prod.fst := by
  induction entries generalizing m with
  | nil => simp [GroupMap.touchAll]
  | cons e entries ih =>
    change ((m.touch e.1 fresh).touchAll entries fresh gid).isSome = true ↔ _
    rw [ih,List.map_cons,List.mem_cons,GroupMap.touch]
    by_cases hgid : gid = e.1
    · subst hgid
      simp
    · rw [Function.update_of_ne hgid]
      simp [hgid]

/-- Each group that an operation has gets its value in the row, the others stay. -/
theorem assignRow_apply {entries : List (String × β)} (h : (entries.map Prod.fst).Nodup) :
    m.assignRow row entries gid =
      match entries.lookup gid with
      | some v => some (((m gid).getD []).set row v)
      | none => m gid := by
  induction entries generalizing m with
  | nil => rfl
  | cons e entries ih =>
    rw [List.map_cons,List.nodup_cons] at h
    change (m.assign e.1 row e.2).assignRow row entries gid = _
    rw [ih h.2,GroupMap.assign,List.lookup_cons]
    by_cases hgid : gid = e.1
    · subst hgid
      rw [lookup_eq_none_iff_notMem.mpr h.1,beq_self_eq_true,Function.update_self]
    · rw [Function.update_of_ne hgid,beq_false_of_ne hgid]

/-- What an operation has for a group. -/
def valueIn (entriesOf : GroupedOperation → List (String × β)) (fresh : β) (gid : String)
    (o : GroupedOperation) : β := ((entriesOf o).lookup gid).getD fresh

theorem fillRows_none {entriesOf : GroupedOperation → List (String × β)}
    (hnodup : ∀ o, ((entriesOf o).map Prod.fst).Nodup) (hm : m gid = none)
    (habsent : ∀ o ∈ ops, gid ∉ (entriesOf o).map Prod.fst) :
    fillRows entriesOf row ops m gid = none := by
  induction ops generalizing m row with
  | nil => exact hm
  | cons o ops ih =>
    apply ih
    · rw [assignRow_apply (hnodup o),lookup_eq_none_iff_notMem.mpr (habsent o List.mem_cons_self)]
      exact hm
    · exact fun o' ho' => habsent o' (List.mem_cons_of_mem _ ho')

/-- The rows are filled one after the other; those still to come are fresh. -/
theorem fillRows_some {entriesOf : GroupedOperation → List (String × β)} {fresh : β}
    (hnodup : ∀ o, ((entriesOf o).map Prod.fst).Nodup) (filled : List β)
    (hm : m gid = some (filled ++ List.replicate ops.length fresh)) :
    fillRows entriesOf filled.length ops m gid =
      some (filled ++ ops.map (valueIn entriesOf fresh gid)) := by
  induction ops generalizing m filled with
  | nil =>
    rw [List.length_nil,List.replicate_zero] at hm
    exact hm
  | cons o ops ih =>
    have hstep : m.assignRow filled.length (entriesOf o) gid =
        some ((filled ++ [valueIn entriesOf fresh gid o]) ++ List.replicate ops.length fresh) := by
      rw [assignRow_apply (hnodup o),hm,valueIn]
      cases (entriesOf o).lookup gid <;> simp [List.replicate_succ]
    have hlength : filled.length+1 = (filled ++ [valueIn entriesOf fresh gid o]).length := by simp
    change fillRows entriesOf (filled.length+1) ops _ gid = _
    rw [hlength,ih _ hstep,List.append_assoc]
    rfl

/-- What the first pass has made of some rows. -/
structure Pushed (rows : List GroupedOperation) (flat : FlatForwardOperation) : Prop where
  requestIds : flat.requestIds = rows.map fun o => o.op.base.requestId
  requestPoolIndices : flat.requestPoolIndices = rows.map fun o => o.op.base.requestPoolIndex
  inputLengths : flat.inputLengths = rows.map fun o => o.op.base.inputLength
  prefillLengths : flat.prefillLengths = rows.map fun o => o.op.base.prefillLength
  occupiedPages : flat.occupiedPages = rows.map fun o => o.op.base.occupiedPages
  starts : flat.starts = rows.map fun o => o.op.base.start
  sizes : flat.sizes = rows.map fun o => o.op.base.size
  inputIds : flat.inputIds = rows.flatMap fun o => o.op.inputIds
  shiftedInputIds : flat.shiftedInputIds = rows.flatMap fun o => o.op.shiftedInputIds
  extendPrefixLens : flat.extendPrefixLens =
    (rows.filter GroupedOperation.isPrefill).map fun o => o.op.extendPrefixLen
  decodeInputIds : flat.decodeInputIds =
    (rows.filter fun o => !o.isPrefill).map fun o => o.op.decodeInputId
  histTokenLens : flat.histTokenLens =
    (rows.filter fun o => !o.isPrefill).map fun o => o.op.histTokenLen
  tables : ∀ gid, (flat.pagedCacheBlockTables gid).isSome = true ↔
    ∃ o ∈ rows, gid ∈ o.pagedCachePages.map Prod.fst
  offsets : ∀ gid, (flat.pagedCacheBlockTableBaseOffsets gid).isSome = true ↔
    ∃ o ∈ rows, gid ∈ o.pagedCachePageBaseOffsets.map Prod.fst

theorem pushed_nil : Pushed [] {} := by
  constructor <;> simp

theorem Pushed.push (h : Pushed rows flat) (o : GroupedOperation) :
    Pushed (rows ++ [o]) (flat.pushRow o) := by
  have htables : ∀ gid, (flat.pagedCacheBlockTables.touchAll o.pagedCachePages [] gid).isSome =
      true ↔ ∃ x ∈ rows ++ [o], gid ∈ x.pagedCachePages.map Prod.fst := by
    intro gid
    rw [touchAll_isSome,h.tables]
    simp [or_and_right,exists_or]
  have hoffsets : ∀ gid, (flat.pagedCacheBlockTableBaseOffsets.touchAll
      o.pagedCachePageBaseOffsets [] gid).isSome = true ↔
        ∃ x ∈ rows ++ [o], gid ∈ x.pagedCachePageBaseOffsets.map Prod.fst := by
    intro gid
    rw [touchAll_isSome,h.offsets]
    simp [or_and_right,exists_or]
  have hfields := And.intro h.requestIds (And.intro h.requestPoolIndices (And.intro h.inputLengths
    (And.intro h.prefillLengths (And.intro h.occupiedPages (And.intro h.starts h.sizes)))))
  have hclasses := And.intro h.inputIds (And.intro h.shiftedInputIds
    (And.intro h.extendPrefixLens (And.intro h.decodeInputIds h.histTokenLens)))
  cases hop : o.op with
  | prefill =>
    have hclass : o.isPrefill = true := by
      simp [GroupedOperation.isPrefill,hop,ForwardOperation.isPrefill]
    constructor <;>
      simp [FlatForwardOperation.pushRow,hop,hfields,hclasses,hclass,htables,hoffsets,
        ForwardOperation.base,ForwardOperation.inputIds,ForwardOperation.shiftedInputIds,
        ForwardOperation.extendPrefixLen]
  | decode =>
    have hclass : o.isPrefill = false := by
      simp [GroupedOperation.isPrefill,hop,ForwardOperation.isPrefill]
    constructor <;>
      simp [FlatForwardOperation.pushRow,hop,hfields,hclasses,hclass,htables,hoffsets,
        ForwardOperation.base,ForwardOperation.inputIds,ForwardOperation.shiftedInputIds,
        ForwardOperation.decodeInputId,ForwardOperation.histTokenLen]

theorem pushed_foldl (ops : List GroupedOperation) (h : Pushed rows flat) :
    Pushed (rows ++ ops) (ops.foldl pushRow flat) := by
  induction ops generalizing rows flat with
  | nil =>
    rw [List.append_nil]
    exact h
  | cons o ops ih =>
    rw [List.append_cons]
    exact ih (h.push o)

theorem pySlice_append {α : Type} (before chunk after : List α) :
    pySlice ((before ++ chunk) ++ after) before.length ((before ++ chunk).length : Int) =
      chunk := by
  have hneg : ∀ n : Nat, ¬ (n : Int) < 0 := fun n => Int.not_lt.mpr (Int.natCast_nonneg n)
  have hlow : before.length ≤ ((before ++ chunk) ++ after).length := by
    simp only [List.length_append]
    omega
  have hhigh : (before ++ chunk).length ≤ ((before ++ chunk) ++ after).length := by
    simp only [List.length_append]
    omega
  simp only [pySlice,if_neg (hneg _),Int.toNat_natCast,Nat.min_eq_left hlow,Nat.min_eq_left hhigh]
  rw [List.take_left,List.drop_left]

/-- A row of the scheduler is measured where its window lies within the prompt. -/
theorem prefillRow_measured {s : Scheduler} {r : Request} {f : ForwardState} {l : LocalKVAllocator}
    {w : Window} {start : Nat} (hstart : 0 ≤ w.start) (hsize : 0 ≤ w.size)
    (hfits : w.start+w.size ≤ r.tokens.length) :
    (prefillRow s r f l w start).base.inputLength =
      (prefillRow s r f l w start).inputIds.length := by
  change w.size = ((r.tokens.drop w.start.toNat).take w.size.toNat).length
  rw [List.length_take,List.length_drop]
  omega

/-- Rows of tokens that lie one behind the other are cut apart by their lengths. -/
theorem cutChunks_flatten (before : List Token) (chunks : List (List Token)) :
    cutChunks (before ++ chunks.flatten) before.length (chunks.map fun c => (c.length : Int)) =
      (chunks,((before ++ chunks.flatten).length : Int)) := by
  induction chunks generalizing before with
  | nil => simp [cutChunks]
  | cons chunk chunks ih =>
    have hsplit : before ++ (chunk :: chunks).flatten = (before ++ chunk) ++ chunks.flatten := by
      simp
    have hcursor : (before.length : Int)+chunk.length = ((before ++ chunk).length : Int) := by simp
    rw [List.map_cons,cutChunks,hsplit,hcursor,ih]
    rw [pySlice_append]

/-- The pages that an operation has for a group. -/
def pagesIn : String → GroupedOperation → List Int := valueIn GroupedOperation.pagedCachePages []

/-- The most pages that a row has for a group. -/
def groupMaximum (gid : String) (rows : List GroupedOperation) : Nat :=
  (rows.map fun o => (pagesIn gid o).length).foldr max 0

theorem foldl_max_eq (lengths : List Nat) (n : Nat) :
    lengths.foldl max n = max n (lengths.foldr max 0) := by
  induction lengths generalizing n with
  | nil => exact (Nat.max_zero n).symm
  | cons a lengths ih =>
    rw [List.foldl_cons,List.foldr_cons,ih,Nat.max_assoc]

theorem maxColumns_pages (gid : String) (rows : List GroupedOperation) :
    maxColumns (rows.map (pagesIn gid)) = groupMaximum gid rows := by
  have hfold := foldl_max_eq (rows.map fun o => (pagesIn gid o).length) 0
  rw [Nat.zero_max,List.foldl_map] at hfold
  rw [maxColumns,groupMaximum,List.foldl_map]
  exact hfold

/-- The rows of a flat operation, in the classes' order. -/
def rowsOf (ops : List GroupedOperation) : List GroupedOperation :=
  ops.filter GroupedOperation.isPrefill ++ ops.filter fun o => !o.isPrefill

/-- A table is there for each group that a row has, with what each row has for the group. -/
theorem filled_tables {entriesOf : GroupedOperation → List (String × β)} {fresh : β}
    (hnodup : ∀ o, ((entriesOf o).map Prod.fst).Nodup)
    (hm : (m gid).isSome = true ↔ ∃ o ∈ rows, gid ∈ (entriesOf o).map Prod.fst) :
    fillRows entriesOf 0 rows (clearTables rows.length fresh m) gid =
      if ∃ o ∈ rows, gid ∈ (entriesOf o).map Prod.fst then
        some (rows.map (valueIn entriesOf fresh gid))
      else none := by
  split
  · next hany =>
    obtain ⟨table,htable⟩ := Option.isSome_iff_exists.mp (hm.mpr hany)
    apply fillRows_some hnodup []
    rw [clearTables,htable]
    rfl
  · next hnone =>
    have habsent : m gid = none := by
      rw [← Option.not_isSome_iff_eq_none,hm]
      exact hnone
    apply fillRows_none hnodup
    · rw [clearTables,habsent]
      rfl
    · exact fun o ho hgid => hnone ⟨o,ho,hgid⟩

/-- The vectors of a flat operation, row by row and class by class. -/
structure Aligned (ops : List GroupedOperation) (flat : FlatForwardOperation) : Prop where
  perm : (rowsOf ops).Perm ops
  requestIds : flat.requestIds = (rowsOf ops).map fun o => o.op.base.requestId
  requestPoolIndices : flat.requestPoolIndices =
    (rowsOf ops).map fun o => o.op.base.requestPoolIndex
  inputLengths : flat.inputLengths = (rowsOf ops).map fun o => o.op.base.inputLength
  prefillLengths : flat.prefillLengths = (rowsOf ops).map fun o => o.op.base.prefillLength
  occupiedPages : flat.occupiedPages = (rowsOf ops).map fun o => o.op.base.occupiedPages
  starts : flat.starts = (rowsOf ops).map fun o => o.op.base.start
  sizes : flat.sizes = (rowsOf ops).map fun o => o.op.base.size
  inputIds : flat.inputIds = (ops.filter GroupedOperation.isPrefill).flatMap fun o => o.op.inputIds
  shiftedInputIds : flat.shiftedInputIds =
    (ops.filter GroupedOperation.isPrefill).flatMap fun o => o.op.shiftedInputIds
  extendPrefixLens : flat.extendPrefixLens =
    (ops.filter GroupedOperation.isPrefill).map fun o => o.op.extendPrefixLen
  decodeInputIds : flat.decodeInputIds =
    (ops.filter fun o => !o.isPrefill).map fun o => o.op.decodeInputId
  histTokenLens : flat.histTokenLens =
    (ops.filter fun o => !o.isPrefill).map fun o => o.op.histTokenLen

theorem rowsOf_isPrefill (ops : List GroupedOperation) :
    (rowsOf ops).filter GroupedOperation.isPrefill = ops.filter GroupedOperation.isPrefill := by
  have hnone : (ops.filter fun o => !o.isPrefill).filter GroupedOperation.isPrefill = [] := by
    apply List.filter_eq_nil_iff.mpr
    intro o ho
    have hdecode := (List.mem_filter.mp ho).2
    simpa using hdecode
  rw [rowsOf,List.filter_append,hnone,List.append_nil]
  exact List.filter_eq_self.mpr fun o ho => (List.mem_filter.mp ho).2

theorem rowsOf_isDecode (ops : List GroupedOperation) :
    ((rowsOf ops).filter fun o => !o.isPrefill) = ops.filter fun o => !o.isPrefill := by
  have hnone : ((ops.filter GroupedOperation.isPrefill).filter fun o => !o.isPrefill) = [] := by
    apply List.filter_eq_nil_iff.mpr
    intro o ho
    simp [(List.mem_filter.mp ho).2]
  rw [rowsOf,List.filter_append,hnone,List.nil_append]
  exact List.filter_eq_self.mpr fun o ho => (List.mem_filter.mp ho).2

theorem rowsOf_perm (ops : List GroupedOperation) : (rowsOf ops).Perm ops :=
  List.filter_append_perm _ ops

/-- Only prefill rows have tokens. -/
theorem flatMap_rowsOf {g : ForwardOperation → List Token}
    (hg : ∀ o : GroupedOperation, o.isPrefill = false → g o.op = []) (ops : List GroupedOperation) :
    ((rowsOf ops).flatMap fun o => g o.op) =
      (ops.filter GroupedOperation.isPrefill).flatMap fun o => g o.op := by
  have hnone : ((ops.filter fun o => !o.isPrefill).flatMap fun o => g o.op) = [] := by
    apply List.flatMap_eq_nil_iff.mpr
    intro o ho
    have hdecode := (List.mem_filter.mp ho).2
    exact hg o (by simpa using hdecode)
  rw [rowsOf,List.flatMap_append,hnone,List.append_nil]

theorem inputIds_of_decode {o : GroupedOperation} (h : o.isPrefill = false) :
    o.op.inputIds = [] ∧ o.op.shiftedInputIds = [] := by
  rw [GroupedOperation.isPrefill] at h
  cases hop : o.op with
  | prefill =>
    rw [hop] at h
    cases h
  | decode => exact ⟨rfl,rfl⟩

theorem pushed_rowsOf (ops : List GroupedOperation) :
    Pushed (rowsOf ops) ((rowsOf ops).foldl pushRow {}) :=
  pushed_foldl (rowsOf ops) pushed_nil

theorem ofOperations_eq (ops : List GroupedOperation) :
    let flat := (rowsOf ops).foldl pushRow {}
    ofOperations ops =
      { flat with
        pagedCacheBlockTables := padRectangularMinusOne
          (fillRows GroupedOperation.pagedCachePages 0 (rowsOf ops)
            (clearTables (rowsOf ops).length [] flat.pagedCacheBlockTables))
        pagedCacheBlockTableBaseOffsets :=
          fillRows GroupedOperation.pagedCachePageBaseOffsets 0 (rowsOf ops)
            (clearTables (rowsOf ops).length 0 flat.pagedCacheBlockTableBaseOffsets) } := by
  have hlength : ((rowsOf ops).foldl pushRow {}).requestIds.length = (rowsOf ops).length := by
    rw [(pushed_rowsOf ops).requestIds,List.length_map]
  rw [← hlength]
  simp only [ofOperations,List.partition_eq_filter_filter]
  rfl

theorem aligned_ofOperations (ops : List GroupedOperation) : Aligned ops (ofOperations ops) := by
  have h := pushed_rowsOf ops
  rw [ofOperations_eq]
  constructor
  · exact rowsOf_perm ops
  · exact h.requestIds
  · exact h.requestPoolIndices
  · exact h.inputLengths
  · exact h.prefillLengths
  · exact h.occupiedPages
  · exact h.starts
  · exact h.sizes
  · exact h.inputIds.trans (flatMap_rowsOf (fun o ho => (inputIds_of_decode ho).1) ops)
  · exact h.shiftedInputIds.trans (flatMap_rowsOf (fun o ho => (inputIds_of_decode ho).2) ops)
  · rw [← rowsOf_isPrefill ops]
    exact h.extendPrefixLens
  · rw [← rowsOf_isDecode ops]
    exact h.decodeInputIds
  · rw [← rowsOf_isDecode ops]
    exact h.histTokenLens

/-- The lengths of the first rows are the lengths of what each prefill has to compute. -/
theorem Aligned.prefillLengths_eq (h : Aligned ops flat) :
    flat.inputLengths.take flat.numExtends =
      ((ops.filter GroupedOperation.isPrefill).map fun o => o.op.inputIds).map
        fun ids => (ids.length : Int) := by
  have hcount : flat.numExtends = ((ops.filter GroupedOperation.isPrefill).map
      fun o => o.op.base.inputLength).length := by
    rw [FlatForwardOperation.numExtends,h.extendPrefixLens,List.length_map,List.length_map]
  rw [h.inputLengths,rowsOf,List.map_append,hcount,List.take_left,List.map_map]
  apply List.map_congr_left
  intro o ho
  exact o.measured (List.mem_filter.mp ho).2

/-- Cutting the tokens of a flat operation gives each prefill back its own. -/
theorem Aligned.cut (h : Aligned ops flat) :
    cutPagedPrefill flat flat.numExtends =
      .ok ((ops.filter GroupedOperation.isPrefill).map fun o => o.op.inputIds) := by
  have hids : flat.inputIds =
      [] ++ ((ops.filter GroupedOperation.isPrefill).map fun o => o.op.inputIds).flatten := by
    rw [h.inputIds,List.nil_append,List.flatMap_def]
  have hcut := cutChunks_flatten []
    ((ops.filter GroupedOperation.isPrefill).map fun o => o.op.inputIds)
  rw [← hids,← h.prefillLengths_eq] at hcut
  rw [cutPagedPrefill,if_neg (by simp [FlatForwardOperation.numExtends])]
  rw [List.length_nil,Nat.cast_zero] at hcut
  rw [hcut]
  exact if_neg (not_not_intro rfl)

end RoundTrip

end FluxServe
