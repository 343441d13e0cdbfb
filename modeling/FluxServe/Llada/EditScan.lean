import FluxServe.Framework.Scatter
import FluxServe.Engine.Request

namespace FluxServe.Llada

open Engine

/-- A tensor with one row for each sequence of the batch. -/
abbrev Rows (B L : Nat) (α : Type) := Fin B → Fin L → α

/-- The ids of a mask and of the two edit tokens. -/
structure EditIds where
  maskId : Token
  deleteTokenId : Token
  splitTokenId : Token
  deriving DecidableEq, Repr

section Scalar

variable (ids : EditIds)

/-- What one token of a block leaves behind: tokens and whether each is an original mask. -/
def editedToken (oldBlockTokens : List Token) (isOriginalMask : List Bool) (promptLength : Int)
    (token : Token) (i : Nat) : List (Token × Bool) :=
  if (i : Int) < promptLength then [(token,false)]
  else if token = ids.deleteTokenId then []
  else
    let snapshot := (isOriginalMask[i]?).getD false
    if token = ids.splitTokenId then
      [(ids.maskId,false),((oldBlockTokens[i]?).getD ids.maskId,snapshot)]
    else [(token,snapshot)]

/-- `apply_edit_operations`: one row, on plain lists. -/
def applyEditOperations (blockTokens oldBlockTokens : List Token) (isOriginalMask : List Bool)
    (blockLength : Nat) (promptLength : Int) : List Token × List Bool :=
  let result := (blockTokens.zipIdx.map fun x =>
    editedToken ids oldBlockTokens isOriginalMask promptLength x.1 x.2).flatten
  let resultTokens := result.map Prod.fst
  let resultTracking := result.map Prod.snd
  if blockLength < resultTokens.length then
    (resultTokens.take blockLength,resultTracking.take blockLength)
  else if resultTokens.length < blockLength then
    let pad := blockLength-resultTokens.length
    (resultTokens ++ List.replicate pad ids.maskId,resultTracking ++ List.replicate pad false)
  else (resultTokens,resultTracking)

end Scalar

/-- The orders in which the four scatters of a row write. -/
structure ScatterOrder (L : Nat) where
  primaryTokens : Equiv.Perm (Fin L) := Equiv.refl _
  primaryTracking : Equiv.Perm (Fin L) := Equiv.refl _
  secondaryTokens : Equiv.Perm (Fin L) := Equiv.refl _
  secondaryTracking : Equiv.Perm (Fin L) := Equiv.refl _

section Batched

variable {B L : Nat} (ids : EditIds) (blk old : Fin L → Token)
  (isOriginalMask promptPositions : Fin L → Bool)

def isDel (i : Fin L) : Bool := !promptPositions i && blk i == ids.deleteTokenId

def isSpl (i : Fin L) : Bool := !promptPositions i && blk i == ids.splitTokenId

/-- How many tokens a position contributes. -/
def counts (i : Fin L) : Nat :=
  if isDel ids blk promptPositions i then 0
  else if isSpl ids blk promptPositions i then 2
  else 1

/-- The exclusive cumulative sum of the counts. -/
def start (i : Fin L) : Nat :=
  cumsum (counts ids blk promptPositions) i - counts ids blk promptPositions i

theorem counts_le_two (i : Fin L) : counts ids blk promptPositions i ≤ 2 := by
  unfold counts
  split
  · exact Nat.zero_le 2
  · split <;> decide

theorem start_eq (i : Fin L) :
    start ids blk promptPositions i = offset (counts ids blk promptPositions) i :=
  cumsum_sub_count _ i

theorem start_lt (i : Fin L) : start ids blk promptPositions i < 2*L := by
  rw [start_eq]
  have hle := offset_le (counts_le_two ids blk promptPositions) i
  omega

/-- The last slot of the staging buffer, for writes that are suppressed. -/
def sink (L : Nat) : Fin (2*L+1) := Fin.last (2*L)

def primaryIdx (i : Fin L) : Fin (2*L+1) :=
  if isDel ids blk promptPositions i then sink L
  else ⟨start ids blk promptPositions i,Nat.lt_succ_of_lt (start_lt ids blk promptPositions i)⟩

def secondaryIdx (i : Fin L) : Fin (2*L+1) :=
  if isSpl ids blk promptPositions i then
    ⟨min (start ids blk promptPositions i + 1) (2*L),by omega⟩
  else sink L

/-- The primary and then the secondary contributions, in a buffer that is filled before. -/
def scatterBoth {α : Type} (order order' : Equiv.Perm (Fin L)) (primary secondary : Fin L → α)
    (fill : α) : Fin (2*L+1) → α :=
  scatter order' (secondaryIdx ids blk promptPositions) secondary
    (scatter order (primaryIdx ids blk promptPositions) primary fun _ => fill)

/-- One row of `apply_edit_operations_batched`. -/
def applyEditRow (order : ScatterOrder L) : (Fin L → Token) × (Fin L → Bool) :=
  let total := (List.ofFn (counts ids blk promptPositions)).sum
  let primaryTok i := if isSpl ids blk promptPositions i then ids.maskId else blk i
  let primaryTrk i := isOriginalMask i && !isSpl ids blk promptPositions i && !promptPositions i
  let tokens := scatterBoth ids blk promptPositions order.primaryTokens order.secondaryTokens
    primaryTok old ids.maskId
  let tracking := scatterBoth ids blk promptPositions order.primaryTracking
    order.secondaryTracking primaryTrk isOriginalMask false
  let pad (j : Fin L) : Bool := decide (total ≤ j)
  let slot (j : Fin L) : Fin (2*L+1) := j.castLE (by omega)
  (fun j => if pad j then ids.maskId else tokens (slot j),fun j => tracking (slot j) && !pad j)

/-- `apply_edit_operations_batched`, every operation of which stays inside its row. -/
def applyEditOperationsBatched (blk old : Rows B L Token) (isOriginalMask : Rows B L Bool)
    (promptPositions : Rows B L Bool) (order : Fin B → ScatterOrder L) :
    Rows B L Token × Rows B L Bool :=
  let row b := applyEditRow ids (blk b) (old b) (isOriginalMask b) (promptPositions b) (order b)
  (fun b => (row b).1,fun b => (row b).2)

end Batched

section Agreement

variable {B L : Nat} {ids : EditIds} {blk old : Fin L → Token}
  {isOriginalMask promptPositions : Fin L → Bool} {i : Fin L} {α : Type}
  {order order' : Equiv.Perm (Fin L)} {primary secondary : Fin L → α} {fill : α}
  {slot : Fin (2*L+1)}

theorem counts_of_isSpl (hne : ids.deleteTokenId ≠ ids.splitTokenId)
    (h : isSpl ids blk promptPositions i = true) : counts ids blk promptPositions i = 2 := by
  have hdel : isDel ids blk promptPositions i = false := by
    simp only [isSpl,Bool.and_eq_true,beq_iff_eq] at h
    simp [isDel,h.2,hne.symm]
  simp [counts,hdel,h]

/-- Which slot a secondary contribution goes to. -/
theorem secondaryIdx_eq (hne : ids.deleteTokenId ≠ ids.splitTokenId) (hslot : slot ≠ sink L) :
    secondaryIdx ids blk promptPositions i = slot ↔
      isSpl ids blk promptPositions i = true ∧
        offset (counts ids blk promptPositions) i + 1 = slot := by
  unfold secondaryIdx
  split
  · next h =>
    have hle := offset_le (counts_le_two ids blk promptPositions) (i+1)
    rw [offset_succ,counts_of_isSpl hne h] at hle
    have hmin : min (start ids blk promptPositions i + 1) (2*L) =
        offset (counts ids blk promptPositions) i + 1 := by
      rw [start_eq]
      omega
    simp only [h,Fin.ext_iff,hmin,true_and]
  · next h => simp [h,Ne.symm hslot]

theorem primaryIdx_eq (hslot : slot ≠ sink L) :
    primaryIdx ids blk promptPositions i = slot ↔
      isDel ids blk promptPositions i = false ∧
        offset (counts ids blk promptPositions) i = slot := by
  unfold primaryIdx
  split
  · next h => simp [h,Ne.symm hslot]
  · next h =>
    simp only [Bool.not_eq_true] at h
    simp only [h,Fin.ext_iff,start_eq,true_and]

theorem counts_pos (h : isDel ids blk promptPositions i = false) :
    0 < counts ids blk promptPositions i := by
  simp only [counts,h,Bool.false_eq_true,if_false]
  split <;> decide

/-- The first slot of a position that is not deleted. -/
theorem scatterBoth_primary (hne : ids.deleteTokenId ≠ ids.splitTokenId) (hslot : slot ≠ sink L)
    (hdel : isDel ids blk promptPositions i = false)
    (hi : offset (counts ids blk promptPositions) i = slot) :
    scatterBoth ids blk promptPositions order order' primary secondary fill slot = primary i := by
  rw [scatterBoth,scatter_of_notMem]
  · have hidx : primaryIdx ids blk promptPositions i = slot := (primaryIdx_eq hslot).mpr ⟨hdel,hi⟩
    rw [← hidx]
    apply scatter_of_unique
    intro k hk
    rw [hidx] at hk
    obtain ⟨hkdel,hks⟩ := (primaryIdx_eq hslot).mp hk
    exact (offset_injective (counts_pos hkdel) (counts_pos hdel) (by omega)).1
  · intro k hk
    obtain ⟨hkspl,hks⟩ := (secondaryIdx_eq hne hslot).mp hk
    have hk2 : 1 < counts ids blk promptPositions k := by
      rw [counts_of_isSpl hne hkspl]
      decide
    have hsame : offset (counts ids blk promptPositions) k + 1 =
        offset (counts ids blk promptPositions) i + 0 := by omega
    exact absurd (offset_injective hk2 (counts_pos hdel) hsame).2 (by decide)

/-- The second slot of a split. -/
theorem scatterBoth_secondary (hne : ids.deleteTokenId ≠ ids.splitTokenId) (hslot : slot ≠ sink L)
    (hspl : isSpl ids blk promptPositions i = true)
    (hi : offset (counts ids blk promptPositions) i + 1 = slot) :
    scatterBoth ids blk promptPositions order order' primary secondary fill slot =
      secondary i := by
  have hidx : secondaryIdx ids blk promptPositions i = slot :=
    (secondaryIdx_eq hne hslot).mpr ⟨hspl,hi⟩
  rw [scatterBoth,← hidx]
  apply scatter_of_unique
  intro k hk
  rw [hidx] at hk
  obtain ⟨hkspl,hks⟩ := (secondaryIdx_eq hne hslot).mp hk
  have hone {a : Fin L} (ha : isSpl ids blk promptPositions a = true) :
      1 < counts ids blk promptPositions a := by
    rw [counts_of_isSpl hne ha]
    decide
  exact (offset_injective (hone hkspl) (hone hspl) (by omega)).1

/-- The positions of a prompt. -/
def promptUpTo (L : Nat) (promptLength : Int) (i : Fin L) : Bool := decide ((i : Int) < promptLength)

section Rows

variable (ids : EditIds) (blk old : Fin L → Token) (isOriginalMask : Fin L → Bool)
  (promptLength : Int)

/-- What each position leaves behind, in the scalar edit. -/
def parts (i : Fin L) : List (Token × Bool) :=
  editedToken ids (List.ofFn old) (List.ofFn isOriginalMask) promptLength (blk i) i

theorem parts_eq (i : Fin L) :
    parts ids blk old isOriginalMask promptLength i =
      if isDel ids blk (promptUpTo L promptLength) i then []
      else if isSpl ids blk (promptUpTo L promptLength) i then
        [(ids.maskId,false),(old i,isOriginalMask i)]
      else [(blk i,isOriginalMask i && !promptUpTo L promptLength i)] := by
  by_cases hprompt : (i : Int) < promptLength
  · simp [parts,editedToken,isDel,isSpl,promptUpTo,hprompt]
  · by_cases hdel : blk i = ids.deleteTokenId
    · simp [parts,editedToken,isDel,promptUpTo,hprompt,hdel]
    · by_cases hspl : blk i = ids.splitTokenId
      · simp [parts,editedToken,isDel,isSpl,promptUpTo,hprompt,hspl,hspl ▸ hdel]
      · simp [parts,editedToken,isDel,isSpl,promptUpTo,hprompt,hdel,hspl]

theorem length_parts :
    (fun i => (parts ids blk old isOriginalMask promptLength i).length) =
      counts ids blk (promptUpTo L promptLength) := by
  funext i
  rw [parts_eq,counts]
  split
  · rfl
  · split <;> rfl

/-- A list that is cut or padded to a length. -/
theorem ofFn_fit (l : List α) (fill : α) :
    (List.ofFn fun j : Fin L => (l[(j : Nat)]?).getD fill) =
      if L < l.length then l.take L
      else if l.length < L then l ++ List.replicate (L-l.length) fill
      else l := by
  apply List.ext_getElem?
  intro j
  rw [List.getElem?_ofFn]
  by_cases hj : j < L
  · rw [dif_pos hj]
    dsimp only
    split
    · rw [List.getElem?_take_of_lt hj,List.getElem?_eq_getElem (by omega)]
      rfl
    · split
      · by_cases hlen : j < l.length
        · rw [List.getElem?_append_left hlen,List.getElem?_eq_getElem hlen]
          rfl
        · rw [List.getElem?_append_right (by omega),List.getElem?_replicate,
            if_pos (by omega),List.getElem?_eq_none (by omega)]
          rfl
      · rw [List.getElem?_eq_getElem (by omega)]
        rfl
  · rw [dif_neg hj]
    symm
    apply List.getElem?_eq_none
    split
    · simp; omega
    · split
      · simp; omega
      · omega

/-- The scalar edit, position by position. -/
theorem applyEditOperations_eq :
    applyEditOperations ids (List.ofFn blk) (List.ofFn old) (List.ofFn isOriginalMask) L
        promptLength =
      let result := (List.ofFn (parts ids blk old isOriginalMask promptLength)).flatten
      (List.ofFn fun j : Fin L => ((result[(j : Nat)]?).map Prod.fst).getD ids.maskId,
        List.ofFn fun j : Fin L => ((result[(j : Nat)]?).map Prod.snd).getD false) := by
  have hparts : ((List.ofFn blk).zipIdx.map fun x => editedToken ids (List.ofFn old)
      (List.ofFn isOriginalMask) promptLength x.1 x.2) =
        List.ofFn (parts ids blk old isOriginalMask promptLength) := by
    apply List.ext_getElem
    · simp
    · intro n h₁ h₂
      simp [parts]
  unfold applyEditOperations
  rw [hparts]
  simp only [← List.getElem?_map,ofFn_fit,List.length_map]
  split
  · rfl
  · split <;> rfl

/-- The batched edit, position by position. -/
theorem applyEditRow_eq (hne : ids.deleteTokenId ≠ ids.splitTokenId) (order : ScatterOrder L)
    (j : Fin L) :
    let result := (List.ofFn (parts ids blk old isOriginalMask promptLength)).flatten
    let row := applyEditRow ids blk old isOriginalMask (promptUpTo L promptLength) order
    row.1 j = ((result[(j : Nat)]?).map Prod.fst).getD ids.maskId ∧
      row.2 j = ((result[(j : Nat)]?).map Prod.snd).getD false := by
  have hlen := length_flatten_ofFn (parts ids blk old isOriginalMask promptLength)
  rw [length_parts] at hlen
  have htotal : (List.ofFn (counts ids blk (promptUpTo L promptLength))).sum =
      offset (counts ids blk (promptUpTo L promptLength)) L := by
    rw [offset,List.take_of_length_le (by simp)]
  dsimp only [applyEditRow]
  rw [htotal]
  by_cases hj : offset (counts ids blk (promptUpTo L promptLength)) L ≤ j
  · rw [List.getElem?_eq_none (by omega)]
    simp [hj]
  · obtain ⟨i,_,k,hk,hplace⟩ := exists_offset (Nat.le_refl L) (Nat.lt_of_not_le hj)
    have hslot : j.castLE (by omega) ≠ sink L := by
      simp [sink,Fin.ext_iff]
      omega
    have hpart := getElem?_flatten_ofFn (parts ids blk old isOriginalMask promptLength) i k
      (by rw [← length_parts ids blk old isOriginalMask] at hk; exact hk)
    rw [length_parts,← hplace,parts_eq] at hpart
    rw [hpart]
    simp only [hj,decide_false,Bool.false_eq_true,if_false,Bool.not_false,Bool.and_true]
    cases hdel : isDel ids blk (promptUpTo L promptLength) i with
    | true => simp [counts,hdel] at hk
    | false =>
      obtain rfl | hk0 := Nat.eq_zero_or_pos k
      · rw [scatterBoth_primary hne hslot hdel hplace.symm,
          scatterBoth_primary hne hslot hdel hplace.symm]
        cases hspl : isSpl ids blk (promptUpTo L promptLength) i <;> simp
      · cases hspl : isSpl ids blk (promptUpTo L promptLength) i with
        | false =>
          simp only [counts,hdel,hspl,Bool.false_eq_true,if_false] at hk
          omega
        | true =>
          rw [counts_of_isSpl hne hspl] at hk
          obtain rfl : k = 1 := by omega
          rw [scatterBoth_secondary hne hslot hspl hplace.symm,
            scatterBoth_secondary hne hslot hspl hplace.symm]
          simp

/-- Each row of the batched edit is the scalar edit of that row, in whatever order its scatters
write. -/
theorem applyEditOperationsBatched_row (hne : ids.deleteTokenId ≠ ids.splitTokenId)
    (blk old : Rows B L Token) (isOriginalMask : Rows B L Bool) (promptLength : Fin B → Int)
    (order : Fin B → ScatterOrder L) (b : Fin B) :
    let edited := applyEditOperationsBatched ids blk old isOriginalMask
      (fun b => promptUpTo L (promptLength b)) order
    (List.ofFn (edited.1 b),List.ofFn (edited.2 b)) =
      applyEditOperations ids (List.ofFn (blk b)) (List.ofFn (old b))
        (List.ofFn (isOriginalMask b)) L (promptLength b) := by
  have hrow := applyEditRow_eq ids (blk b) (old b) (isOriginalMask b) (promptLength b) hne (order b)
  rw [applyEditOperations_eq]
  apply Prod.ext
  · exact congrArg List.ofFn (funext fun j => (hrow j).1)
  · exact congrArg List.ofFn (funext fun j => (hrow j).2)

/-- Blocks of four with a split and deletions behind a prompt of one. -/
def smallBlock (tokens : List Token) : Rows 1 4 Token := fun _ i => tokens[i]?.getD 0

theorem applyEditOperationsBatched_row_small :
    let edited := applyEditOperationsBatched ⟨0,8,9⟩ (smallBlock [8,9,5,8]) (smallBlock [1,2,3,4])
      (fun _ _ => true) (fun _ => promptUpTo 4 1) fun _ => {}
    (List.ofFn (edited.1 0),List.ofFn (edited.2 0)) =
        applyEditOperations ⟨0,8,9⟩ [8,9,5,8] [1,2,3,4] [true,true,true,true] 4 1 ∧
      applyEditOperations ⟨0,8,9⟩ [8,9,5,8] [1,2,3,4] [true,true,true,true] 4 1 =
        ([8,0,2,5],[false,false,true,true]) :=
  ⟨applyEditOperationsBatched_row ⟨0,8,9⟩ (by decide) (smallBlock [8,9,5,8])
      (smallBlock [1,2,3,4]) (fun _ _ => true) (fun _ => 1) (fun _ => {}) 0,by decide⟩

end Rows

end Agreement

end FluxServe.Llada
