import Mathlib.Data.List.Basic
import Mathlib.Data.Int.Basic

namespace FluxServe

/-- Consecutive entries of an unbounded sequence, the first of them at index `base`. -/
@[ext]
structure Stretch (α : Type) where
  base : Int
  entries : List α

namespace Stretch

variable {α : Type} {w : Stretch α} {ids : List α} {n k : Nat} {j : Int} {a : α}

/-- The first index behind them. -/
def stop (w : Stretch α) : Int := w.base+w.entries.length

def at? (w : Stretch α) (j : Int) : Option α :=
  if w.base ≤ j then w.entries[(j-w.base).toNat]? else none

def dropFront (w : Stretch α) (n : Nat) : Stretch α := ⟨w.base+n,w.entries.drop n⟩

/-- Only the first `n` entries. -/
def takeFront (w : Stretch α) (n : Nat) : Stretch α := ⟨w.base,w.entries.take n⟩

def extend (w : Stretch α) (ids : List α) : Stretch α := ⟨w.base,w.entries ++ ids⟩

/-- `ids` in the place of as many entries behind the first `k`. -/
def overwrite (w : Stretch α) (k : Nat) (ids : List α) : Stretch α :=
  ⟨w.base,w.entries.take k ++ ids ++ w.entries.drop (k+ids.length)⟩

theorem at?_of_le (h : w.base ≤ j) : w.at? j = w.entries[(j-w.base).toNat]? := if_pos h

theorem at?_of_lt (h : j < w.base) : w.at? j = none := if_neg (by omega)

theorem at?_stop (h : w.stop ≤ j) : w.at? j = none := by
  have hbase : w.base ≤ j := by
    unfold stop at h
    omega
  rw [at?_of_le hbase,List.getElem?_eq_none]
  unfold stop at h
  omega

theorem bounds (h : w.at? j = some a) : w.base ≤ j ∧ j < w.stop := by
  constructor
  · by_contra hlt
    rw [at?_of_lt (by omega)] at h
    cases h
  · by_contra hle
    rw [at?_stop (by omega)] at h
    cases h

theorem mem_of_at? (h : w.at? j = some a) : a ∈ w.entries := by
  rw [at?_of_le (bounds h).1] at h
  exact List.mem_of_getElem? h

theorem stop_dropFront (h : n ≤ w.entries.length) : (w.dropFront n).stop = w.stop := by
  simp only [stop,dropFront,List.length_drop]
  omega

theorem at?_dropFront (h : w.base+n ≤ j) : (w.dropFront n).at? j = w.at? j := by
  have hindex : n+(j-(w.base+n)).toNat = (j-w.base).toNat := by omega
  rw [at?_of_le (show (w.dropFront n).base ≤ j from h),at?_of_le (by omega)]
  simp only [dropFront,List.getElem?_drop,hindex]

theorem at?_of_dropFront (h : (w.dropFront n).at? j = some a) : w.at? j = some a := by
  have hbase : w.base+n ≤ j := (bounds h).1
  rwa [at?_dropFront hbase] at h

theorem at?_of_takeFront (h : (w.takeFront n).at? j = some a) : w.at? j = some a := by
  have hbase : w.base ≤ j := (bounds h).1
  have hin : j < (w.takeFront n).stop := (bounds h).2
  simp only [stop,takeFront,List.length_take] at hin
  rw [at?_of_le hbase]
  rw [at?_of_le (show (w.takeFront n).base ≤ j from hbase)] at h
  simp only [takeFront] at h
  rwa [List.getElem?_take_of_lt (by omega)] at h

theorem at?_extend :
    (w.extend ids).at? j = (w.at? j).or ((Stretch.mk w.stop ids).at? j) := by
  by_cases hbase : w.base ≤ j
  · rw [at?_of_le hbase,at?_of_le (w := w.extend ids) hbase]
    change (w.entries ++ ids)[(j-w.base).toNat]? = _
    by_cases hstop : j < w.stop
    · have hin : (j-w.base).toNat < w.entries.length := by
        unfold stop at hstop
        omega
      rw [List.getElem?_append_left hin,List.getElem?_eq_getElem hin]
      rfl
    · have hout : w.entries.length ≤ (j-w.base).toNat := by
        unfold stop at hstop
        omega
      have hindex : (j-w.base).toNat-w.entries.length = (j-w.stop).toNat := by
        unfold stop at hstop ⊢
        omega
      rw [List.getElem?_append_right hout,List.getElem?_eq_none hout,Option.none_or,hindex,
        at?_of_le (w := ⟨w.stop,ids⟩) (by simpa using hstop)]
  · have hstop : j < w.stop := by
      unfold stop
      omega
    rw [at?_of_lt (w := w.extend ids) (by simpa [extend] using hbase),at?_of_lt (by omega),
      at?_of_lt (w := ⟨w.stop,ids⟩) hstop]
    rfl

theorem stop_overwrite (h : k+ids.length ≤ w.entries.length) :
    (w.overwrite k ids).stop = w.stop := by
  simp only [stop,overwrite,List.length_append,List.length_take,List.length_drop]
  omega

theorem at?_overwrite (h : k+ids.length ≤ w.entries.length) :
    (w.overwrite k ids).at? j = ((Stretch.mk (w.base+k) ids).at? j).or (w.at? j) := by
  have hlen : (w.entries.take k).length = k := List.length_take_of_le (by omega)
  by_cases hbase : w.base ≤ j
  · rw [at?_of_le hbase,at?_of_le (w := w.overwrite k ids) hbase]
    dsimp only [overwrite]
    by_cases hlow : j < w.base+k
    · rw [at?_of_lt (w := ⟨w.base+k,ids⟩) hlow,List.append_assoc,
        List.getElem?_append_left (by omega),List.getElem?_take_of_lt (by omega)]
      rfl
    rw [at?_of_le (w := ⟨w.base+k,ids⟩) (by simpa using hlow)]
    have hindex : (j-w.base).toNat-k = (j-(w.base+k)).toNat := by omega
    by_cases hin : (j-(w.base+k)).toNat < ids.length
    · rw [List.append_assoc,List.getElem?_append_right (by omega),hlen,hindex,
        List.getElem?_append_left hin,List.getElem?_eq_getElem hin]
      rfl
    · have hback : k+ids.length+((j-w.base).toNat-(k+ids.length)) = (j-w.base).toNat := by omega
      have hnone : ids[(j-(w.base+k)).toNat]? = none := List.getElem?_eq_none (by omega)
      have hout : (w.entries.take k ++ ids).length ≤ (j-w.base).toNat := by
        rw [List.length_append,hlen]
        omega
      rw [hnone,Option.none_or,List.getElem?_append_right hout,List.length_append,hlen,
        List.getElem?_drop,hback]
  · have hlow : j < w.base := by omega
    have hbelow : j < w.base+k := by omega
    rw [at?_of_lt hlow,at?_of_lt (w := w.overwrite k ids) hlow,
      at?_of_lt (w := ⟨w.base+k,ids⟩) hbelow]
    rfl

end Stretch

end FluxServe
