import Mathlib.Algebra.Order.Group.Multiset
import Mathlib.Tactic.Abel

namespace FluxServe

/-- Cells addressed by the order of their creation; a released cell is `none` and its
address is never handed out again. -/
abbrev Heap (α : Type) := List (Option α)

namespace Heap

variable {α β : Type}

def read (h : Heap α) (i : Nat) : Option α := h[i]?.join

def write (h : Heap α) (i : Nat) (a : α) : Heap α := h.set i (some a)

def alloc (h : Heap α) (a : α) : Heap α := h ++ [some a]

def release (h : Heap α) (i : Nat) : Heap α := h.set i none

theorem lt_of_read {h : Heap α} {i : Nat} {a : α} (hi : h.read i = some a) : i < h.length := by
  unfold read at hi
  by_contra hl
  rw [List.getElem?_eq_none (by omega)] at hi
  simp at hi

@[simp] theorem length_write (h : Heap α) (i : Nat) (a : α) : (h.write i a).length = h.length := by
  simp [write]

@[simp] theorem length_release (h : Heap α) (i : Nat) : (h.release i).length = h.length := by
  simp [release]

@[simp] theorem length_alloc (h : Heap α) (a : α) : (h.alloc a).length = h.length+1 := by
  simp [alloc]

theorem read_write (h : Heap α) {i : Nat} (a : α) (hi : i < h.length) (j : Nat) :
    (h.write i a).read j = if i=j then some a else h.read j := by
  unfold read write
  by_cases hij : i=j
  · subst hij; simp [hi]
  · simp [hij]

theorem read_write_self (h : Heap α) {i : Nat} (a : α) (hi : i < h.length) :
    (h.write i a).read i = some a := by
  rw [read_write h a hi,if_pos rfl]

theorem read_write_ne (h : Heap α) {i j : Nat} (a : α) (hij : i ≠ j) :
    (h.write i a).read j = h.read j := by
  simp [read,write,hij]

theorem read_release (h : Heap α) (i j : Nat) :
    (h.release i).read j = if i=j then none else h.read j := by
  unfold read release
  by_cases hij : i=j
  · subst hij
    by_cases hi : i < h.length <;> simp [hi]
  · simp [hij]

theorem read_release_ne (h : Heap α) {i j : Nat} (hji : j ≠ i) :
    (h.release i).read j = h.read j := by
  rw [read_release,if_neg (Ne.symm hji)]

theorem of_read_release {h : Heap α} {i j : Nat} {a : α} (hj : (h.release i).read j = some a) :
    h.read j = some a ∧ j ≠ i := by
  rw [read_release] at hj
  split at hj
  · cases hj
  · next hij => exact ⟨hj,fun hji => hij hji.symm⟩

theorem read_alloc (h : Heap α) (a : α) (j : Nat) :
    (h.alloc a).read j = if j=h.length then some a else h.read j := by
  unfold read alloc
  rcases Nat.lt_trichotomy j h.length with hj | hj | hj
  · rw [List.getElem?_append_left hj,if_neg (by omega)]
  · subst hj; simp
  · rw [List.getElem?_eq_none (by simp; omega),List.getElem?_eq_none (by omega)]
    simp; omega

theorem read_length (h : Heap α) : h.read h.length = none := by
  simp [read]

theorem read_alloc_self (h : Heap α) (a : α) : (h.alloc a).read h.length = some a := by
  rw [read_alloc,if_pos rfl]

theorem read_alloc_of_read {h : Heap α} {a b : α} {j : Nat} (hj : h.read j = some b) :
    (h.alloc a).read j = some b := by
  rw [read_alloc,if_neg (Nat.ne_of_lt (lt_of_read hj)),hj]

/-- A new cell in which `f` finds nothing is not seen through `f`. -/
theorem bind_read_alloc (h : Heap α) {a : α} {f : α → Option β} (hf : f a = none) (j : Nat) :
    ((h.alloc a).read j).bind f = (h.read j).bind f := by
  rw [read_alloc]
  split
  · next hj => rw [hj,read_length]; exact hf
  · rfl

/-- What `f` yields over all live cells, in order of address. -/
def collect (f : α → List β) (h : Heap α) : List β :=
  h.flatMap (fun c => (c.map f).getD [])

/-- What `f` yields depends on the cells only. -/
theorem collect_congr {f : α → List β} {h h' : Heap α} (hl : h'.length = h.length)
    (hf : ∀ i, (h'.read i).map f = (h.read i).map f) : h'.collect f = h.collect f := by
  have hcell : h'.map (Option.map f) = h.map (Option.map f) := by
    refine List.ext_getElem (by simp [hl]) (fun k hk hk' => ?_)
    have hm := hf k
    simp only [List.length_map] at hk hk'
    simpa [read,hk,hk'] using hm
  have hflat : ∀ h : Heap α, h.collect f =
      (h.map (Option.map f)).flatMap (fun c => c.getD []) := by
    intro h
    simp [collect,List.flatMap_map]
  rw [hflat,hflat,hcell]

theorem collect_alloc (f : α → List β) (h : Heap α) (a : α) :
    (h.alloc a).collect f = h.collect f ++ f a := by
  simp [collect,alloc]

private theorem collect_set (f : α → List β) (h : Heap α) (i : Nat) (a : α) (c : Option α)
    (hi : h.read i = some a) :
    ((collect f (h.set i c) : Multiset β) + (f a : Multiset β)) =
      (collect f h : Multiset β) + ((c.map f).getD [] : Multiset β) := by
  induction h generalizing i with
  | nil => simp [read] at hi
  | cons d h ih =>
    cases i with
    | zero =>
      obtain rfl : d = some a := by simpa [read] using hi
      simp only [collect,List.set_cons_zero,List.flatMap_cons,Option.map_some,Option.getD_some,
        ← Multiset.coe_add]
      abel
    | succ i =>
      have hi' : read h i = some a := by simpa [read] using hi
      have := ih i hi'
      simp only [collect,List.set_cons_succ,List.flatMap_cons,← Multiset.coe_add] at this ⊢
      rw [add_assoc,this,add_assoc]

theorem collect_write (f : α → List β) (h : Heap α) {i : Nat} {a : α} (b : α)
    (hi : h.read i = some a) :
    ((h.write i b).collect f : Multiset β) + (f a : Multiset β) =
      (h.collect f : Multiset β) + (f b : Multiset β) := by
  simpa [write] using collect_set f h i a (some b) hi

theorem collect_release (f : α → List β) (h : Heap α) {i : Nat} {a : α}
    (hi : h.read i = some a) :
    ((h.release i).collect f : Multiset β) + (f a : Multiset β) = (h.collect f : Multiset β) := by
  simpa [release] using collect_set f h i a none hi

theorem mem_collect {f : α → List β} {h : Heap α} {b : β} :
    b ∈ h.collect f ↔ ∃ i a, h.read i = some a ∧ b ∈ f a := by
  unfold collect read
  constructor
  · intro hb
    obtain ⟨c,hc,hb⟩ := List.mem_flatMap.mp hb
    obtain ⟨i,hi,rfl⟩ := List.mem_iff_getElem.mp hc
    cases hr : h[i] with
    | none => simp [hr] at hb
    | some a => exact ⟨i,a,by simp [hi,hr],by simpa [hr] using hb⟩
  · rintro ⟨i,a,hi,hb⟩
    have hl := lt_of_read (h := h) (by exact hi)
    refine List.mem_flatMap.mpr ⟨some a,?_,by simpa using hb⟩
    rw [List.getElem?_eq_getElem hl] at hi
    exact List.mem_iff_getElem.mpr ⟨i,hl,by simpa using hi⟩

end Heap

end FluxServe
