import Mathlib.Data.List.TakeWhile

namespace FluxServe

variable {α : Type} {next : List α → α} {p : α → Bool}

/-- The first `n` elements that `next` appends to a list, each from all before it. -/
def unroll (next : List α → α) : List α → Nat → List α
  | _,0 => []
  | ts,n+1 => next ts :: unroll next (ts ++ [next ts]) n

@[simp] theorem unroll_length (ts : List α) (n : Nat) : (unroll next ts n).length = n := by
  induction n generalizing ts with
  | zero => rfl
  | succ n ih => simp [unroll,ih]

theorem unroll_add (ts : List α) (m n : Nat) :
    unroll next ts (m+n) = unroll next ts m ++ unroll next (ts ++ unroll next ts m) n := by
  induction m generalizing ts with
  | zero => simp [unroll]
  | succ m ih =>
    rw [Nat.add_right_comm]
    simp only [unroll,ih,List.cons_append]
    simp

theorem unroll_take {m n : Nat} (ts : List α) (h : m ≤ n) :
    (unroll next ts n).take m = unroll next ts m := by
  obtain ⟨k,rfl⟩ := Nat.exists_eq_add_of_le h
  rw [unroll_add]
  simp

/-- `xs` is what `next` appends to `ts`. -/
def Unrolls (next : List α → α) (ts xs : List α) : Prop := xs = unroll next ts xs.length

theorem unrolls_nil (ts : List α) : Unrolls next ts [] := rfl

theorem unrolls_unroll (ts : List α) (n : Nat) : Unrolls next ts (unroll next ts n) := by
  simp [Unrolls]

theorem unrolls_cons {ts xs : List α} {x : α} :
    Unrolls next ts (x :: xs) ↔ x = next ts ∧ Unrolls next (ts ++ [x]) xs := by
  simp only [Unrolls,List.length_cons,unroll,List.cons.injEq]
  constructor
  · rintro ⟨rfl,h⟩
    exact ⟨rfl,h⟩
  · rintro ⟨rfl,h⟩
    exact ⟨rfl,h⟩

theorem unrolls_singleton {ts : List α} {x : α} : Unrolls next ts [x] ↔ x = next ts := by
  rw [unrolls_cons]
  exact and_iff_left (unrolls_nil _)

theorem unrolls_append {ts xs ys : List α} :
    Unrolls next ts (xs ++ ys) ↔ Unrolls next ts xs ∧ Unrolls next (ts ++ xs) ys := by
  induction xs generalizing ts with
  | nil => simp [unrolls_nil]
  | cons x xs ih => simp [unrolls_cons,ih,and_assoc]

/-- The elements up to and with the first that satisfies `p`. -/
def upTo (p : α → Bool) : List α → List α
  | [] => []
  | x :: xs => if p x then [x] else x :: upTo p xs

theorem upTo_cons (p : α → Bool) (x : α) (xs : List α) :
    upTo p (x :: xs) = if p x then [x] else x :: upTo p xs := rfl

theorem upTo_eq_take (p : α → Bool) (xs : List α) : upTo p xs = xs.take (xs.findIdx p+1) := by
  induction xs with
  | nil => rfl
  | cons x xs ih =>
    rw [upTo_cons,List.findIdx_cons]
    cases h : p x with
    | true => simp
    | false => simp [ih]

theorem upTo_isPrefix (p : α → Bool) (xs : List α) : upTo p xs <+: xs := by
  rw [upTo_eq_take]
  exact List.take_prefix _ _

theorem upTo_of_none {xs : List α} (h : ∀ x ∈ xs, p x = false) : upTo p xs = xs := by
  induction xs with
  | nil => rfl
  | cons x xs ih =>
    rw [upTo_cons,h x List.mem_cons_self,ih fun y hy => h y (List.mem_cons_of_mem _ hy)]
    simp

theorem upTo_append_of_none {xs : List α} (ys : List α) (h : ∀ x ∈ xs, p x = false) :
    upTo p (xs ++ ys) = xs ++ upTo p ys := by
  induction xs with
  | nil => rfl
  | cons x xs ih =>
    rw [List.cons_append,upTo_cons,h x List.mem_cons_self,
      ih fun y hy => h y (List.mem_cons_of_mem _ hy)]
    simp

theorem upTo_append_of_any {xs : List α} (ys : List α) (h : xs.any p = true) :
    upTo p (xs ++ ys) = upTo p xs := by
  induction xs with
  | nil => simp at h
  | cons x xs ih =>
    rw [List.cons_append,upTo_cons,upTo_cons]
    split
    · rfl
    · rename_i hx
      rw [List.any_cons] at h
      rw [ih (by simpa [hx] using h)]

@[simp] theorem upTo_any (p : α → Bool) (xs : List α) : (upTo p xs).any p = xs.any p := by
  induction xs with
  | nil => rfl
  | cons x xs ih =>
    rw [upTo_cons]
    split
    · rename_i hx
      simp [hx]
    · rename_i hx
      simp [hx,ih]

@[simp] theorem upTo_upTo (p : α → Bool) (xs : List α) : upTo p (upTo p xs) = upTo p xs := by
  induction xs with
  | nil => rfl
  | cons x xs ih =>
    rw [upTo_cons]
    split
    · rename_i hx
      simp [hx,upTo]
    · rename_i hx
      simp [upTo_cons,hx,ih]

theorem upTo_ne_nil {xs : List α} (h : xs ≠ []) : upTo p xs ≠ [] := by
  cases xs with
  | nil => exact absurd rfl h
  | cons x xs =>
    rw [upTo_cons]
    split <;> simp

/-- A prefix in which `p` occurs, or that is long enough, decides the cut. -/
theorem upTo_take_of_isPrefix {xs ys : List α} {n : Nat} (h : xs <+: ys)
    (hn : n ≤ xs.length ∨ xs.any p = true) : upTo p (xs.take n) = upTo p (ys.take n) := by
  obtain ⟨zs,rfl⟩ := h
  by_cases hle : n ≤ xs.length
  · rw [List.take_append_of_le_length hle]
  · have hany := hn.resolve_left hle
    rw [List.take_of_length_le (by omega),List.take_append,List.take_of_length_le (by omega),
      upTo_append_of_any _ hany]

/-- A list without its last element, if that satisfies `p`. -/
def withoutLast (p : α → Bool) (xs : List α) : List α :=
  if xs.getLast?.any p then xs.dropLast else xs

theorem withoutLast_cons {x : α} {xs : List α} (hx : p x = false) :
    withoutLast p (x :: xs) = x :: withoutLast p xs := by
  unfold withoutLast
  cases xs with
  | nil => simp [hx]
  | cons y ys =>
    rw [List.getLast?_cons_cons]
    split <;> rfl

/-- What is cut after its first hit is, without that, what comes before it. -/
theorem withoutLast_upTo (p : α → Bool) (xs : List α) :
    withoutLast p (upTo p xs) = xs.takeWhile fun x => !p x := by
  induction xs with
  | nil => rfl
  | cons x xs ih =>
    rw [upTo_cons]
    cases hx : p x with
    | true => simp [withoutLast,hx]
    | false =>
      rw [if_neg Bool.false_ne_true,withoutLast_cons hx,ih,List.takeWhile_cons_of_pos (by simp [hx])]

end FluxServe
