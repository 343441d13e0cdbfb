import Mathlib.Data.List.Perm.Basic

namespace FluxServe

variable {α β : Type} [DecidableEq α]

/-- Dropping a key of an association list. -/
def dropKey (a : α) (l : List (α × β)) : List (α × β) := l.filter fun e => e.1 ≠ a

theorem mem_keys_dropKey {a b : α} {l : List (α × β)} :
    b ∈ (dropKey a l).map Prod.fst ↔ b ∈ l.map Prod.fst ∧ b ≠ a := by
  simp only [dropKey,List.mem_map,List.mem_filter,decide_eq_true_eq]
  constructor
  · rintro ⟨e,⟨he,hne⟩,rfl⟩
    exact ⟨⟨e,he,rfl⟩,hne⟩
  · rintro ⟨⟨e,he,rfl⟩,hne⟩
    exact ⟨e,⟨he,hne⟩,rfl⟩

theorem nodup_keys_dropKey {a : α} {l : List (α × β)} (h : (l.map Prod.fst).Nodup) :
    ((dropKey a l).map Prod.fst).Nodup :=
  h.sublist (List.Sublist.map _ List.filter_sublist)

theorem dropKey_of_notMem {a : α} {l : List (α × β)} (h : a ∉ l.map Prod.fst) :
    dropKey a l = l := by
  refine List.filter_eq_self.mpr fun e he => ?_
  have hne : e.1 ≠ a := fun hea => h (List.mem_map.mpr ⟨e,he,hea⟩)
  simpa using hne

theorem mem_of_lookup {a : α} {b : β} {l : List (α × β)} (h : l.lookup a = some b) :
    (a,b) ∈ l := by
  obtain ⟨l₁,l₂,rfl,_⟩ := List.lookup_eq_some_iff.mp h
  simp

/-- With distinct keys an entry is the only one its key has. -/
theorem perm_cons_dropKey {a : α} {b : β} {l : List (α × β)} (h : (l.map Prod.fst).Nodup)
    (hm : (a,b) ∈ l) : l.Perm ((a,b) :: dropKey a l) := by
  induction l with
  | nil => cases hm
  | cons e l ih =>
    rw [List.map_cons,List.nodup_cons] at h
    rcases List.mem_cons.mp hm with rfl | hm
    · have hd : dropKey a ((a,b) :: l) = l := by
        have hl := dropKey_of_notMem h.1
        unfold dropKey at hl ⊢
        rw [List.filter_cons_of_neg (by simp),hl]
      rw [hd]
    · have hne : e.1 ≠ a := fun hea => h.1 (List.mem_map.mpr ⟨(a,b),hm,hea.symm⟩)
      have hd : dropKey a (e :: l) = e :: dropKey a l := by
        simp [dropKey,hne]
      rw [hd]
      exact ((ih h.2 hm).cons e).trans (List.Perm.swap _ _ _)

theorem lookup_eq_none_iff_notMem {a : α} {l : List (α × β)} :
    l.lookup a = none ↔ a ∉ l.map Prod.fst := by
  rw [List.lookup_eq_none_iff]
  constructor
  · intro h hm
    obtain ⟨e,he,rfl⟩ := List.mem_map.mp hm
    simpa using h e he
  · intro h e he
    have hne : a ≠ e.1 := fun hea => h (List.mem_map.mpr ⟨e,he,hea.symm⟩)
    simpa using hne

theorem lookup_dropKey (a b : α) (l : List (α × β)) :
    (dropKey a l).lookup b = if b = a then none else l.lookup b := by
  induction l with
  | nil => simp [dropKey]
  | cons e l ih =>
    unfold dropKey at ih ⊢
    by_cases hea : e.1 = a
    · rw [List.filter_cons_of_neg (by simpa using hea),ih]
      split
      · rfl
      · next hba => rw [List.lookup_cons,beq_false_of_ne fun h => hba (h.trans hea)]
    · rw [List.filter_cons_of_pos (by simpa using hea),List.lookup_cons,ih,List.lookup_cons]
      by_cases hbe : b = e.1
      · simp [hbe,hea]
      · rw [beq_false_of_ne hbe]

/-- A map overwritten at the keys of an association list. -/
def patch (w : α → β) (entries : List (α × β)) : α → β :=
  fun a => (entries.lookup a).getD (w a)

@[simp] theorem patch_nil (w : α → β) : patch w [] = w := rfl

theorem patch_single (w : α → β) (a b : α) (v : β) :
    patch w [(a,v)] b = if b = a then v else w b := by
  by_cases h : b = a
  · subst h
    simp [patch]
  · have hne : (b == a) = false := by simpa using h
    simp [patch,List.lookup_cons,hne,h]

theorem patch_of_notMem {a : α} {w : α → β} {entries : List (α × β)}
    (h : a ∉ entries.map Prod.fst) : patch w entries a = w a := by
  rw [patch,lookup_eq_none_iff_notMem.mpr h,Option.getD_none]

theorem lookup_of_mem {a : α} {b : β} {l : List (α × β)} (h : (l.map Prod.fst).Nodup)
    (hm : (a,b) ∈ l) : l.lookup a = some b := by
  induction l with
  | nil => cases hm
  | cons e l ih =>
    rw [List.map_cons,List.nodup_cons] at h
    rcases List.mem_cons.mp hm with rfl | hm
    · rw [List.lookup_cons,beq_self_eq_true]
    · have hne : a ≠ e.1 := fun hae => h.1 (List.mem_map.mpr ⟨(a,b),hm,hae⟩)
      rw [List.lookup_cons,beq_false_of_ne hne]
      exact ih h.2 hm

theorem patch_of_mem {a : α} {b : β} {w : α → β} {entries : List (α × β)}
    (h : (entries.map Prod.fst).Nodup) (hm : (a,b) ∈ entries) : patch w entries a = b := by
  rw [patch,lookup_of_mem h hm,Option.getD_some]

theorem patch_map {w : α → β} (keys : List α) (f : α → β) (a : α) :
    patch w (keys.map fun k => (k,f k)) a = if a ∈ keys then f a else w a := by
  induction keys with
  | nil => simp
  | cons k keys ih =>
    by_cases h : a = k
    · subst h
      simp [patch]
    · have hne : (a == k) = false := by simpa using h
      unfold patch at ih ⊢
      rw [List.map_cons,List.lookup_cons,hne]
      simpa [h] using ih

end FluxServe
