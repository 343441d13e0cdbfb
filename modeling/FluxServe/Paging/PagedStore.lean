import FluxServe.Framework.RowLoop
import FluxServe.Framework.Scatter
import FluxServe.Paging.PagedKVCache
import Mathlib.Algebra.BigOperators.Group.List.Lemmas

namespace FluxServe.Paging

theorem index_cast {n : Nat} (j : Fin n) : index n (j : Int) = .ok j := by
  have hj := j.isLt
  have hi : (if (j : Int) < 0 then (j : Int)+n else j) = j := if_neg (by omega)
  simp only [index,hi]
  exact dif_pos ⟨by omega,by omega⟩

theorem index_nonneg {n : Nat} {i : Int} {j : Fin n} (h : index n i = .ok j) (hi : 0 ≤ i) :
    (j : Int) = i := by
  have hi' : (if i < 0 then i+n else i) = i := if_neg (by omega)
  simp only [index,hi'] at h
  by_cases hbound : 0 ≤ i ∧ i < n
  · rw [dif_pos hbound] at h
    injection h with h
    rw [← h]
    exact Int.toNat_of_nonneg hi
  · rw [dif_neg hbound] at h
    cases h

theorem filterMap_range_getElem? {α : Type} (l : List α) (n : Nat) :
    (List.range n).filterMap (fun i => l[i]?) = l.take n := by
  induction n with
  | zero => rfl
  | succ n ih =>
    rw [List.range_succ,List.filterMap_append,ih,List.take_add_one]
    cases h : l[n]? <;> simp [h]

/-- A page and an offset make a number in one way. -/
theorem page_offset_injective {n a a' o o' : Nat} (ho : o < n) (ho' : o' < n)
    (h : a*n+o = a'*n+o') : a = a' ∧ o = o' := by
  have hdiv := congrArg (· / n) h
  have hmod := congrArg (· % n) h
  simp only [Nat.add_comm _ o,Nat.add_comm _ o',Nat.add_mul_div_right _ _ (by omega : 0 < n),
    Nat.add_mul_mod_self_right,Nat.div_eq_of_lt ho,Nat.div_eq_of_lt ho',Nat.mod_eq_of_lt ho,
    Nat.mod_eq_of_lt ho'] at hdiv hmod
  omega

namespace PagedKVCache

variable {α : Type}

/-- The caches that `set_page_table` makes of a new one. -/
inductive Configured [Zero α] : PagedKVCache α → Prop
  | new {batchSize maxLength pageSize : Nat} {numPages : Option Nat} {reserveDummyPage : Nat}
      {c : PagedKVCache α}
      (h : new batchSize maxLength pageSize numPages reserveDummyPage = .ok c) : Configured c
  | setPageTable {c c' : PagedKVCache α} {seqId : Int} {pages : List Int} (hc : Configured c)
      (h : c.setPageTable seqId pages = .ok c') : Configured c'

section Tables

variable (c : PagedKVCache α)

/-- The page may be used: an external page table holds 0 where it is not set. -/
def Usable (page : Fin c.numPages) : Prop := c.usesExternalPageTable = true → 0 < (page : Nat)

/-- The pages in use of two rows differ. -/
def RowsDisjoint : Prop :=
  ∀ s s' k k', s ≠ s' → c.Usable (c.pageTable s k) → c.Usable (c.pageTable s' k') →
    c.pageTable s k ≠ c.pageTable s' k'

/-- The pages in use of one row differ. -/
def RowsDistinct : Prop :=
  ∀ s k k', c.Usable (c.pageTable s k) → c.pageTable s k = c.pageTable s k' → k = k'

/-- The cache with other contents. -/
def withData (d : Fin c.numPages × Fin c.pageSize → α) : PagedKVCache α := { c with data := d }

end Tables

section Places

variable {c : PagedKVCache α} {s s' : Fin c.batchSize} {p p' : Int}
  {x : Fin c.numPages × Fin c.pageSize}

theorem place_eq_ok (h : c.place s p = .ok x) :
    ∃ k, index _ (p / c.pageSize) = .ok k ∧ x = (c.pageTable s k,c.offset p) := by
  obtain ⟨k,hk,hx⟩ := bind_eq_ok h
  exact ⟨k,hk,(pure_eq_ok.mp hx).symm⟩

/-- A position that is not negative is found from its page and its offset. -/
theorem place_position (h : c.place s p = .ok x) (hp : 0 ≤ p) :
    ∃ k, x.1 = c.pageTable s k ∧ p = k*c.pageSize + x.2 := by
  obtain ⟨k,hk,rfl⟩ := place_eq_ok h
  have hpos : (0 : Int) < c.pageSize := by
    have := c.pageSize_pos
    omega
  have hkp := index_nonneg hk (Int.ediv_nonneg hp hpos.le)
  refine ⟨k,rfl,?_⟩
  have hoffset : ((c.offset p : Nat) : Int) = p % c.pageSize :=
    Int.toNat_of_nonneg (Int.emod_nonneg p hpos.ne')
  rw [hkp,hoffset,Int.mul_comm]
  exact (Int.mul_ediv_add_emod p c.pageSize).symm

/-- No place is shared. -/
theorem place_unique (hdisjoint : c.RowsDisjoint) (hdistinct : c.RowsDistinct)
    (h : c.place s p = .ok x) (h' : c.place s' p' = .ok x) (hp : 0 ≤ p) (hp' : 0 ≤ p')
    (hx : c.Usable x.1) : s = s' ∧ p = p' := by
  obtain ⟨k,hk,hpk⟩ := place_position h hp
  obtain ⟨k',hk',hpk'⟩ := place_position h' hp'
  have hs : s = s' := by
    by_contra hne
    exact hdisjoint s s' k k' hne (hk ▸ hx) (hk' ▸ hx) (hk.symm.trans hk')
  subst hs
  have hsame := hdistinct s k k' (hk ▸ hx) (hk.symm.trans hk')
  subst hsame
  exact ⟨rfl,hpk.trans hpk'.symm⟩

theorem slot_injective {x y : Fin c.numPages × Fin c.pageSize} (h : c.slot x = c.slot y) :
    x = y := by
  obtain ⟨hpage,hoffset⟩ := page_offset_injective x.2.isLt y.2.isLt h
  exact Prod.ext (Fin.ext hpage) (Fin.ext hoffset)

/-- What a row has at one of its pages, and 0 past them. -/
def pageAt (c : PagedKVCache α) (s : Fin c.batchSize) (k : Nat) : Nat :=
  if h : k < c.pagesPerSequence then c.pageTable s ⟨k,h⟩ else 0

theorem div_lt_pagesPerSequence {n : Nat} (h : n < c.maxLength) :
    n / c.pageSize < c.pagesPerSequence := by
  have hpos := c.pageSize_pos
  rw [pagesPerSequence,Nat.div_lt_iff_lt_mul hpos]
  have hdiv := Nat.div_add_mod (c.maxLength+c.pageSize-1) c.pageSize
  have hmod := Nat.mod_lt (c.maxLength+c.pageSize-1) hpos
  rw [Nat.mul_comm] at hdiv
  omega

/-- Where a row has a position of the cache. -/
theorem place_cast {n : Nat} (h : n < c.maxLength) :
    ∃ x, c.place s (n : Int) = .ok x ∧ (x.1 : Nat) = c.pageAt s (n / c.pageSize) ∧
      (x.2 : Nat) = n % c.pageSize := by
  have hk := div_lt_pagesPerSequence h
  have hindex : index _ ((n : Int) / c.pageSize) =
      .ok (⟨n / c.pageSize,hk⟩ : Fin c.pagesPerSequence) := by
    rw [← Int.natCast_ediv]
    exact index_cast ⟨n / c.pageSize,hk⟩
  refine ⟨(c.pageTable s ⟨n / c.pageSize,hk⟩,c.offset n),?_,?_,?_⟩
  · change (index c.pagesPerSequence _ >>= _) = _
    rw [hindex]
    rfl
  · rw [pageAt,dif_pos hk]
  · change ((n : Int) % c.pageSize).toNat = _
    rw [← Int.natCast_emod]
    rfl

theorem lookup_cast {n : Nat} (h : n ≤ c.maxLength) :
    ∃ places, c.lookup s ((List.range n).map fun (p : Nat) => (p : Int)) = .ok places ∧
      List.Forall₂ (fun (p : Nat) x => c.place s p = .ok x) (List.range n) places := by
  have hall (l : List Nat) (hl : ∀ p ∈ l, p < c.maxLength) :
      ∃ places, List.Forall₂ (fun (p : Nat) x => c.place s p = .ok x) l places := by
    induction l with
    | nil => exact ⟨[],.nil⟩
    | cons p l ih =>
      obtain ⟨x,hx,_⟩ := place_cast (s := s) (hl p List.mem_cons_self)
      obtain ⟨places,hplaces⟩ := ih fun q hq => hl q (List.mem_cons_of_mem _ hq)
      exact ⟨x :: places,.cons hx hplaces⟩
  obtain ⟨places,hplaces⟩ := hall (List.range n) fun p hp => by
    have := List.mem_range.mp hp
    omega
  refine ⟨places,?_,hplaces⟩
  unfold lookup
  rw [index_cast]
  exact mapM_eq_ok.mpr (List.forall₂_map_left_iff.mpr hplaces)

end Places

section Writes

variable (c : PagedKVCache α)

/-- What a `write_range` gives a sequence at a position; a call that raises gives nothing. -/
def writtenAt (s : Fin c.batchSize) (p : Nat) (w : WriteRange α) : Option α :=
  match c.writeRange w, index c.batchSize w.seqId with
  | .ok _, .ok row =>
    if row = s ∧ w.start ≤ p then w.kv[((p : Int)-w.start).toNat]? else none
  | _, _ => none

/-- The last value that a sequence was given at a position. -/
def lastWritten (s : Fin c.batchSize) (p : Nat) (calls : List (WriteRange α)) : Option α :=
  calls.reverse.findSome? (c.writtenAt s p)

/-- The cache after some calls; one that raises leaves it as it was. -/
def writeAll (calls : List (WriteRange α)) : PagedKVCache α :=
  calls.foldl (fun c w => match c.writeRange w with
    | .ok c' => c'
    | .error _ => c) c

end Writes

section Stores

variable {c : PagedKVCache α} {w : WriteRange α} {s : Fin c.batchSize} {p : Nat}
  {d : Fin c.numPages × Fin c.pageSize → α} {places : List (Fin c.numPages × Fin c.pageSize)}

/-- The contents do not decide whether a call raises. -/
theorem writePlaces_withData : (c.withData d).writePlaces w = c.writePlaces w := rfl

theorem writePlaces_eq_ok (h : c.writePlaces w = .ok places) :
    w.kv = [] ∧ places = [] ∨
      0 ≤ w.start ∧ ∃ row, index c.batchSize w.seqId = .ok row ∧
        List.Forall₂ (fun (i : Nat) x => c.place row (w.start+i) = .ok x)
          (List.range w.kv.length) places ∧ ∀ x ∈ places, c.Usable x.1 := by
  obtain ⟨hrange,h⟩ := throwIf_bind_eq_ok.mp h
  rw [not_or,not_lt] at hrange
  split at h
  · next hkv => exact .inl ⟨hkv,(pure_eq_ok.mp h).symm⟩
  · right
    obtain ⟨found,hlookup,h⟩ := bind_eq_ok h
    obtain ⟨hunset,h⟩ := throwIf_bind_eq_ok.mp h
    obtain rfl := pure_eq_ok.mp h
    obtain ⟨row,hrow,hmap⟩ := bind_eq_ok hlookup
    refine ⟨hrange.1,row,hrow,List.forall₂_map_left_iff.mp (mapM_eq_ok.mp hmap),?_⟩
    intro x hx hexternal
    simp only [unset,hexternal,Bool.true_and,Bool.not_eq_true,List.any_eq_false,decide_eq_true_eq,
      not_le] at hunset
    exact hunset x hx

/-- A call stores its values, in any order, and nothing else. -/
theorem writeRange_eq_ok (h : c.writePlaces w = .ok places) :
    ∃ writes : List ((Fin c.numPages × Fin c.pageSize) × α), writes.Perm (places.zip w.kv) ∧
      c.writeRange w =
        .ok (c.withData (writes.foldl (fun d x => Function.update d x.1 x.2) c.data)) := by
  refine ⟨w.order.filterMap fun i => (places.zip w.kv)[i]?,?_,?_⟩
  · apply (w.perm.filterMap _).trans
    have hle : (places.zip w.kv).length ≤ w.kv.length := by
      rw [List.length_zip]
      exact Nat.min_le_right _ _
    rw [filterMap_range_getElem?,List.take_of_length_le hle]
  · unfold writeRange
    rw [h]
    rfl

/-- The value of a place, and the position that it belongs to. -/
theorem mem_zip_places {row : Fin c.batchSize} {e : (Fin c.numPages × Fin c.pageSize) × α}
    (h : List.Forall₂ (fun (i : Nat) x => c.place row (w.start+i) = .ok x)
      (List.range w.kv.length) places) :
    e ∈ places.zip w.kv ↔ ∃ i : Nat, c.place row (w.start+i) = .ok e.1 ∧ w.kv[i]? = some e.2 := by
  obtain ⟨hlen,hget⟩ := List.forall₂_iff_get.mp h
  rw [List.length_range] at hlen
  simp only [List.get_eq_getElem,List.getElem_range,List.length_range] at hget
  rw [List.mem_iff_getElem?]
  constructor
  · intro ⟨i,hi⟩
    obtain ⟨hplace,hvalue⟩ := List.getElem?_zip_eq_some.mp hi
    obtain ⟨hlt,hplace⟩ := List.getElem?_eq_some_iff.mp hplace
    exact ⟨i,hplace ▸ hget i (hlen ▸ hlt) hlt,hvalue⟩
  · intro ⟨i,hplace,hvalue⟩
    obtain ⟨hlt,_⟩ := List.getElem?_eq_some_iff.mp hvalue
    have hsame := Except.ok.inj (hplace.symm.trans (hget i hlt (hlen ▸ hlt)))
    refine ⟨i,List.getElem?_zip_eq_some.mpr ⟨?_,hvalue⟩⟩
    rw [hsame]
    exact List.getElem?_eq_getElem _

theorem writtenAt_eq {c' : PagedKVCache α} {row : Fin c.batchSize} (h : c.writeRange w = .ok c')
    (hrow : index c.batchSize w.seqId = .ok row) :
    c.writtenAt s p w =
      if row = s ∧ w.start ≤ p then w.kv[((p : Int)-w.start).toNat]? else none := by
  unfold writtenAt
  rw [h,hrow]

/-- What a call stores at a place is what it gives to the position there. -/
theorem foldl_writes (hdisjoint : c.RowsDisjoint) (hdistinct : c.RowsDistinct)
    {writes : List ((Fin c.numPages × Fin c.pageSize) × α)} {x : Fin c.numPages × Fin c.pageSize}
    {c' : PagedKVCache α} (hplaces : c.writePlaces w = .ok places)
    (hperm : writes.Perm (places.zip w.kv)) (hc' : c.writeRange w = .ok c')
    (hx : c.place s (p : Int) = .ok x) :
    writes.foldl (fun d x => Function.update d x.1 x.2) d x =
      (c.writtenAt s p w).getD (d x) := by
  obtain ⟨hkv,rfl⟩ | ⟨hstart,row,hrow,hall,husable⟩ := writePlaces_eq_ok hplaces
  · obtain rfl := hperm.eq_nil
    have hnone : c.writtenAt s p w = none := by
      unfold writtenAt
      rw [hc',hkv]
      cases index c.batchSize w.seqId <;> simp
    rw [hnone]
    rfl
  · rw [writtenAt_eq hc' hrow]
    have honly {e : (Fin c.numPages × Fin c.pageSize) × α} (he : e ∈ writes) (hex : e.1 = x) :
        row = s ∧ w.start ≤ p ∧ w.kv[((p : Int)-w.start).toNat]? = some e.2 := by
      have hmem := hperm.mem_iff.mp he
      obtain ⟨i,hplace,hvalue⟩ := (mem_zip_places hall).mp hmem
      rw [hex] at hplace
      obtain ⟨hs,hp⟩ := place_unique hdisjoint hdistinct hplace hx (by omega) (by omega)
        (hex ▸ husable _ (List.of_mem_zip hmem).1)
      have hi : ((p : Int)-w.start).toNat = i := by omega
      exact ⟨hs,by omega,hi ▸ hvalue⟩
    cases hv : if row = s ∧ w.start ≤ p then w.kv[((p : Int)-w.start).toNat]? else none with
    | none =>
      apply foldl_update_eq
      · intro e he hex
        obtain ⟨hs,hp,hvalue⟩ := honly he hex
        rw [if_pos ⟨hs,hp⟩,hvalue] at hv
        cases hv
      · exact .inl rfl
    | some v =>
      apply foldl_update_eq
      · intro e he hex
        obtain ⟨hs,hp,hvalue⟩ := honly he hex
        rw [if_pos ⟨hs,hp⟩,hvalue] at hv
        exact Option.some.inj hv
      · right
        split at hv
        · next hcond =>
          refine ⟨(x,v),hperm.mem_iff.mpr ((mem_zip_places hall).mpr
            ⟨((p : Int)-w.start).toNat,?_,hv⟩),rfl⟩
          have hp : w.start+(((p : Int)-w.start).toNat : Int) = p := by omega
          rw [hp,hcond.1]
          exact hx
        · cases hv

/-- Every position that a row has a place for holds what the sequence was last given. -/
theorem writeAll_holds [Zero α] (hzero : c.data = fun _ => 0) (hdisjoint : c.RowsDisjoint)
    (hdistinct : c.RowsDistinct) (calls : List (WriteRange α)) :
    ∃ d, c.writeAll calls = c.withData d ∧ ∀ s (p : Nat) x, c.place s (p : Int) = .ok x →
      d x = (c.lastWritten s p calls).getD 0 := by
  induction calls using List.reverseRecOn with
  | nil =>
    refine ⟨c.data,rfl,?_⟩
    intro s p x _
    rw [hzero]
    rfl
  | append_singleton calls w ih =>
    obtain ⟨d,hd,hheld⟩ := ih
    have hstep : c.writeAll (calls ++ [w]) = match (c.withData d).writeRange w with
        | .ok c' => c'
        | .error _ => c.withData d := by
      unfold writeAll at hd ⊢
      rw [List.foldl_append,hd]
      rfl
    have hlast (s : Fin c.batchSize) (p : Nat) : c.lastWritten s p (calls ++ [w]) =
        (c.writtenAt s p w).or (c.lastWritten s p calls) := by
      unfold lastWritten
      rw [List.reverse_append]
      cases h : c.writtenAt s p w <;> simp [h]
    cases hplaces : c.writePlaces w with
    | error e =>
      have herror (d : Fin c.numPages × Fin c.pageSize → α) :
          (c.withData d).writeRange w = .error e := by
        unfold writeRange
        rw [writePlaces_withData,hplaces]
        rfl
      refine ⟨d,by rw [hstep,herror],?_⟩
      intro s p x hx
      have hnone : c.writtenAt s p w = none := by
        have hcall : c.writeRange w = .error e := herror c.data
        unfold writtenAt
        rw [hcall]
      rw [hlast,hnone,Option.none_or]
      exact hheld s p x hx
    | ok places =>
      obtain ⟨_,_,hself⟩ := writeRange_eq_ok hplaces
      have hplaces' : (c.withData d).writePlaces w = .ok places := hplaces
      obtain ⟨writes,hperm,hok⟩ := writeRange_eq_ok hplaces'
      refine ⟨_,by rw [hstep,hok]; rfl,?_⟩
      intro s p x hx
      have hstored := foldl_writes (d := d) hdisjoint hdistinct hplaces hperm hself hx
      rw [hlast]
      refine hstored.trans ?_
      rw [hheld s p x hx]
      cases c.writtenAt s p w <;> rfl

end Stores

section Configuration

variable [Zero α] {c c' : PagedKVCache α}

theorem setPageTable_data {seqId : Int} {pages : List Int} (h : c.setPageTable seqId pages = .ok c')
    (hzero : c.data = fun _ => 0) : c'.data = fun _ => 0 := by
  unfold setPageTable at h
  split at h
  · cases h
  split at h
  · cases h
  split at h
  · cases h
    exact hzero
  split at h
  · cases h
  split at h
  · cases h
  · cases h
    exact hzero

theorem Configured.data (h : Configured c) : c.data = fun _ => 0 := by
  induction h with
  | new h =>
    unfold PagedKVCache.new at h
    split at h
    · cases h
    split at h
    · cases h
    dsimp only at h
    split at h
    · cases h
    · cases h
      rfl
  | setPageTable _ h ih => exact setPageTable_data h ih

theorem Configured.setPageTables (hc : Configured c) {seqIds : List Int}
    {pageRows : List (List Int)} (h : c.setPageTables seqIds pageRows = .ok c') :
    Configured c' := by
  have hloop (l : List (Int × List Int)) (c : PagedKVCache α) (hc : Configured c)
      (h : l.foldlM (fun c x => c.setPageTable x.1 x.2) c = .ok c') : Configured c' := by
    induction l generalizing c with
    | nil =>
      obtain rfl := pure_eq_ok.mp h
      exact hc
    | cons x l ih =>
      rw [List.foldlM_cons] at h
      obtain ⟨c₁,h₁,h⟩ := bind_eq_ok h
      exact ih c₁ (hc.setPageTable h₁) h
  exact hloop _ c hc (throwIf_bind_eq_ok.mp h).2

end Configuration

end PagedKVCache

end FluxServe.Paging
