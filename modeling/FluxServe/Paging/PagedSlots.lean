import FluxServe.Paging.PagedStore

namespace FluxServe.Paging

section Pages

/-- The positions of whole pages, page by page. -/
theorem range_whole_pages (pageSize q : Nat) :
    (List.range q).flatMap (fun k => (List.range pageSize).map fun o => k*pageSize+o) =
      List.range (q*pageSize) := by
  induction q with
  | zero => simp
  | succ q ih =>
    rw [List.range_succ,List.flatMap_append,ih,Nat.succ_mul,List.range_add]
    simp

/-- The positions of a row, page by page; the last page counts to its length. -/
theorem range_pages {pageSize q last n : Nat} (h : n = q*pageSize + last) :
    (List.range (q+1)).flatMap (fun k =>
      (List.range (if k+1 = q+1 then last else pageSize)).map fun o => k*pageSize+o) =
        List.range n := by
  have hwhole : (List.range q).flatMap (fun k =>
      (List.range (if k+1 = q+1 then last else pageSize)).map fun o => k*pageSize+o) =
        List.range (q*pageSize) := by
    rw [← range_whole_pages]
    apply List.flatMap_congr
    intro k hk
    rw [List.mem_range] at hk
    rw [if_neg (by omega)]
  rw [List.range_succ,List.flatMap_append,hwhole,h,List.range_add]
  simp

/-- The slots of the pages of a row, whole but for the last. -/
def rowSlots (pageSize last : Nat) (pages : List Nat) : List Nat :=
  pages.zipIdx.flatMap fun x =>
    (List.range (if x.2+1 = pages.length then last else pageSize)).map fun o => x.1*pageSize+o

theorem rowSlots_map {pageSize q last n : Nat} (h : n = q*pageSize + last) (hlast : last ≤ pageSize)
    (page : Nat → Nat) :
    rowSlots pageSize last ((List.range (q+1)).map page) =
      (List.range n).map fun p => page (p / pageSize)*pageSize + p % pageSize := by
  have hzip : ((List.range (q+1)).map page).zipIdx =
      (List.range (q+1)).map fun k => (page k,k) := by
    apply List.ext_getElem
    · simp
    · intro k h₁ h₂
      simp
  rw [← range_pages h,rowSlots,hzip,List.flatMap_map,List.map_flatMap]
  apply List.flatMap_congr
  intro k hk
  rw [List.length_map,List.length_range,List.map_map]
  apply List.map_congr_left
  intro o ho
  have hlt : o < pageSize := by
    rw [List.mem_range] at ho
    split at ho <;> omega
  have hdiv : (k*pageSize+o) / pageSize = k := by
    rw [Nat.add_comm,Nat.add_mul_div_right _ _ (by omega),Nat.div_eq_of_lt hlt,Nat.zero_add]
  have hmod : (k*pageSize+o) % pageSize = o := by
    rw [Nat.add_comm,Nat.add_mul_mod_self_right,Nat.mod_eq_of_lt hlt]
  simp only [Function.comp_apply,hdiv,hmod]

end Pages

section Rows

variable {α β γ : Type}

theorem forall₂_and_eq {good : α → Prop} {f : α → β} {as : List α} {bs : List β} :
    List.Forall₂ (fun a b => good a ∧ f a = b) as bs ↔ (∀ a ∈ as, good a) ∧ as.map f = bs := by
  rw [List.forall₂_and_left]
  apply and_congr_right
  intro _
  rw [← List.forall₂_eq_eq_eq,List.forall₂_map_left_iff]

theorem forall₂_between {P : α → γ → Prop} {Q : γ → β → Prop} {as : List α} {bs : List β}
    (h : List.Forall₂ (fun a b => ∃ c, P a c ∧ Q c b) as bs) :
    ∃ cs, List.Forall₂ P as cs ∧ List.Forall₂ Q cs bs := by
  induction h with
  | nil => exact ⟨[],.nil,.nil⟩
  | cons hab _ ih =>
    obtain ⟨c,hP,hQ⟩ := hab
    obtain ⟨cs,hPs,hQs⟩ := ih
    exact ⟨c :: cs,.cons hP hPs,.cons hQ hQs⟩

theorem forall₂_congr_mem {P Q : α → β → Prop} {as : List α} {bs : List β}
    (h : ∀ a ∈ as, ∀ b, P a b ↔ Q a b) : List.Forall₂ P as bs ↔ List.Forall₂ Q as bs := by
  induction as generalizing bs with
  | nil => simp
  | cons a as ih =>
    cases bs with
    | nil => simp
    | cons b bs =>
      rw [List.forall₂_cons,List.forall₂_cons,h a List.mem_cons_self,
        ih fun a ha => h a (List.mem_cons_of_mem _ ha)]

end Rows

namespace PagedMetadata

/-- A triple made of pages row by row gives each request its own. -/
theorem slots_flatten {rows : List (List Nat)} {lasts : List Nat} {n i pageSize : Nat}
    (hlen : rows.length = n) (hi : i < n) {indptr : List Nat}
    (hindptr : indptr = (List.range (n+1)).map fun i => ((rows.map List.length).take i).sum) :
    (PagedMetadata.mk indptr rows.flatten lasts).slots pageSize i =
      rowSlots pageSize (lasts[i]?.getD 0) (rows[i]?.getD []) := by
  have hfirst : indptr[i]?.getD 0 = ((rows.map List.length).take i).sum := by
    simp [hindptr,List.getElem?_range (show i < n+1 by omega)]
  have hlast : indptr[i+1]?.getD 0 = ((rows.map List.length).take (i+1)).sum := by
    simp [hindptr,List.getElem?_range (show i+1 < n+1 by omega)]
  have hpages : (rows.flatten.drop ((rows.map List.length).take i).sum).take
      (((rows.map List.length).take (i+1)).sum - ((rows.map List.length).take i).sum) =
        rows[i]?.getD [] := by
    rw [← List.drop_take,List.drop_take_succ_flatten_eq_getElem rows i (by omega),
      List.getElem?_eq_getElem (by omega)]
    rfl
  unfold slots rowSlots
  simp only [hfirst,hlast,hpages]

end PagedMetadata

namespace PagedKVCache

variable {α : Type} {c : PagedKVCache α}

theorem materialize_eq {s : List (Fin c.batchSize)} {n : Nat} {f : Fin c.batchSize → Nat → α}
    (hn : n ≤ c.maxLength)
    (h : ∀ s (p : Nat) x, c.place s (p : Int) = .ok x → c.data x = f s p) :
    c.materialize (s.map fun (s : Fin c.batchSize) => (s : Int)) n =
      .ok (s.map fun s => (List.range n).map (f s)) := by
  unfold materialize
  rw [throwIf_bind_eq_ok]
  refine ⟨by omega,?_⟩
  split
  · next hzero =>
    have hzero : n = 0 := by omega
    simp only [hzero,List.range_zero,List.map_nil,List.map_map]
    rfl
  · rw [mapM_eq_ok,List.forall₂_map_left_iff,List.forall₂_map_right_iff,List.forall₂_same]
    intro s _
    obtain ⟨places,hlookup,hall⟩ := lookup_cast (s := s) hn
    rw [Int.toNat_natCast,hlookup]
    apply congrArg Except.ok
    rw [← List.forall₂_eq_eq_eq,List.forall₂_map_left_iff,List.forall₂_map_right_iff]
    exact hall.flip.imp fun x p hp => h s p x hp

section Metadata

variable {x : Int × Int}

/-- The pages that hold so many positions. -/
def pageCount (c : PagedKVCache α) (n : Int) : Nat := ((n+c.pageSize-1)/c.pageSize).toNat

def lastPageLen (c : PagedKVCache α) (n : Int) : Nat := ((n-1) % c.pageSize + 1).toNat

/-- The row of a sequence, with its pages up to a length set. -/
def RowSet (c : PagedKVCache α) (x : Int × Int) : Prop :=
  ∃ s, index c.batchSize x.1 = .ok s ∧
    (c.usesExternalPageTable = true → ∀ k < c.pageCount x.2, 0 < c.pageAt s k)

def pagesOf (c : PagedKVCache α) (x : Int × Int) : List Nat :=
  match index c.batchSize x.1 with
  | .ok s => (List.range (c.pageCount x.2)).map (c.pageAt s)
  | .error _ => []

/-- A length is made of whole pages and of a last one. -/
theorem length_pages {n : Int} (h : 0 < n) :
    ∃ q, c.pageCount n = q+1 ∧ n.toNat = q*c.pageSize + c.lastPageLen n ∧
      c.lastPageLen n ≤ c.pageSize ∧ 0 < c.lastPageLen n ∧ q = (n.toNat-1) / c.pageSize := by
  have hpos := c.pageSize_pos
  obtain ⟨m,rfl⟩ : ∃ m : Nat, n = ((m+1 : Nat) : Int) := ⟨n.toNat-1,by omega⟩
  have hcount : c.pageCount ((m+1 : Nat) : Int) = m / c.pageSize + 1 := by
    have hnum : (((m+1 : Nat) : Int)+c.pageSize-1) = ((m+c.pageSize : Nat) : Int) := by omega
    rw [pageCount,hnum,← Int.natCast_ediv,Int.toNat_natCast,Nat.add_div_right _ hpos]
  have hlast : c.lastPageLen ((m+1 : Nat) : Int) = m % c.pageSize + 1 := by
    have hnum : (((m+1 : Nat) : Int)-1) = (m : Int) := by omega
    rw [lastPageLen,hnum,← Int.natCast_emod]
    rfl
  have hmod := Nat.mod_lt m hpos
  refine ⟨m / c.pageSize,hcount,?_,by omega,by omega,by simp⟩
  rw [hlast,Int.toNat_natCast,Nat.mul_comm,← Nat.add_assoc,Nat.div_add_mod]

theorem pageCount_le {n : Int} (h : 0 < n) (hn : n ≤ c.maxLength) :
    c.pageCount n ≤ c.pagesPerSequence := by
  obtain ⟨q,hq,_,_,_,hdiv⟩ := length_pages (c := c) h
  have hlt := div_lt_pagesPerSequence (c := c) (n := n.toNat-1) (by omega)
  omega

theorem selectedPages_eq_ok {pages : List Nat} (h : 0 < x.2) (hn : x.2 ≤ c.maxLength) :
    c.selectedPages x.1 (c.pageCount x.2) = .ok pages ↔ c.RowSet x ∧ c.pagesOf x = pages := by
  have hle := pageCount_le h hn
  unfold selectedPages RowSet pagesOf
  cases hindex : index c.batchSize x.1 with
  | error e =>
    constructor
    · intro h
      cases h
    · rintro ⟨⟨_,h,_⟩,_⟩
      cases h
  | ok s =>
    have hselected : ((List.finRange ((c.maxLength+c.pageSize-1)/c.pageSize)).take
        (c.pageCount x.2)).map (fun k => (c.pageTable s k : Nat)) =
          (List.range (c.pageCount x.2)).map (c.pageAt s) := by
      apply List.ext_getElem
      · have hle' : c.pageCount x.2 ≤ (c.maxLength+c.pageSize-1)/c.pageSize := hle
        simp [hle']
      · intro k h₁ h₂
        have hk : k < c.pagesPerSequence := by
          simp only [List.length_map,List.length_range] at h₂
          omega
        simp only [List.getElem_map,List.getElem_take,List.getElem_finRange,List.getElem_range,
          pageAt,dif_pos hk]
        rfl
    change (throwIf _ _ >>= fun _ => pure _) = _ ↔ _
    rw [throwIf_bind_eq_ok,pure_eq_ok,hselected]
    simp only [Bool.and_eq_true,List.any_eq_true,List.mem_map,List.mem_range,decide_eq_true_eq,
      not_and,not_exists]
    constructor
    · rintro ⟨hset,hpages⟩
      refine ⟨⟨s,rfl,fun hexternal k hk => ?_⟩,hpages⟩
      exact Nat.lt_of_not_le (hset hexternal (c.pageAt s k) ⟨k,hk,rfl⟩)
    · rintro ⟨⟨s',hs,hset⟩,hpages⟩
      cases hs
      refine ⟨?_,hpages⟩
      rintro hexternal page ⟨k,hk,hpage⟩
      rw [← hpage]
      exact Nat.not_le_of_lt (hset hexternal k hk)

/-- The lookups of a row reach the pages that the triple lists for it. -/
theorem lookup_slots {row : List Nat} (h : 0 < x.2) (hn : x.2 ≤ c.maxLength) :
    (∃ places, c.lookup x.1 ((List.range x.2.toNat).map fun (p : Nat) => (p : Int)) = .ok places ∧
      c.unset places = false ∧ places.map c.slot = row) ↔
        c.RowSet x ∧ rowSlots c.pageSize (c.lastPageLen x.2) (c.pagesOf x) = row := by
  obtain ⟨q,hcount,hlen,hlast,hlast',_⟩ := length_pages (c := c) h
  unfold RowSet pagesOf
  cases hindex : index c.batchSize x.1 with
  | error e =>
    constructor
    · rintro ⟨_,h,_⟩
      unfold lookup at h
      rw [hindex] at h
      cases h
    · rintro ⟨⟨_,h,_⟩,_⟩
      cases h
  | ok s =>
    obtain ⟨places,hlookup,hall⟩ := lookup_cast (s := s) (n := x.2.toNat) (by omega)
    have hlookup' : c.lookup x.1 ((List.range x.2.toNat).map fun (p : Nat) => (p : Int)) =
        .ok places := by
      unfold lookup at hlookup ⊢
      rw [index_cast] at hlookup
      rw [hindex]
      exact hlookup
    have hvalues : List.Forall₂ (fun (p : Nat) (y : Fin c.numPages × Fin c.pageSize) =>
        (y.1 : Nat) = c.pageAt s (p / c.pageSize) ∧ (y.2 : Nat) = p % c.pageSize)
          (List.range x.2.toNat) places := by
      rw [List.forall₂_iff_get] at hall ⊢
      refine ⟨hall.1,?_⟩
      intro i h₁ h₂
      have hplace := hall.2 i h₁ h₂
      have hlt : (List.range x.2.toNat).get ⟨i,h₁⟩ < c.maxLength := by
        simp only [List.get_eq_getElem,List.getElem_range]
        rw [List.length_range] at h₁
        omega
      obtain ⟨y,hy,hpage,hoffset⟩ := place_cast (s := s) hlt
      rw [Except.ok.inj (hplace.symm.trans hy)]
      exact ⟨hpage,hoffset⟩
    have hslots : places.map c.slot =
        rowSlots c.pageSize (c.lastPageLen x.2) ((List.range (q+1)).map (c.pageAt s)) := by
      rw [rowSlots_map hlen hlast,← List.forall₂_eq_eq_eq,List.forall₂_map_left_iff,
        List.forall₂_map_right_iff]
      apply hvalues.flip.imp
      intro y p hy
      rw [slot,hy.1,hy.2]
    have hunset : c.unset places = false ↔
        (c.usesExternalPageTable = true → ∀ k < q+1, 0 < c.pageAt s k) := by
      simp only [unset,Bool.and_eq_false_imp,List.any_eq_false,decide_eq_true_eq,not_le]
      apply imp_congr_right
      intro _
      obtain ⟨hsame,hget⟩ := List.forall₂_iff_get.mp hvalues
      constructor
      · intro hset k hk
        have hpos := c.pageSize_pos
        have hmul := Nat.mul_le_mul_right c.pageSize (Nat.le_of_lt_succ hk)
        have hlt : k*c.pageSize < (List.range x.2.toNat).length := by
          rw [List.length_range,hlen]
          omega
        have hpage := (hget (k*c.pageSize) hlt (hsame ▸ hlt)).1
        rw [List.get_eq_getElem,List.get_eq_getElem,List.getElem_range,
          Nat.mul_div_cancel _ hpos] at hpage
        rw [← hpage]
        exact hset _ (List.getElem_mem _)
      · intro hset y hy
        obtain ⟨i,hi,rfl⟩ := List.mem_iff_getElem.mp hy
        have hpage := (hget i (hsame.symm ▸ hi) hi).1
        rw [List.get_eq_getElem,List.get_eq_getElem,List.getElem_range] at hpage
        rw [hpage]
        apply hset
        rw [← hsame,List.length_range,hlen] at hi
        rw [Nat.div_lt_iff_lt_mul c.pageSize_pos,Nat.succ_mul]
        exact Nat.lt_of_lt_of_le hi (Nat.add_le_add_left hlast _)
    simp only [hcount]
    constructor
    · rintro ⟨places',hplaces',hset,hrow⟩
      cases hlookup'.symm.trans hplaces'
      exact ⟨⟨s,rfl,hunset.mp hset⟩,hslots.symm.trans hrow⟩
    · rintro ⟨⟨s',hs,hset⟩,hrow⟩
      cases hs
      exact ⟨places,hlookup',hunset.mpr hset,hslots.trans hrow⟩

/-- The row of positions of each sequence up to its length. -/
def rowsUpTo (seqIds lengths : List Int) : List (Int × List Int) :=
  (seqIds.zip lengths).map fun x =>
    (x.1,(List.range x.2.toNat).map fun (p : Nat) => (p : Int))

theorem slotMapping_eq_ok {rows : List (Int × List Int)} {out : List (List Nat)} :
    c.slotMapping rows = .ok out ↔ List.Forall₂ (fun r row => ∃ places,
      c.lookup r.1 r.2 = .ok places ∧ c.unset places = false ∧ places.map c.slot = row)
        rows out := by
  constructor
  · intro h
    obtain ⟨places,hplaces,h⟩ := bind_eq_ok h
    obtain ⟨hset,h⟩ := throwIf_bind_eq_ok.mp h
    obtain rfl := pure_eq_ok.mp h
    rw [Bool.not_eq_true,List.any_eq_false] at hset
    rw [mapM_eq_ok,List.forall₂_iff_get] at hplaces
    rw [List.forall₂_map_right_iff,List.forall₂_iff_get]
    refine ⟨hplaces.1,?_⟩
    intro i h₁ h₂
    refine ⟨_,hplaces.2 i h₁ h₂,?_,rfl⟩
    simpa using hset _ (List.get_mem _ ⟨i,h₂⟩)
  · intro h
    obtain ⟨places,hplaces,hrows⟩ := forall₂_between h
    unfold slotMapping
    rw [mapM_eq_ok.mpr hplaces]
    apply throwIf_bind_eq_ok.mpr
    obtain ⟨hset,hout⟩ := forall₂_and_eq.mp hrows
    refine ⟨?_,congrArg _ hout⟩
    rw [Bool.not_eq_true,List.any_eq_false]
    intro row hrow
    rw [hset row hrow]
    exact Bool.false_ne_true

theorem slotMapping_rowsUpTo {seqIds lengths : List Int} {out : List (List Nat)}
    (hlengths : ∀ n ∈ lengths, 0 < n ∧ n ≤ c.maxLength) :
    c.slotMapping (rowsUpTo seqIds lengths) = .ok out ↔
      (∀ x ∈ seqIds.zip lengths, c.RowSet x) ∧ (seqIds.zip lengths).map
        (fun x => rowSlots c.pageSize (c.lastPageLen x.2) (c.pagesOf x)) = out := by
  rw [slotMapping_eq_ok,rowsUpTo,List.forall₂_map_left_iff,← forall₂_and_eq]
  apply forall₂_congr_mem
  intro x hx row
  obtain ⟨hpos,hle⟩ := hlengths x.2 (List.of_mem_zip hx).2
  exact lookup_slots hpos hle

theorem flashinferPagedMetadata_eq_ok {seqIds lengths : List Int} {m : PagedMetadata}
    (hlen : lengths.length = seqIds.length) (hlengths : ∀ n ∈ lengths, 0 < n ∧ n ≤ c.maxLength) :
    c.flashinferPagedMetadata seqIds lengths = .ok m ↔
      (∀ x ∈ seqIds.zip lengths, c.RowSet x) ∧
        { indptr := (List.range (seqIds.length+1)).map fun i =>
            ((lengths.map c.pageCount).take i).sum
          indices := ((seqIds.zip lengths).map c.pagesOf).flatten
          lastPageLen := lengths.map c.lastPageLen : PagedMetadata } = m := by
  have hselected (selected : List (List Nat)) :
      (seqIds.zip (lengths.map c.pageCount)).mapM (fun x => c.selectedPages x.1 x.2) =
        .ok selected ↔ (∀ x ∈ seqIds.zip lengths, c.RowSet x) ∧
          (seqIds.zip lengths).map c.pagesOf = selected := by
    rw [mapM_eq_ok,List.zip_map_right,List.forall₂_map_left_iff,← forall₂_and_eq]
    apply forall₂_congr_mem
    intro x hx pages
    obtain ⟨hpos,hle⟩ := hlengths x.2 (List.of_mem_zip hx).2
    exact selectedPages_eq_ok hpos hle
  unfold flashinferPagedMetadata
  rw [throwIf_bind_eq_ok,throwIf_bind_eq_ok,throwIf_bind_eq_ok]
  constructor
  · intro ⟨_,_,_,h⟩
    obtain ⟨selected,hmap,h⟩ := bind_eq_ok h
    obtain ⟨hset,rfl⟩ := (hselected selected).mp hmap
    exact ⟨hset,pure_eq_ok.mp h⟩
  · intro ⟨hset,hm⟩
    refine ⟨not_not.mpr hlen,?_,?_,?_⟩
    · rintro ⟨n,hn,hle⟩
      exact absurd (hlengths n hn).1 (not_lt_of_ge hle)
    · rintro ⟨n,hn,hlt⟩
      exact absurd (hlengths n hn).2 (not_le_of_gt hlt)
    · change ((seqIds.zip (lengths.map c.pageCount)).mapM (fun x => c.selectedPages x.1 x.2) >>=
        _) = _
      rw [(hselected _).mpr ⟨hset,rfl⟩]
      exact congrArg _ hm

/-- The triple denotes the slots of the mapping, and both are made for the same rows. -/
theorem slots_eq_slotMapping {seqIds lengths : List Int} {out : List (List Nat)}
    (hlen : lengths.length = seqIds.length) (hlengths : ∀ n ∈ lengths, 0 < n ∧ n ≤ c.maxLength) :
    c.slotMapping (rowsUpTo seqIds lengths) = .ok out ↔
      ∃ m, c.flashinferPagedMetadata seqIds lengths = .ok m ∧
        out = (List.range seqIds.length).map (m.slots c.pageSize) := by
  rw [slotMapping_rowsUpTo hlengths]
  simp only [flashinferPagedMetadata_eq_ok hlen hlengths]
  have hcounts (hset : ∀ x ∈ seqIds.zip lengths, c.RowSet x) :
      ((seqIds.zip lengths).map c.pagesOf).map List.length = lengths.map c.pageCount := by
    have hsnd := congrArg (List.map c.pageCount)
      (List.map_snd_zip (show lengths.length ≤ seqIds.length by omega))
    rw [List.map_map] at hsnd
    rw [List.map_map,← hsnd]
    apply List.map_congr_left
    intro x hx
    obtain ⟨s,hs,_⟩ := hset x hx
    simp [pagesOf,hs]
  have hslots (hset : ∀ x ∈ seqIds.zip lengths, c.RowSet x) : (seqIds.zip lengths).map
      (fun x => rowSlots c.pageSize (c.lastPageLen x.2) (c.pagesOf x)) =
        (List.range seqIds.length).map (PagedMetadata.slots {
          indptr := (List.range (seqIds.length+1)).map fun i =>
            ((lengths.map c.pageCount).take i).sum
          indices := ((seqIds.zip lengths).map c.pagesOf).flatten
          lastPageLen := lengths.map c.lastPageLen } c.pageSize) := by
    apply List.ext_getElem
    · simp [hlen]
    · intro i h₁ h₂
      have hi : i < seqIds.length := by simpa using h₂
      rw [List.getElem_map,List.getElem_map,List.getElem_range,
        PagedMetadata.slots_flatten (by simp [hlen]) hi (by rw [hcounts hset])]
      simp [hlen,hi]
  constructor
  · intro ⟨hset,hout⟩
    exact ⟨_,⟨hset,rfl⟩,hout.symm.trans (hslots hset)⟩
  · intro ⟨m,⟨hset,hm⟩,hout⟩
    exact ⟨hset,(hslots hset).trans (by rw [hout,← hm])⟩

end Metadata

section Injective

/-- A mapping gives a position of a sequence the slot. -/
def MapsTo (rows : List (Int × List Int)) (out : List (List Nat)) (seqId p : Int) (slot : Nat) :
    Prop :=
  ∃ r ∈ rows.zip out, r.1.1 = seqId ∧ (p,slot) ∈ r.1.2.zip r.2

theorem forall₂_of_mem_zip {α β : Type} {P : α → β → Prop} {as : List α} {bs : List β}
    (h : List.Forall₂ P as bs) {e : α × β} (he : e ∈ as.zip bs) : P e.1 e.2 := by
  induction h with
  | nil => cases he
  | cons hab _ ih =>
    rw [List.zip_cons_cons,List.mem_cons] at he
    obtain rfl | he := he
    · exact hab
    · exact ih he

theorem exists_place {rows : List (Int × List Int)} {out : List (List Nat)} {seqId p : Int}
    {slot : Nat} (h : c.slotMapping rows = .ok out) (hmaps : MapsTo rows out seqId p slot) :
    ∃ s x, index c.batchSize seqId = .ok s ∧ c.place s p = .ok x ∧ c.Usable x.1 ∧
      c.slot x = slot := by
  obtain ⟨r,hr,rfl,hp⟩ := hmaps
  obtain ⟨places,hlookup,hset,hslots⟩ := forall₂_of_mem_zip (slotMapping_eq_ok.mp h) hr
  obtain ⟨s,hs,hplaces⟩ := bind_eq_ok hlookup
  have hrow : List.Forall₂ (fun p slot => ∃ x, (c.place s p = .ok x ∧ x ∈ places) ∧ c.slot x = slot)
      r.1.2 r.2 := by
    rw [← hslots,List.forall₂_map_right_iff]
    have hall := mapM_eq_ok.mp hplaces
    rw [List.forall₂_iff_get] at hall ⊢
    refine ⟨hall.1,?_⟩
    intro i h₁ h₂
    exact ⟨_,⟨hall.2 i h₁ h₂,List.get_mem _ _⟩,rfl⟩
  obtain ⟨x,⟨hx,hmem⟩,hslot⟩ := forall₂_of_mem_zip hrow hp
  refine ⟨s,x,hs,hx,?_,hslot⟩
  intro hexternal
  simp only [unset,hexternal,Bool.true_and,List.any_eq_false,decide_eq_true_eq,not_le] at hset
  exact hset x hmem

theorem mapsTo_injective (hdisjoint : c.RowsDisjoint) (hdistinct : c.RowsDistinct)
    {rows : List (Int × List Int)} {out : List (List Nat)} {seqId p seqId' p' : Int} {slot : Nat}
    (h : c.slotMapping rows = .ok out) (hseq : 0 ≤ seqId) (hp : 0 ≤ p) (hseq' : 0 ≤ seqId')
    (hp' : 0 ≤ p') (hmaps : MapsTo rows out seqId p slot)
    (hmaps' : MapsTo rows out seqId' p' slot) :
    seqId = seqId' ∧ p = p' := by
  obtain ⟨s,x,hs,hx,husable,hslot⟩ := exists_place h hmaps
  obtain ⟨s',x',hs',hx',_,hslot'⟩ := exists_place h hmaps'
  have hsame := slot_injective (hslot.trans hslot'.symm)
  rw [← hsame] at hx'
  obtain ⟨hrow,hpos⟩ := place_unique hdisjoint hdistinct hx hx' hp hp' husable
  refine ⟨?_,hpos⟩
  rw [← index_nonneg hs hseq,← index_nonneg hs' hseq',hrow]

end Injective

section Default

variable [Zero α]

/-- The default page table shares no page. -/
theorem new_distinct {batchSize maxLength pageSize reserveDummyPage : Nat} {c : PagedKVCache α}
    (h : new batchSize maxLength pageSize none reserveDummyPage = .ok c) :
    c.RowsDisjoint ∧ c.RowsDistinct := by
  unfold PagedKVCache.new at h
  split at h
  · cases h
  split at h
  · cases h
  dsimp only at h
  split at h
  · cases h
  · cases h
    constructor
    · intro s s' k k' hne _ _ hsame
      have hval := congrArg Fin.val hsame
      exact hne (Fin.ext (page_offset_injective k.isLt k'.isLt hval).1)
    · intro s k k' _ hsame
      have hval := congrArg Fin.val hsame
      exact Fin.ext (page_offset_injective k.isLt k'.isLt hval).2

end Default

/-- What is read is what was last written, no two positions share a slot, and the triple denotes the
slots of the mapping. -/
theorem faithfulStore [Zero α] (hc : Configured c) (hdisjoint : c.RowsDisjoint)
    (hdistinct : c.RowsDistinct) :
    (∀ (calls : List (WriteRange α)) (seqs : List (Fin c.batchSize)) (n : Nat), n ≤ c.maxLength →
      (c.writeAll calls).materialize (seqs.map fun (s : Fin c.batchSize) => (s : Int)) n =
        .ok (seqs.map fun s => (List.range n).map fun p => (c.lastWritten s p calls).getD 0)) ∧
    (∀ rows out, c.slotMapping rows = .ok out → ∀ seqId p seqId' p' slot,
      0 ≤ seqId → 0 ≤ p → 0 ≤ seqId' → 0 ≤ p' →
        MapsTo rows out seqId p slot → MapsTo rows out seqId' p' slot → seqId = seqId' ∧ p = p') ∧
    (∀ (seqIds lengths : List Int) (out : List (List Nat)), lengths.length = seqIds.length →
      (∀ n ∈ lengths, 0 < n ∧ n ≤ c.maxLength) →
        (c.slotMapping (rowsUpTo seqIds lengths) = .ok out ↔
          ∃ m, c.flashinferPagedMetadata seqIds lengths = .ok m ∧
            out = (List.range seqIds.length).map (m.slots c.pageSize))) := by
  constructor
  · intro calls seqs n hn
    obtain ⟨d,hd,hheld⟩ := writeAll_holds hc.data hdisjoint hdistinct calls
    rw [hd]
    exact materialize_eq (c := c.withData d) hn hheld
  constructor
  · intro rows out h seqId p seqId' p' slot hseq hp hseq' hp'
    exact mapsTo_injective hdisjoint hdistinct h hseq hp hseq' hp'
  · intro seqIds lengths out
    exact slots_eq_slotMapping

theorem configured_of {batchSize maxLength pageSize reserveDummyPage : Nat} {numPages : Option Nat}
    {seqIds : List Int} {pageRows : List (List Int)} [Zero α]
    (h : (new batchSize maxLength pageSize numPages reserveDummyPage >>= fun c =>
      c.setPageTables seqIds pageRows) = .ok c) : Configured c := by
  obtain ⟨_,hnew,hset⟩ := bind_eq_ok h
  exact (Configured.new hnew).setPageTables hset

theorem eq_ok_get {ε β : Type} {x : Except ε β} (h : x.toOption.isSome = true) :
    x = .ok (x.toOption.get h) := by
  cases x with
  | error e => cases h
  | ok b => rfl

/-- Two sequences of up to three positions on pages of two, the second with one page. -/
def smallCache : PagedKVCache Nat :=
  ((new 2 3 2 (some 5) 0 >>= fun c => c.setPageTables [0,1] [[4,2],[3]]).toOption).get
    (by decide +kernel)

/-- The second call straddles the pages of the first row, the third raises. -/
def smallCalls : List (WriteRange Nat) :=
  [{ seqId := 0, start := 0, kv := [5,6] },{ seqId := 0, start := 1, kv := [7,8] },
    { seqId := 1, start := 1, kv := [9,9] },{ seqId := 1, start := 1, kv := [3] }]

theorem faithfulStore_small :
    (smallCache.writeAll smallCalls).materialize [0,1] 3 = .ok [[5,7,8],[0,3,0]] ∧
    ∃ m, smallCache.flashinferPagedMetadata [1,0] [2,3] = .ok m ∧
      [[6,7],[8,9,4]] = (List.range 2).map (m.slots 2) := by
  obtain ⟨hstore,_,hcsr⟩ := faithfulStore (configured_of (eq_ok_get (by decide)))
    (show smallCache.RowsDisjoint by unfold RowsDisjoint Usable; decide)
    (show smallCache.RowsDistinct by unfold RowsDistinct Usable; decide)
  constructor
  · have hread := hstore smallCalls [⟨0,by decide⟩,⟨1,by decide⟩] 3 (by decide)
    refine Eq.trans ?_ (hread.trans ?_)
    · rfl
    · apply congrArg Except.ok
      decide
  · exact (hcsr [1,0] [2,3] [[6,7],[8,9,4]] (by decide) (by decide)).mp (by decide)

/-- One sequence of up to four positions whose two pages are the same. -/
def sharedCache : PagedKVCache Nat :=
  ((new 1 4 2 (some 3) 0 >>= fun c => c.setPageTables [0] [[1,1]]).toOption).get
    (by decide +kernel)

/-- Rows may be disjoint and one of them hold a page twice. -/
theorem faithfulStore_shared :
    Configured sharedCache ∧ sharedCache.RowsDisjoint ∧
    (∃ s, sharedCache.lastWritten s 0 [{ seqId := 0, start := 0, kv := [5] },
      { seqId := 0, start := 2, kv := [9] }] = some 5) ∧
    (sharedCache.writeAll [{ seqId := 0, start := 0, kv := [5] },
      { seqId := 0, start := 2, kv := [9] }]).materialize [0] 1 = .ok [[9]] ∧
    sharedCache.slotMapping [(0,[0,2])] = .ok [[2,2]] := by
  refine ⟨configured_of (eq_ok_get (by decide)),?_,⟨⟨0,by decide⟩,?_⟩,?_,?_⟩
  · unfold RowsDisjoint Usable
    decide
  · decide
  · decide
  · decide

end PagedKVCache

end FluxServe.Paging
