import FluxServe.Fsm.Events
import FluxServe.Resource.Change

namespace FluxServe

open KVPrefixCache

variable {kv kv' : KVPrefixCache} {ps : Nat} {l l' : LocalKVAllocator} {a b : Int}
  {refs : ResourceType → Multiset NodeId} {owned : ResourceType → Multiset PageId}

theorem pagesFor_eq (ha : 0 ≤ a) (hps : 0 < ps) : pagesFor a ps = (a+ps-1)/ps := by
  unfold pagesFor
  exact Int.tdiv_eq_ediv_of_nonneg (by omega)

/-- The pages for a positive number of tokens hold them, and one page less does not. -/
theorem pagesFor_nonneg (ha : 0 ≤ a) (hps : 0 < ps) : 0 ≤ pagesFor a ps := by
  rw [pagesFor_eq ha hps]
  exact Int.ediv_nonneg (by omega) (by omega)

theorem pagesFor_bounds (ha : 0 < a) (hps : 0 < ps) :
    a ≤ pagesFor a ps*ps ∧ pagesFor a ps*ps < a+ps := by
  rw [pagesFor_eq ha.le hps]
  have h1 := Int.emod_add_mul_ediv (a+ps-1) ps
  have h2 := Int.emod_nonneg (a+ps-1) (b := ps) (by omega)
  have h3 := Int.emod_lt_of_pos (a+ps-1) (b := ps) (by omega)
  rw [mul_comm] at h1
  omega

theorem pagesFor_pos (ha : 0 < a) (hps : 0 < ps) : 0 < pagesFor a ps := by
  have h := (pagesFor_bounds ha hps).1
  by_contra hn
  have := Int.mul_le_mul_of_nonneg_right (show pagesFor a ps ≤ 0 by omega)
    (show (0 : Int) ≤ ps by omega)
  omega

theorem pagesFor_le_iff (ha : 0 < a) (hps : 0 < ps) (k : Int) :
    pagesFor a ps ≤ k ↔ a ≤ k*ps := by
  obtain ⟨h1,h2⟩ := pagesFor_bounds ha hps
  constructor
  · intro h
    exact h1.trans (Int.mul_le_mul_of_nonneg_right h (by omega))
  · intro h
    by_contra hn
    have := Int.mul_le_mul_of_nonneg_right (show k+1 ≤ pagesFor a ps by omega)
      (show (0 : Int) ≤ ps by omega)
    rw [Int.add_mul] at this
    omega

theorem pagesFor_mono (ha : 0 < a) (hab : a ≤ b) (hps : 0 < ps) : pagesFor a ps ≤ pagesFor b ps :=
  (pagesFor_le_iff ha hps _).mpr (hab.trans (pagesFor_bounds (ha.trans_le hab) hps).1)

/-- Whole pages are counted apart. -/
theorem pagesFor_add_mul (ha : 0 ≤ a) (k : Nat) (hps : 0 < ps) :
    pagesFor (ps*k+a) ps = k+pagesFor a ps := by
  have hk : (0 : Int) ≤ ps*k := Int.mul_nonneg (by omega) (by omega)
  rw [pagesFor_eq ha hps,pagesFor_eq (by omega) hps,
    show (ps*k+a+ps-1 : Int) = a+ps-1+ps*k by omega,
    Int.add_mul_ediv_left _ _ (by omega : (ps : Int) ≠ 0)]
  omega

/-- The pages `Acquire` takes from the pool. -/
def acquireNeeds (l : LocalKVAllocator) (numTokens : Int) (ps : Nat) : Int :=
  if numTokens ≤ l.tailPageAvailableTokens then 0
  else pagesFor (numTokens-l.tailPageAvailableTokens) ps

theorem acquireNeeds_nonneg (hps : 0 < ps) (num : Int) : 0 ≤ acquireNeeds l num ps := by
  unfold acquireNeeds
  split
  · rfl
  · exact (pagesFor_pos (by omega) hps).le

theorem acquireNeeds_le (hps : 0 < ps) (ht : 0 ≤ l.tailPageAvailableTokens) {num : Int} {k : Int}
    (hk : 0 ≤ k) (h : pagesFor num ps ≤ k) : acquireNeeds l num ps ≤ k := by
  unfold acquireNeeds
  split
  · exact hk
  · exact (pagesFor_mono (by omega) (by omega) hps).trans h

theorem scheduleDecode_needs (hps : 0 < ps) (reserve k : Int) :
    pagesFor (max 0 (reserve-l.tailPageAvailableTokens)) ps ≤ k ↔ acquireNeeds l reserve ps ≤ k := by
  unfold acquireNeeds
  split
  · have h0 : pagesFor 0 ps = 0 := by
      rw [pagesFor_eq le_rfl hps]
      exact Int.ediv_eq_zero_of_lt (by omega) (by omega)
    rw [max_eq_left (by omega),h0]
  · rw [max_eq_right (by omega)]

/-- What an allocator is after `Acquire`: `new` are the pages it got. -/
structure Acquired (l : LocalKVAllocator) (numTokens : Int) (ps : Nat) (new : List PageId)
    (l' : LocalKVAllocator) : Prop where
  pages : l'.pages = l.pages ++ new
  length : (new.length : Int) = acquireNeeds l numTokens ps
  tail : l'.tailPageAvailableTokens = l.tailPageAvailableTokens+new.length*ps-numTokens
  nonneg : 0 ≤ l'.tailPageAvailableTokens

/-- Acquiring for some tokens and then for more takes the pages of all of them. -/
theorem acquireNeeds_add {new : List PageId} {more : Int} (hps : 0 < ps) (ha : 0 ≤ a)
    (hm : 0 ≤ more) (h : Acquired {} a ps new l) :
    new.length+acquireNeeds l more ps ≤ pagesFor (a+more) ps := by
  have htail := h.tail
  simp only [zero_add] at htail
  have hnew : (new.length : Int) = acquireNeeds {} a ps := h.length
  unfold acquireNeeds at hnew ⊢
  simp only [sub_zero] at hnew
  have hcomm : (ps : Int)*new.length = new.length*ps := mul_comm _ _
  split
  · split at hnew
    · rw [hnew,pagesFor_eq (by omega) hps]
      have hdiv : 0 ≤ (a+more+ps-1)/ps := Int.ediv_nonneg (by omega) (by omega)
      omega
    · rw [hnew,add_zero]
      exact pagesFor_mono (by omega) (by omega) hps
  · next hmore =>
    have hrest : 0 ≤ a+more-ps*new.length := by omega
    have hadd := pagesFor_add_mul hrest new.length hps
    rw [show (ps*new.length+(a+more-ps*new.length) : Int) = a+more by omega] at hadd
    rw [htail,show more-(new.length*ps-a) = a+more-ps*new.length by omega]
    omega

/-- The tail of the last new page. -/
theorem tail_eq (ha : 0 < a) (hps : 0 < ps) :
    (if Int.tmod a ps = 0 then 0 else (ps : Int)-Int.tmod a ps) = pagesFor a ps*ps-a := by
  rw [Int.tmod_eq_emod_of_nonneg ha.le]
  have h1 := Int.emod_add_mul_ediv a ps
  have h2 := Int.emod_nonneg a (b := ps) (by omega)
  have h3 := Int.emod_lt_of_pos a (b := ps) (by omega)
  have hle := pagesFor_le_iff ha hps
  rw [mul_comm] at h1
  split
  · next h0 =>
    have := (hle (a/ps)).mpr (by omega)
    have := (pagesFor_bounds ha hps).1
    have := Int.mul_le_mul_of_nonneg_right ((hle (a/ps)).mpr (by omega))
      (show (0 : Int) ≤ ps by omega)
    omega
  · next h0 =>
    have hge : ¬pagesFor a ps ≤ a/ps := fun h => by
      have := (hle _).mp h
      omega
    have hup := (hle (a/ps+1)).mpr (by rw [Int.add_mul]; omega)
    have heq : pagesFor a ps = a/ps+1 := by omega
    rw [heq,Int.add_mul]
    omega

theorem keepsRecord_acquire (l : LocalKVAllocator) (num : Int) : KeepsRecord (acquire l num) := by
  refine keeps_ite (keeps_pure _) (keeps_bind keeps_get fun kv => ?_)
  refine keeps_bind (keepsRecord_allocatePages _) fun pages => ?_
  exact keeps_ite (keeps_bind (keepsRecord_throwException _) fun _ => keeps_pure _) (keeps_pure _)

/-- `Acquire` succeeds exactly when the pool has the pages; otherwise nothing changes hands. -/
theorem acquire_runs (hinv : KVInv kv refs (own .device l.pages owned)) (num : Int) :
    Runs (acquire l num) kv
      (fun l' kv' => KVInv kv' refs (own .device l'.pages owned) ∧ Change refs [] kv kv' ∧
        AllocStep .device kv kv' ∧ ∃ new, Acquired l num kv.pageSize new l' ∧
          kv.availablePages .device = kv'.availablePages .device+new.length)
      (fun e kv' => (∃ k m, e = .exception (.insufficientPages k m)) ∧
        KVInv kv' refs (own .device l.pages owned) ∧ Change refs [] kv kv' ∧
        AllocStep .device kv kv' ∧
        (kv.availablePages .device : Int) < acquireNeeds l num kv.pageSize) := by
  have hps := hinv.inv.tree.pageSize_pos
  unfold acquire
  by_cases hfit : num ≤ l.tailPageAvailableTokens
  · rw [if_pos hfit]
    refine ⟨hinv,Change.refl _ _,⟨fun _ _ => rfl,rfl,fun _ => rfl,fun _ => rfl⟩,[],?_,by simp⟩
    exact ⟨by simp,by simp [acquireNeeds,hfit],by simp,by simp; omega⟩
  rw [if_neg hfit]
  have hneeds : acquireNeeds l num kv.pageSize =
      pagesFor (num-l.tailPageAvailableTokens) kv.pageSize := if_neg hfit
  have hover : 0 < num-l.tailPageAvailableTokens := by omega
  have hpos := pagesFor_pos hover hps
  rw [runs_bind,runs_get]
  refine (allocatePages_returns hinv.inv _).bind fun new kv₁ ⟨hi,he,hs,hav,hall,hnone,_⟩ => ?_
  have hchange := Change.of_allocStep he hs
  split
  · next hlt =>
    have hshort : (kv.availablePages .device : Int) <
        pagesFor (num-l.tailPageAvailableTokens) kv.pageSize := by
      by_contra hn
      have := hall (by omega)
      omega
    rw [hnone hshort] at hi
    refine ⟨⟨_,_,rfl⟩,hs.kvInv hinv (by simpa using hi),hchange,hs,by rw [hneeds]; exact hshort⟩
  · next hge =>
    have hfull : pagesFor (num-l.tailPageAvailableTokens) kv.pageSize ≤
        kv.availablePages .device := by
      by_contra hn
      have hnil := hnone (by omega)
      subst hnil
      simp only [List.length_nil] at hge
      omega
    have hlen := hall hfull
    rw [max_eq_right hpos.le] at hlen
    refine ⟨?_,hchange,hs,new,⟨rfl,by rw [hneeds]; exact hlen,?_,?_⟩,hav⟩
    · refine hs.kvInv hinv ?_
      rw [own_append,own_comm]
      exact hi
    · rw [tail_eq hover hps,hlen]
      dsimp only
      omega
    · rw [tail_eq hover hps]
      have := (pagesFor_bounds hover hps).1
      dsimp only
      omega

end FluxServe
