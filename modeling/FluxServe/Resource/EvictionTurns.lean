import FluxServe.Resource.PruneProof

namespace FluxServe

open KVPrefixCache

variable {kv kv₀ kv' : KVPrefixCache} {t u : ResourceType} {i j : NodeId} {n : TreeNode}
  {refs : ResourceType → Multiset NodeId} {owned : ResourceType → Multiset PageId} {e e' : Evicted}
  {num : Int} {fuel : Nat} {x : KVPrefixCache × NodeId}

/-- The turns of the loop of `Evict`: the state that each starts in and the leaf that it takes. -/
def evictTurns (t : ResourceType) (numPages : Int) :
    Nat → Evicted → KVPrefixCache → List (KVPrefixCache × NodeId)
  | 0,_,_ => []
  | fuel+1,e,kv =>
    if numPages ≤ e.numPages then [] else
    match (kv.manager t).lruLeaves with
    | [] => []
    | (_,leaf) :: _ =>
      match evictLeaf t leaf e kv with
      | .ok e' kv' => (kv,leaf) :: evictTurns t numPages fuel e' kv'
      | .error _ _ => []

/-- The turns of `EnsureCapacity`. -/
def ensureTurns (t : ResourceType) (requiredNumPages : Int) (kv : KVPrefixCache) :
    List (KVPrefixCache × NodeId) :=
  if requiredNumPages ≤ kv.availablePages t then [] else
    evictTurns t (requiredNumPages-kv.availablePages t) kv.tree.length {} kv

/-- The turns that take an unlocked leaf and detach its pages. -/
def detaching (t : ResourceType) (turns : List (KVPrefixCache × NodeId)) :
    List (KVPrefixCache × NodeId) :=
  turns.filter fun x => refCountOf t x.1.tree x.2 == 0

/-- A turn of an eviction that was started in `kv₀`. -/
def TurnOf (t : ResourceType) (refs : ResourceType → Multiset NodeId)
    (owned : ResourceType → Multiset PageId) (kv₀ : KVPrefixCache) (x : KVPrefixCache × NodeId) :
    Prop :=
  ∃ e ts rest, Evicting t refs owned kv₀ x.1 e ∧ (x.1.manager t).lruLeaves = (ts,x.2) :: rest

theorem TurnOf.isLeaf (h : TurnOf t refs owned kv₀ x) : isLeaf t x.1.tree x.2 = true := by
  obtain ⟨e,ts,rest,he,hlru⟩ := h
  exact (he.oldest hlru).1

/-- A turn takes a node that none of the tier's pages are below. -/
theorem TurnOf.childless (h : TurnOf t refs owned kv₀ x) (hj : x.1.tree.read j = some n)
    (hp : n.parent = some x.2) : hasResource t x.1.tree j = false := by
  have hleaf := h.isLeaf
  obtain ⟨e,ts,rest,he,hlru⟩ := h
  exact not_hasResource_of_isLeaf he.inv.tree (he.inv.tier t) hleaf hj hp

/-- Locks are left alone while pages are detached. -/
theorem Evicting.refCount_eq (h : Evicting t refs owned kv₀ kv e)
    (hi : hasResource t kv.tree i = true) : refCountOf t kv.tree i = refCountOf t kv₀.tree i := by
  obtain ⟨n',r,hn',hr⟩ := exists_resource_of_hasResource hi
  obtain ⟨n,hn,_,_,hcore⟩ := h.shrinks.live hn'
  obtain hsame | ⟨hnone,_⟩ := hcore
  · exact refCountOf_eq_of_core hn hn' hsame
  · simp [coreOf,hr] at hnone

theorem Evicting.resident (h : Evicting t refs owned kv₀ kv e)
    (hi : hasResource t kv.tree i = true) : hasResource t kv₀.tree i = true := by
  obtain ⟨n',r,hn',hr⟩ := exists_resource_of_hasResource hi
  obtain ⟨n,hn,_,_,hcore⟩ := h.shrinks.live hn'
  obtain hsame | ⟨hnone,_⟩ := hcore
  · simp only [coreOf,hr,Option.map_some] at hsame
    obtain ⟨r₀,hr₀,_⟩ := Option.map_eq_some_iff.mp hsame.symm
    exact hasResource_of_resource hn hr₀
  · simp [coreOf,hr] at hnone

/-- Only unlocked nodes lose their pages. -/
theorem Shrinks.unlocked (h : Shrinks t kv kv') (hi : hasResource t kv.tree i = true)
    (hi' : hasResource t kv'.tree i = false) : refCountOf t kv.tree i = 0 := by
  obtain ⟨n,r,hn,hr⟩ := exists_resource_of_hasResource hi
  cases hn' : kv'.tree.read i with
  | none => exact (h.gone hn hn').2
  | some n' =>
    obtain ⟨m,hm,_,_,hcore⟩ := h.live hn'
    rw [hn] at hm
    cases hm
    obtain hsame | ⟨_,hfree⟩ := hcore
    · simp only [coreOf,hr,Option.map_some] at hsame
      obtain ⟨r',hr',_⟩ := Option.map_eq_some_iff.mp hsame
      rw [hasResource_of_resource hn' hr'] at hi'
      cases hi'
    · exact hfree

/-- A turn detaches the leaf that it takes, unless that is locked. -/
theorem evictLeaf_detaches {ts : Timestamp} {rest : List (Timestamp × NodeId)}
    (h : Evicting t refs owned kv₀ kv e) (hlru : (kv.manager t).lruLeaves = (ts,i) :: rest)
    (h' : Evicting t refs owned kv₀ kv' e')
    (hstep : (∀ j, hasResource t kv'.tree j = hasResource t kv.tree j) ∧
        e'.deferredLocked = e.deferredLocked ++ [i] ∨
      ∀ j, hasResource t kv'.tree j = (!decide (j=i) && hasResource t kv.tree j)) (j : NodeId) :
    hasResource t kv'.tree j = true ↔
      hasResource t kv.tree j = true ∧ (refCountOf t kv.tree i = 0 → j ≠ i) := by
  have hi : hasResource t kv.tree i = true := (isLeaf_iff.mp (h.oldest hlru).1).1
  obtain ⟨hres,hdeferred⟩ | hres := hstep
  · -- The leaf is set aside, so it is locked.
    have hmem : i ∈ e'.deferredLocked := by
      rw [hdeferred]
      exact List.mem_append_right _ List.mem_cons_self
    obtain ⟨hleaf,hlocked,_⟩ := h'.deferred i hmem
    rw [h'.refCount_eq (isLeaf_iff.mp hleaf).1,← h.refCount_eq hi] at hlocked
    rw [hres]
    exact ⟨fun hj => ⟨hj,fun h0 => absurd h0 hlocked⟩,And.left⟩
  · have hgone : hasResource t kv'.tree i = false := by
      rw [hres]
      simp
    have hfree : refCountOf t kv.tree i = 0 := by
      rw [h.refCount_eq hi]
      exact h'.shrinks.unlocked (h.resident hi) hgone
    rw [hres]
    simp only [Bool.and_eq_true,Bool.not_eq_true',decide_eq_false_iff_not]
    tauto

theorem evictLoop_nil (hnum : ¬num ≤ e.numPages) (hlru : (kv.manager t).lruLeaves = []) :
    evictLoop t num (fuel+1) e kv = .ok e kv := by
  unfold evictLoop
  rw [if_neg hnum]
  change (match (kv.manager t).lruLeaves with | [] => _ | (_,_) :: _ => _ : KV Evicted) kv = _
  rw [hlru]
  rfl

theorem evictLoop_cons {ts : Timestamp} {rest : List (Timestamp × NodeId)}
    (hnum : ¬num ≤ e.numPages) (hlru : (kv.manager t).lruLeaves = (ts,i) :: rest)
    (hturn : evictLeaf t i e kv = .ok e' kv') :
    evictLoop t num (fuel+1) e kv = evictLoop t num fuel e' kv' := by
  have hbind : (evictLeaf t i e >>= evictLoop t num fuel) kv = evictLoop t num fuel e' kv' := by
    simp only [bind,EStateM.bind,hturn]
  rw [← hbind,evictLoop,if_neg hnum]
  change (match (kv.manager t).lruLeaves with | [] => _ | (_,_) :: _ => _ : KV Evicted) kv = _
  rw [hlru]

/-- The turns of a loop, and the nodes that are without pages at its end. -/
theorem evictLoop_turns (h : Evicting t refs owned kv₀ kv e)
    (hok : evictLoop t num fuel e kv = .ok e' kv') :
    (∀ x ∈ evictTurns t num fuel e kv, TurnOf t refs owned kv₀ x) ∧
    ∀ j, hasResource t kv'.tree j = true ↔ hasResource t kv.tree j = true ∧
      ∀ x ∈ detaching t (evictTurns t num fuel e kv), j ≠ x.2 := by
  induction fuel generalizing kv e with
  | zero =>
    cases hok
    simp [evictTurns,detaching]
  | succ fuel ih =>
    unfold evictTurns
    by_cases hnum : num ≤ e.numPages
    · rw [evictLoop,if_pos hnum] at hok
      rw [if_pos hnum]
      cases hok
      simp [detaching]
    rw [if_neg hnum]
    cases hlru : (kv.manager t).lruLeaves with
    | nil =>
      rw [evictLoop_nil hnum hlru] at hok
      cases hok
      simp [detaching]
    | cons f rest =>
      obtain ⟨ts,i⟩ := f
      obtain ⟨e₁,kv₁,hturn,h₁,hstep⟩ := (evictLeaf_returns h hlru).exists
      rw [evictLoop_cons hnum hlru hturn] at hok
      obtain ⟨hturns,hlost⟩ := ih h₁ hok
      have hdetaches := evictLeaf_detaches h hlru h₁
        (hstep.imp (fun hd => ⟨hd.1,hd.2.2⟩) And.left)
      simp only [hturn]
      constructor
      · intro x hx
        rw [List.mem_cons] at hx
        obtain rfl | hx := hx
        · exact ⟨e,ts,rest,h,hlru⟩
        · exact hturns x hx
      · intro j
        rw [hlost,hdetaches]
        unfold detaching
        by_cases hfree : refCountOf t kv.tree i = 0
        · simp [hfree]
          tauto
        · simp [hfree]

theorem evicting_start (hinv : KVInv kv refs owned) : Evicting t refs owned kv kv {} where
  inv := hinv.inv
  closed := hinv.closed
  leaves := hinv.leaves t
  others u _ := hinv.leaves u
  evolves := Evolves.refl _ _
  shrinks := Shrinks.refl t kv
  capacity := rfl
  numPages := by simp
  deferredNodup := List.nodup_nil
  deferred := by simp
  nodesNodup := List.nodup_nil
  nodes := by simp
  kept _ hj := .inl hj

/-- What an eviction has detached when it returns, the leaves set aside being put back. -/
theorem evict_turns (hinv : KVInv kv refs owned) (hnum : 0 < num) :
    Returns (evict t num) kv (fun _ kv' =>
      (∀ x ∈ evictTurns t num kv.tree.length {} kv, TurnOf t refs owned kv x) ∧
      ∀ j, hasResource t kv'.tree j = true ↔ hasResource t kv.tree j = true ∧
        ∀ x ∈ detaching t (evictTurns t num kv.tree.length {} kv), j ≠ x.2) := by
  unfold Returns evict
  rw [if_neg (by omega),runs_bind,runs_get]
  have hf := length_residents_le t kv.tree
  have hloop := evictLoop_returns num kv.tree.length (evicting_start hinv) (by simpa using hf)
  apply hloop.and_eq.bind
  rintro e kv₁ ⟨⟨h₁,_⟩,hok⟩
  apply (restoreDeferred_returns h₁.inv.tree h₁.leaves h₁.deferredNodup
    fun j hj => ⟨(h₁.deferred j hj).1,(h₁.deferred j hj).2.2⟩).bind
  rintro _ kv₂ ⟨hs,_⟩
  obtain ⟨hturns,hlost⟩ := evictLoop_turns (evicting_start hinv) hok
  apply And.intro hturns
  intro j
  rw [(hs.quiet.agree t).hasResource_eq]
  exact hlost j

/-- What `EnsureCapacity` detaches. -/
theorem ensureCapacity_turns (hinv : KVInv kv refs owned) :
    Returns (ensureCapacity t num) kv (fun _ kv' =>
      (∀ x ∈ ensureTurns t num kv, TurnOf t refs owned kv x) ∧
      ∀ j, hasResource t kv'.tree j = true ↔ hasResource t kv.tree j = true ∧
        ∀ x ∈ detaching t (ensureTurns t num kv), j ≠ x.2) := by
  unfold Returns ensureCapacity ensureTurns
  by_cases havailable : num ≤ kv.availablePages t
  · have hkept : (∀ x ∈ ([] : List (KVPrefixCache × NodeId)), TurnOf t refs owned kv x) ∧
        ∀ j, hasResource t kv.tree j = true ↔ hasResource t kv.tree j = true ∧
          ∀ x ∈ detaching t [], j ≠ x.2 := by simp [detaching]
    rw [if_pos havailable]
    split
    · exact hkept
    · rw [runs_bind,runs_get]
      dsimp only
      rw [if_pos havailable]
      exact hkept
  · rw [if_neg havailable,if_neg (by omega),runs_bind,runs_get]
    dsimp only
    rw [if_neg havailable]
    exact evict_turns hinv (by omega)

theorem hasResource_eq_of_coreOf {tree : Heap TreeNode} (hi : tree.read i = some n) :
    hasResource u tree i = (coreOf u n).isSome := by
  simp [hasResource,coreOf,hi]

/-- The other tier keeps what it holds. -/
theorem Shrinks.resident_other (h : Shrinks t kv kv') (hu : u ≠ t) (j : NodeId) :
    hasResource u kv'.tree j = hasResource u kv.tree j := by
  have hother : u = t.other := by
    cases t <;> cases u <;> first | rfl | exact absurd rfl hu
  subst hother
  cases hj' : kv'.tree.read j with
  | some n' =>
    obtain ⟨n,hn,_,hcore,_⟩ := h.live hj'
    rw [hasResource_eq_of_coreOf hj',hasResource_eq_of_coreOf hn,hcore]
  | none =>
    have hgone : hasResource t.other kv'.tree j = false := by simp [hasResource,hj']
    rw [hgone]
    cases hj : kv.tree.read j with
    | none => simp [hasResource,hj]
    | some n => rw [hasResource_eq_of_coreOf hj,(h.gone hj hj').1,Option.isSome_none]

theorem ensureCapacityByEvict_enough (havailable : num ≤ kv.availablePages t) :
    ensureCapacityByEvict t num kv = .ok true kv := by
  have hnone : ensureCapacity t num kv = .ok [] kv := by
    unfold ensureCapacity
    by_cases hnum : num ≤ 0
    · rw [if_pos hnum]
      rfl
    · rw [if_neg hnum]
      change (if num ≤ (kv.availablePages t : Int) then pure [] else _ : KV (List NodeId)) kv = _
      rw [if_pos havailable]
      rfl
  have hresult : decide (num ≤ (kv.availablePages t : Int)) = true := by simpa using havailable
  rw [← hresult]
  unfold ensureCapacityByEvict
  simp only [bind,EStateM.bind,hnone]
  rfl

/-- The prune detaches nothing. -/
theorem ensureCapacityByEvict_turns (num : Int) (hinv : KVInv kv refs owned) :
    Returns (ensureCapacityByEvict t num) kv (fun _ kv' =>
      (∀ x ∈ ensureTurns t num kv, TurnOf t refs owned kv x) ∧
      ∀ j, hasResource t kv'.tree j = true ↔ hasResource t kv.tree j = true ∧
        ∀ x ∈ detaching t (ensureTurns t num kv), j ≠ x.2) := by
  unfold Returns ensureCapacityByEvict
  apply (ensureCapacity_returns num hinv).and_eq.bind
  rintro evicted kv₁ ⟨⟨h,_⟩,hok⟩
  obtain ⟨hturns,hlost⟩ := Runs.of_ok (ensureCapacity_turns hinv) hok
  apply (pruneEvicted_returns hinv h).bind
  intro _ kv₂ hp
  rw [runs_bind,runs_get]
  apply And.intro hturns
  intro j
  rw [hp.resident]
  exact hlost j

end FluxServe
