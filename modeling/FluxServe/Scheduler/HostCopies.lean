import FluxServe.Scheduler.WriteBackPins

namespace FluxServe

open KVPrefixCache

variable {s s' s₁ : Scheduler} {r r' r₀ : Request} {st' : RequestState} {ℓ : Label}
  {fresh : List NodeId} {i j d h : NodeId} {x : PageId} {names : List StateName}

/-- How often a host page was given back. -/
def Scheduler.hostReturns (s : Scheduler) (x : PageId) : Nat :=
  s.kv.host.allocator.returned.count x

/-- What the ledger knows: the operations issued so far, with how often each page had been given
back by then, and the pages that were written, likewise. -/
structure Ledger where
  issued : WriteBackOperation → (PageId → Nat) → Prop
  written : PageId → Nat → Prop

variable {L : Ledger}

/-- The request's copy to host page `x` of node `i` is still to be made, and keeps the device pages
of the node until then. -/
inductive PendingBy (L : Ledger) (s : Scheduler) (r : Request) (i : NodeId) (x : PageId) : Prop
  | draining {pairs : List TransferPair} {d h : NodeId} {q : TransferPair}
      (state : r.state = .draining pairs d h) (copy : q ∈ pairs) (dst : q.dst = x)
      (path : i ∈ leafToRoot s.kv.tree d)
  | flying {op : WriteBackOperation} {k : PageId → Nat} {d h : NodeId} {q : TransferPair}
      (issued : L.issued op k) (state : r.state.Transfers d h)
      (tracked : ∀ o, s.cacheOpTracker.lookup o = some r.id → o = op.opId) (copy : q ∈ op.transfers)
      (dst : q.dst = x) (path : i ∈ leafToRoot s.kv.tree d) (count : k x = s.hostReturns x)

/-- Every host page of the tree was written, or its copy is still to be made. -/
def Copies (L : Ledger) (s : Scheduler) : Prop :=
  ∀ i x, x ∈ nodePages .host s.kv.tree i →
    L.written x (s.hostReturns x) ∨ ∃ r ∈ s.requests, PendingBy L s r i x

/-- The ledger after a transition. -/
def Ledger.after (L : Ledger) (ℓ : Label) (s' : Scheduler) : Ledger where
  issued op k := L.issued op k ∨ ℓ = .issue op ∧ k = s'.hostReturns
  written x k := L.written x k ∨ ∃ op k', L.issued op k' ∧ k' x = k ∧ ℓ = .complete op.opId ∧
    ∃ q ∈ op.transfers, q.dst = x

/-- A request that has no copy to make. -/
def RequestState.isSettled (st : RequestState) : Prop :=
  st.isTransferring = false ∧ ∀ p pairs d h, st ≠ .draining (p :: pairs) d h

theorem PendingBy.not_settled (hp : PendingBy L s r i x) (hs : r.state.isSettled) : False := by
  cases hp with
  | draining state copy =>
    rename_i pairs d h q _ _
    cases pairs with
    | nil => cases copy
    | cons p pairs => exact hs.2 p pairs d h state
  | flying _ state =>
    have htrans := state.isTransferring
    rw [hs.1] at htrans
    cases htrans

theorem isSettled_of_forward {st : RequestState} {f : ForwardState} (hf : st.forward? = some f) :
    st.isSettled :=
  ⟨isTransferring_of_forward hf,by rintro p pairs d h rfl; cases hf⟩

/-- The device reference that keeps the pages of a copy still to be made. -/
theorem PendingBy.pinned (hp : PendingBy L s r i x) :
    ∃ d ∈ r.state.nodeRefs .device, i ∈ leafToRoot s.kv.tree d := by
  cases hp with
  | draining state _ _ path => exact ⟨_,by rw [state]; simp [RequestState.nodeRefs],path⟩
  | flying _ state _ _ _ path => exact ⟨_,state.refs.1,path⟩

/-- A copy stays to be made while its request stays as it is. -/
theorem PendingBy.keep {L' : Ledger} (hp : PendingBy L s r j x) (hL : ∀ op k, L.issued op k → L'.issued op k)
    (hid : r'.id = r.id) (hst : r'.state = r.state)
    (htr : ∀ o, s'.cacheOpTracker.lookup o = some r.id → s.cacheOpTracker.lookup o = some r.id)
    (hpath : ∀ d ∈ r.state.nodeRefs .device, j ∈ leafToRoot s.kv.tree d → i ∈ leafToRoot s'.kv.tree d)
    (hret : s'.hostReturns x = s.hostReturns x) : PendingBy L' s' r' i x := by
  cases hp with
  | draining state copy dst path =>
    refine .draining (hst.trans state) copy dst (hpath _ ?_ path)
    rw [state]
    simp [RequestState.nodeRefs]
  | flying issued state tracked copy dst path count =>
    refine .flying (hL _ _ issued) (by rw [hst]; exact state) (fun o ho => ?_) copy dst
      (hpath _ state.refs.1 path) (count.trans hret.symm)
    rw [hid] at ho
    exact tracked o (htr o ho)

theorem count_returned {ret : List PageId}
    (hret : (s'.kv.manager .host).allocator.returned =
      ret ++ (s.kv.manager .host).allocator.returned) (hx : x ∉ ret) :
    s'.hostReturns x = s.hostReturns x := by
  unfold Scheduler.hostReturns
  change ((s'.kv.manager .host).allocator.returned).count x = _
  rw [hret,List.count_append,List.count_eq_zero.mpr hx,Nat.zero_add]
  rfl

/-- What a change of the cache leaves of the copies, given what becomes of those still to be made. -/
theorem Copies.change {pins : Multiset NodeId} {L' : Ledger} (hc : Copies L s)
    (hl : Lineage pins fresh s.kv s'.kv) (hw : ∀ x k, L.written x k → L'.written x k)
    (hfresh : ∀ i ∈ fresh, ∀ x ∈ nodePages .host s'.kv.tree i,
      ∃ r ∈ s'.requests, PendingBy L' s' r i x)
    (hp : ∀ i j x, s'.hostReturns x = s.hostReturns x →
      (∀ d ∈ pins, j ∈ leafToRoot s.kv.tree d → i ∈ leafToRoot s'.kv.tree d) →
      ∀ r ∈ s.requests, PendingBy L s r j x →
        L'.written x (s'.hostReturns x) ∨ ∃ r ∈ s'.requests, PendingBy L' s' r i x) :
    Copies L' s' := by
  intro i x hx
  obtain ⟨ret,hret,hfrom⟩ := hl
  rcases hfrom i x hx with hi | ⟨j,hj,hno,hpath⟩
  · exact Or.inr (hfresh i hi x hx)
  · have hcount := count_returned hret hno
    rcases hc j x hj with hwr | ⟨r,hr,hpend⟩
    · rw [← hcount] at hwr
      exact Or.inl (hw x _ hwr)
    · exact hp i j x hcount hpath r hr hpend

/-- The device and the host pages of a copied node are paired off completely. -/
theorem mem_pairs_of_copies {kv : KVPrefixCache} {refs : ResourceType → Multiset NodeId}
    {owned : ResourceType → Multiset PageId} {pairs : List TransferPair} (hinv : KVInv kv refs owned)
    (hd : d ∈ refs .device) (hcopies : CopiesTo kv d fresh pairs) (hi : i ∈ fresh)
    (hx : x ∈ nodePages .host kv.tree i) : ∃ q ∈ pairs, q.dst = x := by
  have hps := hinv.inv.tree.pageSize_pos
  have hdev := ((hinv.inv.tier .device).pinned hd).2 i (hcopies.path hi)
  have hhost := hasResource_of_nodePages (List.ne_nil_of_mem hx)
  have hlen : (nodePages .device kv.tree i).length = (nodePages .host kv.tree i).length := by
    have h1 := ((hinv.inv.tier .device).size hdev).2
    have h2 := ((hinv.inv.tier .host).size hhost).2
    exact Nat.eq_of_mul_eq_mul_right hps (h1.trans h2.symm)
  obtain ⟨n,hn,rfl⟩ := List.mem_iff_getElem.mp hx
  refine ⟨⟨(nodePages .device kv.tree i)[n],(nodePages .host kv.tree i)[n]⟩,?_,rfl⟩
  rw [hcopies.pairs]
  refine List.mem_flatMap.mpr ⟨i,hi,List.mem_iff_getElem.mpr ⟨n,?_,?_⟩⟩
  · rw [List.length_zipWith]
    exact lt_min (by omega) hn
  · simp [ResourceType.other]

theorem Ledger.after_written {x : PageId} {k : Nat} (hw : L.written x k) :
    (L.after ℓ s').written x k := Or.inl hw

/-- A transition of a request without a copy to make. -/
theorem Copies.settled (hc : Copies L s) (hs : Sound s) (hfound : r₀ ∈ s.requests)
    (hr₀ : r₀.state.isSettled)
    (hl : Lineage (refsOf (others r₀.id s.requests) .device) fresh s.kv s'.kv)
    (hothers : ∀ r ∈ s.requests, r.id ≠ r₀.id → r ∈ s'.requests)
    (htr : ∀ id, id ≠ r₀.id → ∀ o, s'.cacheOpTracker.lookup o = some id →
      s.cacheOpTracker.lookup o = some id)
    (hfresh : ∀ i ∈ fresh, ∀ x ∈ nodePages .host s'.kv.tree i,
      ∃ r ∈ s'.requests, PendingBy (L.after ℓ s') s' r i x) : Copies (L.after ℓ s') s' := by
  refine hc.change hl (fun _ _ => L.after_written) hfresh ?_
  intro i j x hret hpath r hr hp
  have hne : r.id ≠ r₀.id := by
    intro heq
    obtain rfl : r = r₀ := List.inj_on_of_nodup_map hs.ids hr hfound heq
    exact hp.not_settled hr₀
  refine Or.inr ⟨r,hothers r hr hne,hp.keep (fun _ _ => Or.inl) rfl rfl (htr r.id hne) ?_ hret⟩
  exact fun d hd => hpath d (mem_refsOf_others hr hne hd)

theorem Copies.move (hc : Copies L s) (hm : Move r₀ st' fresh s s') (hr₀ : r₀.state.isSettled)
    (hs : Sound s) (hfresh : ∀ i ∈ fresh, ∀ x ∈ nodePages .host s'.kv.tree i,
      ∃ r ∈ s'.requests, PendingBy (L.after ℓ s') s' r i x) : Copies (L.after ℓ s') s' :=
  hc.settled hs hm.found hr₀ hm.change.lineage
    (fun _ hr hne => hm.mem_requests.mpr (Or.inr ⟨hr,hne⟩))
    (fun _ _ _ ho => by rwa [hm.tracker] at ho) hfresh

/-- Without an abort of a draining or a retracting request an abort finds no copy to make. -/
theorem isSettled_of_spares (hspare : (Label.abort r.id).Spares [.draining,.retracting] s)
    (hr : r ∈ s.requests) (hw : ∀ d h, r.state ≠ .writingBack d h) : r.state.isSettled := by
  have hname := hspare r.id rfl r hr rfl
  cases hst : r.state with
  | writingBack d h => exact (hw d h hst).elim
  | retracting | draining => simp [hst,RequestState.name] at hname
  | _ => exact ⟨rfl,by simp⟩

/-- Requests and trackers that say the same of every copy still to be made, over the same cache. -/
theorem Copies.same (hc : Copies L s) (hkv : s'.kv.tree = s.kv.tree)
    (hret : ∀ x, s'.hostReturns x = s.hostReturns x)
    (htr : ∀ o id, s'.cacheOpTracker.lookup o = some id → s.cacheOpTracker.lookup o = some id)
    (hreq : ∀ r ∈ s.requests, ¬r.state.isSettled → ∃ r' ∈ s'.requests, r'.id = r.id ∧
      r'.state = r.state) : Copies (L.after ℓ s₁) s' := by
  intro i x hx
  rw [hkv] at hx
  rcases hc i x hx with hw | ⟨r,hr,hp⟩
  · rw [← hret] at hw
    exact Or.inl (L.after_written hw)
  · obtain ⟨r',hr',hid,hst⟩ := hreq r hr fun hset => hp.not_settled hset
    refine Or.inr ⟨r',hr',hp.keep (fun _ _ => Or.inl) hid hst (fun o => htr o _) ?_ (hret x)⟩
    rw [hkv]
    exact fun _ _ hj => hj

/-- A completed operation turns the copies of its request into written pages. -/
theorem Copies.complete {opId : CacheOpId} (hc : Copies L s) (hs : Sound s)
    (htracked : s.cacheOpTracker.lookup opId = some r₀.id) (hr₀ : r₀.state.isTransferring = true)
    (hm : Move r₀ st' [] (s.untracked opId) s') : Copies (L.after (.complete opId) s₁) s' := by
  refine hc.change hm.change.lineage (fun _ _ => L.after_written) (fun i hi => (nomatch hi)) ?_
  intro i j x hret hpath r hr hp
  by_cases heq : r.id = r₀.id
  · obtain rfl : r = r₀ := List.inj_on_of_nodup_map hs.ids hr hm.found heq
    cases hp with
    | draining state =>
      rw [state] at hr₀
      cases hr₀
    | flying issued state tracked copy dst path count =>
      refine Or.inl (Or.inr ⟨_,_,issued,count.trans hret.symm,?_,_,copy,dst⟩)
      rw [tracked opId htracked]
  · refine Or.inr ⟨r,hm.mem_requests.mpr (Or.inr ⟨hr,heq⟩),
      hp.keep (fun _ _ => Or.inl) rfl rfl (fun o ho => ?_) ?_ hret⟩
    · rw [hm.tracker,Scheduler.untracked,lookup_dropKey] at ho
      split at ho
      · cases ho
      · exact ho
    · exact fun d hd => hpath d (mem_refsOf_others hr heq hd)

/-- Every transition keeps the ledger right, unless it aborts a draining or a retracting request. -/
theorem Copies.step (hc : Copies L s) (ht : Tracked s) (hs : Sound s) (h : Step s ℓ s')
    (hspare : ℓ.Spares [.draining,.retracting] s) : Copies (L.after ℓ s') s' := by
  have hnone : ∀ {L' : Ledger} {s' : Scheduler}, ∀ i ∈ ([] : List NodeId),
      ∀ x ∈ nodePages .host s'.kv.tree i, ∃ r ∈ s'.requests, PendingBy L' s' r i x :=
    fun i hi => (nomatch hi)
  cases h with
  | cache move =>
    refine hc.change move.change.lineage (fun _ _ => L.after_written) hnone ?_
    intro i j x hret hpath r hr hp
    refine Or.inr ⟨r,by rwa [move.requests],hp.keep (fun _ _ => Or.inl) rfl rfl
      (fun o ho => by rwa [move.tracker] at ho) (fun d hd => hpath d ?_) hret⟩
    exact mem_refsOf.mpr ⟨r,hr,hd⟩
  | forward before after move =>
    refine hc.move move ?_ hs hnone
    rcases before with hst | ⟨f,hf⟩
    · rw [hst]; exact ⟨rfl,by simp⟩
    · exact isSettled_of_forward hf
  | recover before after move => exact hc.move move (by rw [before]; exact ⟨rfl,by simp⟩) hs hnone
  | record => exact hc.same rfl (fun _ => rfl) (fun _ _ ho => ho) fun r hr _ => ⟨r,hr,rfl,rfl⟩
  | opId => exact hc.same rfl (fun _ => rfl) (fun _ _ ho => ho) fun r hr _ => ⟨r,hr,rfl,rfl⟩
  | extend =>
    refine hc.same rfl (fun _ => rfl) (fun _ _ ho => ho) fun r hr _ => ?_
    refine ⟨_,List.mem_map.mpr ⟨r,hr,rfl⟩,?_,?_⟩ <;> split <;> rfl
  | untrack o =>
    refine hc.same rfl (fun _ => rfl) (fun o' id ho => ?_) fun r hr _ => ⟨r,hr,rfl,rfl⟩
    rw [Scheduler.untracked,lookup_dropKey] at ho
    split at ho
    · cases ho
    · exact ho
  | erase =>
    refine hc.same rfl (fun _ => rfl) (fun _ _ ho => ho) fun r hr hset => ⟨r,?_,rfl,rfl⟩
    refine List.mem_filter.mpr ⟨hr,?_⟩
    rw [decide_eq_true_iff]
    intro hst
    rw [hst] at hset
    exact hset ⟨rfl,by simp⟩
  | submit =>
    exact hc.same rfl (fun _ => rfl) (fun _ _ ho => ho)
      fun r hr _ => ⟨r,List.mem_append_left _ hr,rfl,rfl⟩
  | finished before move =>
    refine hc.move move ?_ hs hnone
    rcases before with ⟨f,hf⟩ | ⟨h,l,hst⟩
    · exact isSettled_of_forward hf
    · rw [hst]; exact ⟨rfl,by simp⟩
  | drain before move copies =>
    rename_i r₀ f fresh d pairs some
    refine hc.move move (isSettled_of_forward before) hs fun i hi x hx => ?_
    have hd : d ∈ refsOf s'.requests .device :=
      mem_refsOf.mpr ⟨_,move.mem_requests.mpr (Or.inl ⟨r₀,move.found,rfl,rfl⟩),
        by simp [RequestState.nodeRefs]⟩
    obtain ⟨q,hq,hdst⟩ := mem_pairs_of_copies move.sound.kv hd copies hi hx
    exact ⟨_,move.mem_requests.mpr (Or.inl ⟨r₀,move.found,rfl,rfl⟩),
      .draining rfl hq hdst (copies.path hi)⟩
  | keepWriting before move own =>
    rename_i r₀ d₀ h₀ l₀ pairs₀
    refine hc.change own.lineage (fun _ _ => L.after_written) hnone ?_
    intro i j x hret hpath r hr hp
    have hpath' : ∀ d ∈ r.state.nodeRefs .device, j ∈ leafToRoot s.kv.tree d →
        i ∈ leafToRoot s'.kv.tree d := fun d hd => hpath d (mem_refsOf.mpr ⟨r,hr,hd⟩)
    by_cases heq : r.id = r₀.id
    · obtain rfl : r = r₀ := List.inj_on_of_nodup_map hs.ids hr move.found heq
      refine Or.inr ⟨_,move.mem_requests.mpr (Or.inl ⟨r,hr,rfl,rfl⟩),?_⟩
      cases hp with
      | draining state =>
        rw [before] at state
        cases state
      | flying issued state tracked copy dst path count =>
        have hd := state.refs.1
        rw [before] at state
        obtain ⟨l,pairs,hst⟩ := state.resolve_left (by simp)
        cases hst
        refine .flying (Or.inl issued) (Or.inl rfl) (fun o ho => ?_) copy dst (hpath' _ hd path)
          (count.trans hret.symm)
        rw [move.tracker] at ho
        exact tracked o ho
    · refine Or.inr ⟨r,move.mem_requests.mpr (Or.inr ⟨hr,heq⟩),hp.keep (fun _ _ => Or.inl) rfl rfl
        (fun o ho => by rwa [move.tracker] at ho) hpath' hret⟩
  | aborted before move =>
    exact hc.move move (isSettled_of_spares hspare move.found before) hs hnone
  | discarded before move =>
    refine hc.move move ?_ hs hnone
    rw [before]
    exact ⟨rfl,by simp⟩
  | gaveUp before _ move => exact hc.move move (isSettled_of_forward before) hs hnone
  | issueDrained before _ move kv =>
    rename_i s₁ r₀ d h op _
    have hidle : r₀.state.isTransferring = false := by rw [before]; rfl
    have hkv : (s₁.issued op r₀.id).kv.tree = s.kv.tree := by
      change s₁.kv.tree = _
      rw [kv]
    have hret : ∀ x, (s₁.issued op r₀.id).hostReturns x = s.hostReturns x := by
      intro x
      change s₁.hostReturns x = _
      rw [Scheduler.hostReturns,kv]
      rfl
    intro i x hx
    rw [hkv] at hx
    rcases hc i x hx with hw | ⟨r,hr,hp⟩
    · rw [← hret] at hw
      exact Or.inl (L.after_written hw)
    by_cases heq : r.id = r₀.id
    · obtain rfl : r = r₀ := List.inj_on_of_nodup_map hs.ids hr move.found heq
      refine Or.inr ⟨_,move.mem_requests.mpr (Or.inl ⟨r,hr,rfl,rfl⟩),?_⟩
      cases hp with
      | draining state copy dst path =>
        rw [before] at state
        cases state
        refine .flying (Or.inr ⟨rfl,rfl⟩) (Or.inl rfl) (fun o ho => ?_) copy dst
          (by rw [hkv]; exact path) rfl
        rw [lookup_issued] at ho
        split at ho
        · assumption
        · rw [move.tracker] at ho
          exact (ht.lookup_ne hs hr hidle o ho).elim
      | flying _ state =>
        have htrans := state.isTransferring
        rw [hidle] at htrans
        cases htrans
    · refine Or.inr ⟨r,move.mem_requests.mpr (Or.inr ⟨hr,heq⟩),hp.keep (fun _ _ => Or.inl) rfl rfl
        (fun o ho => ?_) (fun _ _ hj => by rw [hkv]; exact hj) (hret x)⟩
      rw [lookup_issued] at ho
      split at ho
      · exact (heq (Option.some.inj ho).symm).elim
      · rwa [move.tracker] at ho
  | retractDone before move => exact hc.move move (isSettled_of_forward before) hs hnone
  | retractIssue before _ move copies =>
    rename_i s₁ r₀ f h l fresh op _ _
    have hmem := move.mem_requests.mpr (Or.inl ⟨r₀,move.found,rfl,rfl⟩)
    refine hc.settled hs move.found (isSettled_of_forward before) move.change.lineage
      (fun r hr hne => move.mem_requests.mpr (Or.inr ⟨hr,hne⟩)) (fun id hne o ho => ?_)
      fun i hi x hx => ?_
    · rw [lookup_issued] at ho
      split at ho
      · exact (hne (Option.some.inj ho).symm).elim
      · rwa [move.tracker] at ho
    · have hh : h ∈ refsOf s₁.requests .device :=
        mem_refsOf.mpr ⟨_,hmem,by simp [RequestState.nodeRefs]⟩
      obtain ⟨q,hq,hdst⟩ := mem_pairs_of_copies move.sound.kv hh copies hi hx
      refine ⟨_,hmem,.flying (Or.inr ⟨rfl,rfl⟩) (Or.inr ⟨l,_,rfl⟩) (fun o ho => ?_) hq hdst
        (copies.path hi) rfl⟩
      rw [lookup_issued] at ho
      split at ho
      · assumption
      · rw [move.tracker] at ho
        exact (ht.lookup_ne hs move.found (isTransferring_of_forward before) o ho).elim
  | written tracked before move => exact hc.complete hs tracked (by rw [before]; rfl) move
  | retracted tracked before move => exact hc.complete hs tracked (by rw [before]; rfl) move
  | ignored =>
    refine hc.same rfl (fun _ => rfl) (fun o' id ho => ?_) fun r hr _ => ⟨r,hr,rfl,rfl⟩
    rw [Scheduler.untracked,lookup_dropKey] at ho
    split at ho
    · cases ho
    · exact ho

/-- What a plan loads back has been written. -/
theorem Copies.loads {pairs : List TransferPair} {q : TransferPair} (hc : Copies L s) (hs : Sound s)
    (hl : LoadsFrom s.kv pairs) (hq : q ∈ pairs) : L.written q.src (s.hostReturns q.src) := by
  obtain ⟨i,hi,hno⟩ := hl q hq
  refine (hc i q.src hi).resolve_right ?_
  rintro ⟨r,hr,hp⟩
  obtain ⟨d,hd,hpath⟩ := hp.pinned
  have hres := ((hs.kv.inv.tier .device).pinned (mem_refsOf.mpr ⟨r,hr,hd⟩)).2 i hpath
  rw [hno] at hres
  cases hres

section Run

variable {ls : List Label} {G : Scheduler → Label → Prop} {q : TransferPair}
  {loads : List TransferPair}

theorem Step.loadsFrom (h : Step s (.internal loads) s') : LoadsFrom s.kv loads := by
  generalize hℓ : Label.internal loads = ℓ at h
  cases h <;> cases hℓ <;> first | assumption | exact loadsFrom_nil _

/-- The same copies, told by another ledger. -/
theorem Copies.weaken {L' : Ledger} (hc : Copies L s) (hw : ∀ x k, L.written x k → L'.written x k)
    (hi : ∀ op k x, L.issued op k → k x = s.hostReturns x →
      ∃ k', L'.issued op k' ∧ k' x = s.hostReturns x) : Copies L' s := by
  intro i x hx
  rcases hc i x hx with hwr | ⟨r,hr,hp⟩
  · exact Or.inl (hw x _ hwr)
  · refine Or.inr ⟨r,hr,?_⟩
    cases hp with
    | draining state copy dst path => exact .draining state copy dst path
    | flying issued state tracked copy dst path count =>
      obtain ⟨k',hk',hcount⟩ := hi _ _ x issued count
      exact .flying hk' state tracked copy dst path hcount

theorem spares_retracting (h : ℓ.Spares [.draining,.retracting] s) : ℓ.Spares [.retracting] s :=
  fun id hid r hr hrid hmem => h id hid r hr hrid (List.mem_cons_of_mem _ hmem)

theorem mem_issuedOf {op : WriteBackOperation} : op ∈ issuedOf ls ↔ Label.issue op ∈ ls := by
  unfold issuedOf
  rw [List.mem_filterMap]
  constructor
  · rintro ⟨ℓ,hmem,hsome⟩
    cases ℓ <;> first | (cases hsome; exact hmem) | cases hsome
  · exact fun hmem => ⟨_,hmem,rfl⟩

/-- The ledger after transitions that complete nothing: with what they issued, as of their end. -/
theorem Copies.issues (h : StepsWhere (Label.Spares [.draining,.retracting]) s ls s')
    (hs : Sound s) (ht : Tracked s) (hno : ∀ o, Label.complete o ∉ ls) (hc : Copies L s) :
    Copies ⟨fun op k => L.issued op k ∨ op ∈ issuedOf ls ∧ k = s'.hostReturns,L.written⟩ s' := by
  induction h generalizing L with
  | nil => exact hc.weaken (fun _ _ hw => hw) fun op k x hi hk => ⟨k,Or.inl hi,hk⟩
  | cons step meets steps ih =>
    rename_i s s₁ s' ℓ ls
    have htail : ∀ o, Label.complete o ∉ ls := fun o hmem => hno o (List.mem_cons_of_mem _ hmem)
    refine (ih (step.sound hs) (ht.step hs step (spares_retracting meets)) htail
      (hc.step ht hs step meets)).weaken ?_ ?_
    · rintro x k (hw | ⟨op,k',_,_,hℓ,_⟩)
      · exact hw
      · exact (hno op.opId (by rw [hℓ]; exact List.mem_cons_self)).elim
    · rintro op k x ((hi | ⟨rfl,rfl⟩) | ⟨hmem,rfl⟩) hk
      · exact ⟨k,Or.inl hi,hk⟩
      · exact ⟨_,Or.inr ⟨mem_issuedOf.mpr List.mem_cons_self,rfl⟩,rfl⟩
      · refine ⟨_,Or.inr ⟨?_,rfl⟩,rfl⟩
        exact mem_issuedOf.mpr (List.mem_cons_of_mem _ (mem_issuedOf.mp hmem))

/-- The ledger after transitions that issue nothing: with what they completed. -/
theorem Copies.completes (h : StepsWhere (Label.Spares [.draining,.retracting]) s ls s')
    (hs : Sound s) (ht : Tracked s) (hno : ∀ op, Label.issue op ∉ ls) (hc : Copies L s) :
    Copies ⟨L.issued,fun x k => L.written x k ∨ ∃ op k', L.issued op k' ∧ k' x = k ∧
      Label.complete op.opId ∈ ls ∧ ∃ q ∈ op.transfers, q.dst = x⟩ s' := by
  induction h generalizing L with
  | nil => exact hc.weaken (fun _ _ hw => Or.inl hw) fun op k x hi hk => ⟨k,hi,hk⟩
  | cons step meets steps ih =>
    rename_i s s₁ s' ℓ ls
    have htail : ∀ op, Label.issue op ∉ ls := fun op hmem => hno op (List.mem_cons_of_mem _ hmem)
    have hissued : ∀ op k, (L.after ℓ s₁).issued op k → L.issued op k := by
      rintro op k (hi | ⟨hℓ,_⟩)
      · exact hi
      · exact (hno op (by rw [hℓ]; exact List.mem_cons_self)).elim
    refine (ih (step.sound hs) (ht.step hs step (spares_retracting meets)) htail
      (hc.step ht hs step meets)).weaken ?_ fun op k x hi hk => ⟨k,hissued op k hi,hk⟩
    rintro x k ((hw | ⟨op,k',hi,hk,hℓ,hq⟩) | ⟨op,k',hi,hk,hmem,hq⟩)
    · exact Or.inl hw
    · exact Or.inr ⟨op,k',hi,hk,by rw [hℓ]; exact List.mem_cons_self,hq⟩
    · exact Or.inr ⟨op,k',hissued op k' hi,hk,List.mem_cons_of_mem _ hmem,hq⟩

/-- What is loaded back on the way has been written before. -/
theorem Copies.loaded (h : StepsWhere (Label.Spares [.draining,.retracting]) s ls s') (hs : Sound s)
    (ht : Tracked s) (hno : ∀ o, Label.complete o ∉ ls) (hc : Copies L s)
    (hload : Label.internal loads ∈ ls) (hq : q ∈ loads) :
    ∃ ls₁ y, Steps s ls₁ y ∧ q.src ∈ collectAllPages .host y.kv ∧
      L.written q.src (y.hostReturns q.src) := by
  induction h generalizing L with
  | nil => cases hload
  | cons step meets steps ih =>
    rename_i s s₁ s' ℓ ls
    rcases List.mem_cons.mp hload with rfl | hload
    · obtain ⟨i,hi,_⟩ := step.loadsFrom q hq
      refine ⟨[],s,.nil,?_,hc.loads hs step.loadsFrom hq⟩
      unfold nodePages at hi
      cases hread : s.kv.tree.read i with
      | none => simp [hread] at hi
      | some n => exact Heap.mem_collect.mpr ⟨i,n,hread,by simpa [hread] using hi⟩
    · obtain ⟨ls₁,y,hy,hmem,hw⟩ := ih (step.sound hs) (ht.step hs step (spares_retracting meets))
        (fun o hm => hno o (List.mem_cons_of_mem _ hm)) (hc.step ht hs step meets) hload
      refine ⟨ℓ :: ls₁,y,.cons step hy,hmem,?_⟩
      rcases hw with hw | ⟨op,k',_,_,hℓ,_⟩
      · exact hw
      · exact (hno op.opId (by rw [hℓ]; exact List.mem_cons_self)).elim

theorem Step.nextOpId (h : Step s ℓ s') : s'.kv.nextOpId = s.kv.nextOpId ∨
    s'.kv.nextOpId = s.kv.nextOpId+1 ∧ ∀ op, ℓ = .issue op → op.opId = s.kv.nextOpId % 2^32 := by
  cases h with
  | cache move | forward _ _ move | recover _ _ move | finished _ move | drain _ move
  | keepWriting _ move | aborted _ move | discarded _ move | gaveUp _ _ move
  | retractDone _ move | written _ _ move | retracted _ _ move =>
    exact Or.inl move.change.evolves.nextOpId
  | record | untrack | ignored | extend | erase | submit => exact Or.inl rfl
  | opId => exact Or.inr ⟨rfl,by simp⟩
  | issueDrained _ opId move kv =>
    refine Or.inr ⟨?_,?_⟩
    · change _+1 = _
      rw [kv]
    · rintro op hop
      cases hop
      exact opId
  | retractIssue _ opId move =>
    have hn := move.change.evolves.nextOpId
    refine Or.inr ⟨?_,?_⟩
    · change _+1 = _
      rw [hn]
    · rintro op hop
      cases hop
      rw [opId,hn]

theorem Step.issue_nextOpId {op : WriteBackOperation} (h : Step s (.issue op) s') :
    s'.kv.nextOpId = s.kv.nextOpId+1 ∧ op.opId = s.kv.nextOpId % 2^32 := by
  cases h with
  | issueDrained _ opId _ kv =>
    refine ⟨?_,opId⟩
    change _+1 = _
    rw [kv]
  | retractIssue _ opId move =>
    have hn := move.change.evolves.nextOpId
    rw [hn] at opId
    refine ⟨?_,opId⟩
    change _+1 = _
    rw [hn]

theorem Step.nextOpId_le (h : Step s ℓ s') : s.kv.nextOpId ≤ s'.kv.nextOpId := by
  rcases h.nextOpId with hn | ⟨hn,_⟩ <;> omega

theorem Steps.nextOpId_le (h : Steps s ls s') : s.kv.nextOpId ≤ s'.kv.nextOpId := by
  induction h with
  | nil => exact le_rfl
  | cons step _ ih => exact step.nextOpId_le.trans ih

/-- As long as the counter has not wrapped around, every operation gets an id of its own. -/
theorem Steps.issued_ids (h : Steps s ls s') (hb : s'.kv.nextOpId ≤ 2^32) :
    (∀ op ∈ issuedOf ls, s.kv.nextOpId ≤ op.opId ∧ s'.kv.nextOpId > op.opId) ∧
      ∀ op ∈ issuedOf ls, ∀ op' ∈ issuedOf ls, op.opId = op'.opId → op = op' := by
  induction h with
  | nil => exact ⟨fun _ hop => (nomatch hop),fun _ hop => (nomatch hop)⟩
  | cons step steps ih =>
    rename_i s s₁ s' ℓ ls
    obtain ⟨hrange,huniq⟩ := ih hb
    have hle := step.nextOpId_le
    have hle' := steps.nextOpId_le
    have hhead : ∀ op, Label.issue op = ℓ → s.kv.nextOpId = op.opId ∧
        s₁.kv.nextOpId = s.kv.nextOpId+1 := by
      rintro op rfl
      obtain ⟨hn,hid⟩ := step.issue_nextOpId
      rw [Nat.mod_eq_of_lt (by omega)] at hid
      exact ⟨hid.symm,hn⟩
    refine ⟨fun op hop => ?_,fun op hop op' hop' hid => ?_⟩
    · rcases List.mem_cons.mp (mem_issuedOf.mp hop) with hop | hop
      · obtain ⟨hid,hn⟩ := hhead op hop
        omega
      · obtain ⟨h1,h2⟩ := hrange op (mem_issuedOf.mpr hop)
        omega
    · rcases List.mem_cons.mp (mem_issuedOf.mp hop) with hop | hop <;>
        rcases List.mem_cons.mp (mem_issuedOf.mp hop') with hop' | hop'
      · rw [← hop'] at hop
        injection hop
      · obtain ⟨h1,h2⟩ := hhead op hop
        obtain ⟨h3,_⟩ := hrange op' (mem_issuedOf.mpr hop')
        rw [← hid] at h3
        omega
      · obtain ⟨h1,h2⟩ := hhead op' hop'
        obtain ⟨h3,_⟩ := hrange op (mem_issuedOf.mpr hop)
        rw [hid] at h3
        omega
      · exact huniq op (mem_issuedOf.mpr hop) op' (mem_issuedOf.mpr hop') hid

variable {new : Scheduler} {history earlier : List (Call × Reply)} {op op' : WriteBackOperation}

/-- The write-backs of a reply. -/
def Reply.writeBack : Reply → List WriteBackOperation
  | .plan p => p.writeBack
  | _ => []

/-- The operations a call reports as completed. -/
def Call.completed : Call → List CacheOpId
  | .advance events => events.filterMap fun
    | .writeBackDone opId _ => some opId
    | _ => none
  | _ => []

/-- A call of the history returned the write-back and left the scheduler in the given state. -/
def Returned (new : Scheduler) (history : List (Call × Reply)) (op : WriteBackOperation)
    (s₀ : Scheduler) : Prop :=
  ∃ call before, call :: before <:+ history ∧ Continues new (call :: before) s₀ ∧
    op ∈ call.2.writeBack

/-- A returned write-back to host page `x` was completed after it; by the time it was returned, the
page had been given back `k` times. -/
def Written (new : Scheduler) (history : List (Call × Reply)) (x : PageId) (k : Nat) : Prop :=
  ∃ call earlier op s₀ q, call :: earlier <:+ history ∧ op.opId ∈ call.1.completed ∧
    Returned new earlier op s₀ ∧ q ∈ op.transfers ∧ q.dst = x ∧ s₀.hostReturns x = k

/-- Completions are reported of operations that a plan has returned. -/
def Acknowledged : List (Call × Reply) → Prop
  | [] => True
  | call :: earlier =>
    (∀ opId ∈ call.1.completed, opId ∈ earlier.flatMap fun c => c.2.writeBack.map (·.opId)) ∧
      Acknowledged earlier

instance : (history : List (Call × Reply)) → Decidable (Acknowledged history)
  | [] => .isTrue trivial
  | _ :: earlier =>
    have := instDecidableAcknowledged earlier
    inferInstanceAs (Decidable (_ ∧ _))

theorem Written.cons {call : Call × Reply} {x : PageId} {k : Nat} (h : Written new history x k) :
    Written new (call :: history) x k := by
  obtain ⟨call',earlier,op,s₀,q,hsub,hrest⟩ := h
  exact ⟨call',earlier,op,s₀,q,hsub.trans (List.suffix_cons _ _),hrest⟩

theorem returned_of_mem {call : Call × Reply} (h : Continues new history s) (hmem : call ∈ history)
    (hop : op ∈ call.2.writeBack) : ∃ s₀, Returned new history op s₀ := by
  obtain ⟨after,before,rfl⟩ := List.append_of_mem hmem
  obtain ⟨s₀,hs₀⟩ := h.suffix (List.suffix_append after _)
  exact ⟨s₀,call,before,List.suffix_append _ _,hs₀,hop⟩

theorem Call.completed_of_shows {c : Call} {opId : CacheOpId} (h : c.Shows (.complete opId)) :
    opId ∈ c.completed := by
  obtain ⟨events,rfl⟩ : ∃ events, c = .advance events := by
    cases c with
    | advance events => exact ⟨events,rfl⟩
    | submit | plan => exact h.elim
  obtain ⟨success,hmem⟩ := Call.completes_of_shows h
  exact List.mem_filterMap.mpr ⟨_,hmem,rfl⟩

theorem Reply.Fits.writeBack {reply : Reply} (h : reply.Fits ls) (hop : op ∈ reply.writeBack) :
    op ∈ issuedOf ls := by
  cases reply with
  | plan p =>
    rw [h.1]
    exact hop
  | done | threw => cases hop

/-- The books after a history: `issued` has an entry for every operation, told apart by their ids. -/
structure Books (new : Scheduler) (history : List (Call × Reply)) (s : Scheduler)
    (issued : WriteBackOperation → (PageId → Nat) → Prop) : Prop where
  copies : Copies ⟨issued,Written new history⟩ s
  bound : ∀ op k, issued op k → s.kv.nextOpId > op.opId
  unique : ∀ op k op' k', issued op k → issued op' k' → op.opId = op'.opId → op = op' ∧ k = k'
  returned : ∀ op s₀, Returned new history op s₀ → issued op s₀.hostReturns

/-- A call that issues and completes nothing of its own accord. -/
theorem Books.issues {c : Call} {reply : Reply} {issued : WriteBackOperation → (PageId → Nat) → Prop}
    (hb : Books new history s issued) (hrun : Continues new history s) (hs : Sound s)
    (ht : Tracked s) (hcalls : Calls s c reply s')
    (hsteps : StepsWhere (Label.Spares [.draining,.retracting]) s ls s')
    (hfits : reply.Fits ls) (hno : ∀ o, Label.complete o ∉ ls) (hids : s'.kv.nextOpId ≤ 2^32) :
    Books new ((c,reply) :: history) s'
      (fun op k => issued op k ∨ op ∈ issuedOf ls ∧ k = s'.hostReturns) := by
  obtain ⟨hrange,huniq⟩ := hsteps.steps.issued_ids hids
  have hle := hsteps.steps.nextOpId_le
  refine ⟨?_,?_,?_,?_⟩
  · refine (Copies.issues hsteps hs ht hno hb.copies).weaken (fun x k hw => hw.cons) ?_
    exact fun op k x hi hk => ⟨k,hi,hk⟩
  · rintro op k (hi | ⟨hop,_⟩)
    · exact lt_of_lt_of_le (hb.bound op k hi) hle
    · exact (hrange op hop).2
  · rintro op k op' k' (hi | ⟨hop,rfl⟩) (hi' | ⟨hop',rfl⟩) hid
    · exact hb.unique op k op' k' hi hi' hid
    · have h1 := hb.bound op k hi
      have h2 := (hrange op' hop').1
      rw [hid] at h1
      omega
    · have h1 := hb.bound op' k' hi'
      have h2 := (hrange op hop).1
      rw [hid] at h2
      omega
    · exact ⟨huniq op hop op' hop' hid,rfl⟩
  · rintro op s₀ ⟨call,before,hsub,hcont,hop⟩
    rcases List.suffix_cons_iff.mp hsub with heq | hsub
    · rw [List.cons.injEq] at heq
      obtain ⟨rfl,rfl⟩ := heq
      refine Or.inr ⟨hfits.writeBack hop,?_⟩
      rw [hcont.unique (.call hrun hcalls)]
    · exact Or.inl (hb.returned op s₀ ⟨call,before,hsub,hcont,hop⟩)

/-- A call that completes operations. -/
theorem Books.completes {c : Call} {reply : Reply}
    {issued : WriteBackOperation → (PageId → Nat) → Prop} (hb : Books new history s issued)
    (hrun : Continues new history s) (hs : Sound s) (ht : Tracked s)
    (hsteps : StepsWhere (Label.Spares [.draining,.retracting]) s ls s')
    (hshow : ∀ ℓ ∈ ls, c.Shows ℓ) (hfits : reply.Fits ls) (hno : ∀ op, Label.issue op ∉ ls)
    (hack : Acknowledged ((c,reply) :: history)) : Books new ((c,reply) :: history) s' issued := by
  have hle := hsteps.steps.nextOpId_le
  refine ⟨?_,fun op k hi => lt_of_lt_of_le (hb.bound op k hi) hle,hb.unique,?_⟩
  · refine (Copies.completes hsteps hs ht hno hb.copies).weaken ?_ fun op k x hi hk => ⟨k,hi,hk⟩
    rintro x k (hw | ⟨op,k',hi,hk,hmem,q,hq,hdst⟩)
    · exact hw.cons
    · have hdone := Call.completed_of_shows (hshow _ hmem)
      obtain ⟨call,hcall,hid⟩ := List.mem_flatMap.mp (hack.1 _ hdone)
      obtain ⟨op',hop',hid⟩ := List.mem_map.mp hid
      obtain ⟨s₀,hret⟩ := returned_of_mem hrun hcall hop'
      obtain ⟨rfl,rfl⟩ := hb.unique op k' op' _ hi (hb.returned op' s₀ hret) hid.symm
      exact ⟨(c,reply),history,op,s₀,q,List.suffix_refl _,hdone,hret,hq,hdst,hk⟩
  · rintro op s₀ ⟨call,before,hsub,hcont,hop⟩
    rcases List.suffix_cons_iff.mp hsub with heq | hsub
    · rw [List.cons.injEq] at heq
      obtain ⟨rfl,rfl⟩ := heq
      exact (hno op (mem_issuedOf.mp (hfits.writeBack hop))).elim
    · exact hb.returned op s₀ ⟨call,before,hsub,hcont,hop⟩

theorem books_of_run (h : RunWhere (Call.Spares [.draining,.retracting]) new history s)
    (hs : Sound new) (ht : Tracked new) (hempty : ∀ i, nodePages .host new.kv.tree i = [])
    (hack : Acknowledged history) (hids : s.kv.nextOpId ≤ 2^32) :
    Tracked s ∧ ∃ issued, Books new history s issued := by
  induction h with
  | nil =>
    refine ⟨ht,fun _ _ => False,⟨?_,fun _ _ hf => hf.elim,fun _ _ _ _ hf => hf.elim,?_⟩⟩
    · intro i x hx
      rw [hempty i] at hx
      cases hx
    · rintro op s₀ ⟨_,_,hsub,_⟩
      exact absurd (List.suffix_nil.mp hsub) (by simp)
  | call run meets calls ih =>
    rename_i history s₁ s₂ c reply
    have hs₁ := run.sound hs
    obtain ⟨ls,hsteps,hshow,hfits⟩ := calls.stepsWhere hs₁ meets
    have hle := hsteps.steps.nextOpId_le
    obtain ⟨ht₁,issued,hb⟩ := ih hack.2 (hle.trans hids)
    have ht₂ : Tracked s₂ := by
      have hall : ∀ {s ls s'}, StepsWhere (Label.Spares [.draining,.retracting]) s ls s' →
          Sound s → Tracked s → Tracked s' := by
        intro s ls s' hst
        induction hst with
        | nil => exact fun _ ht => ht
        | cons step meets _ ih =>
          exact fun hs ht => ih (step.sound hs) (ht.step hs step (spares_retracting meets))
      exact hall hsteps hs₁ ht₁
    refine ⟨ht₂,?_⟩
    cases c with
    | advance events =>
      refine ⟨_,hb.completes run.continues hs₁ ht₁ hsteps hshow hfits (fun op hmem => ?_) hack⟩
      obtain ⟨ev,_,hev⟩ := hshow _ hmem
      cases ev <;> exact hev.elim
    | submit specs =>
      exact ⟨_,hb.issues run.continues hs₁ ht₁ calls hsteps hfits
        (fun o hmem => hshow _ hmem) hids⟩
    | plan order =>
      exact ⟨_,hb.issues run.continues hs₁ ht₁ calls hsteps hfits
        (fun o hmem => hshow _ hmem) hids⟩

/-- Every host page that a plan loads back was the destination of a write-back that an earlier plan
returned and whose completion was handled, and was not given back since, if no draining or retracting
request is ever aborted. -/
theorem hostCopies_written {config : SchedulerConfig} {clock : Nat → Timestamp}
    {order : List RequestId} {p : ExecutionPlan} {load : LoadBackOperation}
    (h : RunWhere (Call.Spares [.draining,.retracting]) (Scheduler.new config clock) history s)
    (hack : Acknowledged history) (hplan : Calls s (.plan order) (.plan p) s')
    (hids : s'.kv.nextOpId ≤ 2^32) (hload : load ∈ p.loadBack) (hq : q ∈ load.transfers) :
    ∃ ls y, Steps s ls y ∧ q.src ∈ collectAllPages .host y.kv ∧
      Written (Scheduler.new config clock) history q.src (y.hostReturns q.src) := by
  have hs := h.sound (sound_new config clock)
  obtain ⟨ls,hsteps,hshow,hfits⟩ : ∃ ls, StepsWhere (Label.Spares [.draining,.retracting]) s ls s' ∧
      (∀ ℓ ∈ ls, (Call.plan order).Shows ℓ) ∧ (Reply.plan p).Fits ls := hplan.stepsWhere hs trivial
  obtain ⟨ht,issued,hb⟩ := books_of_run h (sound_new config clock) (tracked_new config clock)
    (fun i => by
      cases hn : (Scheduler.new config clock).kv.tree.read i with
      | none => simp [nodePages,hn]
      | some n =>
        obtain ⟨_,rfl⟩ := read_rootTree hn
        simp [nodePages,hn,TreeNode.pages,TreeNode.resource])
    hack (hsteps.steps.nextOpId_le.trans hids)
  obtain ⟨loads,hmem,hsub⟩ := hfits.2 load hload
  exact Copies.loaded hsteps hs ht (fun o hmem => hshow _ hmem) hb.copies hmem (hsub hq)

end Run

def unwrittenCalls : List Call :=
  [.submit [{ requestId := [1], tokens := [7,8] }],.plan [[1]],.advance [.finish [1],.abort [1]],
    .submit [{ requestId := [2], tokens := [5,6] }],.plan [[1],[2]],.advance [.abort [2]],
    .submit [{ requestId := [3], tokens := [7,1] }]]

def unwrittenPlan : ExecutionPlan :=
  { forward := [.prefill ⟨[3],1,1,[2,1,3],0,3,2⟩ [1] [-1] 1], loadBack := [⟨1,[⟨3,2⟩]⟩] }

/-- A request is aborted between its finish and the next plan; a later one loads the host page that
was never written. -/
theorem unwritten_page_loaded :
    ∃ history s order p s' load q, Reaches (smallConfig 4 4) id history s ∧
      Calls s (.plan order) (.plan p) s' ∧ load ∈ p.loadBack ∧ q ∈ load.transfers ∧
      ∀ call ∈ history, call.2.writeBack = [] := by
  obtain ⟨x,hx,hnone,y,hy,hplan⟩ :
      ∃ x, replay (smallConfig 4 4) id unwrittenCalls = some x ∧
        (∀ call ∈ x.1, call.2.writeBack = []) ∧
        ∃ y, replayCall x (.plan [[2],[3]]) = some y ∧
          y.1 = (.plan [[2],[3]],.plan unwrittenPlan) :: x.1 := by
    decide +kernel
  exact ⟨x.1,x.2,[[2],[3]],unwrittenPlan,y.2,⟨1,[⟨3,2⟩]⟩,⟨3,2⟩,reaches_of_replay hx,
    calls_of_replayCall_eq hy hplan,List.mem_singleton.mpr rfl,List.mem_singleton.mpr rfl,hnone⟩

def writtenCalls : List Call :=
  [.submit [{ requestId := [1], tokens := [7,8] }],.plan [[1]],.advance [.finish [1]],.plan [[1]],
    .advance [.writeBackDone 1 true],.submit [{ requestId := [3], tokens := [7,1] }]]

def writtenPlan : ExecutionPlan :=
  { forward := [.prefill ⟨[3],2,1,[3,1,2],0,3,2⟩ [1] [-1] 1], loadBack := [⟨2,[⟨3,3⟩]⟩] }

theorem hostCopies_written_run :
    ∃ history s s', Reaches (smallConfig 4 4) id history s ∧
      Calls s (.plan [[1],[3]]) (.plan writtenPlan) s' ∧ ∃ ls y, Steps s ls y ∧
        3 ∈ collectAllPages .host y.kv ∧
        Written (Scheduler.new (smallConfig 4 4) id) history 3 (y.hostReturns 3) := by
  obtain ⟨x,hx,hack,y,hy,hplan,hids⟩ :
      ∃ x, replay (smallConfig 4 4) id writtenCalls = some x ∧ Acknowledged x.1 ∧
        ∃ y, replayCall x (.plan [[1],[3]]) = some y ∧
          y.1 = (.plan [[1],[3]],.plan writtenPlan) :: x.1 ∧ y.2.kv.nextOpId ≤ 2^32 := by
    decide +kernel
  have hno : ∀ c ∈ writtenCalls, c.hasAbort = false := by decide
  have hspare : ∀ c ∈ writtenCalls, ∀ s, c.Spares [.draining,.retracting] s :=
    fun c hc => spares_of_hasAbort (hno c hc)
  have hrun := runWhere_of_replayFrom hspare .nil hx
  have hcalls := calls_of_replayCall_eq hy hplan
  have hload : (⟨2,[⟨3,3⟩]⟩ : LoadBackOperation) ∈ writtenPlan.loadBack := List.mem_singleton.mpr rfl
  exact ⟨x.1,x.2,y.2,reaches_of_replay hx,hcalls,
    hostCopies_written hrun hack hcalls hids hload (List.mem_singleton.mpr rfl)⟩

end FluxServe
