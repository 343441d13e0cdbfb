import FluxServe.Scheduler.GuardedRuns

namespace FluxServe

open KVPrefixCache

variable {s s' s₁ s₂ : Scheduler} {r r₀ : Request} {st' : RequestState} {ℓ : Label}
  {ls : List Label} {fresh : List NodeId} {op : WriteBackOperation} {kv kv' : KVPrefixCache}
  {pairs : List TransferPair} {d h : NodeId}

/-- A state in which a copy to the host is under way. -/
def RequestState.isTransferring : RequestState → Bool
  | writingBack _ _ => true
  | retracting _ _ _ _ => true
  | _ => false

/-- The two sides of the copies lie on pinned paths. -/
def Pins (kv : KVPrefixCache) (pairs : List TransferPair) (d h : NodeId) : Prop :=
  ∀ p ∈ pairs, p.src ∈ pathPages .device kv.tree d ∧ p.dst ∈ pathPages .host kv.tree h

theorem Pins.evolves {refs : ResourceType → Multiset NodeId} (hp : Pins kv pairs d h)
    (he : Evolves refs kv kv') (hd : d ∈ refs .device) (hh : h ∈ refs .host) :
    Pins kv' pairs d h := by
  intro p hmem
  rw [he.pages .device d hd,he.pages .host h hh]
  exact hp p hmem

theorem mem_pathPages {t : ResourceType} {tree : Heap TreeNode} {i j : NodeId} {x : PageId}
    (hj : j ∈ leafToRoot tree i) (hx : x ∈ nodePages t tree j) : x ∈ pathPages t tree i :=
  List.mem_flatMap.mpr ⟨j,List.mem_reverse.mpr hj,hx⟩

/-- A copy takes a page of a node to a page of the same node. -/
theorem mem_pairsOf {src : ResourceType} {tree : Heap TreeNode} {nodes : List NodeId}
    {p : TransferPair} (hp : p ∈ pairsOf src tree nodes) :
    ∃ j ∈ nodes, p.src ∈ nodePages src tree j ∧ p.dst ∈ nodePages src.other tree j := by
  obtain ⟨j,hj,hp⟩ := List.mem_flatMap.mp hp
  rw [← List.map_uncurry_zip_eq_zipWith] at hp
  obtain ⟨⟨a,b⟩,hab,rfl⟩ := List.mem_map.mp hp
  exact ⟨j,hj,(List.of_mem_zip hab).1,(List.of_mem_zip hab).2⟩

theorem CopiesTo.pins (hc : CopiesTo kv d fresh pairs) : Pins kv pairs d d := by
  intro p hp
  rw [hc.pairs] at hp
  obtain ⟨j,hj,hsrc,hdst⟩ := mem_pairsOf hp
  exact ⟨mem_pathPages (hc.path hj) hsrc,mem_pathPages (hc.path hj) hdst⟩

/-- The tracker only names requests whose copy is under way, each once; the copies a draining
request will ask for lie on the paths it pins. -/
structure Tracked (s : Scheduler) : Prop where
  owner : ∀ o id, s.cacheOpTracker.lookup o = some id →
    ∃ r ∈ s.requests, r.id = id ∧ r.state.isTransferring = true
  unique : ∀ o o' id, s.cacheOpTracker.lookup o = some id → s.cacheOpTracker.lookup o' = some id →
    o = o'
  drains : ∀ r ∈ s.requests, ∀ pairs d h, r.state = .draining pairs d h → Pins s.kv pairs d h

/-- The copy of a request is under way between the given nodes. -/
def RequestState.Transfers (st : RequestState) (d h : NodeId) : Prop :=
  st = .writingBack (some d) h ∨ ∃ l pairs, st = .retracting (some d) h l pairs

/-- The operation is under way for the request with the id: it pins both sides of the copies, and
no other operation's completion is routed to it. -/
structure InFlight (op : WriteBackOperation) (id : RequestId) (s : Scheduler) : Prop where
  owner : ∃ r ∈ s.requests, r.id = id ∧ ∃ d h, r.state.Transfers d h ∧ Pins s.kv op.transfers d h
  tracked : ∀ o, s.cacheOpTracker.lookup o = some id → o = op.opId

/-- The page of a transfer on a tier. -/
def TransferPair.page (p : TransferPair) : ResourceType → PageId
  | .device => p.src
  | .host => p.dst

/-- None of the operation's pages was returned between two states. -/
def Kept (op : WriteBackOperation) (s s' : Scheduler) : Prop :=
  ∀ t, ∃ ret, (s'.kv.manager t).allocator.returned = ret ++ (s.kv.manager t).allocator.returned ∧
    ∀ p ∈ op.transfers, p.page t ∉ ret

theorem Kept.refl (op : WriteBackOperation) (s : Scheduler) : Kept op s s :=
  fun _ => ⟨[],rfl,by simp⟩

theorem Kept.of_kv (hkv : ∀ t, (s'.kv.manager t).allocator = (s.kv.manager t).allocator) :
    Kept op s s' := fun t => ⟨[],by rw [hkv t]; rfl,by simp⟩

theorem Kept.trans (h : Kept op s s₁) (h' : Kept op s₁ s') : Kept op s s' := by
  intro t
  obtain ⟨ret,hret,hno⟩ := h t
  obtain ⟨ret',hret',hno'⟩ := h' t
  refine ⟨ret' ++ ret,by rw [hret',hret,List.append_assoc],fun p hp hmem => ?_⟩
  exact (List.mem_append.mp hmem).elim (hno' p hp) (hno p hp)

theorem Pins.kept {refs : ResourceType → Multiset NodeId} (hp : Pins s.kv op.transfers d h)
    (he : Evolves refs s.kv s'.kv) (hd : d ∈ refs .device) (hh : h ∈ refs .host) :
    Kept op s s' := by
  intro t
  obtain ⟨ret,hret,hno⟩ := he.returned t
  refine ⟨ret,hret,fun p hmem hin => ?_⟩
  cases t with
  | device => exact hno d hd p.src hin (hp p hmem).1
  | host => exact hno h hh p.dst hin (hp p hmem).2

section Steps

/-- The references of an owner. -/
theorem RequestState.Transfers.refs (hst : r.state.Transfers d h) :
    d ∈ r.state.nodeRefs .device ∧ h ∈ r.state.nodeRefs .host := by
  rcases hst with hst | ⟨l,pairs,hst⟩ <;> rw [hst] <;> simp [RequestState.nodeRefs]

theorem RequestState.Transfers.isTransferring {st : RequestState} (hst : st.Transfers d h) :
    st.isTransferring = true := by
  rcases hst with rfl | ⟨l,pairs,rfl⟩ <;> rfl

/-- The requests other than the moved one are as before. -/
theorem Move.mem_requests (hm : Move r₀ st' fresh s s') {x : Request} :
    x ∈ s'.requests ↔ (∃ y ∈ s.requests, y.id = r₀.id ∧ x = { y with state := st' }) ∨
      x ∈ s.requests ∧ x.id ≠ r₀.id := by
  rw [hm.requests]
  simp only [Scheduler.withState,Scheduler.updateRequest,List.mem_map]
  constructor
  · rintro ⟨y,hy,rfl⟩
    split
    · next hid => exact Or.inl ⟨y,hy,hid,rfl⟩
    · next hid => exact Or.inr ⟨hy,hid⟩
  · rintro (⟨y,hy,hid,rfl⟩ | ⟨hx,hid⟩)
    · exact ⟨y,hy,if_pos hid⟩
    · exact ⟨x,hx,if_neg hid⟩

theorem mem_refsOf_others {rs : List Request} {id : RequestId} (hr : r ∈ rs) (hne : r.id ≠ id)
    {t : ResourceType} {i : NodeId} (hi : i ∈ r.state.nodeRefs t) : i ∈ refsOf (others id rs) t :=
  mem_refsOf.mpr ⟨r,mem_others.mpr ⟨hr,hne⟩,hi⟩

/-- A change of the cache that spares the owner's references keeps the operation under way. -/
theorem InFlight.evolves {refs : ResourceType → Multiset NodeId} {id : RequestId}
    (hf : InFlight op id s) (he : Evolves refs s.kv s'.kv)
    (hreq : ∀ r ∈ s.requests, r.id = id → ∀ d h, r.state.Transfers d h →
      (∃ r' ∈ s'.requests, r'.id = id ∧ r'.state.Transfers d h) ∧ d ∈ refs .device ∧ h ∈ refs .host)
    (htr : ∀ o, s'.cacheOpTracker.lookup o = some id → s.cacheOpTracker.lookup o = some id) :
    InFlight op id s' ∧ Kept op s s' := by
  obtain ⟨⟨r,hr,hid,d,h,hst,hpins⟩,htrack⟩ := hf
  obtain ⟨⟨r',hr',hid',hst'⟩,hd,hh⟩ := hreq r hr hid d h hst
  exact ⟨⟨⟨r',hr',hid',d,h,hst',hpins.evolves he hd hh⟩,fun o ho => htrack o (htr o ho)⟩,
    hpins.kept he hd hh⟩

/-- A move of another request leaves an operation under way. -/
theorem InFlight.move {id : RequestId} (hf : InFlight op id s) (hm : Move r₀ st' fresh s s')
    (hid : id ≠ r₀.id) : InFlight op id s' ∧ Kept op s s' := by
  refine hf.evolves hm.change.evolves ?_ fun o ho => by rwa [hm.tracker] at ho
  intro r hr hrid d h hst
  have hne : r.id ≠ r₀.id := fun he => hid (hrid.symm.trans he)
  exact ⟨⟨r,hm.mem_requests.mpr (Or.inr ⟨hr,hne⟩),hrid,hst⟩,mem_refsOf_others hr hne hst.refs.1,
    mem_refsOf_others hr hne hst.refs.2⟩

/-- A request in no transfer owns no operation. -/
theorem InFlight.ne_of_idle {id : RequestId} (hf : InFlight op id s) (hr : r₀ ∈ s.requests)
    (hidle : r₀.state.isTransferring = false) (hs : Sound s) : id ≠ r₀.id := by
  intro he
  obtain ⟨r,hr',hid,d,h,hst,_⟩ := hf.owner
  obtain rfl : r = r₀ := List.inj_on_of_nodup_map hs.ids hr' hr (hid.trans he)
  rw [hst.isTransferring] at hidle
  cases hidle

theorem InFlight.untracked {id : RequestId} (hf : InFlight op id s) (o : CacheOpId) :
    InFlight op id (s.untracked o) := by
  refine ⟨hf.owner,fun o' ho' => hf.tracked o' ?_⟩
  rw [Scheduler.untracked,lookup_dropKey] at ho'
  split at ho'
  · cases ho'
  · exact ho'

theorem lookup_issued (s : Scheduler) (op : WriteBackOperation) (id : RequestId) (o : CacheOpId) :
    (s.issued op id).cacheOpTracker.lookup o =
      if o = op.opId then some id else s.cacheOpTracker.lookup o := by
  rw [Scheduler.issued,List.lookup_cons]
  by_cases ho : o = op.opId
  · simp [ho]
  · rw [beq_false_of_ne ho,if_neg ho]
    exact (lookup_dropKey _ _ _).trans (if_neg ho)

/-- An operation of another request does not disturb one under way. -/
theorem InFlight.issued {op' : WriteBackOperation} {id id' : RequestId} (hf : InFlight op id s)
    (hid : id ≠ id') : InFlight op id (s.issued op' id') := by
  refine ⟨hf.owner,fun o ho => ?_⟩
  rw [lookup_issued] at ho
  split at ho
  · exact (hid (Option.some.inj ho).symm).elim
  · exact hf.tracked o ho

/-- The tracker names no request that is in no transfer. -/
theorem Tracked.lookup_ne (ht : Tracked s) (hs : Sound s) (hr : r ∈ s.requests)
    (hidle : r.state.isTransferring = false) (o : CacheOpId) :
    s.cacheOpTracker.lookup o ≠ some r.id := by
  intro ho
  obtain ⟨x,hx,hxid,htrans⟩ := ht.owner o r.id ho
  obtain rfl : x = r := List.inj_on_of_nodup_map hs.ids hx hr hxid
  rw [hidle] at htrans
  cases htrans

theorem Tracked.move (ht : Tracked s) (hm : Move r₀ st' fresh s s')
    (hown : (∀ o, s.cacheOpTracker.lookup o ≠ some r₀.id) ∨ st'.isTransferring = true)
    (hdrain : ∀ pairs d h, st' = .draining pairs d h → Pins s'.kv pairs d h) : Tracked s' := by
  refine ⟨fun o id ho => ?_,fun o o' id ho ho' => ?_,fun x hx pairs d h hst => ?_⟩
  · rw [hm.tracker] at ho
    obtain ⟨r,hr,hid,htrans⟩ := ht.owner o id ho
    by_cases heq : r.id = r₀.id
    · refine ⟨{ r with state := st' },hm.mem_requests.mpr (Or.inl ⟨r,hr,heq,rfl⟩),hid,?_⟩
      refine hown.resolve_left fun hno => hno o ?_
      rw [ho,← hid,heq]
    · exact ⟨r,hm.mem_requests.mpr (Or.inr ⟨hr,heq⟩),hid,htrans⟩
  · rw [hm.tracker] at ho ho'
    exact ht.unique o o' id ho ho'
  · rcases hm.mem_requests.mp hx with ⟨y,hy,_,rfl⟩ | ⟨hx,hne⟩
    · exact hdrain pairs d h hst
    · refine (ht.drains x hx pairs d h hst).evolves hm.change.evolves (mem_refsOf_others hx hne ?_)
        (mem_refsOf_others hx hne ?_) <;> rw [hst] <;> simp [RequestState.nodeRefs]

theorem Tracked.untracked (ht : Tracked s) (o : CacheOpId) : Tracked (s.untracked o) := by
  have hsub : ∀ o' id, (s.untracked o).cacheOpTracker.lookup o' = some id →
      s.cacheOpTracker.lookup o' = some id := by
    intro o' id ho'
    rw [Scheduler.untracked,lookup_dropKey] at ho'
    split at ho'
    · cases ho'
    · exact ho'
  exact ⟨fun o' id ho' => ht.owner o' id (hsub o' id ho'),
    fun a b id ha hb => ht.unique a b id (hsub a id ha) (hsub b id hb),ht.drains⟩

/-- What is tracked after the completion of an operation is not routed to its request. -/
theorem Tracked.lookup_untracked (ht : Tracked s) {opId o : CacheOpId} {id : RequestId}
    (hl : s.cacheOpTracker.lookup opId = some id) :
    (s.untracked opId).cacheOpTracker.lookup o ≠ some id := by
  intro ho
  rw [Scheduler.untracked,lookup_dropKey] at ho
  split at ho
  · cases ho
  · next hne => exact hne (ht.unique o opId id ho hl)

theorem Tracked.issued {id : RequestId} (ht : Tracked s) (op : WriteBackOperation)
    (hr : ∃ r ∈ s.requests, r.id = id ∧ r.state.isTransferring = true)
    (hno : ∀ o, s.cacheOpTracker.lookup o ≠ some id) : Tracked (s.issued op id) := by
  refine ⟨fun o id' ho => ?_,fun o o' id' ho ho' => ?_,ht.drains⟩
  · rw [lookup_issued] at ho
    split at ho
    · rw [← Option.some.inj ho]
      exact hr
    · exact ht.owner o id' ho
  · rw [lookup_issued] at ho ho'
    split at ho <;> split at ho'
    · next h h' => exact h.trans h'.symm
    · exact (hno o' (by rw [ho',← Option.some.inj ho])).elim
    · exact (hno o (by rw [ho,← Option.some.inj ho'])).elim
    · exact ht.unique o o' id' ho ho'

theorem isTransferring_of_forward {st : RequestState} {f : ForwardState}
    (hf : st.forward? = some f) : st.isTransferring = false := by
  cases st <;> first | rfl | cases hf

/-- Without an abort of a request in `Retracting` an abort finds no copy under way. -/
theorem idle_of_spares (hspare : (Label.abort r.id).Spares [.retracting] s) (hr : r ∈ s.requests)
    (hw : ∀ d h, r.state ≠ .writingBack d h) : r.state.isTransferring = false := by
  have hname := hspare r.id rfl r hr rfl
  cases hst : r.state with
  | writingBack d h => exact (hw d h hst).elim
  | retracting => simp [hst,RequestState.name] at hname
  | _ => rfl

/-- Every transition keeps the tracker in order, unless it aborts a request in `Retracting`. -/
theorem Tracked.step (ht : Tracked s) (hs : Sound s) (h : Step s ℓ s')
    (hspare : ℓ.Spares [.retracting] s) : Tracked s' := by
  have hidle : ∀ {r₀ : Request} {st' : RequestState} {fresh : List NodeId} {s' : Scheduler},
      Move r₀ st' fresh s s' → r₀.state.isTransferring = false →
      (∀ pairs d h, st' = .draining pairs d h → Pins s'.kv pairs d h) → Tracked s' :=
    fun move hi hd => ht.move move (Or.inl (ht.lookup_ne hs move.found hi)) hd
  have hforward : ∀ {st : RequestState} {f : ForwardState}, st.forward? = some f →
      ∀ {kv : KVPrefixCache} pairs d h, st = .draining pairs d h → Pins kv pairs d h := by
    rintro st f hf kv pairs d h rfl
    cases hf
  cases h with
  | cache move =>
    refine ⟨?_,?_,fun r hr pairs d h hst => ?_⟩
    · rw [move.tracker,move.requests]
      exact ht.owner
    · rw [move.tracker]
      exact ht.unique
    · rw [move.requests] at hr
      refine (ht.drains r hr pairs d h hst).evolves move.change.evolves
        (mem_refsOf.mpr ⟨r,hr,?_⟩) (mem_refsOf.mpr ⟨r,hr,?_⟩) <;>
        rw [hst] <;> simp [RequestState.nodeRefs]
  | forward before after move =>
    refine hidle move ?_ (hforward after)
    rcases before with hst | ⟨f,hf⟩
    · rw [hst]; rfl
    · exact isTransferring_of_forward hf
  | recover before after move => exact hidle move (by rw [before]; rfl) (hforward after)
  | record | opId => exact ⟨ht.owner,ht.unique,ht.drains⟩
  | extend =>
    refine ⟨fun o id ho => ?_,ht.unique,fun r hr pairs d h hst => ?_⟩
    · obtain ⟨r,hr,hid,htrans⟩ := ht.owner o id ho
      refine ⟨_,List.mem_map.mpr ⟨r,hr,rfl⟩,?_,?_⟩ <;> split <;> assumption
    · obtain ⟨x,hx,rfl⟩ := List.mem_map.mp hr
      refine ht.drains x hx pairs d h ?_
      split at hst <;> exact hst
  | untrack o => exact ht.untracked o
  | erase =>
    refine ⟨fun o id ho => ?_,ht.unique,fun r hr => ht.drains r (List.mem_filter.mp hr).1⟩
    obtain ⟨r,hr,hid,htrans⟩ := ht.owner o id ho
    refine ⟨r,List.mem_filter.mpr ⟨hr,?_⟩,hid,htrans⟩
    rw [decide_eq_true_iff]
    intro hst
    rw [hst] at htrans
    cases htrans
  | submit state fresh =>
    refine ⟨fun o id ho => ?_,ht.unique,fun r hr pairs d h hst => ?_⟩
    · obtain ⟨r,hr,hid⟩ := ht.owner o id ho
      exact ⟨r,List.mem_append_left _ hr,hid⟩
    · rcases List.mem_append.mp hr with hr | hr
      · exact ht.drains r hr pairs d h hst
      · rw [List.mem_singleton.mp hr,state] at hst
        cases hst
  | finished before move =>
    refine hidle move ?_ (by simp)
    rcases before with ⟨f,hf⟩ | ⟨h,l,hst⟩
    · exact isTransferring_of_forward hf
    · rw [hst]; rfl
  | drain before move copies =>
    refine hidle move (isTransferring_of_forward before) ?_
    intro pairs d h hst
    cases hst
    exact copies.pins
  | keepWriting _ move => exact ht.move move (Or.inr rfl) (by simp)
  | aborted before move => exact hidle move (idle_of_spares hspare move.found before) (by simp)
  | discarded before move => exact hidle move (by rw [before]; rfl) (by simp)
  | gaveUp before _ move => exact hidle move (isTransferring_of_forward before) (by simp)
  | issueDrained before _ move =>
    rename_i r₀ _ _ _ _ _
    have hi : r₀.state.isTransferring = false := by rw [before]; rfl
    refine (hidle move hi (by simp)).issued _ ?_ ?_
    · exact ⟨_,move.mem_requests.mpr (Or.inl ⟨_,move.found,rfl,rfl⟩),rfl,rfl⟩
    · rw [move.tracker]
      exact ht.lookup_ne hs move.found hi
  | retractDone before move => exact hidle move (isTransferring_of_forward before) (by simp)
  | retractIssue before _ move =>
    have hi := isTransferring_of_forward before
    refine (hidle move hi (by simp)).issued _ ?_ ?_
    · exact ⟨_,move.mem_requests.mpr (Or.inl ⟨_,move.found,rfl,rfl⟩),rfl,rfl⟩
    · rw [move.tracker]
      exact ht.lookup_ne hs move.found hi
  | written tracked _ move =>
    exact (ht.untracked _).move move (Or.inl fun o => ht.lookup_untracked tracked) (by simp)
  | retracted tracked _ move =>
    exact (ht.untracked _).move move (Or.inl fun o => ht.lookup_untracked tracked) (by simp)
  | ignored => exact ht.untracked _

/-- An operation stays under way, with all of its pages, until its own completion. -/
theorem InFlight.step {id : RequestId} (hf : InFlight op id s) (hs : Sound s) (h : Step s ℓ s')
    (hspare : ℓ.Spares [.retracting] s) (hℓ : ℓ ≠ .complete op.opId) :
    InFlight op id s' ∧ Kept op s s' := by
  have hidle : ∀ {r₀ : Request} {st' : RequestState} {fresh : List NodeId} {s' : Scheduler},
      Move r₀ st' fresh s s' → r₀.state.isTransferring = false → InFlight op id s' ∧ Kept op s s' :=
    fun move hi => hf.move move (hf.ne_of_idle move.found hi hs)
  have hsame : ∀ {s' : Scheduler}, InFlight op id s' → s'.kv = s.kv →
      InFlight op id s' ∧ Kept op s s' :=
    fun hf' hkv => ⟨hf',Kept.of_kv fun t => by rw [hkv]⟩
  cases h with
  | cache move =>
    refine hf.evolves move.change.evolves ?_ fun o ho => by rwa [move.tracker] at ho
    intro r hr hrid d h hst
    exact ⟨⟨r,by rwa [move.requests],hrid,hst⟩,mem_refsOf.mpr ⟨r,hr,hst.refs.1⟩,
      mem_refsOf.mpr ⟨r,hr,hst.refs.2⟩⟩
  | forward before after move =>
    refine hidle move ?_
    rcases before with hst | ⟨f,hf⟩
    · rw [hst]; rfl
    · exact isTransferring_of_forward hf
  | recover before after move => exact hidle move (by rw [before]; rfl)
  | record => exact hsame ⟨hf.owner,hf.tracked⟩ rfl
  | opId => exact ⟨⟨hf.owner,hf.tracked⟩,Kept.of_kv fun t => by cases t <;> rfl⟩
  | extend =>
    refine hsame ⟨?_,hf.tracked⟩ rfl
    obtain ⟨r,hr,hid,howner⟩ := hf.owner
    refine ⟨_,List.mem_map.mpr ⟨r,hr,rfl⟩,?_,?_⟩ <;> split <;> assumption
  | untrack o => exact hsame (hf.untracked o) rfl
  | erase =>
    refine hsame ⟨?_,hf.tracked⟩ rfl
    obtain ⟨r,hr,hid,d,h,hst,hpins⟩ := hf.owner
    refine ⟨r,List.mem_filter.mpr ⟨hr,?_⟩,hid,d,h,hst,hpins⟩
    rw [decide_eq_true_iff]
    intro hfin
    have htrans := hst.isTransferring
    rw [hfin] at htrans
    cases htrans
  | submit =>
    refine hsame ⟨?_,hf.tracked⟩ rfl
    obtain ⟨r,hr,howner⟩ := hf.owner
    exact ⟨r,List.mem_append_left _ hr,howner⟩
  | finished before move =>
    refine hidle move ?_
    rcases before with ⟨f,hf⟩ | ⟨h,l,hst⟩
    · exact isTransferring_of_forward hf
    · rw [hst]; rfl
  | drain before move => exact hidle move (isTransferring_of_forward before)
  | keepWriting before move own =>
    rename_i r₀ d₀ h₀ l₀ pairs₀
    refine hf.evolves own.evolves ?_ fun o ho => by rwa [move.tracker] at ho
    intro r hr hrid d h hst
    refine ⟨?_,mem_refsOf.mpr ⟨r,hr,hst.refs.1⟩,mem_refsOf.mpr ⟨r,hr,hst.refs.2⟩⟩
    by_cases heq : r.id = r₀.id
    · obtain rfl : r = r₀ := List.inj_on_of_nodup_map hs.ids hr move.found heq
      refine ⟨_,move.mem_requests.mpr (Or.inl ⟨r,hr,rfl,rfl⟩),hrid,Or.inl ?_⟩
      rcases hst with hst | ⟨l,pairs,hst⟩
      · rw [before] at hst
        cases hst
      · rw [before] at hst
        cases hst
        rfl
    · exact ⟨r,move.mem_requests.mpr (Or.inr ⟨hr,heq⟩),hrid,hst⟩
  | aborted before move => exact hidle move (idle_of_spares hspare move.found before)
  | discarded before move => exact hidle move (by rw [before]; rfl)
  | gaveUp before _ move => exact hidle move (isTransferring_of_forward before)
  | issueDrained before _ move =>
    rename_i r₀ _ _ _ _ _
    have hi : r₀.state.isTransferring = false := by rw [before]; rfl
    obtain ⟨hf',hkept⟩ := hidle move hi
    exact ⟨hf'.issued (hf.ne_of_idle move.found hi hs),
      hkept.trans (Kept.of_kv fun t => by cases t <;> rfl)⟩
  | retractDone before move => exact hidle move (isTransferring_of_forward before)
  | retractIssue before _ move =>
    have hi := isTransferring_of_forward before
    obtain ⟨hf',hkept⟩ := hidle move hi
    exact ⟨hf'.issued (hf.ne_of_idle move.found hi hs),
      hkept.trans (Kept.of_kv fun t => by cases t <;> rfl)⟩
  | written tracked _ move =>
    refine (hf.untracked _).move move fun he => hℓ (congrArg Label.complete ?_)
    exact hf.tracked _ (by rw [he]; exact tracked)
  | retracted tracked _ move =>
    refine (hf.untracked _).move move fun he => hℓ (congrArg Label.complete ?_)
    exact hf.tracked _ (by rw [he]; exact tracked)
  | ignored => exact hsame (hf.untracked _) rfl

/-- An operation is under way once it is issued. -/
theorem InFlight.of_issue (ht : Tracked s) (hs : Sound s) (h : Step s (.issue op) s') :
    ∃ id, InFlight op id s' := by
  cases h with
  | issueDrained before _ move kv =>
    rename_i s₁ r₀ d h _
    have hpins : Pins s₁.kv op.transfers d h := by
      rw [kv]
      exact ht.drains r₀ move.found _ d h before
    refine ⟨r₀.id,⟨⟨_,move.mem_requests.mpr (Or.inl ⟨r₀,move.found,rfl,rfl⟩),rfl,d,h,Or.inl rfl,hpins⟩,
      fun o ho => ?_⟩⟩
    rw [lookup_issued] at ho
    split at ho
    · assumption
    · rw [move.tracker] at ho
      exact (ht.lookup_ne hs move.found (by rw [before]; rfl) o ho).elim
  | retractIssue before _ move copies =>
    rename_i r₀ f h l fresh _ _
    refine ⟨r₀.id,⟨⟨_,move.mem_requests.mpr (Or.inl ⟨r₀,move.found,rfl,rfl⟩),rfl,h,h,
      Or.inr ⟨l,_,rfl⟩,copies.pins⟩,fun o ho => ?_⟩⟩
    rw [lookup_issued] at ho
    split at ho
    · assumption
    · rw [move.tracker] at ho
      exact (ht.lookup_ne hs move.found (isTransferring_of_forward before) o ho).elim

end Steps

section Run

variable {config : SchedulerConfig} {clock : Nat → Timestamp} {history later : List (Call × Reply)}
  {order : List RequestId} {p : ExecutionPlan}

theorem tracked_new (config : SchedulerConfig) (clock : Nat → Timestamp) :
    Tracked (Scheduler.new config clock) :=
  ⟨fun _ _ h => (nomatch h),fun _ _ _ h => (nomatch h),fun _ h => (nomatch h)⟩

/-- An operation under way stays so through transitions without its completion. -/
theorem InFlight.run {id : RequestId} (h : StepsWhere (Label.Spares [.retracting]) s ls s')
    (hs : Sound s) (hls : Label.complete op.opId ∉ ls) (hf : InFlight op id s) :
    InFlight op id s' ∧ Kept op s s' := by
  induction h with
  | nil => exact ⟨hf,Kept.refl op _⟩
  | cons step meets _ ih =>
    rw [List.mem_cons,not_or] at hls
    obtain ⟨hf₁,hk₁⟩ := hf.step hs step meets fun he => hls.1 he.symm
    obtain ⟨hf₂,hk₂⟩ := ih (step.sound hs) hls.2 hf₁
    exact ⟨hf₂,hk₁.trans hk₂⟩

/-- What was issued and not completed since is under way at the end. -/
theorem StepsWhere.inFlight (h : StepsWhere (Label.Spares [.retracting]) s ls s') (hs : Sound s)
    (ht : Tracked s) (hop : op ∈ issuedOf ls) (hls : Label.complete op.opId ∉ ls) :
    ∃ id, InFlight op id s' := by
  induction h with
  | nil => cases hop
  | cons step meets steps ih =>
    rename_i ℓ ls
    rw [List.mem_cons,not_or] at hls
    by_cases hrest : op ∈ issuedOf ls
    · exact ih (step.sound hs) (ht.step hs step meets) hrest hls.2
    · have hℓ : ℓ = .issue op := by
        unfold issuedOf at hop hrest
        rw [List.mem_filterMap] at hop hrest
        obtain ⟨ℓ',hmem,hsome⟩ := hop
        rcases List.mem_cons.mp hmem with rfl | hmem
        · cases ℓ' <;> first | (cases hsome; rfl) | cases hsome
        · exact (hrest ⟨ℓ',hmem,hsome⟩).elim
      subst hℓ
      obtain ⟨id,hf⟩ := InFlight.of_issue ht hs step
      exact ⟨id,(InFlight.run steps (step.sound hs) hls.2 hf).1⟩

/-- The call passes the completion of the operation. -/
def Call.Completes (opId : CacheOpId) : Call → Prop
  | .advance events => ∃ success, .writeBackDone opId success ∈ events
  | _ => False

theorem Call.completes_of_shows {c : Call} {opId : CacheOpId} (h : c.Shows (.complete opId)) :
    c.Completes opId := by
  cases c with
  | submit specs => exact h.elim
  | plan order => exact h.elim
  | advance events =>
    obtain ⟨ev,hmem,hev⟩ := h
    cases ev <;> first | exact hev.elim | skip
    rename_i opId' success
    obtain rfl := (hev : opId = opId')
    exact ⟨success,hmem⟩

/-- The pages of an operation under way are in the tree. -/
theorem InFlight.resident {id : RequestId} (hf : InFlight op id s) {q : TransferPair}
    (hq : q ∈ op.transfers) (t : ResourceType) : q.page t ∈ collectAllPages t s.kv := by
  obtain ⟨_,_,_,d,h,_,hpins⟩ := hf.owner
  have hpath : ∀ {t : ResourceType} {i : NodeId} {x : PageId}, x ∈ pathPages t s.kv.tree i →
      x ∈ collectAllPages t s.kv := by
    intro t i x hx
    obtain ⟨j,_,hx⟩ := List.mem_flatMap.mp hx
    unfold nodePages at hx
    cases hread : s.kv.tree.read j with
    | none => simp [hread] at hx
    | some n => exact Heap.mem_collect.mpr ⟨j,n,hread,by simpa [hread] using hx⟩
  cases t with
  | device => exact hpath (hpins q hq).1
  | host => exact hpath (hpins q hq).2

/-- Once a plan has returned a write-back, its pages stay in the tree and none is returned to its
allocator until the completion of that operation is handled, if no request is ever aborted in
`Retracting`. -/
theorem writeBack_pinned
    (h : RunWhere (Call.Spares [.retracting]) (Scheduler.new config clock) history s)
    (hplan : Calls s (.plan order) (.plan p) s₁) (hop : op ∈ p.writeBack)
    (hlater : RunWhere (Call.Spares [.retracting]) s₁ later s₂)
    (hdone : ∀ call ∈ later, ¬call.1.Completes op.opId) :
    Kept op s₁ s₂ ∧ ∀ q ∈ op.transfers, ∀ t, q.page t ∈ collectAllPages t s₂.kv := by
  have hs := h.sound (sound_new config clock)
  have ht : Tracked s := h.invariant (fun hs ht step hspare => ht.step hs step hspare)
    (sound_new config clock) (tracked_new config clock)
  obtain ⟨ls,hsteps,hshow,hfits⟩ : ∃ ls, StepsWhere (Label.Spares [.retracting]) s ls s₁ ∧
      (∀ ℓ ∈ ls, (Call.plan order).Shows ℓ) ∧ (Reply.plan p).Fits ls := hplan.stepsWhere hs trivial
  have hs₁ := hsteps.steps.sound hs
  obtain ⟨id,hf⟩ := hsteps.inFlight hs ht (by rw [hfits.1]; exact hop)
    fun hmem => hshow _ hmem
  have hend : InFlight op id s₂ ∧ Kept op s₁ s₂ := by
    induction hlater with
    | nil => exact ⟨hf,Kept.refl op s₁⟩
    | call run meets calls ih =>
      obtain ⟨hf₁,hkept⟩ := ih fun call hcall => hdone call (List.mem_cons_of_mem _ hcall)
      obtain ⟨ls',hsteps',hshow',_⟩ := calls.stepsWhere (run.sound hs₁) meets
      have hno : Label.complete op.opId ∉ ls' := fun hmem =>
        hdone _ List.mem_cons_self (Call.completes_of_shows (hshow' _ hmem))
      obtain ⟨hf₂,hk₂⟩ := InFlight.run hsteps' (run.sound hs₁) hno hf₁
      exact ⟨hf₂,hkept.trans hk₂⟩
  exact ⟨hend.2,fun q hq t => hend.1.resident hq t⟩

end Run

instance (opId : CacheOpId) (c : Call) : Decidable (c.Completes opId) :=
  match c with
  | .advance events => inferInstanceAs (Decidable (∃ success, .writeBackDone opId success ∈ events))
  | .submit _ => .isFalse not_false
  | .plan _ => .isFalse not_false

/-- The third call of this run is a plan that retracts the request. -/
def retractedCalls : List Call := [.submit [{ requestId := [1], tokens := [7,8] }],.plan [[1]]]

def retractOp : WriteBackOperation := { opId := 1, transfers := [⟨3,3⟩], isRetract := true }

def retractPlan : ExecutionPlan := { writeBack := [retractOp] }

/-- An abort of the retracted request lets the next plan evict the page that is being copied. -/
theorem writeBack_page_returned :
    ∃ history s order p s₁ op later s₂ q ret, Reaches (smallConfig 4 4) id history s ∧
      Calls s (.plan order) (.plan p) s₁ ∧ op ∈ p.writeBack ∧ Continues s₁ later s₂ ∧
      (∀ call ∈ later, ¬call.1.Completes op.opId) ∧ q ∈ op.transfers ∧
      s₂.kv.device.allocator.returned = ret ++ s₁.kv.device.allocator.returned ∧ q.src ∈ ret := by
  obtain ⟨x,hx,y,hy,hhist,z,hz,hdone,hret⟩ :
      ∃ x, replay (smallConfig 4 4) id retractedCalls = some x ∧
        ∃ y, replayCall x (.plan [[1]]) = some y ∧
          y.1 = (.plan [[1]],.plan retractPlan) :: x.1 ∧
          ∃ z, replayFrom [.advance [.abort [1]],.submit [{ requestId := [2], tokens := [5,6] }],
            .plan [[1],[2]]] ([],y.2) = some z ∧ (∀ call ∈ z.1, ¬call.1.Completes retractOp.opId) ∧
            z.2.kv.device.allocator.returned = [3,2,1] ++ y.2.kv.device.allocator.returned := by
    decide +kernel
  have hcalls := calls_of_replayCall_eq hy hhist
  have hop : retractOp ∈ retractPlan.writeBack := List.mem_singleton.mpr rfl
  exact ⟨x.1,x.2,[[1]],retractPlan,y.2,retractOp,z.1,z.2,⟨3,3⟩,[3,2,1],reaches_of_replay hx,hcalls,
    hop,continues_of_replayFrom .nil hz,hdone,List.mem_singleton.mpr rfl,hret,by decide⟩

theorem writeBack_pinned_run :
    ∃ s₁ s₂ later op, later.length = 2 ∧ RunWhere (Call.Spares [.retracting]) s₁ later s₂ ∧
      op.transfers = [⟨3,3⟩] ∧ Kept op s₁ s₂ := by
  obtain ⟨x,hx,y,hy,hhist,z,hz,hdone,hlen⟩ :
      ∃ x, replay (smallConfig 4 4) id retractedCalls = some x ∧
        ∃ y, replayCall x (.plan [[1]]) = some y ∧
          y.1 = (.plan [[1]],.plan retractPlan) :: x.1 ∧
          ∃ z, replayFrom [.advance [.finish [1]],.plan [[1]]] ([],y.2) = some z ∧
            (∀ call ∈ z.1, ¬call.1.Completes retractOp.opId) ∧ z.1.length = 2 := by
    decide +kernel
  have hcalls := calls_of_replayCall_eq hy hhist
  have hop : retractOp ∈ retractPlan.writeBack := List.mem_singleton.mpr rfl
  have hspare : ∀ calls : List Call, (∀ c ∈ calls, c.hasAbort = false) → ∀ c ∈ calls,
      ∀ s, c.Spares [.retracting] s := fun calls h c hc => spares_of_hasAbort (h c hc)
  have hbefore := runWhere_of_replayFrom (hspare retractedCalls (by decide)) .nil hx
  have hafter := runWhere_of_replayFrom
    (hspare [.advance [.finish [1]],.plan [[1]]] (by decide)) .nil hz
  exact ⟨y.2,z.2,z.1,retractOp,hlen,hafter,rfl,(writeBack_pinned hbefore hcalls hop hafter hdone).1⟩

end FluxServe
