import FluxServe.Scheduler.EventsProof
import FluxServe.Scheduler.Frames

namespace FluxServe

open KVPrefixCache

variable {s s' : Scheduler} {r : Request} {f : ForwardState} {m : MatchResult}
  {l : LocalKVAllocator} {retained : LocalKVAllocator → RequestState}

/-- A retract the scheduler has made room for. -/
structure RetractOffer (s : Scheduler) (r : Request) (m : MatchResult) (l : LocalKVAllocator) :
    Prop where
  matched : ∃ x, Matched (r.fullPagedTokens s.config.pageSize true) s.kv.tree m x
  room : pagesOf .device s.kv.tree (missing .host s.kv.tree m) ≤ s.kv.availablePages .host
  retained : Retained s.kv s.retractions r m.device l

/-- The pages `scheduleRetract` moves into the tree and those it keeps. -/
structure Divides (s : Scheduler) (r : Request) (f : ForwardState) (l : LocalKVAllocator)
    (T : List Token) (count : Nat) : Prop where
  tokens : T <+: r.fullPagedTokens s.config.pageSize true
  path : pathTokens s.kv.tree f.deviceNodeRef <+: T
  pages : T.length = ((pathPages .device s.kv.tree f.deviceNodeRef).length+count)*s.config.pageSize
  count : count ≤ l.pages.length

/-- The clamp keeps the count of pages to move between none and all of the local ones. -/
theorem divides_clamp (h : Sound s) (hr : r ∈ s.requests) (hf : r.state.forward? = some f) (l : LocalKVAllocator) :
    ∃ count, Divides s r f l ((r.fullPagedTokens s.config.pageSize true).take
      ((pathPages .device s.kv.tree f.deviceNodeRef ++ l.pages).length*s.config.pageSize)) count := by
  have hps := h.kv.inv.tree.pageSize_pos
  rw [h.pageSize] at hps
  have hd : f.deviceNodeRef ∈ refsOf s.requests .device :=
    mem_refsOf.mpr ⟨r,hr,deviceNodeRef_mem hf⟩
  have hlen := h.kv.pathPages_length hd
  have hpath := (h.requests r hr).path f hf
  rw [h.pageSize] at hlen hpath
  obtain ⟨k,hk⟩ := dvd_fullPagedTokens r s.config.pageSize true
  have hle : (pathPages .device s.kv.tree f.deviceNodeRef).length ≤ k := by
    have := hpath.length_le
    rw [← hlen,hk,mul_comm] at this
    exact Nat.le_of_mul_le_mul_left this hps
  refine ⟨min k ((pathPages .device s.kv.tree f.deviceNodeRef).length+l.pages.length)-
    (pathPages .device s.kv.tree f.deviceNodeRef).length,List.take_prefix _ _,?_,?_,by omega⟩
  · rw [List.prefix_take_iff]
    refine ⟨hpath,?_⟩
    rw [← hlen,List.length_append]
    exact Nat.mul_le_mul_right _ (by omega)
  · rw [List.length_take,hk,List.length_append,mul_comm s.config.pageSize,
      Nat.min_comm,Nat.mul_min_mul_right]
    congr 1
    omega

theorem Matched.mono {T T' : List Token} {tree : Heap TreeNode} {x : NodeId}
    (h : Matched T tree m x) (hp : T <+: T') : Matched T' tree m x :=
  ⟨h.live,h.tokens.trans hp,h.stop⟩

/-- The cache's part of `scheduleRetract`, once the pages are divided. -/
def retractPath (T : List Token) (prefixPages taken : List PageId) : KV (Option MatchResult) := do
  let _ ← insert .device T prefixPages taken
  let m ← matchTokens T .stateRecovery
  lock .host m.host
  let deviceMatched ← depthInPage m.device
  let hostMatched ← depthInPage m.host
  let ensured ← ensureCapacityByEvict .host (max 0 ((deviceMatched : Int)-hostMatched))
  unlock .host m.host
  return if ensured then some m else none

/-- The path has been moved into the tree; if the host cannot take it, it is too small. -/
structure PathMoved (refs : ResourceType → Multiset NodeId) (owned : ResourceType → Multiset PageId)
    (T : List Token) (o : Option MatchResult) (kv kv' : KVPrefixCache) : Prop where
  kvInv : KVInv kv' refs owned
  change : Change refs [] kv kv'
  room : ∀ m, o = some m → (∃ x, Matched T kv'.tree m x) ∧ pathTokens kv'.tree m.device = T ∧
    pagesOf .device kv'.tree (missing .host kv'.tree m) ≤ kv'.availablePages .host
  full : o = none → ∃ m kvl, (∃ x, Matched T kv'.tree m x) ∧ Calm kv' kvl ∧
    KVInv kvl (pin .host m.host refs) owned ∧
    (kvl.capacity .host : Int) < ((nodeDepth kv'.tree m.device/kv'.pageSize : Nat) : Int)-
      (nodeDepth kv'.tree m.host/kv'.pageSize : Nat)

theorem retractPath_returns {refs : ResourceType → Multiset NodeId}
    {owned : ResourceType → Multiset PageId} {kv : KVPrefixCache} {d : NodeId} {T : List Token}
    {taken : List PageId} (hinv : KVInv kv refs (own .device taken owned)) (hd : d ∈ refs .device)
    (hdT : pathTokens kv.tree d <+: T)
    (hlen : ((pathPages .device kv.tree d).length+taken.length)*kv.pageSize = T.length) :
    Returns (retractPath T (pathPages .device kv.tree d) taken) kv (fun o kv' =>
      PathMoved refs owned T o kv kv') := by
  have hdvd : kv.pageSize ∣ T.length := hlen ▸ Nat.dvd_mul_left _ _
  unfold Returns retractPath
  refine (insert_returns hinv hd hdT (hinv.pathPages_length hd) hdvd hlen).bind ?_
  rintro _ kv₁ ⟨hk₁,he₁,hins⟩
  have hch₁ : Change refs [] kv kv₁ := Change.of_inserted he₁ hins hinv
  obtain ⟨nl,hnl⟩ := hins.live
  have hcov : Covers .device kv₁.tree T :=
    hins.tokens ▸ covers_of_resident hk₁.inv.tree hnl hins.resident
  refine (matchCovered_returns hk₁ (he₁.pageSize.symm ▸ hdvd) hcov).bind ?_
  rintro m kv₂ ⟨hk₂,hch₂,⟨x,hm⟩,htok⟩
  have hT₂ := hk₂.inv.tree
  obtain ⟨nh,hnh⟩ : ∃ n, kv₂.tree.read m.host = some n := (hm.stop .host).live
  obtain ⟨nd,hnd⟩ : ∃ n, kv₂.tree.read m.device = some n := (hm.stop .device).live
  refine (lock_returns hk₂ hnh (hm.path hT₂ .host)).bind ?_
  rintro _ kv₃ ⟨hk₃,hc₃,_⟩
  have hm₃ := hm.congr hc₃.agree
  obtain ⟨nd₃,hnd₃,_⟩ := (hc₃.agree .host).read hnd
  obtain ⟨nh₃,hnh₃,_⟩ := (hc₃.agree .host).read hnh
  refine depthInPage_bind hnd₃ (depthInPage_bind hnh₃ ?_)
  refine (ensureMatched_returns (t := .host) hk₃ hm₃ (by simp [MatchResult.last]) _).bind ?_
  rintro ensured kv₄ ⟨h₄,_,hcap,hens⟩
  refine (unlock_returns h₄.kvInv).bind ?_
  rintro _ kv₅ ⟨hk₅,hc₅⟩
  obtain ⟨x₅,hm₅⟩ := (h₄.calm hc₅ (le_pin _ _ _) hk₅).matched
  have hdepth : ∀ u, nodeDepth kv₅.tree (m.last u) = nodeDepth kv₃.tree (m.last u) :=
    fun u => ((hc₅.agree u).nodeDepth_eq _).trans (h₄.depth u)
  have hps : kv₅.pageSize = kv₃.pageSize := hc₅.pageSize.trans h₄.change.evolves.pageSize
  have hchange : Change refs [] kv kv₅ :=
    ((hch₁.trans hch₂).trans (Change.of_calm hc₃ refs)).trans
      ((h₄.change.mono (le_pin _ _ _)).calm_right hc₅)
  cases ensured with
  | true =>
    refine ⟨hk₅,hchange,?_,(fun hno => by cases hno)⟩
    rintro _ ⟨⟩
    refine ⟨⟨x₅,hm₅⟩,hm₅.pathTokens_eq (t := .device) hk₅.inv.tree ?_,?_⟩
    · rw [hdepth .device,(hc₃.agree .device).nodeDepth_eq,← htok,hT₂.pathTokens_length hnd]
      exact (nodeDepth_of_read hnd).ge
    · have hav := h₄.available.mp rfl
      have hpages := pagesOf_missing hm₅ hk₅ .host
      rw [hdepth,hdepth,hps] at hpages
      simp only [ResourceType.other,MatchResult.last] at hpages
      rw [hc₅.availablePages_eq .host,hpages]
      omega
  | false =>
    refine ⟨hk₅,hchange,(fun _ hsome => by cases hsome),fun _ => ⟨m,kv₄,⟨x₅,hm₅⟩,calm_symm hc₅,
      h₄.kvInv,?_⟩⟩
    have hno : ¬max 0 (((nodeDepth kv₃.tree m.device/kv₃.pageSize : Nat) : Int)-
        (nodeDepth kv₃.tree m.host/kv₃.pageSize : Nat)) ≤ kv₃.capacity .host :=
      fun hle => absurd (hens.mpr hle) (by decide)
    have hdd := hdepth .device
    have hdh := hdepth .host
    simp only [MatchResult.last] at hdd hdh
    rw [hcap,hdd,hdh,hps]
    omega

/-- What `scheduleRetract` has done: the request lost the pages it moved into the tree. -/
structure Scheduled (s : Scheduler) (r : Request) (retained : LocalKVAllocator → RequestState)
    (l : LocalKVAllocator) (o : Option MatchResult) (s' : Scheduler) : Prop where
  steps : ∃ ls, Steps s ls s' ∧ ∀ ℓ ∈ ls, ℓ.isInternal
  found : { r with state := retained l } ∈ s'.requests
  offer : ∀ m, o = some m → RetractOffer s' { r with state := retained l } m l
  full : o = none → HostFull s' { r with state := retained l }
  becomes : Becomes r { r with state := retained l } s s'
  shared : ∃ f l₀, r.state.forward? = some f ∧ f.localKVAllocator = some l₀ ∧
    l.tailPageAvailableTokens = l₀.tailPageAvailableTokens ∧
    (o.isSome → s'.retractions.lookup r.id =
      some (pathPages .device s.kv.tree f.deviceNodeRef ++ l₀.pages))

theorem Move.found' {st' : RequestState} {fresh : List NodeId} (h : Move r st' fresh s s') :
    { r with state := st' } ∈ s'.requests := by
  rw [h.requests]
  exact List.mem_map.mpr ⟨r,h.found,if_pos rfl⟩

theorem scheduleRetract_runs (h : Sound s) (hr : r ∈ s.requests) (hf : r.state.forward? = some f)
    (hret : ∀ l, (retained l).forward? = some { f with localKVAllocator := some l }) :
    Runs (scheduleRetract r f retained) s (fun o s' => ∃ l, Scheduled s r retained l o s')
      (fun e s' => s' = s ∧ e = .undefined .nullLocalAllocator ∧ f.localKVAllocator = none) := by
  have hsplit := h.split hr
  have hd : f.deviceNodeRef ∈ hold (fun t => r.state.nodeRefs t)
      (refsOf (others r.id s.requests)) .device := mem_hold (deviceNodeRef_mem hf)
  obtain ⟨⟨n,hn⟩,hres⟩ := (hsplit.inv.tier .device).pinned hd
  unfold scheduleRetract
  rw [runs_bind,runs_get]
  refine onKV_bind ?_
  rw [← bind_pure (devicePagesFromRoot f.deviceNodeRef)]
  refine devicePagesFromRoot_bind hn hres ?_
  rw [runs_pure,setKV_self]
  refine onKV_bind ?_
  unfold occupiedPages
  refine devicePagesFromRoot_bind hn hres ?_
  cases hl : f.localKVAllocator with
  | none => exact ⟨rfl,rfl,rfl⟩
  | some l =>
    dsimp only
    rw [runs_pure,setKV_self]
    refine takeLocal_runs (fun hno => ⟨rfl,rfl,hl ▸ hno⟩) fun l' hl' => ?_
    rw [hl] at hl'
    cases hl'
    obtain ⟨count,hdiv⟩ := divides_clamp h hr hf l
    generalize (r.fullPagedTokens s.config.pageSize true).take
      ((pathPages .device s.kv.tree f.deviceNodeRef ++ l.pages).length*s.config.pageSize) = T
      at hdiv ⊢
    have hps := h.kv.inv.tree.pageSize_pos
    rw [h.pageSize] at hps
    have hcount : ((T.length/s.config.pageSize : Nat) : Int)-
        (pathPages .device s.kv.tree f.deviceNodeRef).length = count := by
      rw [hdiv.pages,Nat.mul_div_cancel _ hps]
      omega
    rw [hcount]
    refine onKV_bind ?_
    have hrange : ¬((count : Int) < 0 ∨ (l.pages.length : Int) < count) := by
      have := hdiv.count
      omega
    rw [takeFirst,if_neg hrange,runs_pure,setKV_self,Int.toNat_natCast]
    dsimp only
    rw [runs_bind,runs_setState]
    let l₁ : LocalKVAllocator := { l with pages := l.pages.drop count }
    have hown : KVInv s.kv (hold (fun t => r.state.nodeRefs t) (refsOf (others r.id s.requests)))
        (own .device (l.pages.take count)
          (own .device (l.pages.drop count) (ownedOf (others r.id s.requests)))) := by
      rw [← own_append,List.take_append_drop]
      rw [localAllocatorPages_of_forward hf,hl] at hsplit
      exact hsplit
    have hlen : ((pathPages .device s.kv.tree f.deviceNodeRef).length+(l.pages.take count).length)*
        s.kv.pageSize = T.length := by
      rw [List.length_take,Nat.min_eq_left hdiv.count,h.pageSize,hdiv.pages]
    refine onKV_bind ?_
    refine (retractPath_returns hown hd hdiv.path hlen).runs fun o kv₁ hmoved => ?_
    have hmove : Move r (retained l₁) [] s ((s.withState r.id (retained l₁)).setKV kv₁) := by
      refine h.forward_move hr hf (hret l₁) rfl rfl hmoved.kvInv hmoved.change ?_ rfl rfl rfl rfl
      rintro l' ⟨⟩
      exact (h.requests r hr).tail l (by rw [local_of_forward hf,hl])
    have hps₁ : kv₁.pageSize = s.config.pageSize := hmoved.change.evolves.pageSize.trans h.pageSize
    have hrefs : refsOf (s.withState r.id (retained l₁)).requests =
        hold (fun t => r.state.nodeRefs t) (refsOf (others r.id s.requests)) := by
      rw [refsOf_perm (withState_perm h.ids hr _),refsOf_cons]
      funext t
      unfold hold
      dsimp only
      rw [nodeRefs_of_forward hf,nodeRefs_of_forward (hret l₁)]
    have howned : ownedOf (s.withState r.id (retained l₁)).requests =
        own .device (l.pages.drop count) (ownedOf (others r.id s.requests)) := by
      rw [ownedOf_perm (withState_perm h.ids hr _),ownedOf_cons,localAllocatorPages_of_forward (hret l₁)]
      rfl
    have hsteps := Steps.single (.forward (Or.inr ⟨f,hf⟩) (hret l₁) hmove (loadsFrom_nil _))
    cases o with
    | none =>
      refine ⟨l₁,⟨⟨_,hsteps,by simp [Label.isInternal]⟩,hmove.found',(fun m hm => by cases hm),
        fun _ => ?_,hmove.becomes h,f,l,hf,hl,rfl,(fun hno => by cases hno)⟩⟩
      obtain ⟨m,kvl,⟨x,hm⟩,hcalm,hkl,hcap⟩ := hmoved.full rfl
      refine ⟨m,kvl,⟨x,hm.mono hdiv.tokens⟩,hcalm,?_,?_⟩
      · exact hkl.congr (fun t => by rw [setKV_requests,hrefs]) (fun t => by rw [setKV_requests,howned])
      · rw [hps₁] at hcap
        exact hcap
    | some m =>
      have hrecord : Step ((s.withState r.id (retained l₁)).setKV kv₁) (.internal [])
          { (s.withState r.id (retained l₁)).setKV kv₁ with
            retractions := (r.id,pathPages .device s.kv.tree f.deviceNodeRef ++ l.pages) ::
              s.retractions } :=
        .record (r := { r with state := retained l₁ }) _ hmove.found' (hret l₁)
      refine ⟨l₁,⟨⟨_,hsteps.append (Steps.single hrecord),by
        simp [Label.isInternal]⟩,hmove.found',?_,(fun hno => by cases hno),
        (hmove.becomes h).congr (hmove.sound.of_eq rfl rfl rfl) rfl rfl rfl,f,l,hf,hl,rfl,fun _ =>
          List.lookup_cons_self⟩⟩
      rintro _ ⟨⟩
      obtain ⟨⟨x,hm⟩,htok,hroom⟩ := hmoved.room m rfl
      refine ⟨⟨x,hm.mono hdiv.tokens⟩,hroom,?_,_,List.lookup_cons_self,?_,?_⟩
      · change pathTokens kv₁.tree m.device <+: r.fullPagedTokens kv₁.pageSize true
        rw [htok,hps₁]
        exact hdiv.tokens
      · change (pathTokens kv₁.tree m.device).length/kv₁.pageSize ≤ _
        rw [htok,hps₁,hdiv.pages,Nat.mul_div_cancel _ hps,List.length_append]
        have := hdiv.count
        omega
      · change List.drop ((pathTokens kv₁.tree m.device).length/kv₁.pageSize) _ = l.pages.drop count
        rw [htok,hps₁,hdiv.pages,Nat.mul_div_cancel _ hps,List.drop_append]
        rw [List.drop_eq_nil_of_le (by omega),List.nil_append]
        congr 1
        omega

/-- What is retained stays so while the host node is live. -/
theorem Retained.evolves {kv kv' : KVPrefixCache} {rs : List (RequestId × List PageId)} {h : NodeId}
    {refs : ResourceType → Multiset NodeId} (hret : Retained kv rs r h l) (he : Evolves refs kv kv')
    (hn : ∃ n, kv.tree.read h = some n) (hn' : ∃ n, kv'.tree.read h = some n) :
    Retained kv' rs r h l := by
  obtain ⟨n,hn⟩ := hn
  obtain ⟨n',hn'⟩ := hn'
  obtain ⟨hpath,hocc⟩ := hret
  have htok := he.tokens hn hn'
  refine ⟨?_,?_⟩
  · rw [htok,he.pageSize]
    exact hpath
  · rw [htok,he.pageSize]
    exact hocc

/-- What a retract leads to. -/
structure Retracts (s : Scheduler) (r : Request) (h : NodeId) (l : LocalKVAllocator)
    (d : Option NodeId) (fresh : List NodeId) (pairs : List TransferPair) (s' : Scheduler) :
    Prop where
  move : Move r (.retracting d h l pairs) fresh s s'
  copies : CopiesTo s'.kv h fresh pairs
  side : d = some h ∨ d = none ∧ fresh = []
  retained : Retained s'.kv s'.retractions r h l

theorem applyRetract_returns (h : Sound s) (hr : r ∈ s.requests) (hf : r.state.forward? = some f)
    (hl : f.localKVAllocator = some l) (ho : RetractOffer s r m l) :
    Returns (applyRetract r f m) s
      (fun _ s' => ∃ d fresh pairs, Retracts s r m.device l d fresh pairs s') := by
  have hsplit := h.split hr
  rw [localAllocatorPages_of_forward hf,hl] at hsplit
  obtain ⟨x,hm⟩ := ho.matched
  obtain ⟨nd,hnd⟩ : ∃ n, s.kv.tree.read m.device = some n := (hm.stop .device).live
  unfold Returns applyRetract
  refine onKV_bind ?_
  rw [takeLocal,hl]
  change Runs _ s _ _
  refine onKV_bind ?_
  -- Whatever the match needs of the request's own references goes with the old state.
  have hrest : ∀ (d : Option NodeId) (a : ResourceType → List NodeId) fresh pairs kv₁,
      KVInv kv₁ (hold a (hold (fun t => r.state.nodeRefs t) (refsOf (others r.id s.requests))))
        (own .device l.pages (ownedOf (others r.id s.requests))) →
      Change (hold (fun t => r.state.nodeRefs t) (refsOf (others r.id s.requests))) fresh s.kv kv₁ →
      CopiesTo kv₁ m.device fresh pairs →
      (∀ t, a t = (RequestState.retracting d m.device l pairs).nodeRefs t) →
      (d = some m.device ∨ d = none ∧ fresh = []) →
      Runs (do
        dropForwardState { f with localKVAllocator := none }
        setState r.id (.retracting d m.device l pairs)) (s.setKV kv₁)
        (fun _ s' => ∃ d fresh pairs, Retracts s r m.device l d fresh pairs s')
        (fun _ _ => False) := by
    intro d a fresh pairs kv₁ hk₁ hch₁ hcop ha hside
    have hdrop : KVInv kv₁ (hold (nodePair (f.hostNodeRef,f.deviceNodeRef))
        (hold a (refsOf (others r.id s.requests))))
        (own .device [] (own .device l.pages (ownedOf (others r.id s.requests)))) := by
      refine hk₁.congr (fun t => ?_) (fun t => by rw [own_nil])
      unfold hold
      dsimp only
      rw [nodeRefs_of_forward hf,add_left_comm]
    refine (dropForwardState_returns (s := s.setKV kv₁) (f := { f with localKVAllocator := none })
      hdrop).bind ?_
    rintro _ s₂ ⟨hk₂,hrel,hb⟩
    rw [runs_setState]
    have hrel' : Releases (refsOf (others r.id s.requests)) kv₁ s₂.kv :=
      ⟨hrel.evolves.mono (le_hold _ _),hrel.agree,hrel.returned⟩
    have hchange := hrel'.change_right (hch₁.mono (le_hold _ _))
    have hmove : Move r (.retracting d m.device l pairs) fresh s
        (s₂.withState r.id (.retracting d m.device l pairs)) := by
      refine Move.of_kv h hr hb.config ?_ hb.tracker hb.retractions
        (hk₂.congr (fun t => ?_) (fun t => rfl)) hchange ⟨by simp [RequestState.forward?],?_⟩
      · simp only [Scheduler.withState,Scheduler.updateRequest,hb.requests,setKV_requests]
      · unfold hold
        rw [ha]
      · rintro l' ⟨⟩
        exact (h.requests r hr).tail l (by rw [local_of_forward hf,hl])
    refine ⟨d,fresh,pairs,hmove,hrel'.copiesTo hcop,hside,?_⟩
    have hlive : m.device ∈ refsOf (s₂.withState r.id (.retracting d m.device l pairs)).requests
        .host := mem_refsOf.mpr ⟨_,hmove.found',by simp [RequestState.nodeRefs]⟩
    have hret := ho.retained.evolves hchange.evolves ⟨nd,hnd⟩ (hmove.sound.kv.live hlive)
    have hrs : s₂.retractions = s.retractions := hb.retractions
    rw [← hrs] at hret
    exact hret
  refine (prepareRetract_runs hsplit hm).imp ?_ ?_
  · rintro ⟨d,pairs⟩ kv₁ (⟨nodes,hd,hw⟩ | ⟨he,hk₁,hch₁⟩)
    · cases hd
      exact hrest _ _ nodes pairs kv₁ hw.kvInv hw.change ⟨hw.pairs,hw.path⟩
        (fun t => by cases t <;> rfl) (Or.inl rfl)
    · cases he
      exact hrest none _ [] [] kv₁ hk₁ hch₁ ⟨rfl,by simp⟩ (fun t => by cases t <;> rfl)
        (Or.inr ⟨rfl,rfl⟩)
  · rintro e kv₁ ⟨_,_,_,hfew⟩
    exact absurd ho.room (by omega)

theorem others_withState (id : RequestId) (st : RequestState) :
    others id (s.withState id st).requests = others id s.requests := by
  unfold others Scheduler.withState Scheduler.updateRequest
  induction s.requests with
  | nil => rfl
  | cons x rs ih =>
    by_cases hx : x.id = id
    · simpa [hx] using ih
    · simpa [hx] using ih

/-- Two moves of one request, of which the first brings no new host pages. -/
theorem Move.trans {st₁ st₂ : RequestState} {fresh : List NodeId} {s₁ s₂ : Scheduler}
    (h : Move r st₁ [] s s₁) (h' : Move { r with state := st₁ } st₂ fresh s₁ s₂) :
    Move r st₂ fresh s s₂ := by
  refine ⟨h.found,h'.sound,h'.config.trans h.config,?_,h'.tracker.trans h.tracker,
    h'.retractions.trans h.retractions,?_⟩
  · rw [h'.requests]
    simp only [Scheduler.withState,Scheduler.updateRequest,h.requests,List.map_map]
    refine List.map_congr_left fun x _ => ?_
    by_cases hx : x.id = r.id <;> simp [hx]
  · have hc := h'.change
    have ho : others r.id s₁.requests = others r.id s.requests := by
      rw [h.requests]
      exact others_withState r.id st₁
    rw [ho] at hc
    exact h.change.trans hc

theorem findRequest_of_mem (hnd : (s.requests.map Request.id).Nodup) (hr : r ∈ s.requests) :
    s.findRequest r.id = some r := by
  unfold Scheduler.findRequest
  cases hf : s.requests.find? fun x => x.id = r.id with
  | none => exact absurd (List.find?_eq_none.mp hf r hr) (by simp)
  | some x =>
    have hx : x.id = r.id := by simpa using List.find?_some hf
    rw [List.inj_on_of_nodup_map hnd (List.mem_of_find?_eq_some hf) hr hx]

theorem getRequest_bind {α : Type} {g : Request → Sched α} {Q : α → Scheduler → Prop}
    {E : Fault → Scheduler → Prop} (hnd : (s.requests.map Request.id).Nodup) (hr : r ∈ s.requests)
    (h : Runs (g r) s Q E) : Runs (getRequest r.id >>= g) s Q E := by
  unfold getRequest
  rw [bind_assoc,runs_bind,runs_get,findRequest_of_mem hnd hr]
  exact h

/-- A retract that went through leaves the request with its local pages under a host node. -/
structure KeptBack (s : Scheduler) (r : Request) (h : NodeId) (l : LocalKVAllocator) (s' : Scheduler) :
    Prop where
  becomes : ∃ st', (st' = .retracted h l ∨ ∃ d pairs, st' = .retracting d h l pairs) ∧
    Becomes r { r with state := st' } s s'
  retained : Retained s'.kv s'.retractions r h l
  retractions : s'.retractions = s.retractions

theorem applyRetractAndGenerateOp_returns (h : Sound s) (hr : r ∈ s.requests)
    (hf : r.state.forward? = some f) (hl : f.localKVAllocator = some l)
    (ho : RetractOffer s r m l) :
    Returns (applyRetractAndGenerateOp r m) s (fun o s' => KeptBack s r m.device l s' ∧
      ((o = none ∧ Step s (.internal []) s') ∨ ∃ op, o = some op ∧ Step s (.issue op) s')) := by
  unfold Returns applyRetractAndGenerateOp
  rw [getForward,hf,pure_bind]
  refine (applyRetract_returns h hr hf hl ho).bind fun _ s₁ ⟨d,fresh,pairs,hret⟩ => ?_
  refine getRequest_bind (r := { r with state := .retracting d m.device l pairs })
    hret.move.sound.ids hret.move.found' ?_
  cases pairs with
  | nil =>
    have hfresh : fresh = [] := by
      rcases hret.side with rfl | ⟨_,rfl⟩
      · have hpin : ∀ t, m.device ∈ refsOf s₁.requests t := fun t =>
          mem_refsOf.mpr ⟨_,hret.move.found',by cases t <;> simp [RequestState.nodeRefs]⟩
        refine pairsOf_eq_nil hret.move.sound.kv (fun j hj t => ?_) hret.copies.pairs.symm
        exact ((hret.move.sound.kv.inv.tier t).pinned (hpin t)).2 j (hret.copies.path hj)
      · rfl
    subst hfresh
    refine Runs.bind (R := fun _ s₂ =>
      Move { r with state := .retracting d m.device l [] } (.retracted m.device l) [] s₁ s₂)
      ((writeBackDoneEvent_runs hret.move.sound hret.move.found').imp ?_ ?_) ?_
    · rintro _ s₂ (⟨d',n,hst,_⟩ | ⟨d',n,l',pairs,hst,hm⟩)
      · cases hst
      · cases hst
        exact hm
    · rintro e s₂ ⟨_,_,_,hno⟩
      exact hno _ _ _ _ rfl
    · intro _ s₂ hm₂
      have hretained : Retained s₂.kv s₂.retractions r m.device l := ?_
      · exact ⟨⟨⟨_,Or.inl rfl,(hret.move.trans hm₂).becomes h⟩,hretained,
          (hret.move.trans hm₂).retractions⟩,Or.inl ⟨rfl,.retractDone hf (hret.move.trans hm₂) hretained⟩⟩
      have hlive : m.device ∈ refsOf s₁.requests .host :=
        mem_refsOf.mpr ⟨_,hret.move.found',by simp [RequestState.nodeRefs]⟩
      have hlive₂ : m.device ∈ refsOf s₂.requests .host :=
        mem_refsOf.mpr ⟨_,hm₂.found',by simp [RequestState.nodeRefs]⟩
      rw [hm₂.retractions]
      exact hret.retained.evolves hm₂.change.evolves (hret.move.sound.kv.live hlive)
        (hm₂.sound.kv.live hlive₂)
  | cons p ps =>
    have hd : d = some m.device := by
      rcases hret.side with hd | ⟨_,rfl⟩
      · exact hd
      · exact absurd hret.copies.pairs (by simp [pairsOf])
    subst hd
    have hissued : Sound (s₁.issued ⟨s₁.kv.nextOpId % 2^32,p :: ps,true⟩ r.id) :=
      hret.move.sound.issued _ _
    exact ⟨⟨⟨_,Or.inr ⟨some m.device,p :: ps,rfl⟩,(hret.move.becomes h).congr hissued rfl rfl rfl⟩,
      ⟨hret.retained.path,hret.retained.occupied⟩,hret.move.retractions⟩,
      Or.inr ⟨_,rfl,.retractIssue hf rfl hret.move hret.copies hret.retained⟩⟩

/-- The victim of a retract is over, or retained with the pages it occupied. -/
inductive Retired (s : Scheduler) (r : Request) (s' : Scheduler) : Prop
  | left (becomes : Becomes r { r with state := .finished } s s')
  | kept {f : ForwardState} {l₀ l : LocalKVAllocator} {h : NodeId} {st' : RequestState}
      (before : r.state.forward? = some f) (localAllocator : f.localKVAllocator = some l₀)
      (after : st' = .retracted h l ∨ ∃ d pairs, st' = .retracting d h l pairs)
      (becomes : Becomes r { r with state := st' } s s')
      (retained : Retained s'.kv s'.retractions r h l)
      (recorded : s'.retractions.lookup r.id =
        some (pathPages .device s.kv.tree f.deviceNodeRef ++ l₀.pages))
      (tail : l.tailPageAvailableTokens = l₀.tailPageAvailableTokens)

/-- What becomes of the victim of a retract. -/
def RetractRun (s : Scheduler) (r : Request) (o : Option WriteBackOperation) (s' : Scheduler) : Prop :=
  Retired s r s' ∧ ∃ s₁ ls ℓ, Steps s ls s₁ ∧ (∀ ℓ ∈ ls, ℓ.isInternal) ∧ Step s₁ ℓ s' ∧
    ((ℓ.isInternal ∧ o = none) ∨ (∃ op, ℓ = .issue op ∧ o = some op) ∨ ℓ = .giveUp r.id ∧ o = none)

/-- A retract either goes through or ends in giving the request up. -/
theorem newRetractOperation_runs (h : Sound s) (hr : r ∈ s.requests) :
    Runs (newRetractOperation r.id) s
      (RetractRun s r)
      (fun e s' => Stops (fun _ => False) s e s' ∧
        ((∃ f, r.state.forward? = some f ∧ f.localKVAllocator = none) ∧ (∃ u, e = .undefined u) ∨
          r.state.isDecodable = false)) := by
  have hsched : ∀ f retained, r.state.forward? = some f →
      (∀ l, (retained l).forward? = some { f with localKVAllocator := some l }) →
      Runs (scheduleRetract r f retained >>= finishRetract r.id) s
        (RetractRun s r)
        (fun e s' => Stops (fun _ => False) s e s' ∧
          ((∃ f, r.state.forward? = some f ∧ f.localKVAllocator = none) ∧ (∃ u, e = .undefined u) ∨
            r.state.isDecodable = false)) := by
    intro f retained hf hret
    refine Runs.bind ((scheduleRetract_runs h hr hf hret).imp (fun _ _ hs => hs) ?_) ?_
    · rintro e s' ⟨rfl,rfl,hno⟩
      exact ⟨(by decide : Undefined.nullLocalAllocator ≠ .unlockNullResource),
        Or.inl ⟨⟨f,hf,hno⟩,_,rfl⟩⟩
    · rintro o s₁ ⟨l,⟨ls,hs,hls⟩,hfound,hoffer,hfull,hbec,f₀,l₀,hf₀,hl₀,htail,hrec⟩
      have hsound := hs.sound h
      refine getRequest_bind (r := { r with state := retained l }) hsound.ids hfound ?_
      cases o with
      | some m =>
        refine (applyRetractAndGenerateOp_returns hsound hfound (hret l) rfl (hoffer m rfl)).runs ?_
        rintro o s' ⟨⟨⟨st',hst',hbec'⟩,hretained,hsame⟩,hstep⟩
        have hretired : Retired s r s' := .kept hf₀ hl₀ hst' (hbec.trans hbec')
          ⟨hretained.path,hretained.occupied⟩ (hsame ▸ hrec rfl) htail
        rcases hstep with ⟨rfl,hstep⟩ | ⟨op,rfl,hstep⟩
        · exact ⟨hretired,s₁,ls,_,hs,hls,hstep,Or.inl ⟨trivial,rfl⟩⟩
        · exact ⟨hretired,s₁,ls,_,hs,hls,hstep,Or.inr (Or.inl ⟨op,rfl,rfl⟩)⟩
      | none =>
        have hfw : (retained l).forward? ≠ none := by simp [hret l]
        refine Runs.bind ((abortEvent_runs hsound hfound).imp (fun _ _ hm => hm) ?_) ?_
        · rintro e s' ⟨_,_,d,n,hst⟩
          exact absurd (show (retained l).forward? = none by rw [show retained l = _ from hst]; rfl) hfw
        · rintro _ s' ⟨_,hm | ⟨hst,_⟩⟩
          · exact ⟨.left (hbec.trans (hm.becomes hsound)),s₁,ls,_,hs,hls,.gaveUp (hret l) (hfull rfl) hm,
              Or.inr (Or.inr ⟨rfl,rfl⟩)⟩
          · exact absurd (show (retained l).forward? = none by rw [show retained l = _ from hst]; rfl)
              hfw
  unfold newRetractOperation
  refine getRequest_bind h.ids hr ?_
  cases hst : r.state with
  | prefillDone f w n =>
    have hrun := hsched f (fun l => .prefillDone { f with localKVAllocator := some l } w n)
      (by rw [hst]; rfl) fun _ => rfl
    rw [hst] at hrun
    exact hrun
  | decoding f n =>
    have hrun := hsched f (fun l => .decoding { f with localKVAllocator := some l } n)
      (by rw [hst]; rfl) fun _ => rfl
    rw [hst] at hrun
    exact hrun
  | submitted | prefilling | draining | writingBack | retracting | retracted | finished =>
    exact ⟨⟨[],.nil,by simp⟩,Or.inr rfl⟩

end FluxServe
