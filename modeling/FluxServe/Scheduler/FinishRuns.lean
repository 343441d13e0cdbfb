import FluxServe.Scheduler.BlockAligned

namespace FluxServe

open KVPrefixCache

variable {config : SchedulerConfig} {clock : Nat → Timestamp} {history : List (Call × Reply)}
  {s s' : Scheduler} {r x : Request} {f : ForwardState} {kv kv' : KVPrefixCache} {d : NodeId}
  {T : List Token} {prefixPages kept : List PageId} {l : Option LocalKVAllocator}
  {refs : ResourceType → Multiset NodeId} {owned : ResourceType → Multiset PageId}

/-- The pages of a local allocator, none where it was lost. -/
def localPages (l : Option LocalKVAllocator) : List PageId :=
  (l.map LocalKVAllocator.pages).getD []

section Insert

/-- The insertion comes back only if the local pages go round. -/
theorem insertFinished_fits (h : insertFinished T prefixPages l kv = .ok kept kv') :
    T.length/kv.pageSize ≤ prefixPages.length+(localPages l).length := by
  have hruns : Runs (insertFinished T prefixPages l) kv
      (fun _ _ => T.length/kv.pageSize ≤ prefixPages.length+(localPages l).length)
      (fun _ _ => True) := by
    unfold insertFinished
    rw [runs_bind,runs_get]
    cases l with
    | none =>
      dsimp only
      split
      · trivial
      · next hfew =>
        rw [runs_pure]
        omega
    | some l =>
      dsimp only
      split
      · rw [runs_bind,runs_unwinding]
        unfold takeFirst
        split
        · rw [throwException,runs_throw]
          exact runs_trivial _ _
        · next hfew =>
          rw [runs_pure]
          apply (runs_trivial _ _).imp ?_ fun _ _ _ => trivial
          intro _ _ _
          simp only [localPages,Option.map_some,Option.getD_some]
          omega
      · next hfew =>
        rw [runs_pure]
        omega
  exact hruns.of_ok h

/-- With enough local pages the first of them go into the tree, which then covers the tokens. -/
theorem insertFinished_returns (hinv : KVInv kv refs (own .device (localPages l) owned))
    (hd : d ∈ refs .device) (hdT : pathTokens kv.tree d <+: T)
    (hpre : prefixPages.length*kv.pageSize = (pathTokens kv.tree d).length)
    (hdvd : kv.pageSize ∣ T.length)
    (hfits : T.length/kv.pageSize ≤ prefixPages.length+(localPages l).length) :
    Returns (insertFinished T prefixPages l) kv (fun kept kv' =>
      kept = (localPages l).drop (T.length/kv.pageSize-prefixPages.length) ∧
      Covers .device kv'.tree T) := by
  have hT := hinv.inv.tree
  have hps := hT.pageSize_pos
  obtain ⟨k,hk⟩ := hdvd
  have hdiv : T.length/kv.pageSize = k := by rw [hk,Nat.mul_div_cancel_left k hps]
  have hle : prefixPages.length ≤ k := by
    have hlen := hdT.length_le
    rw [← hpre,hk,Nat.mul_comm kv.pageSize] at hlen
    exact Nat.le_of_mul_le_mul_right hlen hps
  rw [hdiv] at hfits ⊢
  have hsame : ¬(0 : Int) < (k : Int)-prefixPages.length → Covers .device kv.tree T := by
    intro hno
    obtain ⟨⟨n,hn⟩,hres⟩ := (hinv.inv.tier .device).pinned hd
    have hall : pathTokens kv.tree d = T := by
      apply hdT.eq_of_length
      rw [← hpre,hk,Nat.mul_comm]
      congr 1
      omega
    rw [← hall]
    exact covers_of_resident hT hn hres
  unfold Returns insertFinished
  rw [runs_bind,runs_get,hdiv]
  cases l with
  | none =>
    simp only [localPages,Option.map_none,Option.getD_none,List.length_nil] at hfits ⊢
    rw [if_neg (by omega)]
    exact ⟨(List.drop_nil).symm,hsame (by omega)⟩
  | some l =>
    simp only [localPages,Option.map_some,Option.getD_some] at hinv hfits ⊢
    by_cases hpos : (0 : Int) < (k : Int)-prefixPages.length
    · rw [if_pos hpos,runs_bind,runs_unwinding]
      unfold takeFirst
      rw [if_neg (by omega),runs_pure]
      have hcount : ((k : Int)-prefixPages.length).toNat = k-prefixPages.length := by omega
      rw [hcount]
      have hown : KVInv kv refs (own .device (l.pages.take (k-prefixPages.length))
          (own .device (l.pages.drop (k-prefixPages.length)) owned)) := by
        rw [← own_append,List.take_append_drop]
        exact hinv
      have hlen : (prefixPages.length+(l.pages.take (k-prefixPages.length)).length)*kv.pageSize =
          T.length := by
        rw [List.length_take,hk,Nat.mul_comm kv.pageSize]
        congr 1
        omega
      refine ((insert_returns hown hd hdT hpre ⟨k,hk⟩ hlen).unwinding _).bind
        fun res kv₁ ⟨hk₁,_,hins⟩ => ?_
      obtain ⟨n,hn⟩ := hins.live
      refine ⟨rfl,?_⟩
      rw [← hins.tokens]
      exact covers_of_resident hk₁.inv.tree hn hins.resident
    · rw [if_neg hpos]
      refine ⟨?_,hsame hpos⟩
      rw [show k-prefixPages.length = 0 by omega]
      rfl

end Insert

section Finish

/-- The whole pages of a request's tokens, without the last token. -/
def fullPages (s : Scheduler) (r : Request) : Nat :=
  (r.fullPagedTokens s.config.pageSize true).length/s.config.pageSize

/-- The pages a request occupies: those of its path, then its own. -/
def heldPages (s : Scheduler) (f : ForwardState) : List PageId :=
  pathPages .device s.kv.tree f.deviceNodeRef ++ localPages f.localKVAllocator

/-- A finish does what it is for: as many of the request's whole pages as it occupies are in the tree
under its tokens, taken from the front of its own pages, and the request is done or drains. -/
structure FinishesClean (s : Scheduler) (r : Request) (f : ForwardState) : Prop where
  moves : ∃ kept kv₁, finishInsert s r f = .ok kept kv₁ ∧
    kept = (localPages f.localKVAllocator).drop (min (fullPages s r) (heldPages s f).length-
      (pathPages .device s.kv.tree f.deviceNodeRef).length)
  ends : Returns (handleEvent (.finish r.id)) s fun _ s' =>
    Covers .device s'.kv.tree ((r.fullPagedTokens s.config.pageSize true).take
      (min (fullPages s r) (heldPages s f).length*s.config.pageSize)) ∧
    ∃ x ∈ s'.requests, x.id = r.id ∧
      (x.state = .finished ∨ ∃ pairs d h, x.state = .draining pairs d h)

/-- The event is `FinishEvent::apply` on a prefilled or a decoding request. -/
theorem handleFinish_eq (hs : Sound s) (hr : r ∈ s.requests) (hf : r.state.forward? = some f)
    (hst : r.state.isDecodable = true) :
    ∃ moved, moved.forward? = some { f with localKVAllocator := none } ∧
      handleEvent (.finish r.id) s = applyFinish r f moved s := by
  have hevent : handleEvent (.finish r.id) s = finishEvent r s :=
    onRequest_some (findRequest_of_mem hs.ids hr)
  rw [hevent]
  unfold finishEvent
  cases hstate : r.state with
  | prefillDone f' w n =>
    rw [hstate] at hf
    obtain rfl : f' = f := Option.some.inj hf
    exact ⟨_,rfl,rfl⟩
  | decoding f' n =>
    rw [hstate] at hf
    obtain rfl : f' = f := Option.some.inj hf
    exact ⟨_,rfl,rfl⟩
  | _ =>
    rw [hstate] at hst
    cases hst

/-- In every reachable state a finish does what it is for exactly where the request occupies all the
whole pages of its tokens. -/
theorem finish_clean_iff (h : Reaches config clock history s) (hr : r ∈ s.requests)
    (hf : r.state.forward? = some f) (hst : r.state.isDecodable = true) :
    FinishesClean s r f ↔ fullPages s r ≤ (heldPages s f).length := by
  have hs := h.sound
  have hsplit := hs.split hr
  rw [localAllocatorPages_of_forward hf] at hsplit
  have hps := hs.pageSize
  have hdvd := hps ▸ dvd_fullPagedTokens r s.config.pageSize true
  have hd : f.deviceNodeRef ∈ hold (fun t => r.state.nodeRefs t)
      (refsOf (others r.id s.requests)) .device := mem_hold (deviceNodeRef_mem hf)
  have hpath := (hs.requests r hr).path f hf
  rw [hps] at hpath
  obtain ⟨moved,hmoved,heq⟩ := handleFinish_eq hs hr hf hst
  have hruns := applyFinish_runs hs hr hf hmoved
  constructor
  · rintro ⟨⟨kept,kv₁,hinsert,_⟩,_⟩
    have hfits := insertFinished_fits hinsert
    rw [hps] at hfits
    rw [heldPages,List.length_append]
    exact hfits
  · intro hfits
    rw [heldPages,List.length_append] at hfits
    have hmin : min (fullPages s r) (heldPages s f).length = fullPages s r := by
      rw [heldPages,List.length_append]
      exact min_eq_left hfits
    have hreturns : Returns (insertFinished (r.fullPagedTokens s.config.pageSize true)
        (pathPages .device s.kv.tree f.deviceNodeRef) f.localKVAllocator) s.kv (fun kept kv' =>
          kept = (localPages f.localKVAllocator).drop (fullPages s r-
            (pathPages .device s.kv.tree f.deviceNodeRef).length) ∧
          Covers .device kv'.tree (r.fullPagedTokens s.config.pageSize true)) := by
      rw [fullPages,← hps] at hfits ⊢
      exact insertFinished_returns hsplit hd (hps ▸ hpath) (hsplit.pathPages_length hd) hdvd hfits
    obtain ⟨kept,kv₁,hinsert,hkept,hcov⟩ := hreturns.exists
    have hinsert' : finishInsert s r f = .ok kept kv₁ := hinsert
    have hall : (r.fullPagedTokens s.config.pageSize true).take (fullPages s r*s.config.pageSize) =
        r.fullPagedTokens s.config.pageSize true := by
      rw [fullPages,Nat.div_mul_cancel (hps ▸ hdvd),List.take_length]
    refine ⟨⟨kept,kv₁,hinsert',by rw [hmin]; exact hkept⟩,?_⟩
    rw [hmin,hall]
    unfold Returns Runs
    rw [heq]
    apply hruns.imp
    · rintro _ s' ⟨hfin,kept',kv',hok,hiff⟩
      rw [hinsert'] at hok
      injection hok with _ hkv
      rw [← hkv] at hiff
      refine ⟨(hiff _).mpr hcov,?_⟩
      cases hfin with
      | finished move => exact ⟨_,move.found',rfl,.inl rfl⟩
      | draining d fresh pairs move => exact ⟨_,move.found',rfl,.inr ⟨pairs,d,d,rfl⟩⟩
    · rintro e s' ⟨_,kv',herr⟩
      rw [hinsert'] at herr
      cases herr

/-- A request that has decoded once is finished with both of its whole pages. -/
theorem finish_clean_served : ∃ history s r f, Reaches (smallConfig 9 9) id history s ∧
    r ∈ s.requests ∧ r.state.forward? = some f ∧ fullPages s r = 2 ∧ FinishesClean s r f := by
  obtain ⟨⟨history,s⟩,hreplay,r,hr,hst,f,hf,htwo,hfits⟩ :
      ∃ x, replay (smallConfig 9 9) id (servedCalls.take 4) = some x ∧
        ∃ r ∈ x.2.requests, r.state.isDecodable = true ∧ ∃ f, r.state.forward? = some f ∧
          fullPages x.2 r = 2 ∧ fullPages x.2 r ≤ (heldPages x.2 f).length := by
    decide +kernel
  have hreaches := reaches_of_replay hreplay
  exact ⟨history,s,r,f,hreaches,hr,hf,htwo,(finish_clean_iff hreaches hr hf hst).mpr hfits⟩

/-- A request of which one token is to be prefilled. -/
def shortPrefillCalls : List Call :=
  [.submit [{ requestId := [1], tokens := [7,8,9,10], prefillLength := 1 }],.plan [[1]]]

/-- A prompt that was to be prefilled up to its first token has more whole pages than it occupies:
its finish throws, and leaves the request without its local allocator. -/
theorem finish_throws : ∃ history s r f e s', Reaches (smallConfig 9 9) id history s ∧
    r ∈ s.requests ∧ r.state.forward? = some f ∧ r.state.isDecodable = true ∧
    handleEvent (.finish r.id) s = .error (.exception e) s' ∧
    ∃ x ∈ s'.requests, x.id = r.id ∧
      x.state.forward? = some { f with localKVAllocator := none } := by
  obtain ⟨⟨history,s⟩,hreplay,r,hr,hst,f,hf,left,hrun,hleft⟩ :
      ∃ x, replay (smallConfig 9 9) id shortPrefillCalls = some x ∧
        ∃ r ∈ x.2.requests, r.state.isDecodable = true ∧ ∃ f, r.state.forward? = some f ∧
          ∃ left, (match handleEvent (.finish r.id) x.2 with
            | .error (.exception e) s' => some (e,s'.requests)
            | _ => none) = some left ∧
          ∃ y ∈ left.2, y.id = r.id ∧
            y.state.forward? = some { f with localKVAllocator := none } := by
    decide +kernel
  split at hrun
  · next e s' hstep =>
    cases hrun
    exact ⟨history,s,r,f,e,s',reaches_of_replay hreplay,hr,hf,hst,hstep,hleft⟩
  · cases hrun

end Finish

end FluxServe
