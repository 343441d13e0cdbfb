import FluxServe.Scheduler.Transitions
import Mathlib.Data.List.Flatten

namespace FluxServe

open KVPrefixCache

variable {α β : Type} {s s' s'' : Scheduler} {r : Request} {st st' : RequestState}
  {kv kv' : KVPrefixCache} {ls : List Label} {t : ResourceType}

theorem runs_onKV {x : KV α} {Q : α → Scheduler → Prop} {E : Fault → Scheduler → Prop} :
    Runs (onKV x) s Q E ↔
      Runs x s.kv (fun a kv' => Q a (s.setKV kv')) (fun e kv' => E e (s.setKV kv')) :=
  runs_zoom _ _ x s Q E

theorem onKV_bind {x : KV α} {f : α → Sched β} {Q : β → Scheduler → Prop}
    {E : Fault → Scheduler → Prop}
    (h : Runs x s.kv (fun a kv' => Runs (f a) (s.setKV kv') Q E) (fun e kv' => E e (s.setKV kv'))) :
    Runs (onKV x >>= f) s Q E := by
  rw [runs_bind,runs_onKV]
  exact h

@[simp] theorem setKV_kv (s : Scheduler) (kv : KVPrefixCache) : (s.setKV kv).kv = kv := rfl

@[simp] theorem setKV_setKV (s : Scheduler) (kv kv' : KVPrefixCache) :
    (s.setKV kv).setKV kv' = s.setKV kv' := rfl

@[simp] theorem setKV_config (s : Scheduler) (kv : KVPrefixCache) :
    (s.setKV kv).config = s.config := rfl

@[simp] theorem setKV_requests (s : Scheduler) (kv : KVPrefixCache) :
    (s.setKV kv).requests = s.requests := rfl

@[simp] theorem setKV_freeSlots (s : Scheduler) (kv : KVPrefixCache) :
    (s.setKV kv).freeSlots = s.freeSlots := rfl

theorem setKV_self (s : Scheduler) : s.setKV s.kv = s := rfl

theorem runs_setState {Q : Unit → Scheduler → Prop} {E : Fault → Scheduler → Prop} (id : RequestId)
    (st : RequestState) : Runs (setState id st) s Q E ↔ Q ⟨⟩ (s.withState id st) := Iff.rfl

/-- A fault of the code: an exception leaves a state that transitions reach; of the undefined reads
none is an unlock that finds no resource. -/
def Stops (A : Label → Prop) (s : Scheduler) : Fault → Scheduler → Prop
  | .exception _,s' => ∃ ls, Steps s ls s' ∧ ∀ ℓ ∈ ls, A ℓ
  | .undefined u,_ => u ≠ .unlockNullResource

def Label.isInternal : Label → Prop
  | .internal _ => True
  | _ => False

theorem Stops.after {A : Label → Prop} {e : Fault} (h : Stops A s' e s'') (hs : Steps s ls s')
    (hls : ∀ ℓ ∈ ls, A ℓ) : Stops A s e s'' := by
  cases e with
  | undefined u => exact h
  | exception x =>
    obtain ⟨ls',hs',hls'⟩ := h
    refine ⟨ls ++ ls',hs.append hs',fun ℓ hℓ => ?_⟩
    rcases List.mem_append.mp hℓ with hℓ | hℓ
    · exact hls ℓ hℓ
    · exact hls' ℓ hℓ

theorem Stops.mono {A B : Label → Prop} {e : Fault} (h : Stops A s e s') (hAB : ∀ ℓ, A ℓ → B ℓ) :
    Stops B s e s' := by
  cases e with
  | undefined u => exact h
  | exception x =>
    obtain ⟨ls,hs,hls⟩ := h
    exact ⟨ls,hs,fun ℓ hℓ => hAB ℓ (hls ℓ hℓ)⟩

theorem loadsFrom_nil (kv : KVPrefixCache) : LoadsFrom kv [] := by
  intro p hp
  cases hp

namespace CacheMove

theorem of_change (h : Sound s) (hk : KVInv kv' (refsOf s.requests) (ownedOf s.requests))
    (hc : Change (refsOf s.requests) [] s.kv kv') : CacheMove s (s.setKV kv') :=
  ⟨h.cache rfl rfl hk hc.evolves,rfl,rfl,rfl,rfl,hc⟩

theorem refl (h : Sound s) : CacheMove s s := ⟨h,rfl,rfl,rfl,rfl,Change.refl _ _⟩

theorem trans (h : CacheMove s s') (h' : CacheMove s' s'') : CacheMove s s'' :=
  ⟨h'.sound,h'.config.trans h.config,h'.requests.trans h.requests,h'.tracker.trans h.tracker,
    h'.retractions.trans h.retractions,h.change.trans (by rw [← h.requests]; exact h'.change)⟩

theorem steps (h : CacheMove s s') : Steps s [.internal []] s' :=
  Steps.single (.cache h (loadsFrom_nil _))

end CacheMove

/-- An exception that has changed the cache at most. -/
theorem CacheMove.stops (h : CacheMove s s') (x : Exception) :
    Stops Label.isInternal s (.exception x) s' := by
  refine ⟨_,h.steps,fun ℓ hℓ => ?_⟩
  rw [List.mem_singleton.mp hℓ]
  trivial

theorem refsOf_others_le (rs : List Request) (id : RequestId) (t : ResourceType) :
    refsOf (others id rs) t ≤ refsOf rs t :=
  Multiset.coe_le.mpr (List.filter_sublist.flatMap _).subperm

/-- A move after a change of the cache. -/
theorem Move.of_cacheMove {fresh : List NodeId} (hc : CacheMove s s') (h : Move r st' fresh s' s'') :
    Move r st' fresh s s'' := by
  refine ⟨hc.requests ▸ h.found,h.sound,h.config.trans hc.config,?_,h.tracker.trans hc.tracker,
    h.retractions.trans hc.retractions,?_⟩
  · rw [h.requests]
    simp only [Scheduler.withState,Scheduler.updateRequest,hc.requests]
  · have hr := hc.requests
    refine (hc.change.mono fun t => refsOf_others_le _ _ t).trans ?_
    rw [← hr]
    exact h.change

/-- The state after an event, from what the cache looks like when the request's state is set. -/
theorem Move.of_kv {fresh : List NodeId} (h : Sound s) (hr : r ∈ s.requests) (hs' : s'.config = s.config)
    (hreq : s'.requests = (s.withState r.id st').requests)
    (htr : s'.cacheOpTracker = s.cacheOpTracker) (hret : s'.retractions = s.retractions)
    (hkv : KVInv s'.kv (hold (fun t => st'.nodeRefs t) (refsOf (others r.id s.requests)))
      (own .device st'.localAllocatorPages (ownedOf (others r.id s.requests))))
    (hc : Change (refsOf (others r.id s.requests)) fresh s.kv s'.kv)
    (hok : RequestOK s'.kv { r with state := st' }) : Move r st' fresh s s' :=
  ⟨hr,h.transition hr hs' hreq hkv hc.evolves hok,hs',hreq,htr,hret,hc⟩

end FluxServe
