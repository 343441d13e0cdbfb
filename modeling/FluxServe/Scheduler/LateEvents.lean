import FluxServe.Scheduler.Answers

namespace FluxServe

section Late

variable {s s' : Scheduler} {r : Request} {ev : Event} {id : RequestId} {rest : List Event}
  {config : SchedulerConfig} {clock : Nat → Timestamp} {history : List (Call × Reply)}

/-- The forward events, with the name of the transition each asks for. -/
def Event.asks : Event → Option (RequestId × EventName)
  | .extendResult id _ => some (id,.extendResult)
  | .finish id => some (id,.finish)
  | .abort id => some (id,.abort)
  | .updateReserveNumTokens id _ => some (id,.updateReserveNumTokens)
  | .writeBackDone _ _ => none
  | .prefetchDone _ _ _ _ => none

theorem advance_cons_ok (h : handleEvent ev s = .ok () s') : advance (ev :: rest) s = advance rest s' := by
  change EStateM.bind (handleEvent ev) (fun _ => rest.forM handleEvent) s = _
  rw [EStateM.bind,h]
  rfl

theorem advance_cons_error {e : Fault} (h : handleEvent ev s = .error e s') :
    advance (ev :: rest) s = .error e s' := by
  change EStateM.bind (handleEvent ev) (fun _ => rest.forM handleEvent) s = _
  rw [EStateM.bind,h]

theorem onRequest_some {g : Request → Sched Unit} (h : s.findRequest id = some r) :
    onRequest id g s = g r s := by
  unfold onRequest
  rw [bind_ok (rfl : (get : Sched Scheduler) s = .ok s s),h]

theorem onRequest_none {g : Request → Sched Unit} (h : s.findRequest id = none) :
    onRequest id g s = .ok () s := by
  unfold onRequest
  rw [bind_ok (rfl : (get : Sched Scheduler) s = .ok s s),h]
  rfl

/-- A forward event reaches the request with its id, or none. -/
theorem handleEvent_none {name : EventName} (hev : ev.asks = some (id,name))
    (h : s.findRequest id = none) : handleEvent ev s = .ok () s := by
  cases ev with
  | writeBackDone | prefetchDone => cases hev
  | extendResult | finish | abort | updateReserveNumTokens =>
    cases hev
    exact onRequest_none h

theorem handleEvent_finished {name : EventName} (hev : ev.asks = some (id,name))
    (h : s.findRequest id = some r) (hst : r.state = .finished) : handleEvent ev s = .ok () s := by
  cases ev with
  | writeBackDone | prefetchDone => cases hev
  | extendResult | finish | abort | updateReserveNumTokens =>
    cases hev
    refine (onRequest_some h).trans ?_
    simp only [extendResultEvent,finishEvent,abortEvent,updateReserveNumTokensEvent,hst]
    rfl

/-- On a path that is copied, or waits to be, the strict handlers are left, but for one. -/
theorem handleEvent_strict {name : EventName} (hev : ev.asks = some (id,name))
    (h : s.findRequest id = some r)
    (hst : (∃ p d n, r.state = .draining p d n ∧ name ≠ .abort) ∨ ∃ d n, r.state = .writingBack d n) :
    handleEvent ev s = .error (.exception (.invalidTransition name r.state.name)) s := by
  cases ev with
  | writeBackDone | prefetchDone => cases hev
  | extendResult | finish | updateReserveNumTokens =>
    cases hev
    refine (onRequest_some h).trans ?_
    rcases hst with ⟨p,d,n,hst,_⟩ | ⟨d,n,hst⟩ <;>
      simp only [extendResultEvent,finishEvent,updateReserveNumTokensEvent,hst] <;> rfl
  | abort =>
    cases hev
    refine (onRequest_some h).trans ?_
    rcases hst with ⟨_,_,_,_,hno⟩ | ⟨d,n,hst⟩
    · exact absurd rfl hno
    · simp only [abortEvent,hst]
      rfl

/-- Aborting a draining request drops the write-back that was not issued yet. -/
theorem handleEvent_abort_draining {p : List TransferPair} {d n : NodeId} (h : Sound s)
    (hr : r ∈ s.requests) (hst : r.state = .draining p d n) :
    ∃ s', handleEvent (.abort r.id) s = .ok () s' ∧ Move r .finished [] s s' := by
  have hruns := abortEvent_runs h hr
  have heq : handleEvent (.abort r.id) s = abortEvent r s :=
    onRequest_some (findRequest_of_mem h.ids hr)
  cases hx : abortEvent r s with
  | ok a s' =>
    obtain ⟨_,hm | ⟨hfin,_⟩⟩ := hruns.of_ok hx
    · exact ⟨s',heq.trans hx,hm⟩
    · rw [hst] at hfin
      cases hfin
  | error e s' =>
    obtain ⟨_,_,d',n',hw⟩ := hruns.of_error hx
    rw [hst] at hw
    cases hw

/-- Late terminal events. Where the request is finished or gone they do nothing. On a path to be
copied the state machine is strict: all but the abort of a draining request throw, nothing changes
and the rest of the batch is lost; that abort ends the request with its write-back. -/
theorem late_events {name : EventName} (h : Reaches config clock history s)
    (hev : ev.asks = some (id,name)) (rest : List Event) :
    ((∀ r ∈ s.requests, r.id = id → r.state = .finished) →
      advance (ev :: rest) s = advance rest s) ∧
    (∀ r ∈ s.requests, r.id = id →
      ((∃ p d n, r.state = .draining p d n) ∧ name ≠ .abort ∨ ∃ d n, r.state = .writingBack d n) →
      advance (ev :: rest) s = .error (.exception (.invalidTransition name r.state.name)) s) ∧
    (∀ r ∈ s.requests, r.id = id → (∃ p d n, r.state = .draining p d n) → name = .abort →
      ∃ s', advance (ev :: rest) s = advance rest s' ∧ s'.cacheOpTracker = s.cacheOpTracker ∧
        s'.requests = s.requests.map fun x => if x.id = id then { x with state := .finished } else x) := by
  have hs := h.sound
  refine ⟨fun hfin => ?_,fun r hr hid hst => ?_,fun r hr hid hst hname => ?_⟩
  · cases hf : s.findRequest id with
    | none => exact advance_cons_ok (handleEvent_none hev hf)
    | some r =>
      obtain ⟨hr,hid⟩ := findRequest_some hf
      exact advance_cons_ok (handleEvent_finished hev hf (hfin r hr hid))
  · subst hid
    refine advance_cons_error (handleEvent_strict hev (findRequest_of_mem hs.ids hr) ?_)
    rcases hst with ⟨⟨p,d,n,hst⟩,hno⟩ | hst
    · exact Or.inl ⟨p,d,n,hst,hno⟩
    · exact Or.inr hst
  · subst hid
    obtain ⟨p,d,n,hst⟩ := hst
    obtain ⟨s',hok,hm⟩ := handleEvent_abort_draining hs hr hst
    have hab : ev = .abort r.id := by
      subst hname
      cases ev <;> cases hev
      rfl
    rw [hab]
    exact ⟨s',advance_cons_ok hok,hm.tracker,hm.requests⟩

end Late

/-- A finished request is copied to the host when the second `Finish` comes: it throws, and the
result of the other request that came with it is lost. -/
theorem late_finish_throws :
    ∃ history s s', Reaches (smallConfig 9 9) id history s ∧
      (.advance [.finish [1]],.done) ∈ history ∧
      (∃ r ∈ s.requests, r.id = [1] ∧ r.state.name = .writingBack) ∧
      (∃ r ∈ s.requests, r.id = [2] ∧ r.state.name = .decoding) ∧
      Calls s (.advance [.finish [1],.extendResult [2] [9]])
        (.threw (.invalidTransition .finish .writingBack)) s' ∧ s'.requests = s.requests := by
  obtain ⟨x,hx,hdone,hone,htwo,y,hy,hthrew,hreq⟩ :
      ∃ x, replay (smallConfig 9 9) id
          [.submit [{ requestId := [1], tokens := [7,8] },{ requestId := [2], tokens := [5] }],
            .plan [[1],[2]],.advance [.extendResult [1] [9]],.plan [[1],[2]],
            .advance [.finish [1]],.plan [[1],[2]]] = some x ∧
        (.advance [.finish [1]],.done) ∈ x.1 ∧
        (∃ r ∈ x.2.requests, r.id = [1] ∧ r.state.name = .writingBack) ∧
        (∃ r ∈ x.2.requests, r.id = [2] ∧ r.state.name = .decoding) ∧
        ∃ y, replayCall x (.advance [.finish [1],.extendResult [2] [9]]) = some y ∧
          y.1 = (.advance [.finish [1],.extendResult [2] [9]],
            .threw (.invalidTransition .finish .writingBack)) :: x.1 ∧
          y.2.requests = x.2.requests := by
    decide +kernel
  exact ⟨x.1,x.2,y.2,reaches_of_replay hx,hdone,hone,htwo,calls_of_replayCall_eq hy hthrew,hreq⟩

theorem late_events_gone :
    ∃ history s, Reaches (smallConfig 9 9) id history s ∧ s.requests = [] ∧
      advance [.finish [1]] s = advance [] s := by
  obtain ⟨x,hx,hnil⟩ : ∃ x, replay (smallConfig 9 9) id
      [.submit [{ requestId := [1], tokens := [7,8] }],.advance [.abort [1]],.plan [[1]]] = some x ∧
        x.2.requests = [] := by
    decide
  refine ⟨x.1,x.2,reaches_of_replay hx,hnil,?_⟩
  have hask : (Event.finish [1]).asks = some ([1],.finish) := rfl
  exact (late_events (reaches_of_replay hx) hask []).1 (by simp [hnil])

end FluxServe
