import FluxServe.Scheduler.LateEvents
import FluxServe.Scheduler.PlanRows

namespace FluxServe

variable {s s₀ s' : Scheduler} {r x y z : Request} {ev : Event} {events : List Event}
  {reply : Reply} {id : RequestId}

section Kept

/-- A request that is served on by some events, with its prompt. -/
structure Request.Kept (y x : Request) : Prop where
  id : y.id = x.id
  prefillSize : y.prefillSize = x.prefillSize
  tokens : y.tokens <+: x.tokens
  early : y.state.isEarly = x.state.isEarly
  inService : y.state.inService = true

theorem Request.Kept.refl (h : x.state.inService = true) : x.Kept x :=
  ⟨rfl,rfl,List.prefix_rfl,rfl,h⟩

theorem Request.Kept.trans (h : z.Kept y) (h' : y.Kept x) : z.Kept x :=
  ⟨h.id.trans h'.id,h.prefillSize.trans h'.prefillSize,h.tokens.trans h'.tokens,
    h.early.trans h'.early,h.inService⟩

theorem Request.Kept.prompted (h : y.Kept x) (hy : y.Prompted) : x.Prompted := by
  have hle := h.tokens.length_le
  have hfits := hy.fits
  refine ⟨h.prefillSize ▸ hy.positive,?_⟩
  rw [← h.prefillSize]
  omega

theorem not_isEarly_of_takesTokens {st : RequestState} (h : st.takesTokens = true) :
    st.isEarly = false := by
  cases st with
  | submitted | prefilling => cases h
  | _ => rfl

theorem inService_of_takesTokens {st : RequestState} (h : st.takesTokens = true) :
    st.inService = true := by
  cases st with
  | prefillDone | decoding | retracting | retracted => rfl
  | _ => cases h

theorem Answers.kept (h : Answers ev s s' x) (hx : x.state.inService = true)
    (hev : ev ≠ .finish x.id) : ∃ y ∈ s.requests, y.Kept x := by
  cases h with
  | same found => exact ⟨x,found,.refl hx⟩
  | left done =>
    rw [hx] at done
    cases done
  | @extended r tokens event found before after =>
    subst after
    exact ⟨r,found,rfl,rfl,List.prefix_append r.tokens tokens,rfl,inService_of_takesTokens before⟩
  | @reserved r f n m event found before after =>
    subst after
    refine ⟨r,found,rfl,rfl,List.prefix_rfl,?_,?_⟩ <;> rw [before] <;> rfl
  | lost event => exact absurd event hev
  | @recoverable r d h l pairs found before after =>
    subst after
    refine ⟨r,found,rfl,rfl,List.prefix_rfl,?_,?_⟩ <;> rw [before] <;> rfl

/-- What events that do not finish a request leave of it. -/
theorem Calls.kept (h : Calls s (.advance events) reply s') (hs : Sound s) (hx : x ∈ s'.requests)
    (hin : x.state.inService = true) (hev : .finish x.id ∉ events) :
    ∃ y ∈ s.requests, y.Kept x := by
  have hall : ∀ x ∈ s'.requests, x.state.inService = true → .finish x.id ∉ events →
      ∃ y ∈ s.requests, y.Kept x := by
    refine h.advance_invariant (I := fun s' => ∀ x ∈ s'.requests, x.state.inService = true →
      .finish x.id ∉ events → ∃ y ∈ s.requests, y.Kept x) ?_ hs
      fun x hx hin _ => ⟨x,hx,.refl hin⟩
    intro ev hmem s₁ s₂ _ hI hanswered x hx hin hno
    have hne : ev ≠ .finish x.id := by
      intro heq
      exact hno (heq ▸ hmem)
    obtain ⟨y,hy,hkept⟩ := (hanswered.answers x hx).kept hin hne
    obtain ⟨z,hz,hkept'⟩ := hI y hy hkept.inService (by rw [hkept.id]; exact hno)
    exact ⟨z,hz,hkept'.trans hkept⟩
  exact hall x hx hin hev

end Kept

section Dismissed

/-- No request with the id is served. -/
def Dismissed (id : RequestId) (s : Scheduler) : Prop :=
  ∀ x ∈ s.requests, x.id = id → x.state.inService = false

theorem Move.dismissed {st' : RequestState} {fresh : List NodeId} (h : Move r st' fresh s s')
    (hs : Sound s) (hst : st'.inService = false) : Dismissed r.id s' := by
  intro x hx hid
  obtain rfl | ⟨_,hne,_⟩ := (h.becomes hs).cases hx
  · exact hst
  · exact absurd hid hne

theorem dismissed_of_finished (hs : Sound s) (hr : r ∈ s.requests)
    (hst : r.state.inService = false) : Dismissed r.id s := by
  intro x hx hid
  rw [List.inj_on_of_nodup_map hs.ids hx hr hid]
  exact hst

theorem Answered.dismissed (h : Answered ev s s') (hid : Dismissed id s) : Dismissed id s' := by
  intro x hx hx_id
  cases hin : x.state.inService with
  | false => rfl
  | true =>
    cases h.answers x hx with
    | same found => rw [← hin]; exact hid x found hx_id
    | left done => rw [← hin,done]
    | extended _ found before after =>
      have hno := hid _ found (by rw [← hx_id,after])
      rw [inService_of_takesTokens before] at hno
      cases hno
    | reserved _ found before after =>
      have hno := hid _ found (by rw [← hx_id,after])
      rw [before] at hno
      cases hno
    | lost _ found before own =>
      have hno := hid _ found (by rw [← hx_id,own])
      rw [inService_of_forward before] at hno
      cases hno
    | recoverable found before after =>
      have hno := hid _ found (by rw [← hx_id,after])
      rw [before] at hno
      cases hno

theorem finishEvent_dismisses (hs : Sound s) (hr : r ∈ s.requests) :
    Runs (finishEvent r) s (fun _ s' => Dismissed r.id s') (fun _ _ => True) := by
  have hforward : ∀ f moved, r.state.forward? = some f →
      moved.forward? = some { f with localKVAllocator := none } →
      Runs (applyFinish r f moved) s (fun _ s' => Dismissed r.id s') (fun _ _ => True) := by
    intro f moved hf hmoved
    apply (applyFinish_runs hs hr hf hmoved).imp ?_ fun _ _ _ => trivial
    rintro _ s' ⟨hfin,_⟩
    cases hfin with
    | finished move => exact move.dismissed hs rfl
    | draining d fresh pairs move => exact move.dismissed hs rfl
  have hdrop := dropToFinished_returns hs hr
  unfold finishEvent
  cases hst : r.state with
  | prefillDone f w n => exact hforward f _ (by rw [hst]; rfl) rfl
  | decoding f n => exact hforward f _ (by rw [hst]; rfl) rfl
  | retracting d hn l pairs =>
    exact (keepWriting_returns hs hr hst).runs fun _ s' h => h.1.dismissed hs rfl
  | retracted hn l =>
    rw [hst] at hdrop
    exact hdrop.runs fun _ s' h => h.dismissed hs rfl
  | finished => exact dismissed_of_finished hs hr (by rw [hst]; rfl)
  | submitted | prefilling | draining | writingBack => exact trivial

theorem abortEvent_dismisses (hs : Sound s) (hr : r ∈ s.requests) :
    Runs (abortEvent r) s (fun _ s' => Dismissed r.id s') (fun _ _ => True) := by
  apply (abortEvent_runs hs hr).imp ?_ fun _ _ _ => trivial
  rintro _ s' ⟨_,hmove | ⟨hst,rfl⟩⟩
  · exact hmove.dismissed hs rfl
  · exact dismissed_of_finished hs hr (by rw [hst]; rfl)

/-- A `Finish` or an `Abort` that comes back takes the request out of service. -/
theorem handleEvent_dismisses (hs : Sound s) (hev : ev = .finish id ∨ ev = .abort id) :
    Runs (handleEvent ev) s (fun _ s' => Dismissed id s') (fun _ _ => True) := by
  have hboth : ∀ g : Request → Sched Unit,
      (∀ r ∈ s.requests, Runs (g r) s (fun _ s' => Dismissed r.id s') (fun _ _ => True)) →
      Runs (onRequest id g) s (fun _ s' => Dismissed id s') (fun _ _ => True) := by
    intro g hg
    unfold Runs
    cases hfind : s.findRequest id with
    | none =>
      rw [onRequest_none hfind]
      intro x hx hid
      exact absurd hid (by simpa using List.find?_eq_none.mp hfind x hx)
    | some r =>
      obtain ⟨hr,rfl⟩ := findRequest_some hfind
      rw [onRequest_some hfind]
      exact hg r hr
  obtain rfl | rfl := hev
  · exact hboth finishEvent fun r hr => finishEvent_dismisses hs hr
  · exact hboth abortEvent fun r hr => abortEvent_dismisses hs hr

/-- Among the events to come there is one that ends the request, unless it is out of service. -/
def Leaving (id : RequestId) (rest : List Event) (s : Scheduler) : Prop :=
  Sound s ∧ (Dismissed id s ∨ .finish id ∈ rest ∨ .abort id ∈ rest)

/-- A batch of events that comes back dismisses all that it ends. -/
theorem Calls.dismisses (h : Calls s (.advance events) .done s') (hs : Sound s)
    (hev : .finish id ∈ events ∨ .abort id ∈ events) : Dismissed id s' := by
  have hstep : ∀ ev rest s₁, Leaving id (ev :: rest) s₁ →
      Runs (handleEvent ev) s₁ (fun _ => Leaving id rest) (fun _ _ => True) := by
    rintro ev rest s₁ ⟨hs₁,hpending⟩
    have hreplies := handleEvent_replies hs₁ ev
    unfold Replies Runs at hreplies
    by_cases hown : ev = .finish id ∨ ev = .abort id
    · have hdismisses := handleEvent_dismisses hs₁ hown
      unfold Runs at hdismisses ⊢
      cases hrun : handleEvent ev s₁ with
      | ok _ s₂ =>
        rw [hrun] at hreplies hdismisses
        exact ⟨hreplies.sound,.inl hdismisses⟩
      | error => exact trivial
    · unfold Runs
      cases hrun : handleEvent ev s₁ with
      | ok _ s₂ =>
        rw [hrun] at hreplies
        refine ⟨hreplies.sound,?_⟩
        obtain hdone | hpending := hpending
        · exact .inl (hreplies.dismissed hdone)
        · simp only [List.mem_cons] at hpending
          grind
      | error => exact trivial
  have hloop : Runs (advance events) s (fun _ => Leaving id []) (fun _ _ => True) :=
    runs_forM handleEvent (Leaving id) hstep events ⟨hs,.inr hev⟩
  have hruns : Runs (advance events) s (fun _ s' => Dismissed id s') (fun _ _ => True) := by
    apply hloop.imp ?_ fun _ _ _ => trivial
    rintro _ s₂ ⟨_,hdone | hpending⟩
    · exact hdone
    · simp at hpending
  cases h with
  | returns _ run =>
    have hrun : Runs (runCall (.advance events)) s (fun _ s' => Dismissed id s') (fun _ _ => True) :=
      Runs.bind hruns fun _ _ hi => hi
    exact hrun.of_ok run

end Dismissed

section Submitted

variable {spec : RequestSpec}

/-- The request that a specification gives. -/
def RequestSpec.request (spec : RequestSpec) : Request :=
  { id := spec.requestId
    tokens := spec.tokens
    prefillSize := if spec.prefillLength < 0 then spec.tokens.length else spec.prefillLength
    state := .submitted }

/-- What a specification comes to: its request, unless the id is held. -/
def Takes (spec : RequestSpec) (s s' : Scheduler) : Prop :=
  s' = s ∨ (∀ r ∈ s.requests, r.id ≠ spec.requestId) ∧
    s' = { s with requests := s.requests ++ [spec.request] }

theorem Takes.mem (h : Takes spec s s')
    (hx : x ∈ s'.requests) : x ∈ s.requests ∨ x = spec.request := by
  obtain rfl | ⟨_,rfl⟩ := h
  · exact .inl hx
  · obtain hx | hx := List.mem_append.mp hx
    · exact .inl hx
    · exact .inr (List.mem_singleton.mp hx)

theorem submitRequest_takes :
    Runs (submitRequest spec) s (fun _ s' => Takes spec s s') (fun _ s' => s' = s) := by
  unfold submitRequest
  by_cases hlen : spec.prefillLength < -1 ∨ (spec.tokens.length : Int) < spec.prefillLength
  · rw [if_pos hlen]
    exact rfl
  rw [if_neg hlen]
  apply (runs_bind _).mpr
  rw [runs_get]
  by_cases hsome : (s.findRequest spec.requestId).isSome
  · rw [if_pos hsome]
    exact .inl rfl
  · rw [if_neg hsome]
    apply (runs_set _).mpr
    refine .inr ⟨fun r hr hid => hsome ?_,rfl⟩
    rw [Scheduler.findRequest,List.find?_isSome]
    exact ⟨r,hr,by simpa using hid⟩

theorem Calls.submitted (h : Calls s (.submit [spec]) reply s') : Takes spec s s' := by
  have hruns : Runs (runCall (.submit [spec])) s (fun _ s' => Takes spec s s')
      (fun _ s' => Takes spec s s') := by
    have hone : Runs (submitRequests [spec]) s (fun _ s' => Takes spec s s')
        (fun _ s' => Takes spec s s') :=
      (submitRequest_takes.imp (fun _ _ h => h) fun _ _ h => .inl h).bind fun _ _ h => h
    exact hone.bind fun _ _ h => h
  cases h with
  | returns _ run => exact hruns.of_ok run
  | throws _ run => exact hruns.of_error run

end Submitted

/-- What every call keeps. -/
theorem Calls.keeps {c : Call} (h : Calls s c reply s') (hs : Sound s) (hc : Copying s) :
    Sound s' ∧ Copying s' ∧ s'.config = s.config := by
  obtain ⟨ls,hsteps,_⟩ := h.steps hs
  exact ⟨hsteps.sound hs,hsteps.invariant (fun hI hstep => hstep.copying hI) hc,hsteps.config_eq⟩

end FluxServe
