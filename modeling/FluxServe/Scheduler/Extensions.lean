import FluxServe.Scheduler.AdvanceProof

namespace FluxServe

variable {s s' : Scheduler} {r x y z : Request} {ev : Event} {events : List Event} {id : RequestId}
  {tokens more : List Token} {rows : List ForwardOperation} {order : List RequestId}
  {plan : ExecutionPlan}

section Events

/-- The tokens that an event adds to the request with an id. -/
def Event.extension (id : RequestId) : Event → List Token
  | .extendResult id' tokens => if id' = id then tokens else []
  | _ => []

def extensionOf (id : RequestId) (events : List Event) : List Token :=
  events.flatMap (Event.extension id)

theorem extensionOf_append (id : RequestId) (events later : List Event) :
    extensionOf id (events ++ later) = extensionOf id events ++ extensionOf id later :=
  List.flatMap_append

/-- A request that is served on, with some more tokens. -/
structure Request.Extended (y x : Request) (tokens : List Token) : Prop where
  id : y.id = x.id
  inService : y.state.inService = true
  tokens : x.tokens = y.tokens ++ tokens

theorem Request.Extended.refl (h : x.state.inService = true) : x.Extended x [] :=
  ⟨rfl,h,(List.append_nil _).symm⟩

theorem Request.Extended.trans (h : z.Extended y tokens) (h' : y.Extended x more) :
    z.Extended x (tokens ++ more) where
  id := h.id.trans h'.id
  inService := h.inService
  tokens := by rw [h'.tokens,h.tokens,List.append_assoc]

/-- Every request that serves was served before, and has the tokens that are added. -/
def Extends (s s' : Scheduler) (added : RequestId → List Token) : Prop :=
  ∀ x ∈ s'.requests, x.state.inService = true → ∃ y ∈ s.requests, y.Extended x (added x.id)

theorem extends_refl (s : Scheduler) : Extends s s fun _ => [] := fun x hx hin => ⟨x,hx,.refl hin⟩

theorem Extends.trans {s₁ : Scheduler} {added added' : RequestId → List Token}
    (h : Extends s s₁ added) (h' : Extends s₁ s' added') :
    Extends s s' fun id => added id ++ added' id := by
  intro x hx hin
  obtain ⟨y,hy,hyx⟩ := h' x hx hin
  obtain ⟨z,hz,hzy⟩ := h y hy hyx.inService
  rw [hyx.id] at hzy
  exact ⟨z,hz,hzy.trans hyx⟩

/-- Only results for a request extend it. -/
theorem Answers.extends (h : Answers ev s s' x) (hin : x.state.inService = true)
    (hresult : ∀ tokens, ev ≠ .extendResult x.id tokens) (hfinish : ev ≠ .finish x.id) :
    ∃ y ∈ s.requests, y.Extended x [] := by
  cases h with
  | same found => exact ⟨x,found,.refl hin⟩
  | left done =>
    rw [hin] at done
    cases done
  | extended event => exact absurd event (hresult _)
  | @reserved r f n m _ found before after =>
    subst after
    refine ⟨r,found,rfl,?_,(List.append_nil _).symm⟩
    rw [before]
    rfl
  | lost event => exact absurd event hfinish
  | @recoverable r d h l pairs found before after =>
    subst after
    refine ⟨r,found,rfl,?_,(List.append_nil _).symm⟩
    rw [before]
    rfl

/-- A result that is taken over is added to its request. -/
theorem extendResultEvent_extends (hs : Sound s) (hr : r ∈ s.requests) (tokens : List Token) :
    Runs (extendResultEvent r tokens) s
      (fun _ s' => ∀ x ∈ s'.requests, x.id = r.id → x.state.inService = true →
        ∃ y ∈ s.requests, y.Extended x tokens)
      fun _ _ => True := by
  have hadd : r.state.inService = true → ∀ x ∈ (s.updateRequest r.id fun r =>
      { r with tokens := r.tokens ++ tokens }).requests, x.id = r.id → x.state.inService = true →
        ∃ y ∈ s.requests, y.Extended x tokens := by
    intro hserved x hx hid hin
    obtain rfl | ⟨_,hne,_⟩ := (extended_becomes hs hr tokens).cases hx
    · exact ⟨r,hr,rfl,hserved,rfl⟩
    · exact absurd hid hne
  unfold extendResultEvent
  cases hst : r.state with
  | prefillDone | retracting | retracted => exact hadd (by rw [hst]; rfl)
  | decoding f n =>
    simp only [extendTokens]
    rw [runs_bind,runs_modify]
    split
    · exact trivial
    · exact hadd (by rw [hst]; rfl)
  | finished =>
    intro x hx hid hin
    rw [List.inj_on_of_nodup_map hs.ids hx hr hid,hst] at hin
    cases hin
  | submitted | prefilling | draining | writingBack => exact trivial

theorem handleEvent_result (hs : Sound s) (id : RequestId) (tokens : List Token) :
    Runs (handleEvent (.extendResult id tokens)) s
      (fun _ s' => ∀ x ∈ s'.requests, x.id = id → x.state.inService = true →
        ∃ y ∈ s.requests, y.Extended x tokens)
      fun _ _ => True := by
  by_cases hheld : ∃ r ∈ s.requests, r.id = id
  · obtain ⟨r,hr,rfl⟩ := hheld
    have hfind := findRequest_of_mem hs.ids hr
    have hruns := extendResultEvent_extends hs hr tokens
    unfold Runs at hruns ⊢
    rwa [show handleEvent (.extendResult r.id tokens) s = extendResultEvent r tokens s from
      onRequest_some hfind]
  · have hfind : s.findRequest id = none :=
      List.find?_eq_none.mpr fun r hr => by simpa using fun hid => hheld ⟨r,hr,hid⟩
    unfold Runs
    rw [show handleEvent (.extendResult id tokens) s = .ok () s from onRequest_none hfind]
    exact fun x hx hid => absurd ⟨x,hx,hid⟩ hheld

/-- What an event that comes back leaves of the requests that are served. -/
theorem handleEvent_extends (hs : Sound s) (ev : Event) :
    Runs (handleEvent ev) s
      (fun _ s' => Sound s' ∧ Extends s s' fun id => ev.extension id) fun _ _ => True := by
  have hreplies := handleEvent_replies hs ev
  unfold Replies Runs at hreplies
  unfold Runs
  cases hrun : handleEvent ev s with
  | error => exact trivial
  | ok _ s₁ =>
    rw [hrun] at hreplies
    refine ⟨hreplies.sound,fun x hx hin => ?_⟩
    by_cases hresult : ∃ tokens, ev = .extendResult x.id tokens
    · obtain ⟨tokens,rfl⟩ := hresult
      have hx' := (handleEvent_result hs x.id tokens).of_ok hrun x hx rfl hin
      simpa [Event.extension] using hx'
    · have hnone : ev.extension x.id = [] := by
        cases ev with
        | extendResult id tokens =>
          apply if_neg
          rintro rfl
          exact hresult ⟨tokens,rfl⟩
        | _ => rfl
      dsimp only
      rw [hnone]
      apply (hreplies.answers x hx).extends hin fun tokens heq => hresult ⟨tokens,heq⟩
      rintro rfl
      have hgone := (handleEvent_dismisses hs (.inl rfl)).of_ok hrun x hx rfl
      rw [hin] at hgone
      cases hgone

/-- Events that come back add their results to the requests that are served. -/
theorem Calls.extended (h : Calls s (.advance events) .done s') (hs : Sound s) :
    Extends s s' fun id => extensionOf id events := by
  have hstep : ∀ ev rest s₁,
      (Sound s₁ ∧ ∃ before, events = before ++ ev :: rest ∧
        Extends s s₁ fun id => extensionOf id before) →
      Runs (handleEvent ev) s₁ (fun _ s₂ => Sound s₂ ∧ ∃ before, events = before ++ rest ∧
        Extends s s₂ fun id => extensionOf id before) (fun _ _ => True) := by
    rintro ev rest s₁ ⟨hs₁,before,rfl,hbefore⟩
    apply (handleEvent_extends hs₁ ev).imp ?_ fun _ _ h => h
    rintro _ s₂ ⟨hs₂,hone⟩
    refine ⟨hs₂,before ++ [ev],by simp,?_⟩
    simpa [extensionOf] using hbefore.trans hone
  have hloop := runs_forM handleEvent (fun rest s₁ => Sound s₁ ∧ ∃ before,
    events = before ++ rest ∧ Extends s s₁ fun id => extensionOf id before) hstep events
      ⟨hs,[],rfl,extends_refl s⟩
  cases h with
  | returns _ run =>
    have hrun : Runs (runCall (.advance events)) s (fun _ s' => Extends s s' fun id =>
        extensionOf id events) (fun _ _ => True) := by
      apply Runs.bind hloop
      rintro _ s₁ ⟨_,before,hall,hbefore⟩
      rw [hall,List.append_nil]
      exact hbefore
    exact hrun.of_ok run

/-- An abort adds nothing, whether it comes back or throws. -/
theorem Calls.abort_extends {reply : Reply} (h : Calls s (.advance [.abort id]) reply s')
    (hs : Sound s) : Extends s s' fun _ => [] := by
  refine h.advance_invariant (I := fun s' => Extends s s' fun _ => []) ?_ hs (extends_refl s)
  intro ev hev s₁ s₂ _ hI hanswered
  obtain rfl := List.mem_singleton.mp hev
  have hone : Extends s₁ s₂ fun _ => [] := by
    intro x hx hin
    exact (hanswered.answers x hx).extends hin (fun _ heq => by cases heq) fun heq => by cases heq
  exact hI.trans hone

end Events

section Plans

/-- No turn of a plan touches the tokens of a request. -/
theorem TurnsTo.extended (h : TurnsTo s s' rows x) (hin : x.state.inService = true) :
    ∃ y ∈ s.requests, y.Extended x [] := by
  cases h with
  | same found => exact ⟨x,found,.refl hin⟩
  | left done =>
    rw [hin] at done
    cases done
  | @began r budget f w l begun after =>
    subst after
    refine ⟨r,begun.found,rfl,?_,(List.append_nil _).symm⟩
    rw [begun.before]
    rfl
  | @chunked r _ _ f w _ _ found before _ _ _ _ _ _ after =>
    subst after
    refine ⟨r,found,rfl,?_,(List.append_nil _).symm⟩
    rw [before]
    rfl
  | @decoded r _ _ _ _ found before _ _ _ after =>
    subst after
    refine ⟨r,found,rfl,?_,(List.append_nil _).symm⟩
    obtain ⟨w,hst⟩ | hst := before <;> rw [hst] <;> rfl
  | @recovered r _ _ _ _ _ recovery after =>
    subst after
    refine ⟨r,recovery.found,rfl,?_,(List.append_nil _).symm⟩
    rw [recovery.before]
    rfl
  | @retracted r f _ _ _ found before _ _ tokens id =>
    exact ⟨r,found,id.symm,inService_of_forward before,by rw [tokens,List.append_nil]⟩

theorem Turns.extends (h : Turns s rows s') : Extends s s' fun _ => [] := by
  induction h with
  | nil => exact extends_refl _
  | cons turn _ ih =>
    have hone : Extends _ _ fun _ => [] := fun x hx hin => (turn.follows x hx).extended hin
    exact hone.trans ih

theorem Calls.plan_extends (h : Calls s (.plan order) (.plan plan) s') (hs : Sound s)
    (hc : Copying s) : Extends s s' fun _ => [] := by
  obtain ⟨ops,s₁,res,_,hplanned,rfl⟩ := h.planned hs
  obtain ⟨rows,hturns,_⟩ := hplanned.turns hs hc
  exact hturns.extends

end Plans

end FluxServe
