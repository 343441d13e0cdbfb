import FluxServe.Scheduler.Termination

namespace FluxServe

variable {s s' s'' : Scheduler} {r : Request} {ℓ : Label} {ls ls' : List Label}
  {G : Scheduler → Label → Prop} {names : List StateName}

/-- A sequence of transitions all of which meet a condition on the state they start from. -/
inductive StepsWhere (G : Scheduler → Label → Prop) : Scheduler → List Label → Scheduler → Prop
  | nil {s : Scheduler} : StepsWhere G s [] s
  | cons {s s' s'' : Scheduler} {ℓ : Label} {ls : List Label} (step : Step s ℓ s') (meets : G s ℓ)
      (steps : StepsWhere G s' ls s'') : StepsWhere G s (ℓ :: ls) s''

namespace StepsWhere

theorem append (h : StepsWhere G s ls s') (h' : StepsWhere G s' ls' s'') :
    StepsWhere G s (ls ++ ls') s'' := by
  induction h with
  | nil => exact h'
  | cons step meets _ ih => exact cons step meets (ih h')

theorem of_steps (h : Steps s ls s') (hG : ∀ ℓ ∈ ls, ∀ s, G s ℓ) : StepsWhere G s ls s' := by
  induction h with
  | nil => exact nil
  | cons step _ ih =>
    exact cons step (hG _ List.mem_cons_self _) (ih fun ℓ hℓ => hG ℓ (List.mem_cons_of_mem _ hℓ))

theorem steps (h : StepsWhere G s ls s') : Steps s ls s' := by
  induction h with
  | nil => exact .nil
  | cons step _ _ ih => exact .cons step ih

end StepsWhere

/-- No abort of a request that is in one of the named states. -/
def Label.Spares (names : List StateName) (s : Scheduler) (ℓ : Label) : Prop :=
  ∀ id, ℓ = .abort id → ∀ r ∈ s.requests, r.id = id → r.state.name ∉ names

/-- The same of the events of a call, each in the state it is handled in. -/
def Call.Spares (names : List StateName) (s : Scheduler) : Call → Prop
  | .advance events => ∀ es id es' s₁, events = es ++ .abort id :: es' →
      FluxServe.advance es s = .ok ⟨⟩ s₁ → ∀ r ∈ s₁.requests, r.id = id → r.state.name ∉ names
  | _ => True

/-- What is left of a fault: transitions that meet the condition, or undefined behaviour. -/
def StopsWhere (G : Scheduler → Label → Prop) (A : Label → Prop) (s : Scheduler) :
    Fault → Scheduler → Prop
  | .exception _,s' => ∃ ls, StepsWhere G s ls s' ∧ ∀ ℓ ∈ ls, A ℓ
  | .undefined _,_ => True

theorem Stops.toWhere {A : Label → Prop} {e : Fault} (h : Stops A s e s')
    (hG : ∀ ℓ, A ℓ → ∀ s, G s ℓ) : StopsWhere G A s e s' := by
  cases e with
  | undefined u => trivial
  | exception x =>
    obtain ⟨ls,hs,hls⟩ := h
    exact ⟨ls,.of_steps hs fun ℓ hℓ => hG ℓ (hls ℓ hℓ),hls⟩

theorem spares_of_ne (h : ∀ id, ℓ ≠ .abort id) (s : Scheduler) : ℓ.Spares names s :=
  fun id hid => (h id hid).elim

/-- One event. -/
theorem handleEvent_where (names : List StateName) (h : Sound s) (ev : Event)
    (hev : ∀ id, ev = .abort id → ∀ r ∈ s.requests, r.id = id → r.state.name ∉ names) :
    Runs (handleEvent ev) s
      (fun _ s' => ∃ ls, StepsWhere (Label.Spares names) s ls s' ∧ ∀ ℓ ∈ ls, ev.Shows ℓ)
      (StopsWhere (Label.Spares names) ev.Shows s) := by
  have hnone : ∃ ls, StepsWhere (Label.Spares names) s ls s ∧ ∀ ℓ ∈ ls, ev.Shows ℓ :=
    ⟨[],.nil,by simp⟩
  have hother : (∀ id, ev ≠ .abort id) → Runs (handleEvent ev) s
      (fun _ s' => ∃ ls, StepsWhere (Label.Spares names) s ls s' ∧ ∀ ℓ ∈ ls, ev.Shows ℓ)
      (StopsWhere (Label.Spares names) ev.Shows s) := by
    intro hne
    have hspare : ∀ ℓ, ev.Shows ℓ → ∀ s, ℓ.Spares names s := by
      intro ℓ hℓ
      refine spares_of_ne fun id hid => ?_
      subst hid
      cases ev <;> first | exact hℓ.elim | exact hne _ rfl
    refine (handleEvent_runs h ev).imp ?_ fun _ _ hs => hs.toWhere hspare
    rintro _ s' ⟨ls,hs,hls⟩
    exact ⟨ls,.of_steps hs fun ℓ hℓ => hspare ℓ (hls ℓ hℓ),hls⟩
  cases ev with
  | abort id =>
    refine onRequest_runs hnone fun r hr hid => (abortEvent_runs h hr).imp ?_ ?_
    · rintro _ s' ⟨hw,hm | ⟨_,rfl⟩⟩
      · refine ⟨_,.cons (.aborted hw hm) ?_ .nil,by simp [Event.Shows,hid]⟩
        intro id' hid' x hx hxid
        cases hid'
        exact hev id rfl x hx (hxid.trans hid)
      · exact hnone
    · rintro e s' ⟨rfl,⟨x,rfl⟩,_⟩
      exact hnone
  | _ => exact hother (by simp)

/-- The events of a call, one after the other. -/
theorem advance_where {events : List Event} (h : Sound s)
    (hev : (Call.advance events).Spares names s) :
    Runs (advance events) s
      (fun _ s' => ∃ ls, StepsWhere (Label.Spares names) s ls s' ∧
        ∀ ℓ ∈ ls, (Call.advance events).Shows ℓ)
      (StopsWhere (Label.Spares names) (Call.advance events).Shows s) := by
  induction events generalizing s with
  | nil => exact ⟨[],.nil,by simp⟩
  | cons ev events ih =>
    change Runs (handleEvent ev >>= fun _ => advance events) s _ _
    have hhead := handleEvent_where names h ev fun id hid =>
      hev [] id events s (by rw [hid]; rfl) rfl
    have hshow : ∀ ℓ, ev.Shows ℓ → (Call.advance (ev :: events)).Shows ℓ :=
      fun ℓ hℓ => ⟨ev,List.mem_cons_self,hℓ⟩
    have htail : ∀ ℓ, (Call.advance events).Shows ℓ → (Call.advance (ev :: events)).Shows ℓ :=
      fun ℓ ⟨ev',hmem,hℓ⟩ => ⟨ev',List.mem_cons_of_mem _ hmem,hℓ⟩
    rw [runs_bind]
    unfold Runs at hhead ⊢
    cases hrun : handleEvent ev s with
    | error e s₁ =>
      rw [hrun] at hhead
      cases e with
      | undefined u => trivial
      | exception x =>
        obtain ⟨ls,hs,hls⟩ := hhead
        exact ⟨ls,hs,fun ℓ hℓ => hshow ℓ (hls ℓ hℓ)⟩
    | ok a s₁ =>
      rw [hrun] at hhead
      obtain ⟨ls,hs,hls⟩ := hhead
      have hnext : (Call.advance events).Spares names s₁ := by
        intro es id es' s₂ hes hadv
        refine hev (ev :: es) id es' s₂ (by rw [hes]; rfl) ?_
        change EStateM.bind (handleEvent ev) (fun _ => advance es) s = _
        unfold EStateM.bind
        rw [hrun]
        exact hadv
      refine (ih (hs.steps.sound h) hnext).imp ?_ ?_
      · rintro _ s₂ ⟨ls',hs',hls'⟩
        refine ⟨ls ++ ls',hs.append hs',fun ℓ hℓ => ?_⟩
        exact (List.mem_append.mp hℓ).elim (fun hm => hshow ℓ (hls ℓ hm))
          fun hm => htail ℓ (hls' ℓ hm)
      · intro e s₂ hstop
        cases e with
        | undefined u => trivial
        | exception x =>
          obtain ⟨ls',hs',hls'⟩ := hstop
          refine ⟨ls ++ ls',hs.append hs',fun ℓ hℓ => ?_⟩
          exact (List.mem_append.mp hℓ).elim (fun hm => hshow ℓ (hls ℓ hm))
            fun hm => htail ℓ (hls' ℓ hm)

/-- The transitions of a call that meets the condition. -/
theorem Calls.stepsWhere {c : Call} {reply : Reply} (h : Calls s c reply s') (hs : Sound s)
    (hc : c.Spares names s) :
    ∃ ls, StepsWhere (Label.Spares names) s ls s' ∧ (∀ ℓ ∈ ls, c.Shows ℓ) ∧ reply.Fits ls := by
  cases c with
  | advance events =>
    have hrun : Runs (runCall (.advance events)) s
        (fun reply s' => ∃ ls, StepsWhere (Label.Spares names) s ls s' ∧
          (∀ ℓ ∈ ls, (Call.advance events).Shows ℓ) ∧ reply.Fits ls)
        (StopsWhere (Label.Spares names) (Call.advance events).Shows s) := by
      refine Runs.bind (advance_where hs hc) ?_
      rintro _ s₁ ⟨ls,hsteps,hls⟩
      exact ⟨ls,hsteps,hls,trivial⟩
    cases h with
    | returns ordered run => exact hrun.of_ok run
    | throws ordered run =>
      obtain ⟨ls,hsteps,hls⟩ := hrun.of_error run
      exact ⟨ls,hsteps,hls,trivial⟩
  | submit specs =>
    obtain ⟨ls,hsteps,hls,hfits⟩ := h.steps hs
    refine ⟨ls,.of_steps hsteps fun ℓ hℓ => spares_of_ne fun id hid => ?_,hls,hfits⟩
    subst hid
    exact hls _ hℓ
  | plan order =>
    obtain ⟨ls,hsteps,hls,hfits⟩ := h.steps hs
    refine ⟨ls,.of_steps hsteps fun ℓ hℓ => spares_of_ne fun id hid => ?_,hls,hfits⟩
    subst hid
    exact hls _ hℓ

/-- Calls all of which meet a condition on the state they are made in, the latest first. -/
inductive RunWhere (P : Scheduler → Call → Prop) (s : Scheduler) :
    List (Call × Reply) → Scheduler → Prop
  | nil : RunWhere P s [] s
  | call {later : List (Call × Reply)} {s₁ s₂ : Scheduler} {c : Call} {reply : Reply}
      (run : RunWhere P s later s₁) (meets : P s₁ c) (calls : Calls s₁ c reply s₂) :
      RunWhere P s ((c,reply) :: later) s₂

section RunWhere

variable {P : Scheduler → Call → Prop} {config : SchedulerConfig} {clock : Nat → Timestamp}
  {history later : List (Call × Reply)}

theorem RunWhere.continues (h : RunWhere P s later s') : Continues s later s' := by
  induction h with
  | nil => exact .nil
  | call _ _ calls ih => exact .call ih calls

theorem RunWhere.sound (h : RunWhere P s later s') (hs : Sound s) : Sound s' := by
  induction h with
  | nil => exact hs
  | call _ _ calls ih =>
    obtain ⟨_,hsteps,_⟩ := calls.steps ih
    exact hsteps.sound ih

theorem Reaches.of_continues (h : Continues (Scheduler.new config clock) history s) :
    Reaches config clock history s := by
  have hr := Reaches.new.continues h
  rwa [List.append_nil] at hr

/-- What every transition that spares the named states keeps holds at the end of the run. -/
theorem RunWhere.invariant {I : Scheduler → Prop}
    (hstep : ∀ {s ℓ s'}, Sound s → I s → Step s ℓ s' → ℓ.Spares names s → I s')
    (h : RunWhere (Call.Spares names) s later s') (hs : Sound s) (hI : I s) : I s' := by
  induction h with
  | nil => exact hI
  | call run meets calls ih =>
    obtain ⟨ls,hsteps,_⟩ := calls.stepsWhere (run.sound hs) meets
    have hboth : ∀ {s ls s'}, StepsWhere (Label.Spares names) s ls s' → Sound s → I s → I s' := by
      intro s ls s' hst
      induction hst with
      | nil => exact fun _ hI => hI
      | cons step meets _ ih => exact fun hs hI => ih (step.sound hs) (hstep hs hI step meets)
    exact hboth hsteps (run.sound hs) ih

/-- A replay of calls that meet the condition in any state. -/
theorem runWhere_of_replayFrom {calls : List Call} (hP : ∀ c ∈ calls, ∀ s, P s c)
    (h : RunWhere P s later s') (hc : replayFrom calls (later,s') = some (history,s'')) :
    RunWhere P s history s'' := by
  induction calls generalizing later s' with
  | nil =>
    cases hc
    exact h
  | cons c cs ih =>
    obtain ⟨⟨later₁,s₂⟩,hone,hrest⟩ := Option.bind_eq_some_iff.mp hc
    obtain ⟨reply,rfl,hcalls⟩ := calls_of_replayCall hone
    exact ih (fun c hc => hP c (List.mem_cons_of_mem _ hc))
      (.call h (hP c List.mem_cons_self _) hcalls) hrest

/-- Whether a call passes an abort. -/
def Call.hasAbort : Call → Bool
  | .advance events => events.any fun
    | .abort _ => true
    | _ => false
  | _ => false

theorem spares_of_hasAbort {c : Call} (h : c.hasAbort = false) (s : Scheduler) :
    c.Spares names s := by
  cases c with
  | submit specs => trivial
  | plan order => trivial
  | advance events =>
    intro es id es' s₁ hes
    simp [hes,Call.hasAbort] at h

end RunWhere

end FluxServe
