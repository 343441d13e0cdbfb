import FluxServe.Scheduler.PlanProof

namespace FluxServe

open KVPrefixCache

/-- The calls of the scheduler's interface. A plan is given the order its hash map is iterated in. -/
inductive Call
  | submit (specs : List RequestSpec)
  | plan (order : List RequestId)
  | advance (events : List Event)
  deriving DecidableEq, Repr

/-- What a call comes back with. -/
inductive Reply
  | done
  | plan (plan : ExecutionPlan)
  | threw (exception : Exception)
  deriving DecidableEq, Repr

def runCall : Call → Sched Reply
  | .submit specs => do
    submitRequests specs
    return .done
  | .plan order => return .plan (← nextExecutionPlan order)
  | .advance events => do
    advance events
    return .done

/-- An order the hash map of requests can be iterated in. -/
def Call.Ordered (s : Scheduler) : Call → Prop
  | .plan order => order.Perm (s.requests.map Request.id)
  | _ => True

/-- A call that comes back, with a result or with an exception; it keeps what it has done so far.
Undefined behaviour does not come back. -/
inductive Calls (s : Scheduler) (c : Call) : Reply → Scheduler → Prop
  | returns {reply : Reply} {s' : Scheduler} (ordered : c.Ordered s)
      (run : runCall c s = .ok reply s') : Calls s c reply s'
  | throws {x : Exception} {s' : Scheduler} (ordered : c.Ordered s)
      (run : runCall c s = .error (.exception x) s') : Calls s c (.threw x) s'

/-- The states a new scheduler can be brought to, with the calls made, the latest first. -/
inductive Reaches (config : SchedulerConfig) (clock : Nat → Timestamp) :
    List (Call × Reply) → Scheduler → Prop
  | new : Reaches config clock [] (Scheduler.new config clock)
  | call {history : List (Call × Reply)} {s s' : Scheduler} {c : Call} {reply : Reply}
      (reaches : Reaches config clock history s) (calls : Calls s c reply s') :
      Reaches config clock ((c,reply) :: history) s'

theorem Calls.unique {s s₁ s₂ : Scheduler} {c : Call} {reply : Reply} (h : Calls s c reply s₁)
    (h' : Calls s c reply s₂) : s₁ = s₂ := by
  cases h with
  | returns _ run =>
    cases h' with
    | returns _ run' =>
      rw [run] at run'
      injection run'
    | throws _ run' =>
      rw [run] at run'
      cases run'
  | throws _ run =>
    cases h' with
    | returns _ run' =>
      rw [run] at run'
      cases run'
    | throws _ run' =>
      rw [run] at run'
      injection run'

/-- The calls made from a given state on, the latest first. -/
inductive Continues (s : Scheduler) : List (Call × Reply) → Scheduler → Prop
  | nil : Continues s [] s
  | call {later : List (Call × Reply)} {s₁ s₂ : Scheduler} {c : Call} {reply : Reply}
      (continues : Continues s later s₁) (calls : Calls s₁ c reply s₂) :
      Continues s ((c,reply) :: later) s₂

theorem Continues.unique {s s₁ s₂ : Scheduler} {later : List (Call × Reply)}
    (h : Continues s later s₁) (h' : Continues s later s₂) : s₁ = s₂ := by
  induction h generalizing s₂ with
  | nil =>
    cases h'
    rfl
  | call continues calls ih =>
    cases h' with
    | call continues' calls' =>
      obtain rfl := ih continues'
      exact calls.unique calls'

theorem Continues.suffix {s s' : Scheduler} {earlier later : List (Call × Reply)}
    (h : Continues s later s') (hsub : earlier <:+ later) : ∃ s₀, Continues s earlier s₀ := by
  induction h with
  | nil =>
    rw [List.suffix_nil.mp hsub]
    exact ⟨s,.nil⟩
  | call continues calls ih =>
    rcases List.suffix_cons_iff.mp hsub with rfl | hsub
    · exact ⟨_,.call continues calls⟩
    · exact ih hsub

theorem Reaches.continues {config : SchedulerConfig} {clock : Nat → Timestamp}
    {history later : List (Call × Reply)} {s s' : Scheduler} (h : Reaches config clock history s)
    (hc : Continues s later s') : Reaches config clock (later ++ history) s' := by
  induction hc with
  | nil => exact h
  | call _ calls ih => exact .call ih calls

/-- The labels a call may show. -/
def Call.Shows : Call → Label → Prop
  | .submit specs,.submit id => id ∈ specs.map RequestSpec.requestId
  | .plan _,ℓ => ℓ.ofPlan
  | .advance events,ℓ => ∃ ev ∈ events, ev.Shows ℓ
  | _,_ => False

/-- What is left of a plan in the labels: its write-backs, and what it loads back. -/
def Reply.Fits : Reply → List Label → Prop
  | .plan p,ls => issuedOf ls = p.writeBack ∧
      ∀ op ∈ p.loadBack, ∃ loads, Label.internal loads ∈ ls ∧ op.transfers ⊆ loads
  | _,_ => True

section Refinement

variable {s s' : Scheduler} {c : Call} {reply : Reply} {ls : List Label} {A : Label → Prop}

/-- A loop of operations that are made of transitions. -/
theorem runs_forM_steps {α : Type} {g : α → Sched PUnit} {as : List α} (h : Sound s)
    (hg : ∀ x ∈ as, ∀ s, Sound s → Runs (g x) s (fun _ s' => ∃ ls, Steps s ls s' ∧ ∀ ℓ ∈ ls, A ℓ)
      (Stops A s)) :
    Runs (as.forM g) s (fun _ s' => ∃ ls, Steps s ls s' ∧ ∀ ℓ ∈ ls, A ℓ) (Stops A s) := by
  refine (runs_forM g (fun rest s' => rest ⊆ as ∧ ∃ ls, Steps s ls s' ∧ ∀ ℓ ∈ ls, A ℓ) ?_ as
    ⟨fun _ hx => hx,[],.nil,by simp⟩).imp (fun _ _ hi => hi.2) fun _ _ he => he
  rintro x rest s₁ ⟨hsub,ls,hs,hls⟩
  refine (hg x (hsub List.mem_cons_self) s₁ (hs.sound h)).imp ?_ fun e s' hstop => hstop.after hs hls
  rintro _ s₂ ⟨ls',hs',hls'⟩
  refine ⟨fun y hy => hsub (List.mem_cons_of_mem _ hy),ls ++ ls',hs.append hs',fun ℓ hℓ => ?_⟩
  exact (List.mem_append.mp hℓ).elim (hls ℓ) (hls' ℓ)

theorem submitRequest_runs (spec : RequestSpec) :
    Runs (submitRequest spec) s
      (fun _ s' => ∃ ls, Steps s ls s' ∧ ∀ ℓ ∈ ls, ℓ = .submit spec.requestId)
      (Stops (fun ℓ => ℓ = .submit spec.requestId) s) := by
  unfold submitRequest
  by_cases hlen : spec.prefillLength < -1 ∨ (spec.tokens.length : Int) < spec.prefillLength
  · rw [if_pos hlen]
    exact ⟨[],.nil,by simp⟩
  rw [if_neg hlen]
  refine (runs_bind _).mpr (runs_get.mpr ?_)
  by_cases hsome : (s.findRequest spec.requestId).isSome
  · rw [if_pos hsome]
    exact ⟨[],.nil,by simp⟩
  rw [if_neg hsome]
  refine (runs_set _).mpr ?_
  refine ⟨_,Steps.single (.submit rfl ?_),by simp⟩
  intro hmem
  obtain ⟨x,hx,hxid⟩ := List.mem_map.mp hmem
  refine hsome ?_
  rw [Scheduler.findRequest,List.find?_isSome]
  exact ⟨x,hx,by simpa using hxid⟩

/-- Every call is made of transitions that show what the call is for. -/
theorem runCall_runs (h : Sound s) (ho : c.Ordered s) :
    Runs (runCall c) s (fun reply s' => ∃ ls, Steps s ls s' ∧ (∀ ℓ ∈ ls, c.Shows ℓ) ∧ reply.Fits ls)
      (Stops c.Shows s) := by
  cases c with
  | submit specs =>
    have hsub : Runs (submitRequests specs) s
        (fun _ s' => ∃ ls, Steps s ls s' ∧ ∀ ℓ ∈ ls, (Call.submit specs).Shows ℓ)
        (Stops (Call.submit specs).Shows s) := by
      refine runs_forM_steps h fun spec hspec s₁ _ => ?_
      have hshow : ∀ ℓ, ℓ = Label.submit spec.requestId → (Call.submit specs).Shows ℓ := by
        rintro ℓ rfl
        exact List.mem_map.mpr ⟨spec,hspec,rfl⟩
      refine (submitRequest_runs spec).imp ?_ fun _ _ hs => hs.mono hshow
      rintro _ s₂ ⟨ls,hs,hls⟩
      exact ⟨ls,hs,fun ℓ hℓ => hshow ℓ (hls ℓ hℓ)⟩
    refine Runs.bind hsub ?_
    rintro _ s₁ ⟨ls,hs,hls⟩
    exact ⟨ls,hs,hls,trivial⟩
  | plan order =>
    have hids : ∀ id ∈ order, id ∈ s.requests.map Request.id := fun id hid => ho.mem_iff.mp hid
    refine Runs.bind ((nextExecutionPlan_runs h hids).imp (fun _ _ hq => hq) ?_) ?_
    · rintro e s₁ ⟨hstop,_⟩
      exact hstop
    · rintro p s₁ ⟨ops,s₂,res,hp,rfl⟩
      obtain ⟨ls,hs,hls,hiss,hload⟩ := hp.steps
      exact ⟨ls,hs,hls,hiss,hload⟩
  | advance events =>
    have hadv : Runs (advance events) s
        (fun _ s' => ∃ ls, Steps s ls s' ∧ ∀ ℓ ∈ ls, (Call.advance events).Shows ℓ)
        (Stops (Call.advance events).Shows s) := by
      refine runs_forM_steps h fun ev hev s₁ hs₁ => ?_
      refine (handleEvent_runs hs₁ ev).imp ?_ fun _ _ hs => hs.mono fun ℓ hℓ => ⟨ev,hev,hℓ⟩
      rintro _ s₂ ⟨ls,hs,hls⟩
      exact ⟨ls,hs,fun ℓ hℓ => ⟨ev,hev,hls ℓ hℓ⟩⟩
    refine Runs.bind hadv ?_
    rintro _ s₁ ⟨ls,hs,hls⟩
    exact ⟨ls,hs,hls,trivial⟩

theorem Calls.steps (h : Calls s c reply s') (hs : Sound s) :
    ∃ ls, Steps s ls s' ∧ (∀ ℓ ∈ ls, c.Shows ℓ) ∧ reply.Fits ls := by
  cases h with
  | returns ordered run => exact (runCall_runs hs ordered).of_ok run
  | throws ordered run =>
    obtain ⟨ls,hls,hshow⟩ := (runCall_runs hs ordered).of_error run
    exact ⟨ls,hls,hshow,trivial⟩

/-- No call ever unlocks a node that has no resource of the tier. -/
theorem unlock_defined (hs : Sound s) (ordered : c.Ordered s) :
    runCall c s ≠ .error (.undefined .unlockNullResource) s' := fun run =>
  (runCall_runs hs ordered).of_error run rfl

end Refinement

/-- The invariant holds in every state that is reached. -/
theorem Reaches.sound {config : SchedulerConfig} {clock : Nat → Timestamp}
    {history : List (Call × Reply)} {s : Scheduler} (h : Reaches config clock history s) :
    Sound s := by
  induction h with
  | new => exact sound_new config clock
  | call _ calls ih =>
    obtain ⟨ls,hs,_⟩ := calls.steps ih
    exact hs.sound ih

/-- What every transition keeps holds in every state that is reached. -/
theorem Reaches.invariant {config : SchedulerConfig} {clock : Nat → Timestamp}
    {history : List (Call × Reply)} {s : Scheduler} {I : Scheduler → Prop}
    (hnew : I (Scheduler.new config clock))
    (hstep : ∀ {s ℓ s'}, Sound s → I s → Step s ℓ s' → I s') (h : Reaches config clock history s) :
    I s := by
  induction h with
  | new => exact hnew
  | call reaches calls ih =>
    obtain ⟨ls,hs,_⟩ := calls.steps reaches.sound
    exact (hs.invariant (I := fun s => Sound s ∧ I s)
      (fun hI step => ⟨step.sound hI.1,hstep hI.1 hI.2 step⟩) ⟨reaches.sound,ih⟩).2

theorem Reaches.config_eq {config : SchedulerConfig} {clock : Nat → Timestamp}
    {history : List (Call × Reply)} {s : Scheduler} (h : Reaches config clock history s) :
    s.config = config :=
  h.invariant (I := fun s => s.config = config) rfl fun _ hI step => step.config_eq.trans hI

section Replay

variable {config : SchedulerConfig} {clock : Nat → Timestamp} {calls : List Call}
  {history history' : List (Call × Reply)} {s s' : Scheduler}

instance (s : Scheduler) (c : Call) : Decidable (c.Ordered s) :=
  match c with
  | .plan order => inferInstanceAs (Decidable (order.Perm (s.requests.map Request.id)))
  | .submit _ => .isTrue trivial
  | .advance _ => .isTrue trivial

/-- Make one more call; an impossible order and undefined behaviour give nothing. -/
def replayCall (x : List (Call × Reply) × Scheduler) (c : Call) :
    Option (List (Call × Reply) × Scheduler) :=
  if c.Ordered x.2 then
    match runCall c x.2 with
    | .ok reply s' => some ((c,reply) :: x.1,s')
    | .error (.exception e) s' => some ((c,.threw e) :: x.1,s')
    | .error (.undefined _) _ => none
  else none

/-- Make the calls one after the other. -/
def replayFrom : List Call → List (Call × Reply) × Scheduler → Option (List (Call × Reply) × Scheduler)
  | [],x => some x
  | c::cs,x => (replayCall x c).bind (replayFrom cs)

def replay (config : SchedulerConfig) (clock : Nat → Timestamp) (calls : List Call) :
    Option (List (Call × Reply) × Scheduler) := replayFrom calls ([],Scheduler.new config clock)

theorem calls_of_replayCall {c : Call} (hc : replayCall (history,s) c = some (history',s')) :
    ∃ reply, history' = (c,reply) :: history ∧ Calls s c reply s' := by
  unfold replayCall at hc
  split at hc
  · next ho =>
    split at hc
    · next run =>
      cases hc
      exact ⟨_,rfl,.returns ho run⟩
    · next run =>
      cases hc
      exact ⟨_,rfl,.throws ho run⟩
    · cases hc
  · cases hc

theorem calls_of_replayCall_eq {c : Call} {reply : Reply} {x y : List (Call × Reply) × Scheduler}
    (hc : replayCall x c = some y) (hy : y.1 = (c,reply) :: x.1) : Calls x.2 c reply y.2 := by
  obtain ⟨history,s⟩ := x
  obtain ⟨history',s'⟩ := y
  obtain ⟨reply',hreply,hcalls⟩ := calls_of_replayCall hc
  dsimp only at hy
  rw [hreply,List.cons.injEq,Prod.mk.injEq] at hy
  rw [← hy.1.2]
  exact hcalls

theorem reaches_of_replayCall {c : Call} (h : Reaches config clock history s)
    (hc : replayCall (history,s) c = some (history',s')) : Reaches config clock history' s' := by
  obtain ⟨reply,rfl,calls⟩ := calls_of_replayCall hc
  exact .call h calls

theorem reaches_of_replayFrom (h : Reaches config clock history s)
    (hc : replayFrom calls (history,s) = some (history',s')) : Reaches config clock history' s' := by
  induction calls generalizing history s with
  | nil =>
    cases hc
    exact h
  | cons c cs ih =>
    obtain ⟨⟨history₁,s₁⟩,hone,hrest⟩ := Option.bind_eq_some_iff.mp hc
    exact ih (reaches_of_replayCall h hone) hrest

theorem continues_of_replayFrom {later : List (Call × Reply)} {s₁ : Scheduler}
    (h : Continues s later s₁) (hc : replayFrom calls (later,s₁) = some (history',s')) :
    Continues s history' s' := by
  induction calls generalizing later s₁ with
  | nil =>
    cases hc
    exact h
  | cons c cs ih =>
    obtain ⟨⟨later₁,s₂⟩,hone,hrest⟩ := Option.bind_eq_some_iff.mp hc
    obtain ⟨reply,rfl,hcalls⟩ := calls_of_replayCall hone
    exact ih (.call h hcalls) hrest

theorem reaches_of_replay (h : replay config clock calls = some (history,s)) :
    Reaches config clock history s := reaches_of_replayFrom .new h

/-- A replay that comes to an end with a property reaches a state with the property. -/
theorem exists_reaches {P : List (Call × Reply) → Scheduler → Prop}
    (h : ∃ x, replay config clock calls = some x ∧ P x.1 x.2) :
    ∃ history s, Reaches config clock history s ∧ P history s := by
  obtain ⟨⟨history,s⟩,hx,hP⟩ := h
  exact ⟨history,s,reaches_of_replay hx,hP⟩

end Replay

end FluxServe
