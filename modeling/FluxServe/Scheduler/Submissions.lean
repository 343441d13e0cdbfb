import FluxServe.Scheduler.BlockAligned

namespace FluxServe

variable {config : SchedulerConfig} {clock : Nat → Timestamp}
  {history later : List (Call × Reply)} {s s' s₁ s₂ : Scheduler} {r x : Request}
  {spec : RequestSpec} {specs : List RequestSpec} {requests : List Request} {reply : Reply}
  {id : RequestId}

/-- `emplace`: the request of a specification, unless one has its id. -/
def enroll (requests : List Request) (spec : RequestSpec) : List Request :=
  if ∃ r ∈ requests, r.id = spec.requestId then requests else requests ++ [spec.request]

theorem enroll_held (h : ∃ r ∈ requests, r.id = spec.requestId) : enroll requests spec = requests :=
  if_pos h

theorem enroll_free (h : ∀ r ∈ requests, r.id ≠ spec.requestId) :
    enroll requests spec = requests ++ [spec.request] := by
  apply if_neg
  rintro ⟨r,hr,hid⟩
  exact h r hr hid

theorem mem_enroll (h : r ∈ requests) : r ∈ enroll requests spec := by
  unfold enroll
  split
  · exact h
  · exact List.mem_append_left _ h

theorem mem_enrolled (h : r ∈ requests) : r ∈ specs.foldl enroll requests := by
  induction specs generalizing requests with
  | nil => exact h
  | cons spec specs ih => exact ih (mem_enroll h)

/-- A request is there from before, or from the first specification with its id. -/
theorem enrolled_cases (h : x ∈ specs.foldl enroll requests) :
    x ∈ requests ∨ (∀ r ∈ requests, r.id ≠ x.id) ∧
      ∃ spec, specs.find? (fun y => y.requestId = x.id) = some spec ∧ x = spec.request := by
  induction specs generalizing requests with
  | nil => exact .inl h
  | cons spec specs ih =>
    by_cases hheld : ∃ r ∈ requests, r.id = spec.requestId
    · rw [List.foldl_cons,enroll_held hheld] at h
      obtain hold | ⟨hfree,first,hfirst,hx⟩ := ih h
      · exact .inl hold
      · refine .inr ⟨hfree,first,?_,hx⟩
        obtain ⟨r,hr,hid⟩ := hheld
        rw [List.find?_cons_of_neg,hfirst]
        simpa [← hid] using hfree r hr
    · have hfree : ∀ r ∈ requests, r.id ≠ spec.requestId := fun r hr hid => hheld ⟨r,hr,hid⟩
      rw [List.foldl_cons,enroll_free hfree] at h
      obtain hmem | ⟨hids,first,hfirst,hx⟩ := ih h
      · obtain hold | hnew := List.mem_append.mp hmem
        · exact .inl hold
        · obtain rfl := List.mem_singleton.mp hnew
          exact .inr ⟨hfree,spec,List.find?_cons_of_pos (decide_eq_true rfl),rfl⟩
      · refine .inr ⟨fun r hr => hids r (List.mem_append_left _ hr),first,?_,hx⟩
        have hne := hids spec.request (List.mem_append_right _ List.mem_cons_self)
        rw [List.find?_cons_of_neg,hfirst]
        simpa [RequestSpec.request] using hne

theorem enrolled_first (hfree : ∀ r ∈ requests, r.id ≠ id)
    (hfirst : specs.find? (fun y => y.requestId = id) = some spec) :
    spec.request ∈ specs.foldl enroll requests := by
  induction specs generalizing requests with
  | nil => cases hfirst
  | cons x specs ih =>
    by_cases hid : x.requestId = id
    · simp only [List.find?_cons,hid,decide_true,Option.some.injEq] at hfirst
      subst hfirst hid
      rw [List.foldl_cons,enroll_free hfree]
      exact mem_enrolled (List.mem_append_right _ List.mem_cons_self)
    · rw [List.find?_cons_of_neg (by simpa using hid)] at hfirst
      apply ih _ hfirst
      intro r hr
      unfold enroll at hr
      split at hr
      · exact hfree r hr
      · obtain hold | hnew := List.mem_append.mp hr
        · exact hfree r hold
        · rw [List.mem_singleton.mp hnew]
          exact hid

theorem submitRequest_enrolls (spec : RequestSpec) (s : Scheduler) :
    Runs (submitRequest spec) s
      (fun _ s' => s' = { s with requests := enroll s.requests spec })
      (fun _ _ => ¬spec.Accepted) := by
  unfold submitRequest
  by_cases hlen : spec.prefillLength < -1 ∨ (spec.tokens.length : Int) < spec.prefillLength
  · rw [if_pos hlen]
    rintro ⟨hleast,hmost⟩
    omega
  · rw [if_neg hlen]
    apply (runs_bind _).mpr
    rw [runs_get]
    cases hfind : s.findRequest spec.requestId with
    | some r =>
      obtain ⟨hr,hid⟩ := findRequest_some hfind
      rw [Option.isSome_some,if_pos rfl,runs_pure,enroll_held ⟨r,hr,hid⟩]
    | none =>
      have hfree : ∀ r ∈ s.requests, r.id ≠ spec.requestId := by
        intro r hr
        simpa using List.find?_eq_none.mp hfind r hr
      rw [Option.isSome_none,if_neg Bool.false_ne_true,enroll_free hfree]
      rfl

theorem submitRequests_enroll (specs : List RequestSpec) (s : Scheduler) :
    Runs (submitRequests specs) s
      (fun _ s' => s' = { s with requests := specs.foldl enroll s.requests })
      (fun _ _ => ∃ spec ∈ specs, ¬spec.Accepted) := by
  induction specs generalizing s with
  | nil => exact rfl
  | cons spec specs ih =>
    have hone := submitRequest_enrolls spec s
    refine (hone.imp (fun _ _ h => h) fun _ _ h => ⟨spec,List.mem_cons_self,h⟩).bind ?_
    intro _ s₁ hs₁
    rw [hs₁]
    refine (ih _).imp (fun _ _ h => h) ?_
    rintro _ _ ⟨spec',hspec,h⟩
    exact ⟨spec',List.mem_cons_of_mem _ hspec,h⟩

/-- A submission that comes back. -/
theorem Calls.enrolls (h : Calls s (.submit specs) .done s') :
    s'.requests = specs.foldl enroll s.requests := by
  cases h with
  | returns _ run =>
    have hruns : Runs (runCall (.submit specs)) s
        (fun _ s' => s' = { s with requests := specs.foldl enroll s.requests }) (fun _ _ => True) :=
      Runs.bind ((submitRequests_enroll specs s).imp (fun _ _ h => h) fun _ _ _ => trivial)
        fun _ _ h => h
    rw [hruns.of_ok run]

/-- It comes back when the constructors of the requests do. -/
theorem Calls.submit_done (h : Calls s (.submit specs) reply s')
    (haccepted : ∀ spec ∈ specs, spec.Accepted) : reply = .done := by
  have hruns : Runs (runCall (.submit specs)) s (fun reply _ => reply = .done)
      (fun _ _ => ∃ spec ∈ specs, ¬spec.Accepted) :=
    (submitRequests_enroll specs s).bind fun _ _ _ => rfl
  cases h with
  | returns _ run => exact hruns.of_ok run
  | throws _ run =>
    obtain ⟨spec,hspec,hno⟩ := hruns.of_error run
    exact absurd (haccepted spec hspec) hno

/-- No request has the id of the specification, not even a finished one, and the first
specification of the call with this id gives the same request. -/
def Admits (s : Scheduler) (specs : List RequestSpec) (spec : RequestSpec) : Prop :=
  (∀ r ∈ s.requests, r.id ≠ spec.requestId) ∧
    ∃ first, specs.find? (fun y => y.requestId = spec.requestId) = some first ∧
      first.request = spec.request

theorem submitted_iff (h : Calls s (.submit specs) .done s')
    (hfree : ∀ r ∈ s.requests, r.id = spec.requestId → r.state = .finished) :
    spec.request ∈ s'.requests ↔ Admits s specs spec := by
  rw [h.enrolls]
  constructor
  · intro hmem
    obtain hold | ⟨hids,first,hfirst,hsame⟩ := enrolled_cases hmem
    · have hstate := hfree _ hold rfl
      cases hstate
    · exact ⟨hids,first,hfirst,hsame.symm⟩
  · rintro ⟨hids,first,hfirst,hsame⟩
    rw [← hsame]
    exact enrolled_first hids hfirst

theorem Continues.steps (h : Continues s later s') (hs : Sound s) : ∃ ls, Steps s ls s' := by
  induction h with
  | nil => exact ⟨[],.nil⟩
  | call continues calls ih =>
    obtain ⟨ls,hls⟩ := ih
    obtain ⟨ls',hls',_⟩ := calls.steps (hls.sound hs)
    exact ⟨ls ++ ls',hls.append hls'⟩

/-- A request stays in service, with its tokens, until it is finished, aborted or given up. -/
theorem Continues.onward (h : Continues s later s') (hs : Sound s) (hr : r ∈ s.requests)
    (hin : r.state.inService = true) :
    (∃ r' ∈ s'.requests, r.Onward r') ∨ ∃ ls₁ x ℓ y ls₂, Steps s ls₁ x ∧ Step x ℓ y ∧
      Steps y ls₂ s' ∧ ℓ.ends r.id := by
  obtain ⟨ls,hls⟩ := h.steps hs
  obtain hon | ⟨ls₁,x,ℓ,y,ls₂,h₁,h₂,h₃,hends,_⟩ := hls.onward hs hr hin
  · exact .inl hon
  · exact .inr ⟨ls₁,x,ℓ,y,ls₂,h₁,h₂,h₃,hends⟩

end FluxServe
