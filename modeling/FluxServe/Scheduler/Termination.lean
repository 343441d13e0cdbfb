import FluxServe.Scheduler.Conservation

namespace FluxServe

open KVPrefixCache

variable {s s' s₁ : Scheduler} {r r₀ : Request} {st' : RequestState} {ℓ : Label} {ls : List Label}
  {fresh : List NodeId}

/-- A request that was neither finished nor aborted yet. -/
def RequestState.inService : RequestState → Bool
  | submitted => true
  | prefilling _ _ => true
  | prefillDone _ _ _ => true
  | decoding _ _ => true
  | retracting _ _ _ _ => true
  | retracted _ _ => true
  | _ => false

theorem inService_of_forward {st : RequestState} {f : ForwardState} (h : st.forward? = some f) :
    st.inService = true := by
  cases st <;> first | rfl | cases h

def Label.ends (id : RequestId) : Label → Prop
  | .finish id' => id' = id
  | .abort id' => id' = id
  | .giveUp id' => id' = id
  | _ => False

/-- The request with the id is still in service. -/
def Serves (id : RequestId) (s : Scheduler) : Prop :=
  ∃ r ∈ s.requests, r.id = id ∧ r.state.inService = true

/-- A request as it is later: still in service, with its tokens and perhaps more. -/
structure Request.Onward (r r' : Request) : Prop where
  id : r'.id = r.id
  inService : r'.state.inService = true
  tokens : r.tokens <+: r'.tokens
  prefillSize : r'.prefillSize = r.prefillSize

theorem Request.Onward.refl (h : r.state.inService = true) : r.Onward r :=
  ⟨rfl,h,List.prefix_rfl,rfl⟩

theorem Request.Onward.trans {r₁ r₂ r₃ : Request} (h : r₁.Onward r₂) (h' : r₂.Onward r₃) :
    r₁.Onward r₃ :=
  ⟨h'.id.trans h.id,h'.inService,h.tokens.trans h'.tokens,h'.prefillSize.trans h.prefillSize⟩

/-- A move serves on unless it takes the request itself out of service. -/
theorem Move.onward (h : Move r₀ st' fresh s s')
    (hst : r₀.id = r.id → r₀.state.inService = true → st'.inService = true)
    (hs : (s.requests.map Request.id).Nodup) (hr : r ∈ s.requests)
    (hin : r.state.inService = true) : ∃ r' ∈ s'.requests, r.Onward r' := by
  by_cases heq : r.id = r₀.id
  · obtain rfl : r = r₀ := List.inj_on_of_nodup_map hs hr h.found heq
    refine ⟨{ r with state := st' },?_,rfl,hst rfl hin,List.prefix_rfl,rfl⟩
    rw [h.requests]
    exact List.mem_map.mpr ⟨r,hr,if_pos rfl⟩
  · refine ⟨r,?_,.refl hin⟩
    rw [h.requests]
    exact List.mem_map.mpr ⟨r,hr,if_neg heq⟩

theorem Step.onward (h : Step s ℓ s') (hs : Sound s) (hr : r ∈ s.requests)
    (hin : r.state.inService = true) (hℓ : ¬ℓ.ends r.id) : ∃ r' ∈ s'.requests, r.Onward r' := by
  have hids := hs.ids
  cases h with
  | cache move => exact ⟨r,by rwa [move.requests],.refl hin⟩
  | forward _ after move => exact move.onward (fun _ _ => inService_of_forward after) hids hr hin
  | recover _ after move => exact move.onward (fun _ _ => inService_of_forward after) hids hr hin
  | record | opId | untrack | ignored => exact ⟨r,hr,.refl hin⟩
  | extend =>
    refine ⟨_,List.mem_map.mpr ⟨r,hr,rfl⟩,?_⟩
    split
    · exact ⟨rfl,hin,List.prefix_append _ _,rfl⟩
    · exact .refl hin
  | erase =>
    refine ⟨r,List.mem_filter.mpr ⟨hr,?_⟩,.refl hin⟩
    rw [decide_eq_true_iff]
    intro hst
    rw [hst] at hin
    cases hin
  | submit => exact ⟨r,List.mem_append_left _ hr,.refl hin⟩
  | finished _ move => exact move.onward (fun hid _ => (hℓ hid).elim) hids hr hin
  | drain _ move => exact move.onward (fun hid _ => (hℓ hid).elim) hids hr hin
  | keepWriting _ move => exact move.onward (fun hid _ => (hℓ hid).elim) hids hr hin
  | aborted _ move => exact move.onward (fun hid _ => (hℓ hid).elim) hids hr hin
  | gaveUp _ _ move => exact move.onward (fun hid _ => (hℓ hid).elim) hids hr hin
  | discarded before move =>
    exact move.onward (fun _ hin => by rw [before] at hin; cases hin) hids hr hin
  | issueDrained before _ move =>
    exact move.onward (fun _ hin => by rw [before] at hin; cases hin) hids hr hin
  | retractDone _ move => exact move.onward (fun _ _ => rfl) hids hr hin
  | retractIssue _ _ move => exact move.onward (fun _ _ => rfl) hids hr hin
  | written _ before move =>
    exact move.onward (fun _ hin => by rw [before] at hin; cases hin) hids hr hin
  | retracted _ _ move => exact move.onward (fun _ _ => rfl) hids hr hin

/-- A run serves a request on, or one of its transitions ends it. -/
theorem Steps.onward (h : Steps s ls s') (hs : Sound s) (hr : r ∈ s.requests)
    (hin : r.state.inService = true) :
    (∃ r' ∈ s'.requests, r.Onward r') ∨ ∃ ls₁ s₁ ℓ s₂ ls₂, Steps s ls₁ s₁ ∧ Step s₁ ℓ s₂ ∧
      Steps s₂ ls₂ s' ∧ ℓ.ends r.id ∧ ls = ls₁ ++ ℓ :: ls₂ := by
  induction h generalizing r with
  | nil => exact Or.inl ⟨r,hr,.refl hin⟩
  | cons step steps ih =>
    rename_i s s₁ s₂ ℓ ls
    by_cases hℓ : ℓ.ends r.id
    · exact Or.inr ⟨[],s,ℓ,s₁,ls,.nil,step,steps,hℓ,rfl⟩
    · obtain ⟨r₁,hr₁,hon₁⟩ := step.onward hs hr hin hℓ
      rcases ih (step.sound hs) hr₁ hon₁.inService with
        ⟨r₂,hr₂,hon₂⟩ | ⟨ls₁,x,ℓ',y,ls₂,h1,h2,h3,h4,h5⟩
      · exact Or.inl ⟨r₂,hr₂,hon₁.trans hon₂⟩
      · rw [hon₁.id] at h4
        exact Or.inr ⟨ℓ :: ls₁,x,ℓ',y,ls₂,.cons step h1,h2,h3,h4,by rw [h5]; rfl⟩

/-- The call passes a `Finish` or an `Abort` for the id. -/
def Call.Ends (id : RequestId) : Call → Prop
  | .advance events => .finish id ∈ events ∨ .abort id ∈ events
  | _ => False

/-- A plan that chose the request to be retracted, found that the host cannot take its pages, and
aborted it. -/
structure GivesUp (id : RequestId) (s : Scheduler) (c : Call) (reply : Reply) (s' : Scheduler) :
    Prop where
  calls : Calls s c reply s'
  plan : ∃ order, c = .plan order
  victim : ∃ ls x r f, Steps s ls x ∧ r ∈ x.requests ∧ r.id = id ∧ r.state.forward? = some f ∧
    HostFull x r

theorem Calls.onward {c : Call} {reply : Reply} (h : Calls s c reply s') (hs : Sound s)
    (hr : r ∈ s.requests) (hin : r.state.inService = true) :
    (∃ r' ∈ s'.requests, r.Onward r') ∨ c.Ends r.id ∨ GivesUp r.id s c reply s' := by
  obtain ⟨ls,hsteps,hshow,_⟩ := h.steps hs
  rcases hsteps.onward hs hr hin with hon | ⟨ls₁,x,ℓ,y,ls₂,h1,h2,h3,hend,rfl⟩
  · exact Or.inl hon
  generalize r.id = id at hend ⊢
  have hℓ := hshow ℓ (List.mem_append_right _ List.mem_cons_self)
  cases ℓ with
  | giveUp id' =>
    obtain rfl : id' = id := hend
    cases c with
    | plan order =>
      cases h2 with
      | gaveUp before full move =>
        exact Or.inr (Or.inr ⟨h,⟨order,rfl⟩,ls₁,x,_,_,h1,move.found,rfl,before,full⟩)
    | submit specs => exact hℓ.elim
    | advance events =>
      obtain ⟨ev,_,hev⟩ := hℓ
      cases ev <;> exact hev.elim
  | finish id' =>
    obtain rfl : id' = id := hend
    cases c with
    | plan order | submit specs => exact hℓ.elim
    | advance events =>
      obtain ⟨ev,hmem,hev⟩ := hℓ
      cases ev <;> first | exact hev.elim | skip
      obtain rfl := (hev : id' = _)
      exact Or.inr (Or.inl (Or.inl hmem))
  | abort id' =>
    obtain rfl : id' = id := hend
    cases c with
    | plan order | submit specs => exact hℓ.elim
    | advance events =>
      obtain ⟨ev,hmem,hev⟩ := hℓ
      cases ev <;> first | exact hev.elim | skip
      obtain rfl := (hev : id' = _)
      exact Or.inr (Or.inl (Or.inr hmem))
  | internal | submit | issue | complete => exact hend.elim

theorem Calls.serves {id : RequestId} {c : Call} {reply : Reply} (h : Calls s c reply s')
    (hs : Sound s) (hserves : Serves id s) : Serves id s' ∨ c.Ends id ∨ GivesUp id s c reply s' := by
  obtain ⟨r,hr,rfl,hin⟩ := hserves
  rcases h.onward hs hr hin with ⟨r',hr',hon⟩ | hend
  · exact Or.inl ⟨r',hr',hon.id,hon.inService⟩
  · exact Or.inr hend

instance (id : RequestId) (c : Call) : Decidable (c.Ends id) :=
  match c with
  | .advance events => inferInstanceAs (Decidable (.finish id ∈ events ∨ .abort id ∈ events))
  | .submit _ => .isFalse not_false
  | .plan _ => .isFalse not_false

section Run

variable {config : SchedulerConfig} {clock : Nat → Timestamp} {history later : List (Call × Reply)}

end Run

end FluxServe
