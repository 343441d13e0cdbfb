import FluxServe.Scheduler.Turns
import FluxServe.Scheduler.WriteBackPins

namespace FluxServe

variable {config : SchedulerConfig} {clock : Nat → Timestamp} {history : List (Call × Reply)}
  {s s₁ s' : Scheduler} {r x : Request} {st' : RequestState} {fresh : List NodeId} {ℓ : Label}
  {ops : List WriteBackOperation} {order : List RequestId}
  {res : List ForwardOperation × CacheOperations}

section Draining

/-- Every request that drains has something to copy. -/
def Copying (s : Scheduler) : Prop := ∀ r ∈ s.requests, ∀ d h, r.state ≠ .draining [] d h

theorem Move.copying (h : Move r st' fresh s s') (hst : ∀ d n, st' ≠ .draining [] d n)
    (hs : Copying s) : Copying s' := by
  intro x hx
  obtain ⟨y,_,_,rfl⟩ | ⟨hold,_⟩ := h.mem_requests.mp hx
  · exact hst
  · exact hs x hold

theorem not_draining_of_forward {f : ForwardState} (h : st'.forward? = some f) (d n : NodeId) :
    st' ≠ .draining [] d n := by
  intro hst
  rw [hst] at h
  cases h

theorem Step.copying (h : Step s ℓ s') (hs : Copying s) : Copying s' := by
  cases h with
  | cache move =>
    unfold Copying
    rw [move.requests]
    exact hs
  | forward _ after move | recover _ after move => exact move.copying (not_draining_of_forward after) hs
  | record | opId | untrack | ignored => exact hs
  | extend =>
    intro x hx
    obtain ⟨y,hy,rfl⟩ := List.mem_map.mp hx
    split <;> exact hs y hy
  | erase => exact fun x hx => hs x (List.mem_filter.mp hx).1
  | submit state =>
    intro x hx d n
    obtain hx | hx := List.mem_append.mp hx
    · exact hs x hx d n
    · rw [List.mem_singleton.mp hx,state]
      simp
  | drain _ move _ some =>
    apply move.copying ?_ hs
    intro d n heq
    injection heq with hpairs
    exact some hpairs
  | finished _ move | keepWriting _ move | aborted _ move | discarded _ move | gaveUp _ _ move
  | retractDone _ move => exact move.copying (by simp) hs
  | issueDrained _ _ move | retractIssue _ _ move =>
    exact move.copying (by simp) hs
  | written _ _ move | retracted _ _ move =>
    exact move.copying (by simp) hs

theorem copying_new (config : SchedulerConfig) (clock : Nat → Timestamp) :
    Copying (Scheduler.new config clock) := by
  intro r hr
  cases hr

theorem Reaches.copying (h : Reaches config clock history s) : Copying s :=
  h.invariant (copying_new config clock) fun _ hI hstep => hstep.copying hI

end Draining

section Commits

theorem Commits.copying (h : Commits order s ops s₁) (hc : Copying s) : Copying s₁ := by
  obtain ⟨ls,hsteps,_⟩ := h.steps
  exact hsteps.invariant (fun hI hstep => hstep.copying hI) hc

theorem committed_eq (h : ∀ p d n, r.state ≠ .draining p d n) : r.committed = r := by
  obtain ⟨_,_,_,st⟩ := r
  cases st with
  | draining p d n => exact absurd rfl (h p d n)
  | _ => rfl

/-- The write-backs of a plan leave the tree alone, and every request that serves. -/
theorem Commits.tree_eq (h : Commits order s ops s₁) (hc : Copying s) :
    s₁.kv.tree = s.kv.tree := by
  obtain ⟨_,n,hkv⟩ := h.kv hc
  rw [hkv]

theorem Commits.found (h : Commits order s ops s₁) (hc : Copying s) (hx : x ∈ s₁.requests)
    (hst : ∀ d n, x.state ≠ .writingBack (some d) n) : x ∈ s.requests := by
  rw [h.requests hc] at hx
  obtain ⟨r,hr,rfl⟩ := List.mem_map.mp hx
  split
  · next hid =>
    rw [if_pos hid] at hst
    rw [committed_eq]
    · exact hr
    · intro p d n hdrain
      apply hst d n
      simp [Request.committed,RequestState.committed,hdrain]
  · exact hr

theorem Commits.turn (h : Commits order s ops s₁) (hs : Sound s) (hc : Copying s) :
    Turn s [] s₁ := by
  obtain ⟨ls,hsteps,_⟩ := h.steps
  refine ⟨hsteps.sound hs,h.config,fun x hx => ?_⟩
  by_cases hst : ∃ d n, x.state = .writingBack (some d) n
  · obtain ⟨d,n,hst⟩ := hst
    exact .left (by rw [hst]; rfl) rfl
  · refine .same (h.found hc hx fun d n heq => hst ⟨d,n,heq⟩) ?_ (by simp)
    exact keepsPaths_of_tree x (h.tree_eq hc)

end Commits

theorem erased_turn (hs : Sound s) : Turn s [] s.erased := by
  refine ⟨hs.erase,rfl,fun x hx => ?_⟩
  exact .same (List.mem_filter.mp hx).1 (keepsPaths_of_tree x rfl) (by simp)

/-- The rows of a plan are those of its turns, the prefill rows first. -/
theorem Planned.turns (h : Planned order s ops s₁ res s') (hs : Sound s) (hc : Copying s) :
    ∃ rows, Turns s rows s' ∧
      (planOf ops res).forward = rows.filter ForwardOperation.isPrefill ++
        rows.filter fun op => !op.isPrefill := by
  have hturn := h.commits.turn hs hc
  have herased := erased_turn hturn.sound
  have hfront : Turns s [] s₁.erased := .cons hturn (.single herased)
  cases h.forwards with
  | rows visits =>
    obtain ⟨rows,hturns,hops⟩ := visits.turns herased.sound
    refine ⟨rows,hfront.append hturns,?_⟩
    rw [List.nil_append] at hops
    rw [planOf,hops]
  | retract visits _ empty longest run =>
    obtain ⟨rows,hturns,hops⟩ := visits.turns herased.sound
    obtain rfl : rows = [] := by
      rw [List.nil_append] at hops
      rw [← hops,empty]
    have hvictim := (List.mem_filter.mp (mem_of_longest longest)).2
    exact ⟨[],(hfront.append hturns).append (.single (run.1.turn hvictim)),rfl⟩

end FluxServe
