import FluxServe.Engine.DistributedExecutor
import Mathlib.Algebra.Group.Action.Defs
import Mathlib.Algebra.Order.BigOperators.Group.Finset
import Mathlib.Logic.Relation

namespace FluxServe.Engine

open Relation

/-- What rank 0 broadcasts for a list of calls, up to the shutdown. -/
def commands : List ExecutorCall → List Command
  | [] => []
  | call::rest =>
    match commandOf call with
    | .error _ => commands rest
    | .ok none => commands rest
    | .ok (some command) => command :: if call = .shutdown then [] else commands rest

/-- The commands a worker hands to its base executor when all of `cs` reach it. -/
def served (e : BaseExecutor) : List Command → e.State → List Command
  | [],_ => []
  | c::cs,s =>
    match callOf c with
    | .error _ => []
    | .ok call =>
      c :: if (e.run call s).1.isNone && c ≠ .shutdown then served e cs (e.run call s).2 else []

/-- Every forward plan is well formed, and the base executor raises on no command but the last. -/
def obeys (e : BaseExecutor) : List Command → e.State → Bool
  | [],_ => true
  | c::cs,s =>
    match callOf c with
    | .error _ => false
    | .ok call => cs.isEmpty || ((e.run call s).1.isNone && obeys e cs (e.run call s).2)

theorem commandOf_shutdown_iff {call : ExecutorCall} :
    commandOf call = .ok (some .shutdown) ↔ call = .shutdown := by
  constructor
  · intro h
    cases call with
    | startup => simp [commandOf,pure,Except.pure] at h
    | executeBatch requests => simp [commandOf,makeGenerateCommand,pure,Except.pure] at h
    | executeForwardPlan op statesById =>
      simp only [commandOf,makeForwardPlanCommand,bind,Except.bind,pure,Except.pure] at h
      split at h
      · cases h
      · rename_i command hc
        split at hc
        · cases hc
        · injection hc with hc
          subst hc
          simp at h
    | releaseRequests requestIds =>
      simp only [commandOf,pure,Except.pure] at h
      split at h <;> simp at h
    | shutdown => rfl
  · rintro rfl
    rfl

/-- A shutdown is the last command rank 0 broadcasts. -/
theorem commands_shutdown_last {calls : List ExecutorCall} {before after : List Command}
    (h : commands calls = before ++ .shutdown :: after) : after = [] := by
  induction calls generalizing before with
  | nil => simp [commands] at h
  | cons call rest ih =>
    unfold commands at h
    split at h
    · exact ih h
    · exact ih h
    · rename_i command hcall
      cases before with
      | nil =>
        have hcons := List.cons.inj h
        rw [hcons.1] at hcall
        rw [if_pos (commandOf_shutdown_iff.mp hcall)] at hcons
        exact hcons.2.symm
      | cons b before =>
        have htail := (List.cons.inj h).2
        split at htail
        · simp at htail
        · exact ih htail

/-- A worker serves a whole list exactly when it obeys it. -/
theorem served_eq_iff (e : BaseExecutor) {cs : List Command} (s : e.State)
    (hlast : ∀ before after, cs = before ++ .shutdown :: after → after = []) :
    served e cs s = cs ↔ obeys e cs s = true := by
  induction cs generalizing s with
  | nil => simp [served,obeys]
  | cons c cs ih =>
    have hrest : ∀ before after, cs = before ++ .shutdown :: after → after = [] :=
      fun before after h => hlast (c :: before) after (by rw [h]; rfl)
    cases hc : callOf c with
    | error err => simp [served,obeys,hc]
    | ok call =>
      simp only [served,obeys,hc,List.cons.injEq,true_and,Bool.or_eq_true,Bool.and_eq_true,
        List.isEmpty_iff]
      rw [← ih (e.run call s).2 hrest]
      by_cases hsd : c = .shutdown
      · obtain rfl := hlast [] cs (by rw [hsd]; rfl)
        simp [served]
      · cases hraised : (e.run call s).1 with
        | none => cases cs <;> simp [served,hsd]
        | some err => simp [hsd,eq_comm]

theorem served_commands_iff (e : BaseExecutor) (calls : List ExecutorCall) (s : e.State) :
    served e (commands calls) s = commands calls ↔ obeys e (commands calls) s = true :=
  served_eq_iff e s fun _ _ h => commands_shutdown_last h

section World

variable {leader : BaseExecutor} {n : Nat} {workers : Fin n → BaseExecutor}

/-- Rank 0 about to make `calls`, with every worker in its loop. -/
def World.start (calls : List ExecutorCall) (base : leader.State)
    (bases : (i : Fin n) → (workers i).State) : World leader n workers :=
  { todo := calls, base, workers := fun i => { base := bases i } }

/-- No rank can move any more. -/
def World.Complete (slack : Nat) (w : World leader n workers) : Prop :=
  ∀ w', ¬WorldStep slack w w'

/-- What is still to come from a worker. -/
def Worker.future (e : BaseExecutor) (w : Worker e.State) (cs : List Command) : List Command :=
  if w.listening then served e (w.inbox ++ cs) w.base else []

/-- What a step keeps: what was and is to be broadcast, what a worker processed and will process,
and that it never processes more than it was sent. -/
structure Keeping (all : List Command) (bases : (i : Fin n) → (workers i).State)
    (w : World leader n workers) : Prop where
  broadcast : w.sent ++ commands w.todo = all
  worker : ∀ i, (w.workers i).processed ++ (w.workers i).future (workers i) (commands w.todo) =
    served (workers i) all (bases i)
  bounded : ∀ i, (w.workers i).processed.length+(w.workers i).inbox.length ≤ w.sent.length

theorem keeping_start (calls : List ExecutorCall) (base : leader.State)
    (bases : (i : Fin n) → (workers i).State) :
    Keeping (commands calls) bases (World.start calls base bases : World leader n workers) := by
  constructor
  · rfl
  · intro i
    rfl
  · intro i
    exact Nat.le_refl 0

theorem Worker.future_inbox {e : BaseExecutor} (w : Worker e.State) (c : Command)
    (cs : List Command) :
    ({ w with inbox := w.inbox ++ [c] } : Worker e.State).future e cs = w.future e (c :: cs) := by
  simp [Worker.future]

/-- Taking a command from the inbox moves it from the future to the past. -/
theorem Worker.turn_future {e : BaseExecutor} {w : Worker e.State} {c : Command}
    {rest : List Command} (cs : List Command) (listening : w.listening = true)
    (inbox : w.inbox = c :: rest) :
    (w.turn e c rest).processed ++ (w.turn e c rest).future e cs =
      w.processed ++ w.future e cs := by
  rw [show w.future e cs = served e (c :: (rest ++ cs)) w.base by
    simp [Worker.future,listening,inbox]]
  unfold Worker.turn served
  cases callOf c with
  | error err => simp [Worker.future]
  | ok call => simp [Worker.future]

theorem Worker.turn_bounded {e : BaseExecutor} {w : Worker e.State} {c : Command}
    {rest : List Command} (inbox : w.inbox = c :: rest) :
    (w.turn e c rest).processed.length+(w.turn e c rest).inbox.length ≤
      w.processed.length+w.inbox.length := by
  unfold Worker.turn
  rw [inbox]
  cases callOf c with
  | error err => simp
  | ok call =>
    simp only [List.length_append,List.length_cons,List.length_nil]
    omega

theorem Keeping.step {slack : Nat} {all : List Command} {bases : (i : Fin n) → (workers i).State}
    {w w' : World leader n workers} (h : Keeping all bases w) (hs : WorldStep slack w w') :
    Keeping all bases w' := by
  cases hs with
  | @issue call rest todo ready =>
    have hbroadcast := h.broadcast
    have hworker := h.worker
    rw [todo] at hbroadcast hworker
    unfold commands at hbroadcast hworker
    unfold World.issue
    cases hc : commandOf call with
    | error err =>
      rw [hc] at hbroadcast hworker
      exact ⟨hbroadcast,hworker,h.bounded⟩
    | ok command =>
      rw [hc] at hbroadcast hworker
      cases command with
      | none => exact ⟨hbroadcast,hworker,h.bounded⟩
      | some command =>
        have htodo : commands (if call = .shutdown then [] else rest) =
            if call = .shutdown then [] else commands rest := by
          split <;> rfl
        constructor
        · dsimp only
          rw [htodo,List.append_assoc]
          exact hbroadcast
        · intro i
          dsimp only
          rw [Worker.future_inbox,htodo]
          exact hworker i
        · intro i
          have hi := h.bounded i
          simp only [List.length_append,List.length_cons,List.length_nil]
          omega
  | @receive i c rest listening inbox =>
    unfold World.receive
    constructor
    · exact h.broadcast
    · intro j
      dsimp only
      by_cases hj : j = i
      · subst hj
        rw [Function.update_self,Worker.turn_future _ listening inbox]
        exact h.worker j
      · rw [Function.update_of_ne hj]
        exact h.worker j
    · intro j
      dsimp only
      by_cases hj : j = i
      · subst hj
        rw [Function.update_self]
        exact (Worker.turn_bounded inbox).trans (h.bounded j)
      · rw [Function.update_of_ne hj]
        exact h.bounded j

theorem Keeping.run {slack : Nat} {all : List Command} {bases : (i : Fin n) → (workers i).State}
    {w w' : World leader n workers} (h : Keeping all bases w)
    (hs : ReflTransGen (WorldStep slack) w w') : Keeping all bases w' := by
  induction hs with
  | refl => exact h
  | tail _ hstep ih => exact ih.step hstep

/-- A worker that has processed everything has nothing left in its inbox. -/
theorem Keeping.inbox_nil {all : List Command} {bases : (i : Fin n) → (workers i).State}
    {w : World leader n workers} (h : Keeping all bases w) {i : Fin n}
    (hp : (w.workers i).processed = all) : (w.workers i).inbox = [] := by
  have hb := h.bounded i
  have hlen : w.sent.length ≤ all.length := by
    rw [← h.broadcast,List.length_append]
    exact Nat.le_add_right _ _
  rw [hp] at hb
  apply List.eq_nil_of_length_eq_zero
  omega

/-- How many steps are left at most: every broadcast is received once by each worker. -/
def World.left (w : World leader n workers) : Nat :=
  (n+1)*w.todo.length+∑ i, (w.workers i).inbox.length

theorem WorldStep.left_lt {slack : Nat} {w w' : World leader n workers}
    (hs : WorldStep slack w w') : w'.left < w.left := by
  cases hs with
  | @issue call rest todo ready =>
    have hrest : (n+1)*(call :: rest).length = (n+1)*rest.length+(n+1) := by
      rw [List.length_cons,Nat.mul_succ]
    unfold World.left World.issue
    rw [todo,hrest]
    split
    · dsimp only
      omega
    · dsimp only
      omega
    · have hle : (n+1)*(if call = .shutdown then [] else rest).length ≤ (n+1)*rest.length := by
        apply Nat.mul_le_mul_left
        split
        · exact Nat.zero_le _
        · exact Nat.le_refl _
      simp only [List.length_append,List.length_cons,List.length_nil,Finset.sum_add_distrib,
        Finset.sum_const,Finset.card_univ,Fintype.card_fin,smul_eq_mul,
        Nat.zero_add]
      omega
  | @receive i c rest listening inbox =>
    have hinbox : (Worker.turn (workers i) (w.workers i) c rest).inbox = rest := by
      unfold Worker.turn
      cases callOf c <;> rfl
    apply Nat.add_lt_add_left
    apply Finset.sum_lt_sum
    · intro j _
      by_cases hj : j = i
      · subst hj
        simp [World.receive,hinbox,inbox]
      · simp [World.receive,hj]
    · refine ⟨i,Finset.mem_univ i,?_⟩
      simp [World.receive,hinbox,inbox]

/-- Whatever the ranks have done, they come to a state in which none can move. -/
theorem exists_complete (slack : Nat) (w : World leader n workers) :
    ∃ w', ReflTransGen (WorldStep slack) w w' ∧ w'.Complete slack := by
  by_cases hc : w.Complete slack
  · exact ⟨w,.refl,hc⟩
  · unfold World.Complete at hc
    push Not at hc
    obtain ⟨w₁,hs⟩ := hc
    have hlt := hs.left_lt
    obtain ⟨w',hrun,hc'⟩ := exists_complete slack w₁
    exact ⟨w',.head hs hrun,hc'⟩
termination_by w.left

theorem complete_listening {slack : Nat} {w : World leader n workers} (h : w.Complete slack)
    {i : Fin n} (hl : (w.workers i).listening = true) : (w.workers i).inbox = [] := by
  cases hin : (w.workers i).inbox with
  | nil => rfl
  | cons c rest => exact absurd (WorldStep.receive hl hin) (h _)

/-- Rank 0 only stops early at a worker that no longer takes its commands. -/
theorem complete_todo {slack : Nat} {w : World leader n workers} (h : w.Complete slack)
    (hin : ∀ i, (w.workers i).inbox = []) : w.todo = [] := by
  cases htodo : w.todo with
  | nil => rfl
  | cons call rest =>
    have ready : ∀ i, (w.workers i).inbox.length ≤ slack := by
      intro i
      rw [hin i]
      exact Nat.zero_le slack
    exact absurd (WorldStep.issue htodo ready) (h _)

theorem complete_future {slack : Nat} {w : World leader n workers} (hc : w.Complete slack) (htodo : w.todo = []) (i : Fin n) :
    (w.workers i).future (workers i) (commands w.todo) = [] := by
  unfold Worker.future
  split
  · rename_i hl
    rw [complete_listening hc hl,htodo]
    rfl
  · rfl

/-- When no rank can move any more, every worker has processed exactly the commands rank 0 was to
broadcast, if and only if no worker was given a malformed plan or raised before the last command. -/
theorem workers_agree_iff (slack : Nat) (calls : List ExecutorCall) (base : leader.State)
    (bases : (i : Fin n) → (workers i).State) {w : World leader n workers}
    (hrun : ReflTransGen (WorldStep slack) (World.start calls base bases) w)
    (hcomplete : w.Complete slack) :
    (∀ i, (w.workers i).processed = commands calls) ↔
      ∀ i, obeys (workers i) (commands calls) (bases i) = true := by
  have hk := (keeping_start calls base bases).run hrun
  constructor
  · intro hp i
    have htodo := complete_todo hcomplete fun j => hk.inbox_nil (hp j)
    have hi := hk.worker i
    rw [complete_future hcomplete htodo,List.append_nil,hp i] at hi
    exact (served_commands_iff (workers i) calls (bases i)).mp hi.symm
  · intro ho
    have hserved : ∀ i, (w.workers i).processed ++
        (w.workers i).future (workers i) (commands w.todo) = commands calls := by
      intro i
      rw [hk.worker i]
      exact (served_commands_iff (workers i) calls (bases i)).mpr (ho i)
    have hin : ∀ i, (w.workers i).inbox = [] := by
      intro i
      by_cases hl : (w.workers i).listening = true
      · exact complete_listening hcomplete hl
      · apply hk.inbox_nil
        have hi := hserved i
        rw [Worker.future,if_neg hl,List.append_nil] at hi
        exact hi
    have htodo := complete_todo hcomplete hin
    intro i
    have hi := hserved i
    rw [complete_future hcomplete htodo,List.append_nil] at hi
    exact hi

end World

/-- A base executor whose page-table rows hold `capacity` pages. -/
def rowLimited (capacity : Nat) : BaseExecutor where
  State := Unit
  run call _ :=
    match call with
    | .executeForwardPlan op _ =>
      if op.occupiedPages.any fun pages => capacity < pages.length then
        (some (.valueError "page table row exceeds sequence capacity"),())
      else (none,())
    | _ => (none,())

/-- A decode of request `a` with a row of `pages`, then its release and the shutdown. -/
def decodeThenRelease (pages : List Int) : List ExecutorCall :=
  [.executeForwardPlan ⟨[[97]],[],[64],[],[pages],0⟩
      [([97],{ rid := [97], inputIds := [7], maxNewTokens := 64 })],
    .releaseRequests [[97]],.shutdown]

/-- The worker that raised has left its loop; rank 0 waits for it with the release. -/
theorem worker_misses_release :
    ∃ w : World (rowLimited 1) 1 fun _ => rowLimited 1,
      ReflTransGen (WorldStep 0) (World.start (decodeThenRelease [1,2]) () fun _ => ()) w ∧
        w.Complete 0 ∧ ¬∀ i, (w.workers i).processed = commands (decodeThenRelease [1,2]) := by
  let w₀ : World (rowLimited 1) 1 fun _ => rowLimited 1 :=
    World.start (decodeThenRelease [1,2]) () fun _ => ()
  obtain ⟨w,hrun,hc⟩ := exists_complete 0 w₀
  refine ⟨w,hrun,hc,?_⟩
  intro hp
  have hk := (keeping_start (decodeThenRelease [1,2]) _ _).run hrun
  have htodo := complete_todo hc fun j => hk.inbox_nil (hp j)
  have hi := hk.worker 0
  rw [complete_future hc htodo,List.append_nil,hp 0] at hi
  exact absurd hi (by decide)

theorem workers_agree_while_rows_fit :
    ∃ w : World (rowLimited 2) 1 fun _ => rowLimited 2,
      ∀ i, (w.workers i).processed = commands (decodeThenRelease [1,2]) := by
  obtain ⟨w,hrun,hc⟩ := exists_complete 0 (World.start (decodeThenRelease [1,2]) () fun _ => () :
    World (rowLimited 2) 1 fun _ => rowLimited 2)
  exact ⟨w,(workers_agree_iff 0 _ _ _ hrun hc).mpr (by decide)⟩

end FluxServe.Engine
