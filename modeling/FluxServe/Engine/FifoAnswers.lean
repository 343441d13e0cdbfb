import FluxServe.Engine.FifoRuns

namespace FluxServe.Engine

variable {t t' : FifoLoop} {rid : RequestId} {i : Nat} {ids : List Nat} {r : RequestState}
  {x : Output × RequestState} {error reason : String} {call : FifoCall} {maxBatchSize : Nat}
  {log : List (List Nat × List ExecutionResult)}

namespace FifoLoop

/-- The batch whose results a call hands over. -/
def reported (t : FifoLoop) : FifoCall → List (List Nat × List ExecutionResult)
  | .results results => (t.executing.map fun ids => (ids,results)).toList
  | _ => []

/-- A run with the batches that were executed, whatever ids the requests have. -/
inductive Logged (maxBatchSize : Nat) :
    FifoLoop → List (List Nat × List ExecutionResult) → Prop
  | start : Logged maxBatchSize { adapter := { maxBatchSize } } []
  | step {t t' : FifoLoop} {call : FifoCall} {log : List (List Nat × List ExecutionResult)}
      (run : Logged maxBatchSize t log) (step : t.step call = some t')
      (unused : ∀ r, call = .submit r → r.finishedReason = none ∧ r.queue = []) :
      Logged maxBatchSize t' (t.reported call ++ log)

def resultOutput (r : ExecutionResult) : Output :=
  ⟨r.rid,r.text,r.tokenIds,some r.finishReason,none⟩

/-- An output that is no error is a result for this very request. -/
def Sourced (log : List (List Nat × List ExecutionResult)) (t : FifoLoop) (i : Nat)
    (o : Output) : Prop :=
  ∃ e ∈ log, i ∈ e.1 ∧ ∃ r ∈ e.2, r.rid = (t.state i).rid ∧ o = resultOutput r

structure Genuine (log : List (List Nat × List ExecutionResult)) (t : FifoLoop) (i : Nat) :
    Prop where
  silent : (t.state i).finished = false → (t.state i).queue = []
  first : ∀ o late, (t.state i).queue = o :: late → ∀ o' ∈ late, o'.error.isSome = true
  own : ∀ o ∈ (t.state i).queue, o.rid = (t.state i).rid ∧ o.finished = true
  source : ∀ o ∈ (t.state i).queue, o.error = none → Sourced log t i o

theorem Genuine.congr (h : Genuine log t i) (hfin : (t'.state i).finished = (t.state i).finished)
    (hqueue : (t'.state i).queue = (t.state i).queue) (hrid : (t'.state i).rid = (t.state i).rid) :
    Genuine log t' i where
  silent hno := by
    rw [hqueue]
    exact h.silent (hfin ▸ hno)
  first := by
    rw [hqueue]
    exact h.first
  own := by
    rw [hqueue,hrid]
    exact h.own
  source := by
    unfold Sourced
    rw [hqueue,hrid]
    exact h.source

theorem Genuine.mono {log' : List (List Nat × List ExecutionResult)} (h : Genuine log t i)
    (hlog : ∀ e ∈ log, e ∈ log') : Genuine log' t i where
  silent := h.silent
  first := h.first
  own := h.own
  source o ho herr := by
    obtain ⟨e,he,hrest⟩ := h.source o ho herr
    exact ⟨e,hlog e he,hrest⟩

/-- An output is put into the queue of a request. -/
theorem Genuine.put (h : Genuine log t i) (hx : Ends (t.state i) x)
    (hstate : t'.state i = x.2.put x.1)
    (hlate : (t.state i).finished = true → x.1.error.isSome = true)
    (hsource : x.1.error = none → Sourced log t i x.1) : Genuine log t' i := by
  have hqueue : (t'.state i).queue = (t.state i).queue ++ [x.1] := by
    rw [hstate,← hx.queue]
    rfl
  have hrid : (t'.state i).rid = (t.state i).rid := hstate ▸ hx.same
  refine ⟨fun hno => ?_,fun o late heq o' ho' => ?_,fun o ho => ?_,fun o ho herr => ?_⟩
  · have hyes : (t'.state i).finished = true := hstate ▸ hx.finished
    rw [hyes] at hno
    cases hno
  · rw [hqueue] at heq
    cases hold : (t.state i).queue with
    | nil =>
      rw [hold] at heq
      cases heq
      cases ho'
    | cons o₁ late₁ =>
      rw [hold] at heq
      cases heq
      obtain hmem | hmem := List.mem_append.mp ho'
      · exact h.first o late₁ hold o' hmem
      · rw [List.mem_singleton.mp hmem]
        refine hlate ?_
        by_contra hno
        have hnil := h.silent (by simpa using hno)
        rw [hold] at hnil
        cases hnil
  · rw [hqueue] at ho
    rw [hrid]
    obtain hmem | hmem := List.mem_append.mp ho
    · exact h.own o hmem
    · rw [List.mem_singleton.mp hmem]
      exact ⟨hx.rid,hx.finishedOutput⟩
  · unfold Sourced
    rw [hrid]
    rw [hqueue] at ho
    obtain hmem | hmem := List.mem_append.mp ho
    · exact h.source o hmem herr
    · rw [List.mem_singleton.mp hmem] at herr ⊢
      exact hsource herr

theorem Genuine.settle {j : Nat} (h : Genuine log t i) (hx : Ends (t.state j) x)
    (hlate : (t.state j).finished = true → x.1.error.isSome = true)
    (hsource : x.1.error = none → Sourced log t j x.1) : Genuine log (t.settle j x) i := by
  by_cases hij : i = j
  · subst hij
    exact h.put hx (Function.update_self _ _ _) hlate hsource
  · have hsame : (t.settle j x).state i = t.state i := Function.update_of_ne hij _ _
    exact h.congr (by rw [hsame]) (by rw [hsame]) (by rw [hsame])

theorem Genuine.cleanup (h : Genuine log t i) (rid : RequestId) (reason : String) :
    Genuine log (t.cleanup rid reason) i := by
  unfold FifoLoop.cleanup
  split
  · next j _ =>
    split
    · exact h
    · next hfin =>
      have hx := makeAbortOutput_ends (t.state j) reason
      have hset := h.settle hx (fun hyes => absurd hyes hfin) (fun hno => by cases hno)
      exact hset.congr rfl rfl rfl
  · exact h

theorem Genuine.takeOver (h : Genuine log t i) {results : List ExecutionResult}
    {a : ExecutionResult} (ha : a ∈ results) (hlog : (ids,results) ∈ log) :
    Genuine log (t.takeOver ids a) i := by
  unfold FifoLoop.takeOver
  split
  · next j hj =>
    have hmem := List.mem_of_getLast? hj
    rw [List.mem_filter] at hmem
    have hrid : (t.state j).rid = a.rid := by simpa using hmem.2
    split
    · exact h
    · next hskip =>
      refine h.settle (makeOutput_ends _ _ _) (fun hfin => absurd (.inr hfin) hskip) fun _ => ?_
      refine ⟨_,hlog,hmem.1,a,ha,hrid.symm,?_⟩
      simp [makeOutput,resultOutput,hrid]
  · exact h

theorem Genuine.results {rest results : List ExecutionResult} (h : Genuine log t i)
    (hsub : ∀ a ∈ rest, a ∈ results) (hlog : (ids,results) ∈ log) :
    Genuine log (rest.foldl (fun t r => t.takeOver ids r) t) i := by
  induction rest generalizing t with
  | nil => exact h
  | cons a rest ih =>
    exact ih (h.takeOver (hsub a List.mem_cons_self) hlog)
      fun b hb => hsub b (List.mem_cons_of_mem _ hb)

theorem Genuine.raises {rest : List Nat} (h : Genuine log t i) (error : String) :
    Genuine log (rest.foldl (fun t j => t.fail error j) t) i := by
  induction rest generalizing t with
  | nil => exact h
  | cons j rest ih =>
    exact ih (h.settle makeErrorOutput_ends (fun _ => rfl) (fun hno => by cases hno))

theorem cleanup_made (t : FifoLoop) (rid : RequestId) (reason : String) :
    (t.cleanup rid reason).made = t.made := by
  unfold FifoLoop.cleanup
  split
  · split <;> rfl
  · rfl

theorem results_made (t : FifoLoop) (ids : List Nat) (results : List ExecutionResult) :
    (results.foldl (fun t r => t.takeOver ids r) t).made = t.made := by
  induction results generalizing t with
  | nil => rfl
  | cons a rest ih =>
    refine (ih (t.takeOver ids a)).trans ?_
    unfold FifoLoop.takeOver
    split
    · split <;> rfl
    · rfl

theorem raises_made (t : FifoLoop) (ids : List Nat) (error : String) :
    (ids.foldl (fun t i => t.fail error i) t).made = t.made := by
  induction ids generalizing t with
  | nil => rfl
  | cons i rest ih => exact ih (t.fail error i)

theorem Genuine.step (h : ∀ i < t.made, Genuine log t i) (hstep : t.step call = some t')
    (unused : ∀ r, call = .submit r → r.finishedReason = none ∧ r.queue = []) :
    ∀ i < t'.made, Genuine (t.reported call ++ log) t' i := by
  have hmono : ∀ i < t.made, Genuine (t.reported call ++ log) t i :=
    fun i hi => (h i hi).mono fun e he => List.mem_append_right _ he
  cases call with
  | submit r =>
    cases hstep
    intro i hi
    by_cases him : i = t.made
    · subst him
      have hself : (t.generateRequest r).state t.made = r := Function.update_self _ _ _
      obtain ⟨hfin,hqueue⟩ := unused r rfl
      refine ⟨fun _ => ?_,?_,?_,?_⟩
      · rw [hself,hqueue]
      · rw [hself,hqueue]
        intro o late heq
        cases heq
      · rw [hself,hqueue]
        intro o ho
        cases ho
      · rw [hself,hqueue]
        intro o ho
        cases ho
    · have hlt : i < t.made := by
        have hsucc : i < t.made+1 := hi
        omega
      have hsame : (t.generateRequest r).state i = t.state i := Function.update_of_ne him _ _
      exact (hmono i hlt).congr (by rw [hsame]) (by rw [hsame]) (by rw [hsame])
  | abort rid =>
    cases hstep
    exact fun i hi => (hmono i hi).congr rfl rfl rfl
  | cleanup rid reason =>
    simp only [FifoLoop.step] at hstep
    split at hstep
    · cases hstep
      intro i hi
      rw [cleanup_made] at hi
      have hforgot : Genuine (t.reported (.cleanup rid reason) ++ log)
          { t with aborting := t.aborting.erase rid } i := (hmono i hi).congr rfl rfl rfl
      exact hforgot.cleanup rid reason
    · cases hstep
  | nextBatch =>
    simp only [FifoLoop.step] at hstep
    split at hstep
    · next rids adapter hidle hnext =>
      split at hstep
      · cases hstep
        exact fun i hi => (hmono i hi).congr rfl rfl rfl
      · cases hstep
        intro i hi
        refine (hmono i hi).congr ?_ ?_ ?_
        · dsimp only
          rw [markAll_same]
          rfl
        · dsimp only
          rw [markAll_same]
        · dsimp only
          rw [markAll_same]
    · cases hstep
  | results results =>
    simp only [FifoLoop.step,Option.map_eq_some_iff] at hstep
    obtain ⟨ids,hids,rfl⟩ := hstep
    intro i hi
    have hmade : i < t.made := results_made t ids results ▸ hi
    have hlog : (ids,results) ∈ t.reported (.results results) ++ log := by
      simp [reported,hids]
    exact ((hmono i hmade).results (fun _ ha => ha) hlog).congr rfl rfl rfl
  | raises error =>
    simp only [FifoLoop.step,Option.map_eq_some_iff] at hstep
    obtain ⟨ids,hids,rfl⟩ := hstep
    intro i hi
    have hmade : i < t.made := raises_made t ids error ▸ hi
    exact ((hmono i hmade).raises error).congr rfl rfl rfl

end FifoLoop

end FluxServe.Engine
