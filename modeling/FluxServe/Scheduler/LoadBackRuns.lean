import FluxServe.Scheduler.Conservation
import FluxServe.Scheduler.PlanProof

namespace FluxServe

open KVPrefixCache

variable {config : SchedulerConfig} {clock : Nat → Timestamp} {history : List (Call × Reply)}
  {s s₁ s₂ s' : Scheduler} {r : Request} {f : ForwardState} {l l' : LocalKVAllocator} {w : Window}
  {a a₁ a' : Forwarding} {nodes : List NodeId} {num reserve : Int} {ensured : Bool}
  {ids rest order : List RequestId} {p : ExecutionPlan}

/-- The pairs of load-back operations. -/
def transfersOf (ops : List LoadBackOperation) : List TransferPair :=
  ops.flatMap LoadBackOperation.transfers

theorem transfersOf_append (ops ops' : List LoadBackOperation) :
    transfersOf (ops ++ ops') = transfersOf ops ++ transfersOf ops' := List.flatMap_append

/-- What is loaded back on the way is in the operations that are added on the way. -/
def Records (s : Scheduler) (a : Forwarding) (s' : Scheduler) (a' : Forwarding) : Prop :=
  ∃ new, a'.loadbackOps = a.loadbackOps ++ new ∧
    s'.kv.loadedBack.Perm (transfersOf new ++ s.kv.loadedBack)

theorem Records.trans (h : Records s a s₁ a₁) (h' : Records s₁ a₁ s' a') : Records s a s' a' := by
  obtain ⟨new,ha,hl⟩ := h
  obtain ⟨new',ha',hl'⟩ := h'
  refine ⟨new ++ new',by rw [ha',ha,List.append_assoc],?_⟩
  rw [transfersOf_append]
  apply hl'.trans
  apply (hl.append_left _).trans
  rw [← List.append_assoc]
  exact List.perm_append_comm.append_right _

theorem Records.of_eq (hl : s'.kv.loadedBack = s.kv.loadedBack)
    (ha : a'.loadbackOps = a.loadbackOps) : Records s a s' a' :=
  ⟨[],by rw [ha,List.append_nil],by rw [hl]; exact List.Perm.refl _⟩

theorem Decodes.loadedBack_eq (h : Decodes s r f l reserve s₁ l' s') :
    s'.kv.loadedBack = s.kv.loadedBack :=
  h.extended.loadedBack.trans h.room.loadedBack

theorem Chunks.loadedBack_eq (h : Chunks s r f w num l s₁ l' s') :
    s'.kv.loadedBack = s.kv.loadedBack :=
  h.extended.loadedBack.trans h.room.loadedBack

/-- The operation for the nodes that were loaded back has their pairs. -/
theorem LoadsBack.records (h : LoadsBack a₁ nodes s₁ a' s')
    (hl : s₁.kv.loadedBack.Perm (pairsOf .host s₁.kv.tree nodes ++ s.kv.loadedBack))
    (ha : a₁.loadbackOps = a.loadbackOps) : Records s a s' a' := by
  cases h with
  | nothing empty =>
    subst empty
    exact ⟨[],by rw [ha,List.append_nil],hl⟩
  | operation =>
    refine ⟨[_],congrArg (· ++ _) ha,?_⟩
    simpa [transfersOf] using hl

theorem Begins.loadedBack_perm {ev : FirstChunkEvent} {budget : Int}
    (h : Begins s r budget s₁ ev f w l s₂) :
    s₂.kv.loadedBack.Perm (pairsOf .host s₂.kv.tree ev.loadbackDiff ++ s.kv.loadedBack) := by
  rw [← h.loadedBack]
  exact h.chunk.loadedBack

theorem FirstVisit.records (h : FirstVisit s a r a' s') : Records s a s' a' := by
  cases h with
  | short _ _ _ _ hl => exact Records.of_eq hl rfl
  | row begins _ loads => exact loads.records begins.loadedBack_perm rfl
  | @decoded _ s₂ s₃ s₄ _ ev _ _ _ _ _ begins _ _ decodes loads =>
    apply loads.records _ rfl
    rw [decodes.loadedBack_eq]
    have hpairs : pairsOf .host s₄.kv.tree ev.loadbackDiff =
        pairsOf .host s₂.kv.tree ev.loadbackDiff := by
      rw [decodes.extended.step.tree]
      exact pairsOf_congr fun j hj t => begins.nodePages_eq decodes.room hj t
    rw [hpairs]
    exact begins.loadedBack_perm
  | @stuck _ s₂ s₃ _ ev _ _ _ _ begins _ room loads =>
    apply loads.records _ rfl
    obtain rfl | room := room
    · exact begins.loadedBack_perm
    · rw [room.loadedBack,pairsOf_congr fun j hj t => begins.nodePages_eq room hj t]
      exact begins.loadedBack_perm

theorem RecoverVisit.records {h : NodeId} (hv : RecoverVisit s a r h l a' s') :
    Records s a s' a' := by
  cases hv with
  | short _ _ _ _ hl => exact Records.of_eq hl rfl
  | row recovers loads =>
    apply loads.records _ rfl
    rw [← recovers.loadedBack]
    exact recovers.recovered.loadedBack

theorem Visit.records (h : Visit s a r (some a') s') : Records s a s' a' := by
  cases h with
  | idle => exact Records.of_eq rfl rfl
  | first _ visit => exact visit.records
  | noChunk _ room => exact Records.of_eq room.loadedBack rfl
  | chunk chunks => exact Records.of_eq chunks.loadedBack_eq rfl
  | noDecode _ _ room => exact Records.of_eq room.loadedBack rfl
  | decode _ _ _ decodes => exact Records.of_eq decodes.loadedBack_eq rfl
  | recover _ _ visit => exact visit.records

/-- The loop over the candidates. -/
theorem Visits.records (h : Visits ids a s rest a' s') : Records s a s' a' := by
  induction h with
  | refl => exact Records.of_eq rfl rfl
  | cons _ _ _ visit _ ih => exact visit.records.trans ih

/-- Where the candidates of a plan have been visited. -/
def visited (order : List RequestId) : Sched (Forwarding × List Request) := do
  let _ ← newWriteBackOperation order
  eraseFinished
  let sorted := candidateIds order (← get)
  let a ← forwardLoop sorted { tokenBudget := (← get).config.maxScheduledTokens }
  return (a,victims sorted (← get))

/-- The branch of `newForwardOperation` that drops its load-backs: no candidate got a row, though one
was loaded back for, and there is a request to retract. -/
def strands (order : List RequestId) (s : Scheduler) : Bool :=
  match visited order s with
  | .ok (a,decodes) _ =>
    a.ops.isEmpty && !(transfersOf a.loadbackOps).isEmpty && (longest decodes).isSome
  | .error _ _ => false

/-- All pairs loaded back by a call that returned plan `p` are in its operations. -/
def AllLoaded (s : Scheduler) (p : ExecutionPlan) (s' : Scheduler) : Prop :=
  (s'.kv.loadedBack : Multiset TransferPair) ≤ ↑(transfersOf p.loadBack)+↑s.kv.loadedBack

theorem keepsLoads_newRetractOperation (id : RequestId) : KeepsLoads (newRetractOperation id) :=
  keepsLoads_of_allots record_rule.operationRule.allots_newRetractOperation

/-- How a plan ends, told by its visits. -/
theorem visited_of_plan (h : nextExecutionPlan order s = .ok p s') :
    ∃ a decodes s₁, visited order s = .ok (a,decodes) s₁ ∧
      ((a.ops ≠ [] ∨ longest decodes = none) ∧ s' = s₁ ∧ p.loadBack = a.loadbackOps ∨
        a.ops = [] ∧ (longest decodes).isSome = true ∧ p.loadBack = [] ∧
          s'.kv.loadedBack = s₁.kv.loadedBack) := by
  unfold nextExecutionPlan at h
  obtain ⟨ops,s₁,hwrite,h⟩ := exists_of_bind_ok h
  obtain ⟨_,s₂,herase,h⟩ := exists_of_bind_ok h
  obtain ⟨_,_,hget,h⟩ := exists_of_bind_ok h
  cases hget
  obtain ⟨⟨rows,cache⟩,s₃,hforward,h⟩ := exists_of_bind_ok h
  unfold newForwardOperation at hforward
  obtain ⟨_,_,hget,hforward⟩ := exists_of_bind_ok hforward
  cases hget
  obtain ⟨a,s₄,hloop,hforward⟩ := exists_of_bind_ok hforward
  have hvisited : visited order s = .ok (a,victims (candidateIds order s₂) s₄) s₄ := by
    unfold visited
    rw [bind_ok hwrite,bind_ok herase]
    exact bind_ok hloop
  refine ⟨a,_,s₄,hvisited,?_⟩
  by_cases hempty : a.ops = []
  · rw [if_pos (by simp [hempty])] at hforward
    obtain ⟨_,_,hget,hforward⟩ := exists_of_bind_ok hforward
    cases hget
    dsimp only at hforward
    cases hvictim : longest (victims (candidateIds order s₂) s₄) with
    | none =>
      unfold victims candidateIds at hvictim
      rw [hvictim] at hforward
      cases hforward
      cases h
      exact .inl ⟨.inr rfl,rfl,rfl⟩
    | some victim =>
      unfold victims candidateIds at hvictim
      rw [hvictim] at hforward
      obtain ⟨o,s₅,hretract,hforward⟩ := exists_of_bind_ok hforward
      cases hforward
      cases h
      exact .inr ⟨hempty,rfl,rfl,(keepsLoads_newRetractOperation victim.id s₄).of_ok hretract⟩
  · rw [if_neg (by simpa using hempty)] at hforward
    cases hforward
    cases h
    exact .inl ⟨.inl hempty,rfl,rfl⟩

theorem visited_records {decodes : List Request} (hs : Sound s)
    (hids : ∀ id ∈ order, id ∈ s.requests.map Request.id)
    (h : visited order s = .ok (a,decodes) s₁) :
    s₁.kv.loadedBack.Perm (transfersOf a.loadbackOps ++ s.kv.loadedBack) := by
  unfold visited at h
  obtain ⟨ops,s₂,hwrite,h⟩ := exists_of_bind_ok h
  obtain ⟨_,s₃,herase,h⟩ := exists_of_bind_ok h
  obtain ⟨_,_,hget,h⟩ := exists_of_bind_ok h
  cases hget
  obtain ⟨_,_,hget,h⟩ := exists_of_bind_ok h
  cases hget
  obtain ⟨a₁,s₄,hloop,h⟩ := exists_of_bind_ok h
  cases h
  have hwritten := (keepsLoads_of_allots (record_rule.operationRule.allots_newWriteBackOperation order) s).of_ok
    hwrite
  obtain ⟨ls,hsteps,_⟩ := (newWriteBackOperation_returns hs hids).of_ok hwrite |>.steps
  cases herase
  have hsound := (hsteps.sound hs).erase
  have hfound : ∀ id ∈ candidateIds order s₂.erased, id ∈ s₂.erased.requests.map Request.id := by
    intro id hid
    obtain ⟨r,hr,rfl⟩ := List.mem_map.mp hid
    have hmem := (List.perm_insertionSort _ _).mem_iff.mp hr
    obtain ⟨_,_,hfind⟩ := List.mem_filterMap.mp (List.mem_filter.mp hmem).1
    exact List.mem_map_of_mem (findRequest_some hfind).1
  obtain ⟨rest,hvisits,_⟩ := (forwardLoop_runs hsound hfound _).of_ok hloop
  obtain ⟨new,hnew,hrecord⟩ := hvisits.records
  rw [List.nil_append] at hnew
  rw [hnew]
  exact hrecord.trans (List.Perm.of_eq (congrArg (transfersOf new ++ ·) hwritten))

/-- A prompt is served and written back, and a second request with it is submitted. -/
def cachedCalls : List Call :=
  [.submit [{ requestId := [1], tokens := [7,8,9], prefillLength := 2 }],.plan [[1]],
    .advance [.finish [1]],.plan [[1]],.advance [.writeBackDone 1 true],
    .submit [{ requestId := [3], tokens := [7,8,9], prefillLength := 2 }]]

def cachedPlan : ExecutionPlan :=
  { forward := [.decode ⟨[3],2,1,[3,4,2,1],3,1,2⟩ (-1) (-1)], loadBack := [⟨2,[⟨3,3⟩,⟨2,4⟩]⟩] }

theorem cached_replays :
    (∃ x, replay (smallConfig 5 4) id cachedCalls = some x ∧
      strands [[1],[3]] x.2 = false ∧ ∃ y, replayCall x (.plan [[1],[3]]) = some y ∧
        y.1 = (.plan [[1],[3]],.plan cachedPlan) :: x.1 ∧
        y.2.kv.loadedBack = [⟨3,3⟩,⟨2,4⟩]) ∧
    ∃ x, replay (smallConfig 4 4) id cachedCalls = some x ∧
      x.2.kv.loadedBack = [] ∧ ∃ y, replayCall x (.plan [[1],[3]]) = some y ∧
        y.1 = (.plan [[1],[3]],.plan {}) :: x.1 ∧ y.2.kv.loadedBack = [⟨3,2⟩,⟨2,3⟩] := by
  constructor
  · decide +kernel
  · decide +kernel

end FluxServe
