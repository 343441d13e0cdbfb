import FluxServe.Scheduler.BlockAligned

namespace FluxServe

open KVPrefixCache

variable {config : SchedulerConfig} {clock : Nat → Timestamp}
  {history later earlier : List (Call × Reply)}
  {s s₁ s₂ s' : Scheduler} {r x y : Request} {a a₁ a' : Forwarding} {id : RequestId}
  {ids rest order : List RequestId} {budget m e : Int} {ev : FirstChunkEvent} {f : ForwardState}
  {w : Window} {ws : List Window} {op : ForwardOperation} {reply : Reply} {plan : ExecutionPlan}

section Tiles

/-- Windows that tile the positions from `m` to `e`, in order. -/
inductive Tiles : Int → List Window → Int → Prop
  | nil {m : Int} : Tiles m [] m
  | cons {m e : Int} {w : Window} {ws : List Window} (start : w.start = m) (size : 0 < w.size)
      (tiles : Tiles (m+w.size) ws e) : Tiles m (w :: ws) e

theorem Tiles.snoc (h : Tiles m ws e) (hstart : w.start = e) (hsize : 0 < w.size) :
    Tiles m (ws ++ [w]) (e+w.size) := by
  induction h with
  | nil => exact .cons hstart hsize .nil
  | cons start size _ ih => exact .cons start size (ih hstart)

theorem Tiles.le (h : Tiles m ws e) : m ≤ e := by
  induction h with
  | nil => exact le_rfl
  | cons _ size _ ih => omega

end Tiles

section Matched

/-- Whole pages of a prompt, all but its last token at most, that a first chunk can take over from
the cache. -/
def Reusable (s : Scheduler) (r : Request) (T : List Token) : Prop :=
  T = [] ∨ s.config.disablePrefixCache = false ∧
    T <+: r.fullPagedTokens s.config.pageSize true ∧ s.config.pageSize ∣ T.length ∧
    (Covers .device s.kv.tree T ∨ s.config.disableL2Cache = false ∧ Covers .host s.kv.tree T)

/-- The longest of them. -/
structure MatchedPrefix (s : Scheduler) (r : Request) (m : Int) : Prop where
  reached : ∃ T, Reusable s r T ∧ m = T.length
  longest : ∀ T, Reusable s r T → T.length ≤ m

theorem matchedPages_mul {c : SchedulerConfig} {tree : Heap TreeNode} {m : MatchResult}
    (h : ∀ t, c.pageSize ∣ nodeDepth tree (m.last t)) :
    matchedPages c tree m*c.pageSize =
      if c.disableL2Cache then nodeDepth tree m.device
      else max (nodeDepth tree m.device) (nodeDepth tree m.host) := by
  have hd : nodeDepth tree m.device/c.pageSize*c.pageSize = nodeDepth tree m.device :=
    Nat.div_mul_cancel (h .device)
  have hh : nodeDepth tree m.host/c.pageSize*c.pageSize = nodeDepth tree m.host :=
    Nat.div_mul_cancel (h .host)
  unfold matchedPages
  split
  · exact hd
  · rw [max_mul_of_nonneg _ _ (Nat.zero_le _),hd,hh]

/-- What a first chunk skips is the matched prefix of the prompt. -/
theorem Offered.matchedPrefix (h : Offered s r budget s₁ ev) (hs : Sound s) :
    MatchedPrefix s r (matchedPages s₁.config s₁.kv.tree ev.matchResult*s₁.config.pageSize) := by
  obtain ⟨kv₁,kvl,hw,_,hdepth⟩ := h.weighed
  obtain ⟨x,hm⟩ := hw.matched
  have hT := hw.kvInv.inv.tree
  have hconf := h.room.config
  have hps : kv₁.pageSize = s.config.pageSize := hw.change.evolves.pageSize.trans hs.pageSize
  have hlen : ∀ t, (pathTokens kv₁.tree (ev.matchResult.last t)).length =
      nodeDepth s₁.kv.tree (ev.matchResult.last t) := by
    intro t
    obtain ⟨n,hn⟩ := (hm.stop t).live
    rw [hdepth,hT.pathTokens_length hn,nodeDepth_of_read hn]
  have hdvd : ∀ t, s.config.pageSize ∣ nodeDepth s₁.kv.tree (ev.matchResult.last t) := by
    intro t
    obtain ⟨n,hn⟩ := (hm.stop t).live
    rw [hdepth,nodeDepth_of_read hn,← hps]
    exact hT.pageSize_dvd_depth hn
  have hpages := matchedPages_mul (c := s.config) hdvd
  rw [hconf]
  obtain ⟨⟨hoff,_⟩,hroot⟩ | ⟨hon,hdeep⟩ := hw.deepest
  · have hzero : ∀ t, nodeDepth s₁.kv.tree (ev.matchResult.last t) = 0 := by
      intro t
      rw [← hlen,hroot]
      cases t <;> exact congrArg List.length hT.pathTokens_zero
    have hd : nodeDepth s₁.kv.tree ev.matchResult.device = 0 := hzero .device
    have hh : nodeDepth s₁.kv.tree ev.matchResult.host = 0 := hzero .host
    rw [hd,hh,max_self,ite_self] at hpages
    refine ⟨⟨[],.inl rfl,by exact_mod_cast hpages⟩,fun T hT => ?_⟩
    obtain rfl | ⟨hon,_⟩ := hT
    · exact_mod_cast Nat.zero_le _
    · rw [← hs.disablePrefixCache,hoff] at hon
      cases hon
  · have hcache : s.config.disablePrefixCache = false := by
      rw [← hs.disablePrefixCache]
      simpa using hon
    have hreuse : ∀ t, (t = .host → s.config.disableL2Cache = false) →
        Reusable s r (pathTokens kv₁.tree (ev.matchResult.last t)) := by
      intro t htier
      refine .inr ⟨hcache,hm.last_tokens hT t,by rw [hlen]; exact hdvd t,?_⟩
      have hcov := (hw.covers t _).mp (hm.covers hT t)
      cases t with
      | device => exact .inl hcov
      | host => exact .inr ⟨htier rfl,hcov⟩
    have hle : ∀ t T, T <+: r.fullPagedTokens s.config.pageSize true →
        s.config.pageSize ∣ T.length → Covers t s.kv.tree T →
        T.length ≤ nodeDepth s₁.kv.tree (ev.matchResult.last t) := by
      intro t T hpre hdvd hcov
      rw [hdepth]
      exact hdeep t T hpre (by rw [hps]; exact hdvd) ((hw.covers t T).mpr hcov)
    have hle_d := hle .device
    have hle_h := hle .host
    have hlen_d := hlen .device
    have hlen_h := hlen .host
    simp only [MatchResult.last] at hle_d hle_h hlen_d hlen_h
    cases hl2 : s.config.disableL2Cache with
    | true =>
      rw [hl2,if_pos rfl] at hpages
      constructor
      · refine ⟨_,hreuse .device (by simp),?_⟩
        rw [hlen .device]
        exact_mod_cast hpages
      · intro T hT
        obtain rfl | ⟨_,hpre,hdvd,hcov | ⟨hno,_⟩⟩ := hT
        · exact_mod_cast Nat.zero_le _
        · have hlong := hle_d T hpre hdvd hcov
          exact_mod_cast hpages.symm ▸ hlong
        · rw [hl2] at hno
          cases hno
    | false =>
      rw [hl2,if_neg (by decide)] at hpages
      constructor
      · obtain hmax | hmax := max_choice (nodeDepth s₁.kv.tree ev.matchResult.device)
          (nodeDepth s₁.kv.tree ev.matchResult.host)
        · refine ⟨_,hreuse .device (by simp),?_⟩
          rw [hlen .device]
          exact_mod_cast hpages.trans hmax
        · refine ⟨_,hreuse .host (fun _ => hl2),?_⟩
          rw [hlen .host]
          exact_mod_cast hpages.trans hmax
      · intro T hT
        obtain rfl | ⟨_,hpre,hdvd,hcov | ⟨_,hcov⟩⟩ := hT
        · exact_mod_cast Nat.zero_le _
        · have hlong := (hle_d T hpre hdvd hcov).trans
            (le_max_left _ (nodeDepth s₁.kv.tree ev.matchResult.host))
          exact_mod_cast hpages.symm ▸ hlong
        · have hlong := (hle_h T hpre hdvd hcov).trans
            (le_max_right (nodeDepth s₁.kv.tree ev.matchResult.device) _)
          exact_mod_cast hpages.symm ▸ hlong

end Matched

section Walks

/-- The candidates a plan has gone through, by the steps of its own loop. -/
inductive Walks : List RequestId → Forwarding → Scheduler → List RequestId → Forwarding →
    Scheduler → Prop
  | refl {ids : List RequestId} {a : Forwarding} {s : Scheduler} : Walks ids a s ids a s
  | cons {id : RequestId} {ids rest : List RequestId} {a a₁ a' : Forwarding} {s s₁ s' : Scheduler}
      (budget : 0 < a.tokenBudget) (batch : s.config.maxBatchSize ≠ a.ops.length)
      (run : forwardCandidate a id s = .ok (some a₁) s₁) (walks : Walks ids a₁ s₁ rest a' s') :
      Walks (id :: ids) a s rest a' s'

/-- The loop goes on to its next candidate. -/
structure Stands (ids : List RequestId) (a : Forwarding) (s : Scheduler) (id : RequestId)
    (a' : Forwarding) (s' : Scheduler) : Prop where
  walks : ∃ rest, Walks ids a s (id :: rest) a' s'
  budget : 0 < a'.tokenBudget
  batch : s'.config.maxBatchSize ≠ a'.ops.length

theorem Stands.cons {id' : RequestId} (h : Stands ids a₁ s₁ id a' s') (hb : 0 < a.tokenBudget)
    (hbatch : s.config.maxBatchSize ≠ a.ops.length)
    (hrun : forwardCandidate a id' s = .ok (some a₁) s₁) : Stands (id' :: ids) a s id a' s' := by
  obtain ⟨rest,hwalks⟩ := h.walks
  exact ⟨⟨rest,.cons hb hbatch hrun hwalks⟩,h.budget,h.batch⟩

/-- A candidate at which the loop stops is left alone. -/
theorem forwardCandidate_none (h : forwardCandidate a id s = .ok none s') : s' = s := by
  have hrun : Runs (forwardCandidate a id) s (fun o s' => o = none → s' = s) (fun _ _ => True) := by
    have hsome : ∀ x : Sched Forwarding,
        Runs (x >>= fun a => pure (some a)) s (fun o s' => o = none → s' = s) (fun _ _ => True) := by
      intro x
      rw [runs_bind]
      unfold Runs
      cases x s with
      | ok a s₁ => exact fun heq => by cases heq
      | error => trivial
    unfold forwardCandidate
    rw [runs_bind,runs_get,runs_bind]
    unfold getRequest
    rw [runs_bind,runs_get]
    cases s.findRequest id with
    | none => trivial
    | some r =>
      rw [runs_pure]
      dsimp only
      cases r.state with
      | prefilling | submitted => exact hsome _
      | prefillDone | decoding | retracted =>
        dsimp only
        split
        · exact fun _ => rfl
        · exact hsome _
      | _ => exact fun heq => by cases heq
  exact hrun.of_ok h rfl

/-- The loop over the candidates, exactly. -/
theorem forwardLoop_walks (ids : List RequestId) (a : Forwarding) (s : Scheduler) :
    Runs (forwardLoop ids a) s (fun a' s' => ∃ rest, Walks ids a s rest a' s')
      (fun e s' => ∃ id a₁ s₁, Stands ids a s id a₁ s₁ ∧ forwardCandidate a₁ id s₁ = .error e s') := by
  induction ids generalizing a s with
  | nil => exact ⟨_,.refl⟩
  | cons id ids ih =>
    unfold forwardLoop
    rw [runs_bind,runs_get]
    split
    · exact ⟨_,.refl⟩
    · next hend =>
      rw [not_or,not_le] at hend
      rw [runs_bind]
      unfold Runs
      cases hrun : forwardCandidate a id s with
      | error e s' => exact ⟨id,a,s,⟨⟨ids,.refl⟩,hend.1,hend.2⟩,hrun⟩
      | ok o s₁ =>
        cases o with
        | none =>
          have hvisit : s₁ = s := forwardCandidate_none hrun
          rw [hvisit]
          exact ⟨_,.refl⟩
        | some a₁ =>
          apply (ih a₁ s₁).imp
          · rintro a' s' ⟨rest,hwalks⟩
            exact ⟨rest,.cons hend.1 hend.2 hrun hwalks⟩
          · rintro e s' ⟨id',a₂,s₂,hstands,hthrows⟩
            exact ⟨id',a₂,s₂,hstands.cons hend.1 hend.2 hrun,hthrows⟩

theorem Walks.visits (h : Walks ids a s rest a' s') (hs : Sound s)
    (hids : ∀ id ∈ ids, id ∈ s.requests.map Request.id) : Visits ids a s rest a' s' := by
  induction h with
  | refl => exact .refl
  | cons budget batch run _ ih =>
    obtain ⟨r,hr,rfl⟩ := List.mem_map.mp (hids _ List.mem_cons_self)
    have hvisit := (forwardCandidate_runs hs hr _).of_ok run
    have hproceeds := hvisit.proceeds
    refine .cons budget batch hr hvisit (ih (hproceeds.sound hs) ?_)
    intro id hid
    rw [hproceeds.ids]
    exact hids id (List.mem_cons_of_mem _ hid)

theorem Walks.rest_subset (h : Walks ids a s rest a' s') : rest ⊆ ids := by
  induction h with
  | refl => exact List.Subset.refl _
  | cons _ _ _ _ ih => exact fun id hid => List.mem_cons_of_mem _ (ih hid)

/-- Where the loop of a plan begins: after the write-backs and without the finished requests. -/
structure Opens (order : List RequestId) (s : Scheduler) (ids : List RequestId) (s₁ : Scheduler) :
    Prop where
  opened : ∃ ops s₀, newWriteBackOperation order s = .ok ops s₀ ∧ s₁ = s₀.erased
  ids : ids = candidateIds order s₁

/-- The loop of a plan reaches a candidate. -/
def Reached (order : List RequestId) (s : Scheduler) (id : RequestId) (a : Forwarding)
    (s₂ : Scheduler) : Prop :=
  ∃ ids s₁, Opens order s ids s₁ ∧
    Stands ids { tokenBudget := s.config.maxScheduledTokens } s₁ id a s₂

/-- A plan that came back: its loop, and the retract that follows if there was no row. -/
structure Ran (order : List RequestId) (s : Scheduler) (plan : ExecutionPlan) (s' : Scheduler) :
    Prop where
  ran : ∃ ids s₁ rest a s₂, Opens order s ids s₁ ∧
    Walks ids { tokenBudget := s.config.maxScheduledTokens } s₁ rest a s₂ ∧
    plan.forward = a.ops.filter ForwardOperation.isPrefill ++ a.ops.filter (fun op => !op.isPrefill) ∧
    (s' = s₂ ∨ ∃ r, r.state.isDecodable = true ∧ Retired s₂ r s')

theorem newForwardOperation_walks (hs : Sound s) {candidates : List Request}
    (hids : ∀ r ∈ candidates, r.id ∈ s.requests.map Request.id) (hb : budget = s.config.maxScheduledTokens)
    (hsorted : (sortCandidates s.config candidates).map Request.id = ids) :
    Runs (newForwardOperation candidates) s
      (fun res s' => ∃ rest a s₂, Walks ids { tokenBudget := budget } s rest a s₂ ∧ res.1 = a.ops ∧
        (s' = s₂ ∨ ∃ r, r.state.isDecodable = true ∧ Retired s₂ r s'))
      (fun e s' => (∃ u, e = .undefined u) ∨ ∃ id a s₂,
        Stands ids { tokenBudget := budget } s id a s₂ ∧ forwardCandidate a id s₂ = .error e s') := by
  have hsub : ∀ id ∈ ids, id ∈ s.requests.map Request.id := by
    rw [← hsorted]
    intro id hid
    obtain ⟨x,hx,rfl⟩ := List.mem_map.mp hid
    exact hids x ((List.perm_insertionSort _ candidates).mem_iff.mp hx)
  unfold newForwardOperation
  rw [runs_bind,runs_get]
  dsimp only
  rw [hsorted,← hb]
  refine Runs.bind ((forwardLoop_walks ids _ s).imp (fun _ _ hq => hq) fun _ _ he => .inr he) ?_
  rintro a s₁ ⟨rest,hwalks⟩
  by_cases hempty : a.ops = []
  · rw [if_pos (by simp [hempty]),runs_bind,runs_get]
    split
    · exact ⟨rest,a,s₁,hwalks,rfl,.inl rfl⟩
    · next victim hvic =>
      have hmem := mem_of_longest hvic
      rw [List.mem_filter,List.mem_filterMap] at hmem
      obtain ⟨⟨id,_,hfind⟩,hdecodable⟩ := hmem
      have hfound := (findRequest_some hfind).1
      have hsound := (hwalks.visits hs hsub).proceeds.sound hs
      refine Runs.bind ((newRetractOperation_runs hsound hfound).imp (fun _ _ hq => hq) ?_) ?_
      · rintro e s' ⟨_,⟨_,hu⟩ | hno⟩
        · exact .inl hu
        · rw [hdecodable] at hno
          cases hno
      · intro o s' hrun
        exact ⟨rest,a,s₁,hwalks,hempty.symm,.inr ⟨victim,hdecodable,hrun.1⟩⟩
  · rw [if_neg (by simpa using hempty)]
    exact ⟨rest,a,s₁,hwalks,rfl,.inl rfl⟩

theorem nextExecutionPlan_walks (hs : Sound s) (hids : ∀ id ∈ order, id ∈ s.requests.map Request.id) :
    Runs (nextExecutionPlan order) s (fun plan s' => Ran order s plan s')
      (fun e s' => (∃ u, e = .undefined u) ∨ ∃ id a s₂, Reached order s id a s₂ ∧
        forwardCandidate a id s₂ = .error e s') := by
  unfold nextExecutionPlan
  obtain ⟨ops,s₀,hopened,hcommits⟩ := (newWriteBackOperation_returns hs hids).exists
  obtain ⟨_,hsteps,_⟩ := hcommits.steps
  have hsound : Sound s₀.erased := (hsteps.sound hs).erase
  have hreturns : Returns (newWriteBackOperation order) s (fun ops' s' => ops = ops' ∧ s₀ = s') :=
    returns_of_ok hopened ⟨rfl,rfl⟩
  apply hreturns.bind
  rintro _ _ ⟨rfl,rfl⟩
  rw [runs_bind,eraseFinished,runs_modify,runs_bind,runs_get]
  change Runs _ s₀.erased _ _
  have hb : s.config.maxScheduledTokens = s₀.erased.config.maxScheduledTokens := by
    rw [← hcommits.config]
    rfl
  have hopens : Opens order s (candidateIds order s₀.erased) s₀.erased := ⟨⟨ops,s₀,hopened,rfl⟩,rfl⟩
  have hcand : ∀ r ∈ (order.filterMap s₀.erased.findRequest).filter fun r => r.state.isCandidate,
      r.id ∈ s₀.erased.requests.map Request.id := by
    intro r hr
    obtain ⟨id,_,hfind⟩ := List.mem_filterMap.mp (List.mem_filter.mp hr).1
    exact List.mem_map_of_mem (findRequest_some hfind).1
  refine Runs.bind ((newForwardOperation_walks hsound hcand hb rfl).imp (fun _ _ hq => hq) ?_) ?_
  · rintro e s' (hu | ⟨id,a,s₂,hstands,hthrows⟩)
    · exact .inl hu
    · exact .inr ⟨id,a,s₂,⟨_,_,hopens,hstands⟩,hthrows⟩
  · rintro ⟨rows,cache⟩ s' ⟨rest,a,s₂,hwalks,hrows,hend⟩
    obtain rfl : rows = a.ops := hrows
    cases cache with
    | loadBack l => exact ⟨_,_,rest,a,s₂,hopens,hwalks,rfl,hend⟩
    | writeBack l => exact ⟨_,_,rest,a,s₂,hopens,hwalks,rfl,hend⟩

end Walks

section Outcome

/-- The window of a prefill row of the request. -/
def windowOf (id : RequestId) (op : ForwardOperation) : Option Window :=
  if op.isPrefill = true ∧ op.requestId = id then some ⟨op.extendPrefixLen,op.base.inputLength⟩
  else none

def windowsOf (id : RequestId) (ops : List ForwardOperation) : List Window :=
  ops.filterMap (windowOf id)

theorem windowsOf_push (h : a'.ops = a.ops ++ [op]) :
    windowsOf id a'.ops = windowsOf id a.ops ++ (windowOf id op).toList := by
  rw [windowsOf,h,List.filterMap_append]
  cases hop : windowOf id op <;> simp [windowsOf,hop]

theorem windowOf_decode (h : op.isPrefill = false) : windowOf id op = none := by
  simp [windowOf,h]

theorem windowOf_other (h : op.requestId ≠ id) : windowOf id op = none := by
  simp [windowOf,h]

theorem windowOf_prefillRow {l : LocalKVAllocator} {start : Nat} :
    windowOf r.id (prefillRow s r f l w start) = some w := by
  rw [windowOf,if_pos ⟨rfl,rfl⟩]
  rfl

/-- What a visit makes of its request, and the window it issues. -/
inductive Outcome (s : Scheduler) (a : Forwarding) (y : Request) (a' : Forwarding) (x : Request) :
    Prop
  | same (eq : x = y) (ops : a'.ops = a.ops)
  | began {f : ForwardState} {w : Window} {op : ForwardOperation} (before : y.state = .submitted)
      (matched : MatchedPrefix s y w.start) (size : 0 < w.size)
      (le : w.start+w.size ≤ y.prefillSize)
      (after : x = { y with state := firstChunkState s.config y f w }) (ops : a'.ops = a.ops ++ [op])
      (row : windowOf y.id op = some w)
  | covered (before : y.state = .submitted) (matched : MatchedPrefix s y y.prefillSize)
      (after : x.state.isEarly = false) (windows : windowsOf y.id a'.ops = windowsOf y.id a.ops)
  | chunked {f f' : ForwardState} {w w' : Window} {op : ForwardOperation}
      (before : y.state = .prefilling f w) (start : w'.start = w.start+w.size) (size : 0 < w'.size)
      (le : w'.start+w'.size ≤ y.prefillSize)
      (after : x = { y with state := firstChunkState s.config y f' w' })
      (ops : a'.ops = a.ops ++ [op]) (row : windowOf y.id op = some w')
  | late (before : y.state.isLate = true) (after : x.state.isEarly = false)
      (windows : windowsOf y.id a'.ops = windowsOf y.id a.ops)

theorem Begins.matchedPrefix {l : LocalKVAllocator} (h : Begins s r budget s₁ ev f w l s₂)
    (hs : Sound s) : MatchedPrefix s r w.start := by
  rw [h.chunk.window]
  exact (Offered.mk h.room h.ages h.offer h.weighed).matchedPrefix hs

theorem Becomes.eq (h : Becomes r y s s') (hx : x ∈ s'.requests) (hid : x.id = r.id) : x = y := by
  obtain rfl | ⟨_,hne,_⟩ := h.cases hx
  · rfl
  · exact absurd hid hne

theorem eq_of_same (hs : Sound s) (hreq : s'.requests = s.requests) (hr : r ∈ s.requests)
    (hx : x ∈ s'.requests) (hid : x.id = r.id) : x = r :=
  List.inj_on_of_nodup_map hs.ids (hreq ▸ hx) hr hid

theorem FirstVisit.outcome (h : FirstVisit s a r a' s') (hs : Sound s) (hr : r ∈ s.requests)
    (hb : 0 < a.tokenBudget) (hx : x ∈ s'.requests) (hid : x.id = r.id) : Outcome s a r a' x := by
  cases h with
  | short room => exact .same (eq_of_same hs room.requests hr hx hid) rfl
  | row begins pos loads =>
    have hsize := (begins.begun hs hr hb).size
    rw [loads.fields.2.2] at hx
    exact .began begins.before (begins.matchedPrefix hs) pos (by omega)
      ((begins.becomes hs).eq hx hid) loads.fields.1 windowOf_prefillRow
  | @decoded s₁ s₂ s₃ s₄ _ ev f w l l' _ begins zero state decodes loads =>
    have hsize := (begins.begun hs hr hb).size
    have hfull : w.start = r.prefillSize := by omega
    have hmatched := begins.matchedPrefix hs
    have hbec := (begins.becomes hs).trans (decodes.becomes (begins.becomes hs).sound)
    rw [loads.fields.2.2] at hx
    refine .covered begins.before ?_ ?_ ?_
    · rw [← hfull]
      exact hmatched
    · rw [hbec.eq hx hid]
      rfl
    · rw [windowsOf_push loads.fields.1,windowOf_decode rfl]
      exact List.append_nil _
  | @stuck s₁ s₂ s₃ _ ev f w l _ begins zero room loads =>
    have hsize := (begins.begun hs hr hb).size
    have hfull : w.start = r.prefillSize := by omega
    have hmatched := begins.matchedPrefix hs
    have hx₂ : x ∈ s₂.requests := by
      rw [loads.fields.2.2] at hx
      obtain rfl | room := room
      · exact hx
      · rwa [room.move.requests] at hx
    refine .covered begins.before ?_ ?_ ?_
    · rw [← hfull]
      exact hmatched
    · rw [(begins.becomes hs).eq hx₂ hid,firstChunkState,if_pos (by omega)]
      rfl
    · rw [windowsOf,loads.fields.1]
      rfl

/-- A prompt being prefilled has something left. -/
def Windowed (s : Scheduler) : Prop :=
  ∀ x ∈ s.requests, ∀ f w, x.state = .prefilling f w → w.start+w.size < x.prefillSize

theorem Visit.outcome (h : Visit s a r (some a') s') (hs : Sound s) (hr : r ∈ s.requests)
    (hb : 0 < a.tokenBudget) (hw : Windowed s) (hx : x ∈ s'.requests) (hid : x.id = r.id) :
    Outcome s a r a' x := by
  cases h with
  | idle => exact .same (eq_of_same hs rfl hr hx hid) rfl
  | first _ visit => exact visit.outcome hs hr hb hx hid
  | noChunk _ room => exact .same (eq_of_same hs room.move.requests hr hx hid) rfl
  | @chunk f w l l' s₁ _ chunks =>
    have hlt := hw r hr f w chunks.before
    have hleft : r.unscheduledPrefillSize w = r.prefillSize-(w.start+w.size) := rfl
    have hpos : 0 < min a.tokenBudget (r.unscheduledPrefillSize w) := by omega
    have hfits : w.start+w.size+min a.tokenBudget (r.unscheduledPrefillSize w) ≤ r.prefillSize := by
      omega
    exact .chunked chunks.before rfl hpos hfits ((chunks.becomes hs).eq hx hid) rfl
      windowOf_prefillRow
  | noDecode _ _ room => exact .same (eq_of_same hs room.move.requests hr hx hid) rfl
  | decode before _ _ decodes =>
    refine .late ?_ ?_ ?_
    · obtain ⟨w,hst⟩ | hst := before <;> rw [hst] <;> rfl
    · rw [(decodes.becomes hs).eq hx hid]
      rfl
    · rw [windowsOf_push rfl,windowOf_decode rfl]
      exact List.append_nil _
  | recover before _ visit =>
    cases visit with
    | short room => exact .same (eq_of_same hs room.requests hr hx hid) rfl
    | row recovers loads =>
      rw [loads.fields.2.2] at hx
      refine .late ?_ ?_ ?_
      · rw [before]
        rfl
      · rw [(recovers.becomes hs).eq hx hid]
        rfl
      · rw [windowsOf_push loads.fields.1,windowOf_decode rfl]
        exact List.append_nil _

/-- The windows of another request. -/
theorem Visit.windowsOf_other (h : Visit s a r (some a') s') (hs : Sound s) (hr : r ∈ s.requests)
    (hb : 0 < a.tokenBudget) (hne : r.id ≠ id) : windowsOf id a'.ops = windowsOf id a.ops := by
  have hpush : ∀ op : ForwardOperation, a'.ops = a.ops ++ [op] → op.base.requestId = r.id →
      windowsOf id a'.ops = windowsOf id a.ops := by
    intro op hops hown
    rw [windowsOf_push hops,windowOf_other (by rw [ForwardOperation.requestId,hown]; exact hne)]
    exact List.append_nil _
  cases h.adds hs hr hb with
  | nothing ops => rw [windowsOf,ops]; rfl
  | prefill ops own | decode ops own => exact hpush _ ops own

theorem firstChunkState_lt {c : SchedulerConfig} {f' : ForwardState} {w' : Window}
    (hle : w.start+w.size ≤ r.prefillSize) (hst : firstChunkState c r f w = .prefilling f' w') :
    w' = w ∧ w.start+w.size < r.prefillSize := by
  unfold firstChunkState at hst
  split at hst
  · cases hst
  · injection hst with _ hw
    exact ⟨hw.symm,by omega⟩

theorem Visit.windowed (h : Visit s a r (some a') s') (hs : Sound s) (hr : r ∈ s.requests)
    (hb : 0 < a.tokenBudget) (hw : Windowed s) : Windowed s' := by
  intro x hx f w hst
  by_cases hid : x.id = r.id
  · cases h.outcome hs hr hb hw hx hid with
    | same eq =>
      rw [eq] at hst ⊢
      exact hw r hr f w hst
    | began _ _ _ le after | chunked _ _ _ le after =>
      rw [after] at hst
      obtain ⟨rfl,hlt⟩ := firstChunkState_lt le hst
      rw [after]
      exact hlt
    | covered _ _ after | late _ after =>
      rw [hst] at after
      cases after
  · exact hw x (h.mem_other hx hid) f w hst

end Outcome

end FluxServe
