import FluxServe.Scheduler.Unmixed

namespace FluxServe

variable {s s₁ s' : Scheduler} {r x y : Request} {a a' : Forwarding} {ids rest order : List RequestId}
  {rows rows' : List ForwardOperation} {op : ForwardOperation} {ops : List WriteBackOperation}
  {res : List ForwardOperation × CacheOperations} {plan : ExecutionPlan}

section Distinct

def ForwardOperation.requestId (op : ForwardOperation) : RequestId := op.base.requestId

theorem Visits.rids (h : Visits ids a s rest a' s') (hs : Sound s) :
    ∃ rows, a'.ops = a.ops ++ rows ∧ (rows.map ForwardOperation.requestId).Sublist ids := by
  induction h with
  | refl => exact ⟨[],(List.append_nil _).symm,List.nil_sublist _⟩
  | cons budget _ found visit _ ih =>
    obtain ⟨rows,hops,hsub⟩ := ih (visit.proceeds.sound hs)
    cases visit.adds hs found budget with
    | nothing hsame => exact ⟨rows,by rw [hops,hsame],hsub.cons _⟩
    | prefill hone own | decode hone own =>
      refine ⟨_ :: rows,by rw [hops,hone,List.append_assoc]; rfl,?_⟩
      rw [List.map_cons,ForwardOperation.requestId,own]
      exact hsub.cons_cons _

theorem Forwards.rids (h : Forwards ids s res s') (hs : Sound s) :
    (res.1.map ForwardOperation.requestId).Sublist ids := by
  cases h with
  | rows visits =>
    obtain ⟨rows,hops,hsub⟩ := visits.rids hs
    rw [hops]
    exact hsub
  | retract => exact List.nil_sublist _

theorem forward_perm : (planOf ops res).forward.Perm res.1 := by
  have hforward : (planOf ops res).forward = res.1.filter ForwardOperation.isPrefill ++
      res.1.filter fun op => !op.isPrefill := by
    unfold planOf
    cases res.2 <;> rfl
  rw [hforward]
  exact List.filter_append_perm _ _

/-- A plan has one row for each request at most. -/
theorem Calls.distinct (h : Calls s (.plan order) (.plan plan) s') (hs : Sound s) (hc : Copying s) :
    (plan.forward.map ForwardOperation.requestId).Nodup := by
  obtain ⟨ops,s₁,res,hnodup,hplanned,rfl⟩ := h.planned hs
  have hsound : Sound s₁.erased := (erased_turn (hplanned.commits.turn hs hc).sound).sound
  rw [(forward_perm.map _).nodup_iff]
  exact (hplanned.forwards.rids hsound).nodup (candidateIds_nodup _ hnodup)

end Distinct

section Passes

theorem inService_of_isEarly {st : RequestState} (h : st.isEarly = true) : st.inService = true := by
  cases st with
  | submitted | prefilling => rfl
  | _ => cases h

theorem inService_of_isLate {st : RequestState} (h : st.isLate = true) : st.inService = true := by
  cases st with
  | prefillDone | decoding | retracted => rfl
  | _ => cases h

/-- A request that has something to prefill, and the tokens for it. -/
structure Request.Prompted (r : Request) : Prop where
  positive : 0 < r.prefillSize
  fits : r.prefillSize ≤ r.tokens.length

def ForwardOperation.inputIds : ForwardOperation → List Token
  | prefill _ inputIds _ _ => inputIds
  | decode _ _ _ => []

def ForwardOperation.extendPrefixLen : ForwardOperation → Int
  | prefill _ _ _ extendPrefixLen => extendPrefixLen
  | decode _ _ _ => 0

/-- A prefill row that reaches the end of the prompt. -/
structure ForwardOperation.Completes (op : ForwardOperation) (x : Request) : Prop where
  isPrefill : op.isPrefill = true
  own : op.requestId = x.id
  reaches : x.prefillSize ≤ op.extendPrefixLen.toNat+op.inputIds.length

/-- A request before and after some rows. It leaves its prefill with the row that completes it. -/
structure Passes (rows : List ForwardOperation) (y x : Request) : Prop where
  id : y.id = x.id
  tokens : y.tokens = x.tokens
  prefillSize : y.prefillSize = x.prefillSize
  inService : y.state.inService = true
  early : x.state.isEarly = true → y.state.isEarly = true
  late : x.state.isEarly = false → y.state.isEarly = false ∨ ∃ op ∈ rows, op.Completes x

theorem Passes.refl (h : x.state.inService = true) : Passes rows x x :=
  ⟨rfl,rfl,rfl,h,fun hx => hx,.inl⟩

theorem Passes.trans {z : Request} (h : Passes rows z y) (h' : Passes rows' y x) :
    Passes (rows ++ rows') z x where
  id := h.id.trans h'.id
  tokens := h.tokens.trans h'.tokens
  prefillSize := h.prefillSize.trans h'.prefillSize
  inService := h.inService
  early hx := h.early (h'.early hx)
  late hx := by
    obtain hy | ⟨op,hop,hcompletes⟩ := h'.late hx
    · obtain hz | ⟨op,hop,hcompletes⟩ := h.late hy
      · exact .inl hz
      · refine .inr ⟨op,List.mem_append_left _ hop,hcompletes.isPrefill,?_,?_⟩
        · exact hcompletes.own.trans h'.id
        · rw [← h'.prefillSize]
          exact hcompletes.reaches
    · exact .inr ⟨op,List.mem_append_right _ hop,hcompletes⟩

theorem Passes.prompted (h : Passes rows y x) (hy : y.Prompted) : x.Prompted :=
  ⟨h.prefillSize ▸ hy.positive,h.prefillSize ▸ h.tokens ▸ hy.fits⟩

theorem completes_chunk {f : ForwardState} {l : LocalKVAllocator} {w : Window} {start : Nat}
    (hr : r.Prompted) (hend : w.start+w.size = r.prefillSize) :
    (prefillRow s r f l w start).Completes r := by
  refine ⟨rfl,rfl,?_⟩
  have hfits := hr.fits
  simp only [prefillRow,ForwardOperation.extendPrefixLen,ForwardOperation.inputIds,
    Request.tokenSlice,List.length_take,List.length_drop]
  omega

/-- A chunk of a prompt, which completes it or leaves more of it. -/
theorem passes_chunk {f f' : ForwardState} {l : LocalKVAllocator} {w : Window} {start : Nat}
    (hr : r.Prompted) (hearly : r.state.isEarly = true)
    (hx : x = { r with state := firstChunkState s.config r f w }) :
    Passes [prefillRow s' r f' l w start] r x := by
  have hin := inService_of_isEarly hearly
  subst hx
  refine ⟨rfl,rfl,rfl,hin,fun _ => hearly,fun hlate => .inr ⟨_,List.mem_singleton_self _,?_⟩⟩
  by_cases hend : w.start+w.size = r.prefillSize
  · have hcompletes : (prefillRow s' r f' l w start).Completes r := completes_chunk hr hend
    exact ⟨hcompletes.isPrefill,hcompletes.own,hcompletes.reaches⟩
  · dsimp only at hlate
    rw [firstChunkState,if_neg hend] at hlate
    cases hlate

theorem TurnsTo.passes (h : TurnsTo s s' rows x) (hoff : s.config.disablePrefixCache = true)
    (hs : ∀ y ∈ s.requests, y.state.inService = true → y.Prompted)
    (hx : x.state.inService = true) : ∃ y ∈ s.requests, Passes rows y x := by
  cases h with
  | same found => exact ⟨x,found,.refl hx⟩
  | left done =>
    rw [hx] at done
    cases done
  | @began r budget f w l begun after row =>
    have hin : r.state.inService = true := by
      rw [begun.before]
      rfl
    have hprompted := hs r begun.found hin
    have hstart : w.start = 0 := by
      obtain hnil | ⟨hon,_⟩ := begun.cached
      · rw [begun.start,hnil]
        rfl
      · rw [hoff] at hon
        cases hon
    have hsize := begun.size
    have hbudget := begun.positive
    have hpositive := hprompted.positive
    obtain ⟨hzero,_⟩ | ⟨_,rfl⟩ := row
    · omega
    · exact ⟨r,begun.found,passes_chunk hprompted (by rw [begun.before]; rfl) after⟩
  | @chunked r _ _ f w _ _ found before _ _ _ _ _ _ after row =>
    have hin : r.state.inService = true := by
      rw [before]
      rfl
    subst row
    exact ⟨r,found,passes_chunk (hs r found hin) (by rw [before]; rfl) after⟩
  | @decoded r _ _ _ _ found before _ _ _ after =>
    subst after
    refine ⟨r,found,rfl,rfl,rfl,?_,fun hearly => ?_,fun _ => .inl ?_⟩
    · obtain ⟨w,hst⟩ | hst := before <;> rw [hst] <;> rfl
    · cases hearly
    · obtain ⟨w,hst⟩ | hst := before <;> rw [hst] <;> rfl
  | @recovered r _ _ _ _ _ recovery after =>
    subst after
    refine ⟨r,recovery.found,rfl,rfl,rfl,?_,fun hearly => ?_,fun _ => .inl ?_⟩
    · rw [recovery.before]
      rfl
    · cases hearly
    · rw [recovery.before]
      rfl
  | @retracted r f _ _ _ found before decodable _ tokens id prefillSize after =>
    refine ⟨r,found,id.symm,tokens.symm,prefillSize.symm,inService_of_forward before,?_,?_⟩
    · intro hearly
      obtain hst | ⟨d,pairs,hst⟩ := after
      · rw [hst] at hearly
        cases hearly
      · rw [hst] at hearly
        cases hearly
    · intro _
      left
      cases hst : r.state with
      | prefillDone | decoding => rfl
      | _ =>
        rw [hst] at decodable
        cases decodable

/-- What the turns of a plan make of a request. -/
theorem Turns.passes (h : Turns s rows s') (hoff : s.config.disablePrefixCache = true)
    (hs : ∀ y ∈ s.requests, y.state.inService = true → y.Prompted) (hx : x ∈ s'.requests)
    (hin : x.state.inService = true) : ∃ y ∈ s.requests, Passes rows y x := by
  induction h generalizing x with
  | nil => exact ⟨x,hx,.refl hin⟩
  | @cons s s₁ s' rows rows' turn turns ih =>
    have hone (y : Request) (hy : y ∈ s₁.requests) (hy_in : y.state.inService = true) :
        ∃ z ∈ s.requests, Passes rows z y := (turn.follows y hy).passes hoff hs hy_in
    obtain ⟨y,hy,hpasses⟩ := ih (by rw [turn.config]; exact hoff) (fun y hy hy_in => by
      obtain ⟨z,hz,hpasses⟩ := hone y hy hy_in
      exact hpasses.prompted (hs z hz hpasses.inService)) hx hin
    obtain ⟨z,hz,hpasses'⟩ := hone y hy hpasses.inService
    exact ⟨z,hz,hpasses'.trans hpasses⟩

theorem Calls.passes (h : Calls s (.plan order) (.plan plan) s') (hs : Sound s) (hc : Copying s)
    (hoff : s.config.disablePrefixCache = true)
    (hprompted : ∀ y ∈ s.requests, y.state.inService = true → y.Prompted) (hx : x ∈ s'.requests)
    (hin : x.state.inService = true) : ∃ y ∈ s.requests, Passes plan.forward y x := by
  obtain ⟨ops,s₁,res,_,hplanned,rfl⟩ := h.planned hs
  obtain ⟨rows,hturns,hforward⟩ := hplanned.turns hs hc
  obtain ⟨y,hy,hpasses⟩ := hturns.passes hoff hprompted hx hin
  refine ⟨y,hy,hpasses.id,hpasses.tokens,hpasses.prefillSize,hpasses.inService,hpasses.early,?_⟩
  intro hlate
  obtain hlate | ⟨op,hop,hcompletes⟩ := hpasses.late hlate
  · exact .inl hlate
  · refine .inr ⟨op,?_,hcompletes⟩
    rw [hforward]
    exact (List.filter_append_perm _ _).mem_iff.mpr hop

end Passes

section Rows

/-- A row of a plan, by the request it was made for. -/
structure RowOf (s : Scheduler) (op : ForwardOperation) (r : Request) : Prop where
  found : r ∈ s.requests
  own : op.requestId = r.id
  kind : op.isPrefill = true ∧ r.state.isEarly = true ∨ op.isPrefill = false ∧ r.state.isLate = true

theorem FullyCovered.not_prompted (h : FullyCovered s r) (hoff : s.config.disablePrefixCache = true)
    (hr : r.Prompted) : False := by
  obtain ⟨_,T,hT,hlen⟩ := h
  have hpositive := hr.positive
  obtain rfl | ⟨hon,_⟩ := hT
  · rw [List.length_nil] at hlen
    omega
  · rw [hoff] at hon
    cases hon

theorem Visits.rowsOf {s₀ : Scheduler} (h : Visits ids a s rest a' s') (hs : Sound s)
    (hnodup : ids.Nodup) (hoff : s.config.disablePrefixCache = true)
    (hwaiting : ∀ x ∈ s.requests, x.id ∈ ids → x ∈ s₀.requests)
    (hprompted : ∀ x ∈ s₀.requests, x.state.inService = true → x.Prompted)
    (ha : ∀ op ∈ a.ops, ∃ r, RowOf s₀ op r) : ∀ op ∈ a'.ops, ∃ r, RowOf s₀ op r := by
  induction h with
  | refl => exact ha
  | @cons ids rest a a₁ a' s s₁ s' r budget _ found visit _ ih =>
    obtain ⟨hnot,hnodup⟩ := List.nodup_cons.mp hnodup
    have hr := hwaiting r found List.mem_cons_self
    apply ih (visit.proceeds.sound hs) hnodup
    · rw [visit.proceeds.config]
      exact hoff
    · intro x hx hid
      have hne : x.id ≠ r.id := fun heq => hnot (heq ▸ hid)
      exact hwaiting x (visit.mem_other hx hne) (List.mem_cons_of_mem _ hid)
    · cases visit.adds hs found budget with
      | nothing ops =>
        rw [ops]
        exact ha
      | prefill ops own isPrefill _ may =>
        rw [ops]
        intro op hop
        obtain hop | hop := List.mem_append.mp hop
        · exact ha op hop
        · rw [List.mem_singleton.mp hop]
          exact ⟨r,hr,own,.inl ⟨isPrefill,may.isEarly⟩⟩
      | decode ops own isPrefill _ may =>
        rw [ops]
        intro op hop
        obtain hop | hop := List.mem_append.mp hop
        · exact ha op hop
        · rw [List.mem_singleton.mp hop]
          refine ⟨r,hr,own,.inr ⟨isPrefill,?_⟩⟩
          obtain hcov | ⟨_,hlate⟩ := may
          · refine absurd (hprompted r hr ?_) (hcov.not_prompted hoff)
            rw [hcov.1]
            rfl
          · exact hlate

theorem RowOf.inService (h : RowOf s op r) : r.state.inService = true := by
  obtain ⟨_,hearly⟩ | ⟨_,hlate⟩ := h.kind
  · exact inService_of_isEarly hearly
  · exact inService_of_isLate hlate

/-- A request that serves was there before the write-backs that open a plan. -/
theorem Commits.found_inService (h : Commits order s ops s₁) (hc : Copying s)
    (hx : x ∈ s₁.erased.requests) (hin : x.state.inService = true) : x ∈ s.requests := by
  apply h.found hc (List.mem_filter.mp hx).1
  intro d n heq
  rw [heq] at hin
  cases hin

/-- Every row of a plan is for a request held before it: a prefill row for one that is still in its
prefill, a decode row for one that is past it. -/
theorem Calls.rowsOf (h : Calls s (.plan order) (.plan plan) s') (hs : Sound s) (hc : Copying s)
    (hoff : s.config.disablePrefixCache = true)
    (hprompted : ∀ y ∈ s.requests, y.state.inService = true → y.Prompted) :
    ∀ op ∈ plan.forward, ∃ r, RowOf s op r := by
  obtain ⟨ops,s₁,res,hnodup,hplanned,rfl⟩ := h.planned hs
  have hcommits := hplanned.commits
  have hsound : Sound s₁.erased := (erased_turn (hcommits.turn hs hc).sound).sound
  have hconfig : s₁.erased.config.disablePrefixCache = true := by
    rw [← hoff]
    exact congrArg _ hcommits.config
  intro op hop
  rw [mem_forward_iff] at hop
  cases hplanned.forwards with
  | retract => cases hop
  | rows visits =>
    have hrows := visits.rowsOf hsound (candidateIds_nodup _ hnodup) hconfig (fun x hx _ => hx)
      (fun x hx hin => hprompted x (hcommits.found_inService hc hx hin) hin) (by simp)
    obtain ⟨r,hr⟩ := hrows op hop
    exact ⟨r,hcommits.found_inService hc hr.found hr.inService,hr.own,hr.kind⟩

end Rows

end FluxServe
