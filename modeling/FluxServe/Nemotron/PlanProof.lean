import FluxServe.Nemotron.Plan

namespace FluxServe.Engine

variable {M : NemotronModel} {R : NemotronRunner M} {K : PagedRunner M} {rid : RequestId}
  {state : RequestState} {s : Slot M} {w w' : Served M} {rids : List RequestId}
  {results : List StepResult} {op : PlanOp} {fuel : Nat}

section Keys

variable {α γ : Type} [DecidableEq α] {key : γ → α} {l : List γ}

theorem filter_key_of_notMem {a : α} (h : a ∉ l.map key) :
    l.filter (fun x => key x = a) = [] := by
  apply List.filter_eq_nil_iff.mpr
  intro x hx hkey
  exact h (List.mem_map.mpr ⟨x,hx,by simpa using hkey⟩)

/-- With distinct keys, an element is all that its key selects. -/
theorem filter_key_of_mem {e : γ} (h : (l.map key).Nodup) (he : e ∈ l) :
    l.filter (fun x => key x = key e) = [e] := by
  induction l with
  | nil => cases he
  | cons x l ih =>
    rw [List.map_cons,List.nodup_cons] at h
    rcases List.mem_cons.mp he with rfl | he
    · rw [List.filter_cons_of_pos (by simp),filter_key_of_notMem h.1]
    · have hne : key x ≠ key e := fun hkey => h.1 (List.mem_map.mpr ⟨e,he,hkey.symm⟩)
      rw [List.filter_cons_of_neg (by simpa using hne),ih h.2 he]

end Keys

/-- The results of one request. -/
def resultsOf (rid : RequestId) (results : List StepResult) : List StepResult :=
  results.filter fun r => r.rid = rid

theorem resultsOf_append (rid : RequestId) (rs rs' : List StepResult) :
    resultsOf rid (rs ++ rs') = resultsOf rid rs ++ resultsOf rid rs' := List.filter_append ..

theorem mem_liveRows : (rid,state) ∈ liveRows w rids ↔
    rid ∈ rids ∧ (w rid).state = some state ∧ state.finished = false := by
  unfold liveRows
  rw [List.mem_filterMap]
  constructor
  · rintro ⟨x,hx,h⟩
    split at h
    · next st hst =>
      split at h
      · cases h
      · next hfin =>
        injection h with h
        injection h with hrid hstate
        subst hrid hstate
        exact ⟨hx,hst,by simpa using hfin⟩
    · cases h
  · rintro ⟨hmem,hstate,hfin⟩
    exact ⟨rid,hmem,by rw [hstate]; simp [hfin]⟩

theorem liveRows_sublist (w : Served M) (rids : List RequestId) :
    ((liveRows w rids).map Prod.fst).Sublist rids := by
  induction rids with
  | nil => exact .slnil
  | cons rid rids ih =>
    unfold liveRows at ih ⊢
    rw [List.filterMap_cons]
    split
    · exact ih.cons _
    · next x hx =>
      have hfst : x.1 = rid := by
        split at hx
        · split at hx
          · cases hx
          · injection hx with hx
            rw [← hx]
        · cases hx
      rw [List.map_cons,hfst]
      exact ih.cons_cons _

/-- A runner whose batches run row by row. -/
structure Rowwise (K : PagedRunner M) (Ends : K.Row → K.Row → Prop) : Prop where
  run_iff : ∀ rows rows', (∃ fuel, K.run fuel rows = some (.ok rows')) ↔
    List.Forall₂ Ends rows rows'
  result_rid : ∀ rid state s r, (K.result rid state s r).rid = rid
  settle_state : ∀ r s, (K.settle r s).state = s.state

/-- What the decode row of a live request comes to. -/
def Decodes (K : PagedRunner M) (Ends : K.Row → K.Row → Prop) (rid : RequestId)
    (state : RequestState) (s s' : Slot M) (r : StepResult) : Prop :=
  ∃ row row', K.enter rid state s = .ok row ∧ Ends row row' ∧ s' = K.settle row' s ∧
    r = K.result rid state s row'

section Rows

variable {Ends : K.Row → K.Row → Prop}

/-- A batch of decode rows that does not raise settles each live request with its own row. -/
theorem planRows_ok (hk : Rowwise K Ends) (hnd : rids.Nodup)
    (h : K.planRows fuel rids w = some (.ok (results,w'))) :
    (results.map StepResult.rid).Sublist rids ∧
    (∀ rid state, (rid,state) ∈ liveRows w rids →
      ∃ r, Decodes K Ends rid state (w rid) (w' rid) r ∧ resultsOf rid results = [r]) ∧
    (∀ rid, (∀ state, (rid,state) ∉ liveRows w rids) →
      w' rid = w rid ∧ resultsOf rid results = []) := by
  unfold PagedRunner.planRows at h
  cases hrows : (liveRows w rids).mapM fun x => K.enter x.1 x.2 (w x.1) with
  | error e =>
    rw [hrows] at h
    cases h
  | ok rows =>
    rw [hrows] at h
    obtain ⟨r,hr,hret⟩ := Option.bind_eq_some_iff.mp h
    cases r with
    | error e => cases hret
    | ok rows' =>
      injection hret with hret
      injection hret with hret
      injection hret with hresults hw
      have henter := mapM_eq_ok.mp hrows
      have hrun := (hk.run_iff rows rows').mp ⟨fuel,hr⟩
      have hlen : (liveRows w rids).length ≤ rows'.length :=
        (henter.length_eq.trans hrun.length_eq).le
      have hkeys : ((liveRows w rids).zip rows').map (fun x => x.1.1) =
          (liveRows w rids).map Prod.fst := by
        rw [← List.map_fst_zip hlen,List.map_map]
        simp only [List.map_fst_zip hlen]
        rfl
      have hsub := liveRows_sublist w rids
      have hdistinct : (((liveRows w rids).zip rows').map fun x => x.1.1).Nodup := by
        rw [hkeys]
        exact hnd.sublist hsub
      have hof (rid : RequestId) : resultsOf rid results =
          (((liveRows w rids).zip rows').filter fun x => x.1.1 = rid).map
            fun x => K.result x.1.1 x.1.2 (w x.1.1) x.2 := by
        rw [← hresults,resultsOf,List.filter_map]
        congr 2
        funext x
        simp only [Function.comp,hk.result_rid]
      refine ⟨?_,?_,?_⟩
      · rw [← hresults,List.map_map]
        have : (StepResult.rid ∘ fun x : (RequestId × RequestState) × K.Row =>
            K.result x.1.1 x.1.2 (w x.1.1) x.2) = fun x => x.1.1 := by
          funext x
          exact hk.result_rid _ _ _ _
        rw [this,hkeys]
        exact hsub
      · intro rid state hlive
        obtain ⟨i,hi,hget⟩ := List.mem_iff_getElem.mp hlive
        have hi₁ : i < rows.length := henter.length_eq ▸ hi
        have hi₂ : i < rows'.length := hrun.length_eq ▸ hi₁
        have hrow := henter.get hi hi₁
        have hend := hrun.get hi₁ hi₂
        simp only [List.get_eq_getElem,hget] at hrow hend
        have hmem : ((rid,state),rows'[i]) ∈ (liveRows w rids).zip rows' := by
          apply List.mem_iff_getElem.mpr
          refine ⟨i,by rw [List.length_zip]; omega,?_⟩
          rw [List.getElem_zip,hget]
        refine ⟨_,⟨rows[i],rows'[i],hrow,hend,?_,rfl⟩,?_⟩
        · rw [← hw]
          apply patch_of_mem
          · rw [List.map_map]
            exact hdistinct
          · exact List.mem_map.mpr ⟨_,hmem,rfl⟩
        · rw [hof,filter_key_of_mem hdistinct hmem]
          rfl
      · intro rid hidle
        have hnot : rid ∉ ((liveRows w rids).zip rows').map fun x => x.1.1 := by
          rw [hkeys]
          intro hmem
          obtain ⟨x,hx,rfl⟩ := List.mem_map.mp hmem
          exact hidle x.2 hx
        constructor
        · rw [← hw]
          apply patch_of_notMem
          rw [List.map_map]
          exact hnot
        · rw [hof,filter_key_of_notMem hnot]
          rfl

theorem prefillSlot_state (R : NemotronRunner M) (p : PrefillRow) (s : Slot M) :
    (R.prefillSlot p s).state = s.state := by
  unfold NemotronRunner.prefillSlot
  dsimp only
  split
  · rfl
  · split <;> rfl

theorem prefillKeys {β : Type} (prefills : List PrefillRow) (f : PrefillRow → β) :
    (prefills.map fun p => (p.rid,f p)).map Prod.fst = prefills.map PrefillRow.rid := by
  rw [List.map_map]
  rfl

/-- The prefill writes the slots of its rows and no others. -/
theorem prefill_stage {prefills : List PrefillRow} (hnd : (prefills.map PrefillRow.rid).Nodup)
    (h : R.planPrefill prefills w = .ok w') (speculates : Bool) :
    (∀ p ∈ prefills, p.tokens ≠ []) ∧
    (∀ p ∈ prefills, patch w' (prefills.map fun p => (p.rid,(w' p.rid).prefilled speculates)) p.rid =
      (R.prefillSlot p (w p.rid)).prefilled speculates) ∧
    ∀ rid, rid ∉ prefills.map PrefillRow.rid →
      patch w' (prefills.map fun p => (p.rid,(w' p.rid).prefilled speculates)) rid = w rid := by
  obtain ⟨hchunks,hw⟩ : (∀ p ∈ prefills, p.tokens ≠ []) ∧
      w' = patch w (prefills.map fun p => (p.rid,R.prefillSlot p (w p.rid))) := by
    unfold NemotronRunner.planPrefill at h
    split at h
    · cases h
    · next hany =>
      injection h with h
      refine ⟨fun p hp hnil => hany ?_,h.symm⟩
      exact List.any_eq_true.mpr ⟨p,hp,by rw [hnil]; rfl⟩
  refine ⟨hchunks,?_,?_⟩
  · intro p hp
    have hfirst : w' p.rid = R.prefillSlot p (w p.rid) := by
      rw [hw]
      apply patch_of_mem
      · rw [prefillKeys]
        exact hnd
      · exact List.mem_map.mpr ⟨p,hp,rfl⟩
    apply patch_of_mem
    · rw [prefillKeys]
      exact hnd
    · exact List.mem_map.mpr ⟨p,hp,by rw [hfirst]⟩
  · intro rid hrid
    rw [patch_of_notMem (by rw [prefillKeys]; exact hrid),hw,
      patch_of_notMem (by rw [prefillKeys]; exact hrid)]

theorem prefillResults_rids (w : Served M) (prefills : List PrefillRow) :
    ((PagedRunner.prefillResults w prefills).map StepResult.rid).Sublist
      (prefills.map PrefillRow.rid) := by
  unfold PagedRunner.prefillResults
  rw [List.map_map]
  exact List.filter_sublist.map PrefillRow.rid

theorem prefillResults_of_mem {prefills : List PrefillRow} {p : PrefillRow}
    (hnd : (prefills.map PrefillRow.rid).Nodup) (hp : p ∈ prefills) :
    resultsOf p.rid (PagedRunner.prefillResults w prefills) =
      if (w p.rid).state.isSome then [{ rid := p.rid }] else [] := by
  cases hstate : (w p.rid).state.isSome with
  | true =>
    have hmem : ({ rid := p.rid } : StepResult) ∈ PagedRunner.prefillResults w prefills :=
      List.mem_map.mpr ⟨p,List.mem_filter.mpr ⟨hp,hstate⟩,rfl⟩
    exact filter_key_of_mem (hnd.sublist (prefillResults_rids w prefills)) hmem
  | false =>
    apply filter_key_of_notMem
    intro hmem
    obtain ⟨r,hr,hrid⟩ := List.mem_map.mp hmem
    obtain ⟨q,hq,rfl⟩ := List.mem_map.mp hr
    have hq' := (List.mem_filter.mp hq).2
    change q.rid = p.rid at hrid
    rw [hrid,hstate] at hq'
    cases hq'

theorem releaseKeys (results : List StepResult) (w : Served M) :
    (((results.filter StepResult.finished).map fun r => (r.rid,(w r.rid).release)).map Prod.fst) =
      (results.filter StepResult.finished).map StepResult.rid := by
  rw [List.map_map]
  rfl

/-- Only the requests of finished results are released. -/
theorem releaseFinished_eq (hnd : (results.map StepResult.rid).Nodup) (rid : RequestId) :
    (∀ r, resultsOf rid results = [r] → PagedRunner.releaseFinished results w rid =
      if r.finished then (w rid).release else w rid) ∧
    (resultsOf rid results = [] → PagedRunner.releaseFinished results w rid = w rid) := by
  have hrunning (hrid : ∀ r ∈ resultsOf rid results, r.finished = false) :
      PagedRunner.releaseFinished results w rid = w rid := by
    apply patch_of_notMem
    rw [releaseKeys]
    intro hmem
    obtain ⟨r,hr,rfl⟩ := List.mem_map.mp hmem
    obtain ⟨hr,hfin⟩ := List.mem_filter.mp hr
    have hnot := hrid r (List.mem_filter.mpr ⟨hr,by simp⟩)
    rw [hnot] at hfin
    cases hfin
  constructor
  · intro r hof
    have hr : r ∈ results ∧ r.rid = rid := by
      have hmem : r ∈ resultsOf rid results := by rw [hof]; exact List.mem_singleton_self r
      simpa using List.mem_filter.mp hmem
    cases hfin : r.finished with
    | false =>
      rw [if_neg Bool.false_ne_true]
      apply hrunning
      intro r' hr'
      rw [hof,List.mem_singleton] at hr'
      rw [hr']
      exact hfin
    | true =>
      rw [if_pos rfl]
      apply patch_of_mem
      · rw [releaseKeys]
        exact hnd.sublist (List.filter_sublist.map _)
      · exact List.mem_map.mpr ⟨r,List.mem_filter.mpr ⟨hr.1,hfin⟩,by rw [hr.2]⟩
  · intro hof
    apply hrunning
    rw [hof]
    intro r hr
    cases hr

/-- What an execution that does not raise makes of each request. -/
structure Executed (R : NemotronRunner M) (K : PagedRunner M) (Ends : K.Row → K.Row → Prop)
    (op : PlanOp) (w w' : Served M) (results : List StepResult) : Prop where
  distinct : (results.map StepResult.rid).Nodup
  chunks : ∀ p ∈ op.prefills, p.tokens ≠ []
  prefills : ∀ p ∈ op.prefills,
    w' p.rid = (R.prefillSlot p (w p.rid)).prefilled K.speculates ∧
    resultsOf p.rid results = if (w p.rid).state.isSome then [{ rid := p.rid }] else []
  decodes : ∀ rid ∈ op.decodes, ∀ state, (w rid).state = some state → state.finished = false →
    ∃ r s', Decodes K Ends rid state (w rid) s' r ∧ resultsOf rid results = [r] ∧
      w' rid = if r.finished then s'.release else s'
  idle : ∀ rid ∈ op.decodes, (∀ state, (w rid).state = some state → state.finished = true) →
    w' rid = w rid ∧ resultsOf rid results = []
  others : ∀ rid, rid ∉ op.requestIds → w' rid = w rid ∧ resultsOf rid results = []

theorem executePlan_ok (hk : Rowwise K Ends)
    (h : K.executePlan R fuel op w = some (.ok (results,w'))) :
    Executed R K Ends op w w' results := by
  obtain ⟨hprefills,hdecodes,hapart⟩ := List.nodup_append.mp op.distinct
  unfold PagedRunner.executePlan at h
  cases hpre : R.planPrefill op.prefills w with
  | error e =>
    rw [hpre] at h
    cases h
  | ok w₁ =>
    rw [hpre] at h
    obtain ⟨r,hr,hret⟩ := Option.bind_eq_some_iff.mp h
    cases r with
    | error e => cases hret
    | ok x =>
      obtain ⟨rs,w₃⟩ := x
      injection hret with hret
      injection hret with hret
      injection hret with hresults hw
      obtain ⟨hchunks,hfilled,hkept⟩ := prefill_stage hprefills hpre K.speculates
      obtain ⟨hsub,hlive,hidle⟩ := planRows_ok hk hdecodes hr
      have hmarks := prefillResults_rids w op.prefills
      have hdistinct : (results.map StepResult.rid).Nodup := by
        rw [← hresults,List.map_append]
        exact op.distinct.sublist (hmarks.append hsub)
      have hnoMark {rid : RequestId} (hrid : rid ∉ op.prefills.map PrefillRow.rid) :
          resultsOf rid results = resultsOf rid rs := by
        rw [← hresults,resultsOf_append]
        have hnone : resultsOf rid (PagedRunner.prefillResults w op.prefills) = [] :=
          filter_key_of_notMem fun hmem => hrid (hmarks.subset hmem)
        rw [hnone,List.nil_append]
      have hnoRow {rid : RequestId} (hrid : rid ∉ op.decodes) : resultsOf rid results =
          resultsOf rid (PagedRunner.prefillResults w op.prefills) := by
        rw [← hresults,resultsOf_append]
        have hnone : resultsOf rid rs = [] :=
          filter_key_of_notMem fun hmem => hrid (hsub.subset hmem)
        rw [hnone,List.append_nil]
      have hrelease := fun rid => releaseFinished_eq (w := w₃) hdistinct rid
      rw [hresults] at hw
      subst hw
      refine ⟨hdistinct,hchunks,?_,?_,?_,?_⟩
      · intro p hp
        have hrid : p.rid ∈ op.prefills.map PrefillRow.rid := List.mem_map.mpr ⟨p,hp,rfl⟩
        have hnot : p.rid ∉ op.decodes := fun hmem => hapart _ hrid _ hmem rfl
        have hof := (hnoRow hnot).trans (prefillResults_of_mem (w := w) hprefills hp)
        have hslot := (hidle p.rid fun state hmem => hnot (mem_liveRows.mp hmem).1).1
        refine ⟨?_,hof⟩
        rw [← hfilled p hp,← hslot]
        cases hstate : (w p.rid).state.isSome with
        | true =>
          rw [hstate,if_pos rfl] at hof
          exact (hrelease p.rid).1 _ hof
        | false =>
          rw [hstate,if_neg Bool.false_ne_true] at hof
          exact (hrelease p.rid).2 hof
      · intro rid hrid state hstate hfin
        have hnot : rid ∉ op.prefills.map PrefillRow.rid := fun hmem => hapart _ hmem _ hrid rfl
        obtain ⟨r,hdec,hof⟩ := hlive rid state
          (mem_liveRows.mpr ⟨hrid,by rw [hkept rid hnot]; exact hstate,hfin⟩)
        rw [hkept rid hnot] at hdec
        have hof' := (hnoMark hnot).trans hof
        exact ⟨r,w₃ rid,hdec,hof',(hrelease rid).1 r hof'⟩
      · intro rid hrid hstate
        have hnot : rid ∉ op.prefills.map PrefillRow.rid := fun hmem => hapart _ hmem _ hrid rfl
        obtain ⟨hsame,hof⟩ := hidle rid fun state hmem => by
          obtain ⟨_,hst,hfin⟩ := mem_liveRows.mp hmem
          rw [hkept rid hnot] at hst
          rw [hstate state hst] at hfin
          cases hfin
        have hof' := (hnoMark hnot).trans hof
        exact ⟨((hrelease rid).2 hof').trans (hsame.trans (hkept rid hnot)),hof'⟩
      · intro rid hrid
        have hnot : rid ∉ op.prefills.map PrefillRow.rid ∧ rid ∉ op.decodes := by
          simpa [PlanOp.requestIds] using hrid
        obtain ⟨hsame,hof⟩ := hidle rid fun state hmem => hnot.2 (mem_liveRows.mp hmem).1
        have hof' := (hnoMark hnot.1).trans hof
        exact ⟨((hrelease rid).2 hof').trans (hsame.trans (hkept rid hnot.1)),hof'⟩

/-- An execution raises only for an empty chunk or for a row of its own. -/
theorem executePlan_total (hk : Rowwise K Ends) (hchunks : ∀ p ∈ op.prefills, p.tokens ≠ [])
    (hrows : ∀ rid ∈ op.decodes, ∀ state, (w rid).state = some state → state.finished = false →
      ∃ s' r, Decodes K Ends rid state (w rid) s' r) :
    ∃ fuel x, K.executePlan R fuel op w = some (.ok x) := by
  obtain ⟨hprefills,_,hapart⟩ := List.nodup_append.mp op.distinct
  obtain ⟨w₁,hpre⟩ : ∃ w₁, R.planPrefill op.prefills w = .ok w₁ := by
    unfold NemotronRunner.planPrefill
    rw [if_neg fun hany => ?_]
    · exact ⟨_,rfl⟩
    · obtain ⟨p,hp,hempty⟩ := List.any_eq_true.mp hany
      exact hchunks p hp (List.isEmpty_iff.mp hempty)
  obtain ⟨_,_,hkept⟩ := prefill_stage hprefills hpre K.speculates
  obtain ⟨w₂,hw₂⟩ : ∃ w₂, w₂ = patch w₁ (op.prefills.map fun p =>
    (p.rid,(w₁ p.rid).prefilled K.speculates)) := ⟨_,rfl⟩
  rw [← hw₂] at hkept
  have hlive : ∀ x ∈ liveRows w₂ op.decodes, ∃ row row',
      K.enter x.1 x.2 (w₂ x.1) = .ok row ∧ Ends row row' := by
    intro x hx
    obtain ⟨hmem,hstate,hfin⟩ := mem_liveRows.mp hx
    have hnot : x.1 ∉ op.prefills.map PrefillRow.rid := fun hbad => hapart _ hbad _ hmem rfl
    rw [hkept x.1 hnot] at hstate ⊢
    obtain ⟨_,_,row,row',hrow,hends,_⟩ := hrows x.1 hmem x.2 hstate hfin
    exact ⟨row,row',hrow,hends⟩
  obtain ⟨rows,rows',henter,hrun⟩ : ∃ rows rows', List.Forall₂ (fun x row =>
      K.enter x.1 x.2 (w₂ x.1) = .ok row) (liveRows w₂ op.decodes) rows ∧
      List.Forall₂ Ends rows rows' := by
    generalize liveRows w₂ op.decodes = live at hlive
    induction live with
    | nil => exact ⟨[],[],.nil,.nil⟩
    | cons x xs ih =>
      obtain ⟨row,row',hrow,hends⟩ := hlive x List.mem_cons_self
      obtain ⟨rows,rows',henter,hrun⟩ := ih fun y hy => hlive y (List.mem_cons_of_mem _ hy)
      exact ⟨row :: rows,row' :: rows',.cons hrow henter,.cons hends hrun⟩
  obtain ⟨fuel,hfuel⟩ := (hk.run_iff rows rows').mpr hrun
  refine ⟨fuel,?_⟩
  unfold PagedRunner.executePlan
  rw [hpre]
  dsimp only
  rw [← hw₂]
  unfold PagedRunner.planRows
  rw [mapM_eq_ok.mpr henter]
  dsimp only
  rw [hfuel]
  exact ⟨_,rfl⟩

/-- A forward operation raises and its requests are dropped, or none of them is known, or it is
executed and its results are delivered. -/
theorem executeForwardOp_cases (hk : Rowwise K Ends)
    (h : K.executeForwardOp R fuel op w = some (results,w')) :
    (results = [] ∧ (∀ rid ∈ op.requestIds, w' rid = (w rid).fail) ∧
      ∀ rid, rid ∉ op.requestIds → w' rid = w rid) ∨
    (results = [] ∧ w' = w ∧ ∀ rid ∈ op.requestIds, (w rid).state = none) ∨
    ∃ w₁, Executed R K Ends op w w₁ results ∧
      ∀ rid, (∀ r, resultsOf rid results = [r] → w' rid = (w₁ rid).deliver r) ∧
        (resultsOf rid results = [] → w' rid = w₁ rid) := by
  unfold PagedRunner.executeForwardOp at h
  split at h
  · next hnone =>
    injection h with h
    injection h with hresults hw
    refine .inr (.inl ⟨hresults.symm,hw.symm,fun rid hrid => ?_⟩)
    simpa using List.all_eq_true.mp hnone rid hrid
  · obtain ⟨r,hr,hret⟩ := Option.bind_eq_some_iff.mp h
    cases r with
    | error e =>
      injection hret with hret
      injection hret with hresults hw
      have hkeys : (op.requestIds.map fun rid => (rid,(w rid).fail)).map Prod.fst =
          op.requestIds := by
        rw [List.map_map]
        exact List.map_id _
      refine .inl ⟨hresults.symm,fun rid hrid => ?_,fun rid hrid => ?_⟩
      · rw [← hw]
        apply patch_of_mem
        · rw [hkeys]
          exact op.distinct
        · exact List.mem_map.mpr ⟨rid,hrid,rfl⟩
      · rw [← hw]
        apply patch_of_notMem
        rw [hkeys]
        exact hrid
    | ok x =>
      obtain ⟨rs,w₁⟩ := x
      injection hret with hret
      injection hret with hresults hw
      subst hresults
      have hdone := executePlan_ok hk hr
      have hkeys : (rs.map fun r => (r.rid,(w₁ r.rid).deliver r)).map Prod.fst =
          rs.map StepResult.rid := by
        rw [List.map_map]
        rfl
      refine .inr (.inr ⟨w₁,hdone,fun rid => ⟨fun r hof => ?_,fun hof => ?_⟩⟩)
      · have hr : r ∈ rs ∧ r.rid = rid := by
          have hmem : r ∈ resultsOf rid rs := by rw [hof]; exact List.mem_singleton_self r
          simpa using List.mem_filter.mp hmem
        rw [← hw]
        apply patch_of_mem
        · rw [hkeys]
          exact hdone.distinct
        · exact List.mem_map.mpr ⟨r,hr.1,by rw [hr.2]⟩
      · rw [← hw]
        apply patch_of_notMem
        rw [hkeys]
        intro hmem
        obtain ⟨r,hr,hrid⟩ := List.mem_map.mp hmem
        have : r ∈ resultsOf rid rs := List.mem_filter.mpr ⟨hr,by simpa using hrid⟩
        rw [hof] at this
        cases this

/-- A forward operation leaves the requests that have no row of it. -/
theorem executeForwardOp_others (hk : Rowwise K Ends)
    (h : K.executeForwardOp R fuel op w = some (results,w')) (hrid : rid ∉ op.requestIds) :
    w' rid = w rid := by
  obtain ⟨_,_,hothers⟩ | ⟨_,rfl,_⟩ | ⟨w₁,hdone,hdeliver⟩ := executeForwardOp_cases hk h
  · exact hothers rid hrid
  · rfl
  · obtain ⟨hsame,hof⟩ := hdone.others rid hrid
    exact ((hdeliver rid).2 hof).trans hsame

theorem deliver_running {r : StepResult} (hstate : s.state = some state)
    (hfin : state.finished = false) (hr : r.finished = false) :
    s.deliver r = { s with state := some (
      if r.decodeBlockCompleted then
        { state with outputIds := state.outputIds ++ r.tokenIds }.markDecodeBlockDone
      else { state with outputIds := state.outputIds ++ r.tokenIds }) } := by
  unfold Slot.deliver
  rw [hstate]
  simp [hfin,hr]

theorem deliver_finished {r : StepResult} (hstate : s.state = some state)
    (hfin : state.finished = false) (hr : r.finished = true) :
    (s.deliver r).state = none := by
  unfold Slot.deliver
  rw [hstate]
  simp [hfin,hr]

theorem fail_running (hstate : s.state = some state) (hfin : state.finished = false) :
    s.fail = { s.release with state := none } := by
  unfold Slot.fail
  rw [hstate]
  simp [hfin]

/-- A prefill row of a live request is done, or the request is dropped. -/
theorem executeForwardOp_prefill (hk : Rowwise K Ends)
    (h : K.executeForwardOp R fuel op w = some (results,w')) {p : PrefillRow} (hp : p ∈ op.prefills)
    (hstate : (w p.rid).state = some state) (hfin : state.finished = false) :
    (resultsOf p.rid results = [] ∧ (w' p.rid).state = none) ∨
    (p.tokens ≠ [] ∧ resultsOf p.rid results = [{ rid := p.rid }] ∧
      w' p.rid = (R.prefillSlot p (w p.rid)).prefilled K.speculates) := by
  have hmem : p.rid ∈ op.requestIds := List.mem_append_left _ (List.mem_map.mpr ⟨p,hp,rfl⟩)
  obtain ⟨rfl,hfail,_⟩ | ⟨_,_,hnone⟩ | ⟨w₁,hdone,hdeliver⟩ := executeForwardOp_cases hk h
  · refine .inl ⟨rfl,?_⟩
    rw [hfail _ hmem,fail_running hstate hfin]
  · rw [hnone _ hmem] at hstate
    cases hstate
  · obtain ⟨hslot,hof⟩ := hdone.prefills p hp
    rw [hstate,Option.isSome_some,if_pos rfl] at hof
    refine .inr ⟨hdone.chunks p hp,hof,?_⟩
    have hstate' : (R.prefillSlot p (w p.rid)).state = some state := by
      rw [prefillSlot_state,hstate]
    have hfilled : (w₁ p.rid).state = some { state with planPrefillDone := true } := by
      rw [hslot,Slot.prefilled,hstate']
      dsimp only
      split <;> rfl
    rw [(hdeliver p.rid).1 _ hof,deliver_running hfilled hfin rfl]
    simp only [Bool.false_eq_true,if_false,List.append_nil]
    rw [← hslot,← hfilled]

/-- A decode row of a live request is run and its result delivered, or the request is dropped. -/
theorem executeForwardOp_decode (hk : Rowwise K Ends)
    (h : K.executeForwardOp R fuel op w = some (results,w')) (hrid : rid ∈ op.decodes)
    (hstate : (w rid).state = some state) (hfin : state.finished = false) :
    (resultsOf rid results = [] ∧ (w' rid).state = none) ∨
    ∃ r s', Decodes K Ends rid state (w rid) s' r ∧ resultsOf rid results = [r] ∧
      w' rid = (if r.finished then s'.release else s').deliver r := by
  have hmem : rid ∈ op.requestIds := List.mem_append_right _ hrid
  obtain ⟨rfl,hfail,_⟩ | ⟨_,_,hnone⟩ | ⟨w₁,hdone,hdeliver⟩ := executeForwardOp_cases hk h
  · refine .inl ⟨rfl,?_⟩
    rw [hfail _ hmem,fail_running hstate hfin]
  · rw [hnone _ hmem] at hstate
    cases hstate
  · obtain ⟨r,s',hdec,hof,hslot⟩ := hdone.decodes rid hrid state hstate hfin
    refine .inr ⟨r,s',hdec,hof,?_⟩
    rw [(hdeliver rid).1 r hof,hslot]

/-- A forward operation returns nothing for a request that the engine does not hold. -/
theorem executeForwardOp_gone (hk : Rowwise K Ends)
    (h : K.executeForwardOp R fuel op w = some (results,w')) (hstate : (w rid).state = none) :
    resultsOf rid results = [] ∧ (w' rid).state = none := by
  obtain ⟨rfl,hfail,hothers⟩ | ⟨rfl,rfl,_⟩ | ⟨w₁,hdone,hdeliver⟩ := executeForwardOp_cases hk h
  · refine ⟨rfl,?_⟩
    by_cases hmem : rid ∈ op.requestIds
    · rw [hfail rid hmem,Slot.fail,hstate]
      exact hstate
    · rw [hothers rid hmem,hstate]
  · exact ⟨rfl,hstate⟩
  · by_cases hmem : rid ∈ op.requestIds
    · obtain hpre | hdec := List.mem_append.mp hmem
      · obtain ⟨p,hp,rfl⟩ := List.mem_map.mp hpre
        obtain ⟨hslot,hof⟩ := hdone.prefills p hp
        rw [hstate,Option.isSome_none,if_neg Bool.false_ne_true] at hof
        refine ⟨hof,?_⟩
        rw [(hdeliver p.rid).2 hof,hslot,Slot.prefilled,prefillSlot_state,hstate]
        dsimp only
        rw [prefillSlot_state,hstate]
      · obtain ⟨hsame,hof⟩ := hdone.idle rid hdec fun state hs => by
          rw [hstate] at hs
          cases hs
        exact ⟨hof,by rw [(hdeliver rid).2 hof,hsame,hstate]⟩
    · obtain ⟨hsame,hof⟩ := hdone.others rid hmem
      exact ⟨hof,by rw [(hdeliver rid).2 hof,hsame,hstate]⟩

end Rows

end FluxServe.Engine
