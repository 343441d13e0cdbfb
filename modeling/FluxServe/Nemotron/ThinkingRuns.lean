import FluxServe.Nemotron.ThinkingBudget
import FluxServe.Nemotron.OnlineBlocks
import FluxServe.Nemotron.SpecAgreement

namespace FluxServe.Engine.NemotronSampling

open NemotronRunner (commit acceptedTokens)

variable {M : NemotronModel} {S : NemotronSampling M} {R : NemotronRunner M}

section BlockRows

variable {x y : BlockRow M × S.Generator}

/-- One turn of an active row. -/
def blockRowTurn (S : NemotronSampling M) (R : NemotronRunner M) (x : BlockRow M × S.Generator) :
    Except NemotronFault (BlockRow M × S.Generator) :=
  if x.1.state = .denoise then S.denoiseRow R x else S.commitRow R x

/-- What a row of a batch of blocks comes to. -/
def BlockEnds (S : NemotronSampling M) (R : NemotronRunner M) (x y : BlockRow M × S.Generator) :
    Prop :=
  ∃ m, Halts (fun x => x.1.active) (S.blockRowTurn R) x (.ok y) m

theorem blockTurn_eq_ok {rows rows' : List (BlockRow M × S.Generator)} :
    S.blockTurn R rows = .ok rows' ↔
      turnRows (fun x => x.1.active) (S.blockRowTurn R) rows = .ok rows' := by
  unfold blockTurn
  rw [twoPasses_eq_ok fun x hx => by simp_all]
  have hactive : (fun x : BlockRow M × S.Generator =>
      decide (x.1.state = .denoise) || decide (x.1.state = .commit)) = fun x => x.1.active := by
    funext x
    cases h : x.1.state <;> simp [BlockRow.active,h]
  rw [hactive]
  simp only [decide_eq_true_eq]
  rfl

theorem runBlockLoop_iff {rows rows' : List (BlockRow M × S.Generator)} :
    (∃ fuel, S.runBlockLoop R fuel rows = some (.ok rows')) ↔
      List.Forall₂ (S.BlockEnds R) rows rows' :=
  tryLoop_rows_iff fun _ _ => blockTurn_eq_ok

/-- Denoising resolves the block of its row and leaves what is emitted. -/
theorem denoiseRow_resolves (hstate : x.1.state = .denoise) (h : S.denoiseRow R x = .ok y) :
    S.Resolves R x.1.block y.1.block ∧ y.1.emitted = x.1.emitted ∧
      y.1.blockBudget = x.1.blockBudget ∧ y.1.active = true := by
  obtain ⟨r,g⟩ := x
  have hstep := step_resolves S R g (commit false false r.block r.prefixLength r.cache).1 r.block
  unfold denoiseRow at h
  dsimp only at h
  split at h
  · injection h with h
    rw [← h]
    exact ⟨hstep,rfl,rfl,rfl⟩
  · split at h
    · cases h
    · injection h with h
      rw [← h]
      exact ⟨hstep,rfl,rfl,by rw [BlockRow.active,hstate]; rfl⟩

theorem enterBlock_block (R : NemotronRunner M) (r : BlockRow M) :
    (R.enterBlock r).block = R.thinkingBudget.apply (R.maskedBlock r.seed) r.emitted.flatten ∧
      (R.enterBlock r).emitted = r.emitted := by
  unfold NemotronRunner.enterBlock
  dsimp only
  split <;> exact ⟨rfl,rfl⟩

/-- A commit emits the block of its row; the next one starts from what is emitted so far. -/
theorem commitRow_emits (h : S.commitRow R x = .ok y) :
    y.1.emitted = x.1.emitted ++ [x.1.block] ∧
    (x.1.blockBudget ≤ x.1.emitted.length+1 → y.1.active = false) ∧
    ∃ seed, S.Sampled R seed ∧ (y.1.active = false → y.1.seed = seed) ∧
      (y.1.active = true →
        y.1.block = R.thinkingBudget.apply (R.maskedBlock seed) y.1.emitted.flatten) := by
  obtain ⟨r,g⟩ := x
  have hseed := seedFrom_sampled S R g (commit false true r.block r.prefixLength r.cache).1
  unfold commitRow at h
  dsimp only at h
  split at h
  · injection h with h
    rw [← h]
    exact ⟨rfl,fun _ => rfl,_,hseed,fun _ => rfl,fun hactive => by cases hactive⟩
  · next hlast =>
    injection h with h
    rw [Bool.or_eq_true,not_or,decide_eq_true_eq,List.length_append] at hlast
    have hblock := enterBlock_block R { r with
      cache := (commit false true r.block r.prefixLength r.cache).2
      emitted := r.emitted ++ [r.block]
      prefixLength := r.prefixLength+R.blockLength
      seed := (S.seedFrom R g (commit false true r.block r.prefixLength r.cache).1).1
      denoiseSteps := 0 }
    rw [← h]
    refine ⟨hblock.2,fun hle => absurd hle hlast.2,_,hseed,fun hactive => ?_,fun _ => ?_⟩
    · unfold NemotronRunner.enterBlock at hactive
      dsimp only at hactive
      split at hactive <;> cases hactive
    · rw [hblock.1,hblock.2]

/-- A row of a batch has emitted what block diffusion publishes, and works on its next block. -/
def Diffuses (S : NemotronSampling M) (R : NemotronRunner M) (x : BlockRow M × S.Generator) :
    Prop :=
  S.Diffused R x.1.emitted.flatten ∧ (x.1.active = true → ∃ seed, S.Sampled R seed ∧
    S.Resolves R (R.thinkingBudget.apply (R.maskedBlock seed) x.1.emitted.flatten) x.1.block)

theorem blockRowTurn_diffuses (h : S.blockRowTurn R x = .ok y) (hx : S.Diffuses R x)
    (go : x.1.active = true) : S.Diffuses R y := by
  obtain ⟨seed,hseed,hresolves⟩ := hx.2 go
  unfold blockRowTurn at h
  split at h
  · next hstate =>
    obtain ⟨hstep,hemitted,_⟩ := denoiseRow_resolves hstate h
    unfold Diffuses
    rw [hemitted]
    exact ⟨hx.1,fun _ => ⟨seed,hseed,hresolves.trans hstep⟩⟩
  · obtain ⟨hemitted,_,seed',hseed',_,hnext⟩ := commitRow_emits h
    refine ⟨?_,fun hactive => ⟨seed',hseed',?_⟩⟩
    · rw [hemitted,List.flatten_append,List.flatten_singleton]
      exact hx.1.whole hseed hresolves
    · rw [← hnext hactive]
      exact .refl

theorem prefillBlockRow_diffuses {row : OfflineRow × S.Generator}
    (h : S.prefillBlockRow R row = .ok x) : S.Diffuses R x := by
  obtain ⟨row,g⟩ := row
  unfold prefillBlockRow at h
  obtain ⟨z,_,h⟩ := bind_eq_ok h
  injection h with h
  rw [← h]
  dsimp only
  split
  · exact ⟨.nil,fun hactive => by cases hactive⟩
  · refine ⟨?_,fun _ => ⟨(S.seedFrom R g z.1).1,seedFrom_sampled S R g z.1,?_⟩⟩
    · rw [(enterBlock_block R _).2]
      exact .nil
    · rw [(enterBlock_block R _).1,(enterBlock_block R _).2]
      exact .refl

/-- Each row of a batch returns the beginning of what block diffusion publishes. -/
theorem diffusionGenerate_diffused {fuel : Nat} {rows : List (OfflineRow × S.Generator)}
    {outs : List (List Token)} (h : S.diffusionGenerate R fuel rows = some (.ok outs)) :
    ∀ out ∈ outs, ∃ whole, S.Diffused R whole ∧ out <+: whole := by
  unfold diffusionGenerate at h
  split at h
  · cases h
  · next xs hxs =>
    obtain ⟨r,hr,h⟩ := Option.bind_eq_some_iff.mp h
    injection h with h
    obtain ⟨ys,rfl,hcut⟩ := bind_eq_ok h
    obtain ⟨_,_,hxs⟩ := bind_eq_ok hxs
    have hrows := forall₂_exists.mpr ⟨ys,runBlockLoop_iff.mp ⟨fuel,hr⟩,mapM_eq_ok.mp hcut⟩
    have hall := forall₂_exists.mpr ⟨xs,mapM_eq_ok.mp hxs,hrows⟩
    intro out hout
    obtain ⟨row,_,x,hx,y,⟨n,hn⟩,hcut⟩ := exists_of_forall₂ hall hout
    have hy := hn.visited.1.invariant (prefillBlockRow_diffuses hx) fun _ _ hy hgo hturn =>
      blockRowTurn_diffuses hturn hy hgo
    exact ⟨_,hy.1,(cutAtEos_isPrefix hcut).trans (List.take_prefix _ _)⟩

/-- A row of one block commits what its block resolves to. -/
theorem BlockEnds.once (h : S.BlockEnds R x y) (hactive : x.1.active = true)
    (hemitted : x.1.emitted = []) (hbudget : x.1.blockBudget = 1) :
    ∃ block, y.1.emitted = [block] ∧ S.Resolves R x.1.block block ∧ S.Sampled R y.1.seed := by
  obtain ⟨n,hn⟩ := h
  obtain ⟨hvisited,hdone⟩ := hn.visited
  have hy := hvisited.invariant (P := fun y : BlockRow M × S.Generator =>
      (y.1.active = true → y.1.emitted = [] ∧ y.1.blockBudget = 1 ∧
        S.Resolves R x.1.block y.1.block) ∧
      (y.1.active = false → ∃ block, y.1.emitted = [block] ∧ S.Resolves R x.1.block block ∧
        S.Sampled R y.1.seed)) ?_ ?_
  · exact hy.2 hdone
  · refine ⟨fun _ => ⟨hemitted,hbudget,.refl⟩,fun hidle => ?_⟩
    rw [hactive] at hidle
    cases hidle
  · intro y z hy hgo hturn
    obtain ⟨hemitted,hbudget,hresolves⟩ := hy.1 hgo
    unfold blockRowTurn at hturn
    split at hturn
    · next hstate =>
      obtain ⟨hstep,hemitted',hbudget',hactive'⟩ := denoiseRow_resolves hstate hturn
      refine ⟨fun _ => ⟨hemitted'.trans hemitted,hbudget'.trans hbudget,hresolves.trans hstep⟩,
        fun hidle => ?_⟩
      rw [hactive'] at hidle
      cases hidle
    · obtain ⟨hemitted',hlast,seed,hseed,hlastSeed,_⟩ := commitRow_emits hturn
      have hidle := hlast (by rw [hbudget]; omega)
      refine ⟨fun hbusy => ?_,fun _ => ⟨y.1.block,?_,hresolves,?_⟩⟩
      · rw [hidle] at hbusy
        cases hbusy
      · rw [hemitted',hemitted]
        rfl
      · rw [hlastSeed hidle]
        exact hseed

end BlockRows

section SpecRows

variable {x y : SpecRow M × S.Generator} {due : Option Token}

/-- One turn of an active row. -/
def specTurn (S : NemotronSampling M) (R : NemotronRunner M) (x : SpecRow M × S.Generator) :
    Except NemotronFault (SpecRow M × S.Generator) :=
  if x.1.state = .draft then S.draftRow R x else S.verifyRow R x

/-- What a row of a plan call comes to. -/
def SpecEnds (S : NemotronSampling M) (R : NemotronRunner M) (x y : SpecRow M × S.Generator) :
    Prop :=
  ∃ m, Halts (fun x => x.1.active) (S.specTurn R) x (.ok y) m

theorem speculationTurn_eq_ok {rows rows' : List (SpecRow M × S.Generator)} :
    S.speculationTurn R rows = .ok rows' ↔
      turnRows (fun x => x.1.active) (S.specTurn R) rows = .ok rows' := by
  unfold speculationTurn
  rw [twoPasses_eq_ok fun x hx => by simp_all]
  have hactive : (fun x : SpecRow M × S.Generator =>
      decide (x.1.state = .draft) || decide (x.1.state = .verify)) = fun x => x.1.active := by
    funext x
    cases h : x.1.state <;> simp [SpecRow.active,h]
  rw [hactive]
  simp only [decide_eq_true_eq]
  rfl

theorem runSpeculation_iff {rows rows' : List (SpecRow M × S.Generator)} :
    (∃ fuel, S.runSpeculation R fuel rows = some (.ok rows')) ↔
      List.Forall₂ (S.SpecEnds R) rows rows' :=
  tryLoop_rows_iff fun _ _ => speculationTurn_eq_ok

/-- A draft step resolves the block of its row and leaves what is emitted. -/
theorem draftRow_resolves (hstate : x.1.state = .draft) (h : S.draftRow R x = .ok y) :
    S.Resolves R x.1.block y.1.block ∧ y.1.forced = x.1.forced ∧ y.1.emitted = x.1.emitted ∧
      y.1.maxIterations = x.1.maxIterations ∧ y.1.seed = x.1.seed ∧ y.1.active = true := by
  obtain ⟨r,g⟩ := x
  have hstep := draftStep_resolves S R g (commit true false r.block r.prefixLength r.cache).1
    r.block
  unfold draftRow at h
  dsimp only at h
  split at h
  · injection h with h
    rw [← h]
    exact ⟨hstep,rfl,rfl,rfl,rfl,rfl⟩
  · split at h
    · cases h
    · injection h with h
      rw [← h]
      exact ⟨hstep,rfl,rfl,rfl,rfl,by rw [SpecRow.active,hstate]; rfl⟩

/-- The verification of a row that is bound to one iteration ends it with what it accepts. -/
theorem verifyRow_accepts (hbound : x.1.maxIterations = some 1) (h : S.verifyRow R x = .ok y)
    (hdrafts : S.Drafts R due x.1.block x.1.forced) :
    y.1.active = false ∧ ∃ tokens, S.Accepts R due tokens ∧
      y.1.emitted = x.1.emitted ++ (R.emit x.1.stopOnEos tokens).1 ∧
      y.1.seed = tokens.getLastD x.1.seed := by
  obtain ⟨r,g⟩ := x
  unfold verifyRow at h
  dsimp only at h hbound
  rw [hbound] at h
  have hlast (b : Bool) : (b || (some 1).any fun n => decide (n ≤ r.iterations+1)) = true := by
    simp
  rw [if_pos (hlast _)] at h
  injection h with h
  rw [← h]
  exact ⟨rfl,_,hdrafts.accepts categorical_draws,rfl,rfl⟩

/-- A row that is bound to one iteration adds what its verification accepts, if it gets to it. -/
theorem SpecEnds.once (h : S.SpecEnds R x y) (hbound : x.1.maxIterations = some 1)
    (hdrafts : S.Drafts R due x.1.block x.1.forced) :
    ∃ tokens, S.Accepts R due tokens ∧ y.1.emitted <+: x.1.emitted ++ tokens ∧
      y.1.seed = tokens.getLastD x.1.seed := by
  obtain ⟨n,hn⟩ := h
  obtain ⟨hvisited,_⟩ := hn.visited
  have hy := hvisited.invariant (P := fun y : SpecRow M × S.Generator =>
      (y.1.active = true → y.1.maxIterations = some 1 ∧ S.Drafts R due y.1.block y.1.forced ∧
        y.1.emitted = x.1.emitted ∧ y.1.seed = x.1.seed) ∧
      ∃ tokens, S.Accepts R due tokens ∧ y.1.emitted <+: x.1.emitted ++ tokens ∧
        y.1.seed = tokens.getLastD x.1.seed) ?_ ?_
  · exact hy.2
  · refine ⟨fun _ => ⟨hbound,hdrafts,rfl,rfl⟩,[],.nil,?_,rfl⟩
    exact List.prefix_append _ _
  · intro y z hy hgo hturn
    obtain ⟨hbound,hdrafts,hemitted,hseed⟩ := hy.1 hgo
    unfold specTurn at hturn
    split at hturn
    · next hstate =>
      obtain ⟨hstep,hforced,hemitted',hbound',hseed',_⟩ := draftRow_resolves hstate hturn
      refine ⟨fun _ => ⟨hbound'.trans hbound,?_,hemitted'.trans hemitted,hseed'.trans hseed⟩,?_⟩
      · rw [hforced]
        exact hdrafts.trans hstep
      · rw [hemitted',hseed']
        exact hy.2
    · obtain ⟨hidle,tokens,haccepts,hemitted',hseed'⟩ := verifyRow_accepts hbound hturn hdrafts
      refine ⟨fun hbusy => ?_,tokens,haccepts,?_,?_⟩
      · rw [hidle] at hbusy
        cases hbusy
      · rw [hemitted',hemitted]
        exact (List.prefix_append_right_inj _).mpr (emit_isPrefix R _ tokens)
      · rw [hseed',hseed]

end SpecRows

section Online

variable {K : (RequestId → S.Generator) → PagedRunner M} {rid : RequestId} {prompt : List Token}
  {w₀ w w' : Served M} {done fuel : Nat} {results returned : List StepResult} {op : PlanOp}
  {generators : RequestId → S.Generator} {s s' : Slot M} {state : RequestState}

theorem blockDiffusion_rowwise (S : NemotronSampling M) (R : NemotronRunner M)
    (generators : RequestId → S.Generator) :
    Rowwise (S.blockDiffusion R generators) (S.BlockEnds R) where
  run_iff _ _ := runBlockLoop_iff
  result_rid _ _ _ _ := rfl
  settle_state _ _ := rfl

theorem speculation_rowwise (S : NemotronSampling M) (R : NemotronRunner M)
    (generators : RequestId → S.Generator) :
    Rowwise (S.speculation R generators) (S.SpecEnds R) where
  run_iff _ _ := runSpeculation_iff
  result_rid _ _ _ _ := rfl
  settle_state _ _ := rfl

@[simp] theorem reseed_state (p : PrefillRow) (seed : Token) (s : Slot M) :
    (reseed p seed s).state = s.state := by
  unfold reseed
  split
  · rfl
  · split <;> rfl

/-- Sampling changes the slots of the prefill rows of a call, and there only the seed. -/
theorem executeForwardOp_reseeds {runner : PagedRunner M}
    (h : S.executeForwardOp R runner generators fuel op w = some (returned,w')) :
    ∃ w₁, runner.executeForwardOp R fuel op w = some (returned,w₁) ∧
      (∀ p ∈ op.prefills, ∃ seed, S.Sampled R seed ∧ w' p.rid = reseed p seed (w₁ p.rid)) ∧
      ∀ rid, rid ∉ op.prefills.map PrefillRow.rid → w' rid = w₁ rid := by
  obtain ⟨⟨rs,w₁⟩,hcall,hret⟩ := Option.bind_eq_some_iff.mp h
  injection hret with hret
  injection hret with hresults hw
  refine ⟨w₁,by rw [hcall,hresults],fun p hp => ?_,fun rid hrid => ?_⟩
  · refine ⟨_,seedFrom_sampled S R (generators p.rid)
      (commit false true p.tokens p.offset (w p.rid).cache).1,?_⟩
    rw [← hw]
    apply patch_of_mem
    · rw [prefillKeys]
      exact (List.nodup_append.mp op.distinct).1
    · exact List.mem_map.mpr ⟨p,hp,rfl⟩
  · rw [← hw]
    apply patch_of_notMem
    rw [prefillKeys]
    exact hrid

/-- What holds of the results and the slot of a request in the plan calls: it keeps through its own
rows, and through whatever ends it. -/
theorem Serving.preserves {Ends : ∀ g, (K g).Row → (K g).Row → Prop}
    (hk : ∀ g, Rowwise (K g) (Ends g))
    (h₀ : ∀ state, (w₀ rid).state = some state → state.finished = false)
    {P : List StepResult → Slot M → Prop} (start : P [] (w₀ rid))
    (gone : ∀ rs s s', P rs s → s'.state = none → P rs s')
    (prefill : ∀ g rs s state p seed, P rs s → s.state = some state → S.Sampled R seed →
      P (rs ++ [{ rid := rid }]) (reseed p seed ((R.prefillSlot p s).prefilled (K g).speculates)))
    (decode : ∀ g rs s state s' r, P rs s → s.state = some state → state.finished = false →
      Decodes (K g) (Ends g) rid state s s' r →
      P (rs ++ [r]) ((if r.finished then s'.release else s').deliver r))
    (h : S.Serving R K rid prompt w₀ done results w) :
    (∀ state, (w rid).state = some state → state.finished = false) ∧ P results (w rid) := by
  have hdropped {rs : List StepResult} {s s' : Slot M} (hP : P rs s) (hnone : s'.state = none) :
      (∀ state, s'.state = some state → state.finished = false) ∧ P rs s' := by
    refine ⟨fun state hstate => ?_,gone rs s s' hP hnone⟩
    rw [hnone] at hstate
    cases hstate
  induction h with
  | start => exact ⟨h₀,start⟩
  | other _ same ih =>
    rw [same]
    exact ih
  | @prefill d fuel rs returned w w' op p generators run row own offset chunk call ih =>
    subst own
    obtain ⟨w₁,hcall,hseeds,_⟩ := executeForwardOp_reseeds call
    obtain ⟨seed,hseed,hslot⟩ := hseeds p row
    cases hstate : (w p.rid).state with
    | none =>
      obtain ⟨hof,hnone⟩ := executeForwardOp_gone (hk generators) hcall hstate
      rw [hof,List.append_nil]
      exact hdropped ih.2 (by rw [hslot,reseed_state,hnone])
    | some state =>
      have hfin := ih.1 state hstate
      obtain ⟨hof,hnone⟩ | ⟨_,hof,hslot'⟩ :=
        executeForwardOp_prefill (hk generators) hcall row hstate hfin
      · rw [hof,List.append_nil]
        exact hdropped ih.2 (by rw [hslot,reseed_state,hnone])
      · rw [hof,hslot,hslot']
        refine ⟨fun state' h => ?_,prefill _ _ _ state p seed ih.2 hstate hseed⟩
        have hkept : (R.prefillSlot p (w p.rid)).state = some state := by
          rw [prefillSlot_state,hstate]
        rw [reseed_state,prefilled_eq _ hkept] at h
        injection h with h
        rw [← h]
        exact hfin
  | @decode fuel rs returned w w' op generators run row call ih =>
    obtain ⟨w₁,hcall,_,hothers⟩ := executeForwardOp_reseeds call
    have hslot : w' rid = w₁ rid := hothers rid fun hmem =>
      (List.nodup_append.mp op.distinct).2.2 _ hmem _ row rfl
    rw [hslot]
    cases hstate : (w rid).state with
    | none =>
      obtain ⟨hof,hnone⟩ := executeForwardOp_gone (hk generators) hcall hstate
      rw [hof,List.append_nil]
      exact hdropped ih.2 hnone
    | some state =>
      have hfin := ih.1 state hstate
      obtain ⟨hof,hnone⟩ | ⟨r,s',hdec,hof,hslot'⟩ :=
        executeForwardOp_decode (hk generators) hcall row hstate hfin
      · rw [hof,List.append_nil]
        exact hdropped ih.2 hnone
      · rw [hof,hslot']
        refine ⟨fun state' h => ?_,decode _ _ _ state s' r ih.2 hstate hfin hdec⟩
        apply deliver_unfinished ?_ h
        intro state'' hstate''
        obtain ⟨_,row',_,_,hs',_⟩ := hdec
        have hkept : s'.state = some state := by
          rw [hs',(hk generators).settle_state,hstate]
        have hsame : state = state'' := by
          apply Option.some.inj
          rw [← hkept,← hstate'']
          split <;> rfl
        rw [← hsame]
        exact hfin

/-- A request whose decode rows keep what may be published has been returned that. -/
theorem Serving.published {Ends : ∀ g, (K g).Row → (K g).Row → Prop}
    (hk : ∀ g, Rowwise (K g) (Ends g)) {asked : RequestState} (h₀ : Submitted asked (w₀ rid))
    {P : List Token → Prop} {Q : Token → Prop} (start : P [])
    (seeded : ∀ t, S.Sampled R t → Q t)
    (decode : ∀ g s state s' r, s.state = some state → P state.outputIds →
      (∀ seed, s.requestSeed = some seed → Q seed) →
      Decodes (K g) (Ends g) rid state s s' r →
      P (state.outputIds ++ r.tokenIds) ∧
        ∀ seed, s'.requestSeed = some seed → Q seed)
    (h : S.Serving R K rid prompt w₀ done results w) : P (tokensOf results) := by
  have hP := (h.preserves hk h₀.running (P := fun rs s => P (tokensOf rs) ∧
    ∀ state, s.state = some state → state.outputIds = tokensOf rs ∧
      ∀ seed, s.requestSeed = some seed → Q seed) ?_ ?_ ?_ ?_).2
  · exact hP.1
  · refine ⟨start,fun state hstate => ?_⟩
    rw [h₀.state] at hstate
    injection hstate with hstate
    refine ⟨by rw [← hstate,h₀.outputs]; rfl,fun seed hseed => ?_⟩
    rw [h₀.seed] at hseed
    cases hseed
  · intro rs s s' hP hnone
    refine ⟨hP.1,fun state hstate => ?_⟩
    rw [hnone] at hstate
    cases hstate
  · intro g rs s state p seed hP hstate hseed
    obtain ⟨houtputs,hseeds⟩ := hP.2 state hstate
    have hsame : tokensOf (rs ++ [({ rid := rid } : StepResult)]) = tokensOf rs := by
      rw [tokensOf_append]
      exact List.append_nil _
    have hkept : (R.prefillSlot p s).state = some state := by
      rw [prefillSlot_state,hstate]
    rw [hsame]
    refine ⟨hP.1,fun state' hstate' => ?_⟩
    rw [reseed_state,prefilled_eq _ hkept] at hstate'
    injection hstate' with hstate'
    refine ⟨by rw [← hstate']; exact houtputs,fun t ht => ?_⟩
    rw [prefilled_eq _ hkept,prefillSlot_eq R p hstate] at ht
    unfold reseed at ht
    dsimp only at ht
    split at ht
    · exact hseeds t ht
    · rw [Option.map_some] at ht
      injection ht with ht
      rw [← ht]
      exact seeded seed hseed
  · intro g rs s state s' r hP hstate hfin hdec
    obtain ⟨houtputs,hseeds⟩ := hP.2 state hstate
    rw [← houtputs] at hP
    obtain ⟨hnext,hseeds'⟩ := decode g s state s' r hstate hP.1 hseeds hdec
    have hkept : s'.state = some state := by
      obtain ⟨_,row',_,_,hs',_⟩ := hdec
      rw [hs',(hk g).settle_state,hstate]
    rw [tokensOf_append,tokensOf_singleton,← houtputs]
    refine ⟨hnext,fun state' hstate' => ?_⟩
    cases hr : r.finished with
    | true =>
      rw [hr,if_pos rfl,deliver_finished (s := s'.release) hkept hfin hr] at hstate'
      cases hstate'
    | false =>
      rw [hr,if_neg Bool.false_ne_true,deliver_running hkept hfin hr] at hstate'
      rw [if_neg Bool.false_ne_true,deliver_running hkept hfin hr]
      injection hstate' with hstate'
      refine ⟨?_,hseeds'⟩
      rw [← hstate']
      split <;> rfl

/-- A decode row returns a first part of what it generated, without masks and perhaps ends. -/
theorem returned_filter (R : NemotronRunner M) (state : RequestState) (generated : List Token) :
    ∃ part keep, part <+: generated ∧
      (∀ t, t ≠ R.maskId → t ∉ R.decoder.eosIds → keep t = true) ∧
      (R.returned state generated).1 = part.filter keep := by
  unfold NemotronRunner.returned
  dsimp only
  refine ⟨_,_,?_,fun t ht ht' => ?_,rfl⟩
  · split
    · exact (List.takeWhile_prefix _).trans (List.take_prefix _ _)
    · exact List.take_prefix _ _
  · have heos : R.decoder.isEos t = false := decide_eq_false ht'
    simp [ht,heos]

/-- What a request has been returned in the plan calls is what block diffusion publishes. -/
theorem serving_diffused {asked : RequestState} (h₀ : Submitted asked (w₀ rid))
    (h : S.Serving R (S.blockDiffusion R) rid prompt w₀ done results w) :
    S.Diffused R (tokensOf results) := by
  apply h.published (blockDiffusion_rowwise S R) h₀ .nil (Q := S.Sampled R) (fun _ ht => ht)
  intro g s state s' r hstate hbefore hseeds ⟨row,row',henter,hends,hs',hr⟩
  obtain ⟨r₀,hr₀,henter⟩ := bind_eq_ok henter
  injection henter with henter
  cases hseed : s.requestSeed with
  | none =>
    unfold NemotronRunner.enterPlanBlock at hr₀
    rw [hseed] at hr₀
    cases hr₀
  | some seed =>
    have hrow : row.1.active = true ∧ row.1.emitted = [] ∧ row.1.blockBudget = 1 ∧
        row.1.block = R.thinkingBudget.apply (R.maskedBlock seed) state.outputIds := by
      unfold NemotronRunner.enterPlanBlock at hr₀
      rw [hseed] at hr₀
      injection hr₀ with hr₀
      rw [← henter,← hr₀]
      dsimp only
      split <;> exact ⟨rfl,rfl,rfl,rfl⟩
    obtain ⟨hactive,hemitted,hbudget,hblock⟩ := hrow
    obtain ⟨block,hfinal,hresolves,hsampled⟩ := hends.once hactive hemitted hbudget
    rw [hblock] at hresolves
    obtain ⟨part,keep,hpart,hkeep,hreturned⟩ := returned_filter R state block
    have htokens : r.tokenIds = part.filter keep := by
      rw [hr,← hreturned]
      change (R.returned state (row'.1.emitted.headD [])).1 = _
      rw [hfinal]
      rfl
    rw [htokens]
    refine ⟨.block hbefore (hseeds seed hseed) hresolves hpart hkeep,fun t ht => ?_⟩
    rw [hs'] at ht
    injection ht with ht
    rw [← ht]
    exact hsampled

/-- What a request has been returned in the plan calls is what self-speculation publishes. -/
theorem serving_speculated {asked : RequestState} (h₀ : Submitted asked (w₀ rid))
    (h : S.Serving R (S.speculation R) rid prompt w₀ done results w) :
    S.Speculated R (tokensOf results) := by
  apply h.published (speculation_rowwise S R) h₀ .nil
    (Q := fun t => R.thinkingBudget.setting = none → S.Sampled R t) (fun _ ht _ => ht)
  intro g s state s' r hstate hbefore hseeds ⟨row,row',henter,hends,hs',hr⟩
  obtain ⟨r₀,hr₀,henter⟩ := bind_eq_ok henter
  injection henter with henter
  unfold NemotronRunner.enterSpecRow at hr₀
  split at hr₀
  · next seed prefixLength hseed hprefix =>
    obtain ⟨⟨block,forced⟩,hblock,hr₀⟩ := bind_eq_ok hr₀
    injection hr₀ with hr₀
    have hdrafts : S.Drafts R (R.thinkingBudget.due (if NemotronRunner.decodesFirst state
        prefixLength then [seed] else state.outputIds)) row.1.block row.1.forced := by
      rw [← henter,← hr₀]
      exact ⟨seed,block,hblock,.refl⟩
    have hbound : row.1.maxIterations = some 1 := by
      rw [← henter,← hr₀]
      rfl
    have hrow : row.1.seed = seed ∧ row.1.emitted =
        if NemotronRunner.decodesFirst state prefixLength then [seed] else [] := by
      rw [← henter,← hr₀]
      exact ⟨rfl,rfl⟩
    obtain ⟨tokens,haccepts,hemitted,hseed'⟩ := hends.once hbound hdrafts
    rw [hrow.2] at hemitted
    rw [hrow.1] at hseed'
    obtain ⟨part,keep,hpart,hkeep,hreturned⟩ := returned_filter R state row'.1.emitted
    have htokens : r.tokenIds = part.filter keep := by
      rw [hr,← hreturned]
      rfl
    rw [htokens]
    constructor
    · by_cases hfirst : NemotronRunner.decodesFirst state prefixLength = true
      · rw [if_pos hfirst] at hemitted haccepts
        have hempty : state.outputIds = [] := by
          have := (Bool.and_eq_true _ _ ▸ hfirst).2
          exact List.isEmpty_iff.mp this
        rw [hempty]
        exact .first (hseeds seed hseed) haccepts (hpart.trans hemitted) hkeep
      · rw [if_neg hfirst] at hemitted haccepts
        exact hbefore.turn haccepts (hpart.trans hemitted) hkeep
    · intro t ht hset
      rw [hs'] at ht
      injection ht with ht
      rw [← ht,hseed']
      cases htokens : tokens.getLast? with
      | none =>
        rw [List.getLastD_eq_getLast?,htokens]
        exact hseeds seed hseed hset
      | some u =>
        rw [List.getLastD_eq_getLast?,htokens]
        exact fun _ => haccepts.drawn (ThinkingBudget.due_of_disabled hset _) u
          (List.mem_of_getLast? htokens)
  · cases hr₀

end Online

section Results

variable {out : List Token} {limit : Nat} {marker : Token}

/-- The outputs of block diffusion: of the dense runner, of a row of an offline batch of the paged
one, and what a request is returned in the plan calls. -/
inductive DiffusionOutput (S : NemotronSampling M) (R : NemotronRunner M) : List Token → Prop
  | dense {fuel generationLength : Nat} {stop : Bool} {prompt out : List Token} {g : S.Generator}
      (run : S.diffusionGenerateOne R fuel stop prompt generationLength g = some (.ok out)) :
      DiffusionOutput S R out
  | offline {fuel : Nat} {rows : List (OfflineRow × S.Generator)} {outs : List (List Token)}
      {out : List Token} (run : S.diffusionGenerate R fuel rows = some (.ok outs))
      (row : out ∈ outs) : DiffusionOutput S R out
  | online {rid : RequestId} {asked : RequestState} {w₀ w : Served M} {done : Nat}
      {results : List StepResult} (submitted : Submitted asked (w₀ rid))
      (run : S.Serving R (S.blockDiffusion R) rid asked.inputIds w₀ done results w) :
      DiffusionOutput S R (tokensOf results)

/-- The outputs of self-speculation: of the dense runner, and what a request is returned in the plan
calls. -/
inductive SpeculationOutput (S : NemotronSampling M) (R : NemotronRunner M) : List Token → Prop
  | dense {fuel generationLength : Nat} {stop : Bool} {prompt out : List Token} {g : S.Generator}
      (run : S.specGenerateOne R fuel stop prompt generationLength g = some (.ok out)) :
      SpeculationOutput S R out
  | online {rid : RequestId} {asked : RequestState} {w₀ w : Served M} {done : Nat}
      {results : List StepResult} (submitted : Submitted asked (w₀ rid))
      (run : S.Serving R (S.speculation R) rid asked.inputIds w₀ done results w) :
      SpeculationOutput S R (tokensOf results)

/-- Every runner of block diffusion returns the beginning of what block diffusion publishes. -/
theorem DiffusionOutput.diffused (h : S.DiffusionOutput R out) :
    ∃ whole, S.Diffused R whole ∧ out <+: whole := by
  cases h with
  | dense run => exact diffusionGenerateOne_diffused run
  | offline run row => exact diffusionGenerate_diffused run _ row
  | online submitted run => exact ⟨_,serving_diffused submitted run,List.prefix_refl _⟩

theorem SpeculationOutput.speculated (h : S.SpeculationOutput R out) :
    ∃ whole, S.Speculated R whole ∧ out <+: whole := by
  cases h with
  | dense run => exact specGenerateOne_speculated run
  | online submitted run => exact ⟨_,serving_speculated submitted run,List.prefix_refl _⟩

/-- With a thinking budget, an output of block diffusion that is longer than the budget has the
marker within it, and one of self-speculation at most a block later. Without one no marker is
placed, and every decided token of an output was drawn. -/
theorem thinkingBudget_enforced (S : NemotronSampling M) (R : NemotronRunner M) :
    (∀ limit marker, R.thinkingBudget.setting = some (limit,marker) → marker ≠ R.maskId →
      marker ∉ R.decoder.eosIds →
      (∀ out, S.DiffusionOutput R out → ClosedBy marker limit out) ∧
      ∀ out, S.SpeculationOutput R out → ClosedBy marker (limit+R.blockLength) out) ∧
    (R.thinkingBudget.enabled = false →
      (∀ block produced, R.thinkingBudget.apply block produced = block) ∧
      (∀ generated, R.thinkingBudget.due generated = none) ∧
      ∀ out, S.DiffusionOutput R out ∨ S.SpeculationOutput R out →
        ∀ t ∈ out, t ≠ R.maskId → S.Draws t) := by
  refine ⟨fun limit marker hset hmask heos => ⟨fun out hout => ?_,fun out hout => ?_⟩,
    fun hoff => ?_⟩
  · obtain ⟨whole,hwhole,hpref⟩ := hout.diffused
    exact (hwhole.closed hset hmask heos).of_isPrefix hpref
  · obtain ⟨whole,hwhole,hpref⟩ := hout.speculated
    exact (hwhole.closed hset hmask heos).of_isPrefix hpref
  · have hset : R.thinkingBudget.setting = none := by
      simpa [ThinkingBudget.enabled] using hoff
    refine ⟨ThinkingBudget.apply_disabled hset,ThinkingBudget.due_of_disabled hset,?_⟩
    intro out hout t ht
    obtain hout | hout := hout
    · obtain ⟨whole,hwhole,hpref⟩ := hout.diffused
      exact hwhole.sampled hset t (hpref.subset ht)
    · obtain ⟨whole,hwhole,hpref⟩ := hout.speculated
      exact hwhole.sampled hset t (hpref.subset ht)

end Results

section Skipping

open NemotronRunner (steppingModel steppingRunner)

/-- Draws for the stepping model that skip as many tokens as the generator tells. -/
def skippingSampling : NemotronSampling steppingModel where
  Generator := Nat
  categorical g logits := (logits.map fun t => (show Int from t)+(g : Int),g+1)
  diffusion g logits := (logits.map fun t => (show Int from t)+(g : Int),g+1)
  confidence _ _ _ _ := (0 : Nat)

/-- A request for eight tokens after a prompt of one, before any of its plan calls. -/
def skippingRequest : RequestState := { rid := [1], inputIds := [5], maxNewTokens := 8 }

/-- The world of one request. -/
def servedAlone (s : Slot steppingModel) : Served steppingModel := fun rid =>
  if rid = [1] then s else {}

theorem skipping_online : skippingSampling.DiffusionOutput (steppingRunner ⟨some (1,50)⟩)
    [6,50,2,2] := by
  have hprefill : skippingSampling.executeForwardOp (steppingRunner ⟨some (1,50)⟩)
      (skippingSampling.blockDiffusion (steppingRunner ⟨some (1,50)⟩) fun _ => (0 : Nat))
      (fun _ => (0 : Nat)) 5 ⟨[⟨[1],0,[5]⟩],[],by decide⟩
      (servedAlone { state := some skippingRequest }) = some (_,_) := rfl
  have hdecode : skippingSampling.executeForwardOp (steppingRunner ⟨some (1,50)⟩)
      (skippingSampling.blockDiffusion (steppingRunner ⟨some (1,50)⟩) fun _ => (1 : Nat))
      (fun _ => (1 : Nat)) 5 ⟨[],[[1]],by decide⟩
      (servedAlone {
        state := some { skippingRequest with planPrefillDone := true }
        requestSeed := some 6
        cache := [(5 : Int)] }) = some (_,_) := rfl
  have hprefilled := Serving.prefill .start (List.mem_singleton_self _) rfl rfl
    (List.prefix_refl [5]) hprefill
  have hready := hprefilled.other (show servedAlone {
    state := some { skippingRequest with planPrefillDone := true }
    requestSeed := some 6
    cache := [(5 : Int)] } [1] = _ from rfl)
  have hasked : Submitted skippingRequest (servedAlone { state := some skippingRequest } [1]) :=
    ⟨rfl,rfl,rfl,rfl,rfl,rfl⟩
  exact .online hasked (hready.decode (List.mem_singleton_self _) hdecode)

/-- Budgets of one token and none, with draws that skip tokens. -/
theorem thinkingBudget_enforced_skipping :
    ClosedBy (50 : Token) 1 [6,50,2,2] ∧ ClosedBy (50 : Token) 5 [6,9,50,55,62,71,82,95] ∧
    ∀ t ∈ ([6,2,2,2,5,4,4,4] : List Token), t ≠ 0 → skippingSampling.Draws t := by
  have hspec : skippingSampling.specGenerateOne (steppingRunner ⟨some (1,50)⟩) 9 false [5] 8
      (0 : Nat) = some (.ok [6,9,50,55,62,71,82,95]) := rfl
  have hfree : skippingSampling.diffusionGenerateOne (steppingRunner ⟨none⟩) 9 false [5] 8
      (0 : Nat) = some (.ok [6,2,2,2,5,4,4,4]) := rfl
  have hbudget := (thinkingBudget_enforced skippingSampling (steppingRunner ⟨some (1,50)⟩)).1 1 50
    rfl (by decide) (by decide)
  refine ⟨hbudget.1 _ skipping_online,hbudget.2 _ (.dense hspec),?_⟩
  exact ((thinkingBudget_enforced skippingSampling (steppingRunner ⟨none⟩)).2 rfl).2.2 _
    (.inl (.dense hfree))

end Skipping

end FluxServe.Engine.NemotronSampling
