import FluxServe.Parallel.NemotronLoading
import Mathlib.Data.List.Nodup

namespace FluxServe.Parallel

variable {R : Type} [NonUnitalNonAssocSemiring R] {config : NemotronConfig} {tpSize r : Nat}

namespace NemotronConfig

theorem plan_nodup (config : NemotronConfig) : config.plan.Nodup := by
  have hlayers : ((List.range config.numHiddenLayers).flatMap fun i =>
      LayerWeight.all.map (Source.layer i)).Nodup := by
    rw [List.nodup_flatMap]
    refine ⟨fun i _ => ?_,?_⟩
    · exact List.Nodup.map (fun w w' h => by injection h) (by decide)
    · refine List.nodup_range.pairwise_of_forall_ne fun i _ j _ hij => ?_
      intro name hname hname'
      obtain ⟨w,_,rfl⟩ := List.mem_map.mp hname
      obtain ⟨w',_,heq⟩ := List.mem_map.mp hname'
      injection heq with heq
      exact hij heq.symm
  rw [plan,List.nodup_append]
  refine ⟨by decide,hlayers,?_⟩
  intro name hname other hother heq
  subst heq
  obtain ⟨i,_,hmem⟩ := List.mem_flatMap.mp hother
  obtain ⟨w,_,rfl⟩ := List.mem_map.mp hmem
  simp at hname

theorem planShape_shape {name : Source} {shape : List Nat}
    (h : config.planShape name = some shape) :
    (∃ n, shape = [n]) ∨ ∃ n m, shape = [n,m] := by
  cases name with
  | embedTokens => exact .inr ⟨_,_,(Option.some.inj h).symm⟩
  | norm => exact .inl ⟨_,(Option.some.inj h).symm⟩
  | diffusionHead => exact .inr ⟨_,_,(Option.some.inj h).symm⟩
  | layer i w =>
    by_cases hi : i < config.numHiddenLayers
    · rw [planShape,if_pos hi] at h
      have hshape := Option.some.inj h
      cases w <;> simp [← hshape,LayerWeight.shape]
    · rw [planShape,if_neg hi] at h
      cases h
  | other name => cases h

end NemotronConfig

namespace NemotronSplit

variable (s : NemotronSplit config tpSize)

theorem piece_fits (hr : r < tpSize) {t : Tensor R} (name : Source)
    (h : config.planShape name = some t.shape) : s.Fits name (s.piece r name t.rows) := by
  cases name with
  | embedTokens =>
    exact length_rankRows s.vocab (Tensor.rows_of_shape (Option.some.inj h).symm).1 r
  | diffusionHead =>
    exact length_rankRows s.vocab (Tensor.rows_of_shape (Option.some.inj h).symm).1 r
  | norm => exact Tensor.head_of_shape (Option.some.inj h).symm
  | layer i w =>
    by_cases hi : i < config.numHiddenLayers
    · rw [NemotronConfig.planShape,if_pos hi] at h
      exact s.toLayerSplit.piece_fits hr w (Option.some.inj h).symm
    · rw [NemotronConfig.planShape,if_neg hi] at h
      cases h
  | other name => trivial

/-- The parts of a new model. -/
def newParts (embed head : Weight R) (norm : List R) (layer : Nat → LayerWeight → Weight R) :
    Source → Weight R
  | .embedTokens => embed
  | .diffusionHead => head
  | .norm => [norm]
  | .layer i w => layer i w
  | .other _ => []

theorem new_assemble (data : Source → Nat → Nat → R) (r : Nat) :
    ∃ p : Source → Weight R, (∀ name, s.Fits name (p name)) ∧
      NemotronLabsDiffusionLLM.new data config r tpSize = some (s.assemble r p) := by
  have horg : ∀ data : Nat → Nat → R, VocabParallelEmbedding.new data config.vocabSize
      config.hiddenSize 0 defaultVocabPaddingSize r tpSize =
      VocabParallelEmbedding.new data config.vocabSize config.hiddenSize config.vocabSize
        defaultVocabPaddingSize r tpSize := by
    intro data
    simp [VocabParallelEmbedding.new]
  obtain ⟨embed,hembed,hnewEmbed⟩ := @embedding_new R _ _ _ _ config.hiddenSize _
    (data .embedTokens) s.vocab [] r
  obtain ⟨head,hhead,hnewHead⟩ := @embedding_new R _ _ _ _ config.hiddenSize _
    (data .diffusionHead) s.vocab [] r
  choose layer hfits hnew using fun i =>
    s.toLayerSplit.new_assemble (fun w => data (.layer i w)) r
  have hlayers : (List.range config.numHiddenLayers).mapM (fun i =>
      NemotronDiffusionDecoderLayer.new (fun w => data (.layer i w)) config r tpSize) =
      some ((List.range config.numHiddenLayers).map fun i =>
        s.toLayerSplit.assemble r (layer i)) :=
    mapM_eq_map fun i _ => hnew i
  refine ⟨newParts embed head (emptyNorm (data .norm) config.hiddenSize) layer,?_,?_⟩
  · intro name
    cases name with
    | layer i w => exact hfits i w
    | _ => simp [newParts,Fits,emptyNorm,hembed,hhead]
  · simp only [NemotronLabsDiffusionLLM.new,horg,hnewEmbed,hnewHead,hlayers,Option.bind_eq_bind,
      Option.bind_some]
    rfl

/-- What a rank holds once a checkpoint is loaded. -/
def rankModel (c : NemotronCheckpoint R config) (r : Nat) : NemotronLabsDiffusionLLM R :=
  s.assemble r fun name => s.piece r name (c.rows name)

open NemotronLabsDiffusionLLM

/-- Where a load has come to: the parts of the tensors that were read are in their places. -/
structure Reached (s : NemotronSplit config tpSize) (r : Nat) (read : List (Source × Tensor R))
    (progress : LoadProgress R) : Prop where
  parts : ∃ p : Source → Weight R, progress.model = s.assemble r p ∧
    (∀ name, s.Fits name (p name)) ∧
    ∀ e ∈ read, e.1 ∈ config.plan → p e.1 = s.piece r e.1 e.2.rows
  consumed : ∀ name, name ∈ progress.consumed ↔ name ∈ config.plan ∧ name ∈ read.map Prod.fst
  unexpected : ∀ name, name ∈ progress.unexpected ↔ name ∉ config.plan ∧ name ∈ read.map Prod.fst

/-- Whether the plan has the shape of a tensor, if it has its name. -/
def WellShaped (config : NemotronConfig) (e : Source × Tensor R) : Prop :=
  ∀ expected, config.planShape e.1 = some expected → e.2.shape = expected

theorem loadTensor_reached (hr : r < tpSize) {read : List (Source × Tensor R)}
    {progress : LoadProgress R} (h : s.Reached r read progress) (e : Source × Tensor R)
    (hnew : e.1 ∉ read.map Prod.fst) (hshape : WellShaped config e) :
    ∃ progress', loadTensor config progress e = .ok progress' ∧
      s.Reached r (read ++ [e]) progress' := by
  obtain ⟨⟨p,hmodel,hfits,hparts⟩,hconsumed,hunexpected⟩ := h
  cases hplan : config.planShape e.1 with
  | none =>
    have hout : e.1 ∉ config.plan := by
      rw [NemotronConfig.mem_plan,hplan]
      exact Bool.false_ne_true
    refine ⟨{ progress with unexpected := e.1 :: progress.unexpected },by rw [loadTensor,hplan],
      ⟨p,hmodel,hfits,?_⟩,?_,?_⟩
    · intro e' hmem hin
      rcases List.mem_append.mp hmem with hread | hlast
      · exact hparts e' hread hin
      · rw [List.mem_singleton.mp hlast] at hin
        exact absurd hin hout
    · intro name
      rw [hconsumed,List.map_append,List.mem_append]
      refine ⟨fun hname => ⟨hname.1,.inl hname.2⟩,fun hname => ⟨hname.1,?_⟩⟩
      refine hname.2.resolve_right fun hlast => hout ?_
      rw [← List.mem_singleton.mp hlast]
      exact hname.1
    · intro name
      rw [List.mem_cons,hunexpected,List.map_append,List.mem_append]
      constructor
      · rintro (rfl | hname)
        · exact ⟨hout,.inr (List.mem_singleton_self _)⟩
        · exact ⟨hname.1,.inl hname.2⟩
      · rintro ⟨hname,hread | hlast⟩
        · exact .inr ⟨hname,hread⟩
        · exact .inl (List.mem_singleton.mp hlast)
  | some expected =>
    have hin : e.1 ∈ config.plan := by
      rw [NemotronConfig.mem_plan,hplan]
      rfl
    have hshape := hshape expected hplan
    have hplan' : config.planShape e.1 = some e.2.shape := hshape ▸ hplan
    have hload := s.loadWeight_assemble hr hfits e.1 hplan'
    refine ⟨⟨s.assemble r (Function.update p e.1 (s.piece r e.1 e.2.rows)),
      e.1 :: progress.consumed,progress.unexpected⟩,?_,⟨_,rfl,?_,?_⟩,?_,?_⟩
    · simp [loadTensor,hplan,hshape,hmodel,hload]
    · intro name
      by_cases hname : name = e.1
      · rw [hname,Function.update_self]
        exact s.piece_fits hr e.1 hplan'
      · rw [Function.update_of_ne hname]
        exact hfits name
    · intro e' hmem hin'
      rcases List.mem_append.mp hmem with hread | hlast
      · have hname : e'.1 ≠ e.1 := fun heq => hnew (heq ▸ List.mem_map_of_mem hread)
        rw [Function.update_of_ne hname]
        exact hparts e' hread hin'
      · rw [List.mem_singleton.mp hlast,Function.update_self]
    · intro name
      rw [List.mem_cons,hconsumed,List.map_append,List.mem_append]
      constructor
      · rintro (rfl | hname)
        · exact ⟨hin,.inr (List.mem_singleton_self _)⟩
        · exact ⟨hname.1,.inl hname.2⟩
      · rintro ⟨hname,hread | hlast⟩
        · exact .inr ⟨hname,hread⟩
        · exact .inl (List.mem_singleton.mp hlast)
    · intro name
      rw [hunexpected,List.map_append,List.mem_append]
      refine ⟨fun hname => ⟨hname.1,.inl hname.2⟩,fun hname => ⟨hname.1,?_⟩⟩
      refine hname.2.resolve_right fun hlast => hname.1 ?_
      rw [List.mem_singleton.mp hlast]
      exact hin

theorem loadTensor_error {progress : LoadProgress R} {e : Source × Tensor R}
    (h : ¬WellShaped config e) : ∃ fault, loadTensor config progress e = .error fault := by
  cases hplan : config.planShape e.1 with
  | none => exact absurd (fun expected hsome => absurd hsome (by simp [hplan])) h
  | some expected =>
    have hshape : e.2.shape ≠ expected := fun heq => h fun expected' hsome => by
      rw [hplan] at hsome
      exact heq.trans (Option.some.inj hsome)
    exact ⟨.shapeMismatch e.1 e.2.shape expected,by simp [loadTensor,hplan,hshape]⟩

/-- The tensors that are left take a load on to its end. -/
theorem loadWeights_reached (hr : r < tpSize) (weights : List (Source × Tensor R))
    {read : List (Source × Tensor R)} {progress : LoadProgress R} (h : s.Reached r read progress)
    (hn : ((read ++ weights).map Prod.fst).Nodup) (hshape : ∀ e ∈ weights, WellShaped config e) :
    ∃ progress', weights.foldlM (loadTensor config) progress = .ok progress' ∧
      s.Reached r (read ++ weights) progress' := by
  induction weights generalizing read progress with
  | nil => exact ⟨progress,rfl,by rwa [List.append_nil]⟩
  | cons e weights ih =>
    have hnew : e.1 ∉ read.map Prod.fst := by
      rw [List.map_append,List.map_cons,List.nodup_append] at hn
      exact fun hmem => hn.2.2 _ hmem _ List.mem_cons_self rfl
    obtain ⟨progress',hstep,hreached⟩ := s.loadTensor_reached hr h e hnew
      (hshape e List.mem_cons_self)
    rw [List.append_cons] at hn ⊢
    obtain ⟨last,hrest,hlast⟩ := ih hreached hn fun e' he' => hshape e' (List.mem_cons_of_mem _ he')
    refine ⟨last,?_,hlast⟩
    rw [List.foldlM_cons,hstep]
    exact hrest

/-- A tensor of a wrong shape ends a load, wherever it stands. -/
theorem loadWeights_shaped {weights : List (Source × Tensor R)}
    {progress progress' : LoadProgress R}
    (h : weights.foldlM (loadTensor config) progress = .ok progress') :
    ∀ e ∈ weights, WellShaped config e := by
  induction weights generalizing progress with
  | nil => simp
  | cons e weights ih =>
    rw [List.foldlM_cons] at h
    by_cases hshape : WellShaped config e
    · cases hstep : loadTensor config progress e with
      | error fault =>
        rw [hstep] at h
        cases h
      | ok middle =>
        rw [hstep] at h
        exact List.forall_mem_cons.mpr ⟨hshape,ih h⟩
    · obtain ⟨fault,hfault⟩ : ∃ fault, loadTensor config progress e = .error fault :=
        loadTensor_error hshape
      rw [hfault] at h
      cases h

theorem assemble_congr {p p' : Source → Weight R} (h : ∀ name ∈ config.plan, p name = p' name) :
    s.assemble r p = s.assemble r p' := by
  have hlayers : (List.range config.numHiddenLayers).map (fun i =>
      s.toLayerSplit.assemble r fun w => p (.layer i w)) =
      (List.range config.numHiddenLayers).map fun i =>
        s.toLayerSplit.assemble r fun w => p' (.layer i w) := by
    refine List.map_congr_left fun i hi => ?_
    congr 1
    funext w
    refine h _ ?_
    rw [NemotronConfig.mem_plan,NemotronConfig.planShape,if_pos (List.mem_range.mp hi)]
    rfl
  have hname : ∀ name, (config.planShape name).isSome = true → p name = p' name := fun name hn =>
    h name ((config.mem_plan name).mpr hn)
  rw [assemble,assemble,hlayers,hname .embedTokens rfl,hname .norm rfl,hname .diffusionHead rfl]

end NemotronSplit

namespace NemotronCheckpoint

variable (c : NemotronCheckpoint R config)

theorem names_tensors : c.tensors.map Prod.fst = config.plan := by
  rw [tensors,List.map_map]
  exact List.map_id _

theorem mem_tensors (e : Source × Tensor R) :
    e ∈ c.tensors ↔ e.1 ∈ config.plan ∧ e.2 = c.tensor e.1 := by
  rw [tensors,List.mem_map]
  constructor
  · rintro ⟨name,hname,rfl⟩
    exact ⟨hname,rfl⟩
  · rintro ⟨hname,hvalue⟩
    exact ⟨e.1,hname,Prod.ext rfl hvalue.symm⟩

end NemotronCheckpoint

/-- Planned tensors of the planned shapes are a checkpoint. -/
theorem exists_checkpoint {weights : List (Source × Tensor R)}
    (hn : (weights.map Prod.fst).Nodup) (hshape : ∀ e ∈ weights, NemotronSplit.WellShaped config e)
    (hplanned : ∀ name, name ∈ weights.map Prod.fst ↔ name ∈ config.plan) :
    ∃ c : NemotronCheckpoint R config, weights.Perm c.tensors := by
  have hunique : ∀ {name : Source} {t t' : Tensor R}, (name,t) ∈ weights → (name,t') ∈ weights →
      t = t' := by
    intro name t t' ht ht'
    exact congrArg Prod.snd (List.inj_on_of_nodup_map hn ht ht' rfl)
  have htensor : ∀ name, ∃ t : Tensor R, name ∈ config.plan → (name,t) ∈ weights := by
    intro name
    by_cases hname : name ∈ config.plan
    · obtain ⟨e,he,rfl⟩ := List.mem_map.mp ((hplanned name).mpr hname)
      exact ⟨e.2,fun _ => he⟩
    · exact ⟨.vector [],fun hin => absurd hin hname⟩
  choose tensor hmem using htensor
  have hin : ∀ name n, config.planShape name = some n → name ∈ config.plan := by
    intro name n h
    rw [NemotronConfig.mem_plan,h]
    rfl
  let c : NemotronCheckpoint R config :=
    ⟨tensor,fun name n h => hshape _ (hmem name (hin name n h)) n h⟩
  have hnodup : c.tensors.Nodup := by
    refine List.Nodup.of_map Prod.fst ?_
    rw [c.names_tensors]
    exact config.plan_nodup
  refine ⟨c,(List.perm_ext_iff_of_nodup (hn.of_map _) hnodup).mpr fun e => ?_⟩
  rw [c.mem_tensors]
  constructor
  · intro he
    have hname := (hplanned e.1).mp (List.mem_map_of_mem he)
    exact ⟨hname,hunique he (hmem e.1 hname)⟩
  · rintro ⟨hname,hvalue⟩
    have he := hmem e.1 hname
    rwa [show tensor e.1 = e.2 from hvalue.symm] at he

namespace NemotronSplit

variable (s : NemotronSplit config tpSize)

open NemotronLabsDiffusionLLM

/-- A load that has read the tensors of a checkpoint has the rank's model. -/
theorem Reached.model_eq {s : NemotronSplit config tpSize} {weights : List (Source × Tensor R)}
    {progress : LoadProgress R} (h : s.Reached r weights progress) {c : NemotronCheckpoint R config}
    (hperm : weights.Perm c.tensors) : progress.model = s.rankModel c r := by
  obtain ⟨p,hmodel,_,hparts⟩ := h.parts
  rw [hmodel]
  refine s.assemble_congr fun name hname => ?_
  have hmem : (name,c.tensor name) ∈ weights :=
    hperm.mem_iff.mpr ((c.mem_tensors _).mpr ⟨hname,rfl⟩)
  exact hparts _ hmem hname

theorem reached_new {p : Source → Weight R} (hfits : ∀ name, s.Fits name (p name)) (r : Nat) :
    s.Reached r ([] : List (Source × Tensor R)) { model := s.assemble r p } where
  parts := ⟨p,rfl,hfits,by simp⟩
  consumed := by simp
  unexpected := by simp

theorem finishLoad_eq_ok {progress : LoadProgress R} {m : NemotronLabsDiffusionLLM R} :
    finishLoad config progress = .ok m ↔ progress.unexpected = [] ∧
      (∀ name ∈ config.plan, name ∈ progress.consumed) ∧ progress.model = m := by
  unfold finishLoad
  by_cases hunexpected : progress.unexpected = []
  · by_cases hmissing : config.plan.filter (fun name => name ∉ progress.consumed) = []
    · have hall : ∀ name ∈ config.plan, name ∈ progress.consumed := by
        simpa using hmissing
      simp only [hunexpected,hmissing,ne_eq,not_true_eq_false,if_false,true_and]
      exact ⟨fun h => ⟨hall,Except.ok.inj h⟩,fun h => congrArg _ h.2⟩
    · have hall : ¬∀ name ∈ config.plan, name ∈ progress.consumed := by
        simpa using hmissing
      simp only [hunexpected,hmissing,ne_eq,not_true_eq_false,if_false,not_false_eq_true,if_true]
      exact ⟨fun h => (by cases h),fun h => absurd h.2.1 hall⟩
  · simp only [hunexpected,ne_eq,not_false_eq_true,if_true,false_and]
    exact ⟨fun h => (by cases h),False.elim⟩

/-- The names of what was read are the planned ones when nothing is unexpected or missing. -/
theorem Reached.planned {s : NemotronSplit config tpSize} {weights : List (Source × Tensor R)}
    {progress : LoadProgress R} (h : s.Reached r weights progress) :
    progress.unexpected = [] ∧ (∀ name ∈ config.plan, name ∈ progress.consumed) ↔
      ∀ name, name ∈ weights.map Prod.fst ↔ name ∈ config.plan := by
  rw [List.eq_nil_iff_forall_not_mem]
  simp only [h.unexpected,h.consumed]
  constructor
  · rintro ⟨hout,hall⟩ name
    exact ⟨fun hname => by_contra fun hno => hout name ⟨hno,hname⟩,fun hname => (hall name hname).2⟩
  · intro hsame
    exact ⟨fun name hname => hname.1 ((hsame name).mp hname.2),
      fun name hname => ⟨hname,(hsame name).mpr hname⟩⟩

/-- The tensors of a checkpoint in any order leave its parts with the rank. -/
theorem loadModel_checkpoint (hr : r < tpSize) (data : Source → Nat → Nat → R)
    {weights : List (Source × Tensor R)} {c : NemotronCheckpoint R config}
    (hperm : weights.Perm c.tensors) :
    loadModel data config r tpSize weights = .ok (s.rankModel c r) := by
  obtain ⟨p,hfits,hnew⟩ := s.new_assemble data r
  have hnames := hperm.map Prod.fst
  rw [c.names_tensors] at hnames
  have hn : (weights.map Prod.fst).Nodup := hnames.nodup_iff.mpr config.plan_nodup
  have hshape : ∀ e ∈ weights, WellShaped config e := by
    intro e he expected hplan
    rw [((c.mem_tensors e).mp (hperm.mem_iff.mp he)).2]
    exact c.shape _ _ hplan
  obtain ⟨progress,hrun,hreached⟩ :=
    s.loadWeights_reached hr weights (s.reached_new hfits r) hn hshape
  obtain ⟨hunexpected,hall⟩ := hreached.planned.mpr fun name => hnames.mem_iff
  rw [loadModel,hnew]
  show (loadWeights config (s.assemble r p) weights >>= finishLoad config) = _
  rw [show loadWeights config (s.assemble r p) weights = .ok progress from hrun]
  exact finishLoad_eq_ok.mpr ⟨hunexpected,hall,hreached.model_eq hperm⟩

end NemotronSplit

/-- A matrix with one value everywhere. -/
def constantTensor (a : R) : List Nat → Tensor R
  | [rows,columns] => .matrix columns (List.replicate rows (List.replicate columns a)) fun row h =>
    (List.mem_replicate.mp h).2 ▸ List.length_replicate
  | n :: _ => .vector (List.replicate n a)
  | [] => .vector []

def constantCheckpoint (config : NemotronConfig) (a : R) : NemotronCheckpoint R config where
  tensor := fun name => constantTensor a ((config.planShape name).getD [])
  shape := by
    intro name shape h
    have hshape := config.planShape_shape h
    rw [h]
    rcases hshape with ⟨n,rfl⟩ | ⟨n,m,rfl⟩ <;> simp [constantTensor,Tensor.shape]

def tinyConfig : NemotronConfig where
  hiddenSize := 2
  vocabSize := 3
  intermediateSize := 2
  headDim := 1
  numAttentionHeads := 2
  numKeyValueHeads := 1
  numHiddenLayers := 1

theorem tinyConfig_shardable : tinyConfig.Shardable 2 where
  tp_pos := by decide
  vocab_pos := by decide
  heads_pos := by decide
  groups := by decide
  heads := by decide
  kvHeads := by decide
  intermediate := by decide
  vocab := by decide

end FluxServe.Parallel
