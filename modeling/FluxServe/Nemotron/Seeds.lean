import FluxServe.Nemotron.OnlineBlocks
import FluxServe.Nemotron.OnlineSpec

namespace FluxServe.Engine

variable {M : NemotronModel} {R : NemotronRunner M} {K : PagedRunner M} {rid : RequestId}
  {state : RequestState} {s : Slot M} {w w' : Served M} {results : List StepResult} {op : PlanOp}
  {fuel : Nat} {e : NemotronFault}

/-- A seed, and for self-speculation a prefix to go on from. -/
structure Slot.Seeded (speculates : Bool) (s : Slot M) : Prop where
  seed : s.requestSeed.isSome = true
  start : speculates = true → s.requestPrefix.isSome = true

/-- A runner whose decode rows miss a seed only where there is none, and leave one behind. -/
structure Seeding (K : PagedRunner M) : Prop where
  enter : ∀ rid state s, s.Seeded K.speculates → ∀ rid', K.enter rid state s ≠ .error (.noSeed rid')
  run : ∀ fuel rows rid, K.run fuel rows ≠ some (.error (.noSeed rid))
  settle : ∀ r s, (K.settle r s).Seeded K.speculates

section Runners

theorem speculativeBlock_error {seed : Token} {marker : Option Token}
    (h : R.speculativeBlock seed marker = .error e) : e = .indexOutOfRange := by
  unfold NemotronRunner.speculativeBlock at h
  cases marker with
  | none => cases h
  | some t =>
    dsimp only at h
    split at h
    · cases h
    · injection h with h
      exact h.symm

theorem draftRow_error {r : SpecRow M} (h : R.draftRow r = .error e) (rid : RequestId) :
    e ≠ .noSeed rid := by
  unfold NemotronRunner.draftRow at h
  dsimp only at h
  split at h
  · cases h
  · split at h
    · injection h with h
      rw [← h]
      exact NemotronFault.noConfusion
    · cases h

theorem verifyRow_error {r : SpecRow M} (h : R.verifyRow r = .error e) (rid : RequestId) :
    e ≠ .noSeed rid := by
  unfold NemotronRunner.verifyRow at h
  dsimp only at h
  split at h
  · cases h
  · obtain h | ⟨x,_,h⟩ := bind_eq_error h
    · rw [speculativeBlock_error h]
      exact NemotronFault.noConfusion
    · cases h

theorem denoiseRow_error {r : BlockRow M} (h : R.denoiseRow r = .error e) (rid : RequestId) :
    e ≠ .noSeed rid := by
  unfold NemotronRunner.denoiseRow at h
  dsimp only at h
  split at h
  · cases h
  · split at h
    · injection h with h
      rw [← h]
      exact NemotronFault.noConfusion
    · cases h

theorem commitRow_error {r : BlockRow M} : R.commitRow r ≠ .error e := by
  intro h
  unfold NemotronRunner.commitRow at h
  dsimp only at h
  split at h <;> cases h

theorem tryLoop_noSeed {ρ : Type} {more : ρ → Bool} {step : ρ → Except NemotronFault ρ}
    (hstep : ∀ rows rid, step rows ≠ .error (.noSeed rid)) (fuel : Nat) (rows : ρ)
    (rid : RequestId) : tryLoop more step fuel rows ≠ some (.error (.noSeed rid)) := by
  intro h
  obtain ⟨n,_,hhalts⟩ := halts_of_tryLoop h
  obtain ⟨t,_,_,hraise⟩ := hhalts.raised
  exact hstep t rid hraise

theorem speculation_seeding (R : NemotronRunner M) : Seeding R.speculation where
  enter := by
    intro rid state s hs rid' h
    change R.enterSpecRow rid state s = _ at h
    obtain ⟨seed,hseed⟩ := Option.isSome_iff_exists.mp hs.seed
    obtain ⟨start,hstart⟩ := Option.isSome_iff_exists.mp (hs.start rfl)
    unfold NemotronRunner.enterSpecRow at h
    rw [hseed,hstart] at h
    obtain h | ⟨x,_,h⟩ := bind_eq_error h
    · cases speculativeBlock_error h
    · cases h
  run := by
    apply tryLoop_noSeed
    intro rows rid h
    obtain ⟨r,hr | hr⟩ := twoPasses_eq_error h
    · exact draftRow_error hr rid rfl
    · exact verifyRow_error hr rid rfl
  settle _ _ := ⟨rfl,fun _ => rfl⟩

theorem blockDiffusion_seeding (R : NemotronRunner M) : Seeding R.blockDiffusion where
  enter := by
    intro rid state s hs rid' h
    change R.enterPlanBlock rid state s = _ at h
    obtain ⟨seed,hseed⟩ := Option.isSome_iff_exists.mp hs.seed
    unfold NemotronRunner.enterPlanBlock at h
    rw [hseed] at h
    cases h
  run := by
    apply tryLoop_noSeed
    intro rows rid h
    obtain ⟨r,hr | hr⟩ := twoPasses_eq_error h
    · exact denoiseRow_error hr rid rfl
    · exact commitRow_error hr
  settle _ _ := ⟨rfl,fun h => by cases h⟩

end Runners

section Plan

theorem prefillSlot_seeded {speculates : Bool} {p : PrefillRow} (h : s.Seeded speculates) :
    (R.prefillSlot p s).Seeded speculates := by
  cases hstate : s.state with
  | none =>
    have hsame : R.prefillSlot p s =
        { s with cache := (NemotronRunner.commit false true p.tokens p.offset s.cache).2 } := by
      unfold NemotronRunner.prefillSlot
      rw [hstate]
    rw [hsame]
    exact ⟨h.seed,h.start⟩
  | some state =>
    rw [prefillSlot_eq R p hstate]
    refine ⟨?_,h.start⟩
    dsimp only
    split
    · exact h.seed
    · rfl

theorem prefilled_seeded {speculates : Bool} (h : s.Seeded speculates) :
    (s.prefilled speculates).Seeded speculates := by
  cases hstate : s.state with
  | none =>
    unfold Slot.prefilled
    rw [hstate]
    exact h
  | some state =>
    rw [prefilled_eq speculates hstate]
    refine ⟨h.seed,fun hspec => ?_⟩
    rw [hspec,h.seed]
    rfl

/-- A chunk that reaches the end of the prompt that the engine holds leaves the request seeded. -/
theorem prefill_seeded {speculates : Bool} {p : PrefillRow} (hstate : s.state = some state)
    (hend : state.inputIds.length ≤ p.offset+p.tokens.length) :
    ((R.prefillSlot p s).prefilled speculates).Seeded speculates := by
  have hslot : (R.prefillSlot p s).state = some state := by
    rw [prefillSlot_state,hstate]
  rw [prefilled_eq speculates hslot,prefillSlot_eq R p hstate,if_neg (by omega)]
  refine ⟨rfl,fun hspec => ?_⟩
  rw [hspec]
  rfl

theorem planRows_noSeed {rids : List RequestId} (hk : Seeding K)
    (hseeded : ∀ rid ∈ rids, ∀ state, (w rid).state = some state → state.finished = false →
      (w rid).Seeded K.speculates) :
    K.planRows fuel rids w ≠ some (.error (.noSeed rid)) := by
  intro h
  unfold PagedRunner.planRows at h
  split at h
  · next e hraise =>
    injection h with h
    injection h with h
    subst h
    obtain ⟨x,hx,hraise⟩ := mapM_eq_error hraise
    obtain ⟨hmem,hstate,hfin⟩ := mem_liveRows.mp hx
    exact hk.enter x.1 x.2 (w x.1) (hseeded x.1 hmem x.2 hstate hfin) rid hraise
  · obtain ⟨r,hr,hret⟩ := Option.bind_eq_some_iff.mp h
    injection hret with hret
    obtain hraise | ⟨rows,_,hdone⟩ := bind_eq_error hret
    · rw [hraise] at hr
      exact hk.run fuel _ rid hr
    · cases hdone

/-- An execution whose decode rows are seeded never misses a seed. -/
theorem executePlan_noSeed (hk : Seeding K)
    (hseeded : ∀ rid ∈ op.decodes, ∀ state, (w rid).state = some state → state.finished = false →
      (w rid).Seeded K.speculates) :
    K.executePlan R fuel op w ≠ some (.error (.noSeed rid)) := by
  intro h
  unfold PagedRunner.executePlan at h
  cases hprefill : R.planPrefill op.prefills w with
  | error e =>
    rw [hprefill] at h
    injection h with h
    injection h with h
    subst h
    unfold NemotronRunner.planPrefill at hprefill
    split at hprefill <;> cases hprefill
  | ok w₁ =>
    rw [hprefill] at h
    obtain ⟨hnodup,_,hdisjoint⟩ := List.nodup_append.mp op.distinct
    obtain ⟨_,_,hothers⟩ := prefill_stage hnodup hprefill K.speculates
    obtain ⟨r,hr,hret⟩ := Option.bind_eq_some_iff.mp h
    injection hret with hret
    obtain hraise | ⟨x,_,hdone⟩ := bind_eq_error hret
    · rw [hraise] at hr
      refine planRows_noSeed hk (fun rid hrid state hstate hfin => ?_) hr
      have hsame := hothers rid fun hmem => hdisjoint rid hmem rid hrid rfl
      rw [hsame] at hstate ⊢
      exact hseeded rid hrid state hstate hfin
    · cases hdone

end Plan

end FluxServe.Engine
