import FluxServe.Llada.BatchRuns
import FluxServe.Llada.PromptProtection
import FluxServe.Llada.ThresholdProgress

namespace FluxServe.Llada

open Engine LladaRunner

section Budget

variable {numRows r n : Nat} {b : DecodeEditBudget}

/-- What a call of `update` is given. -/
structure BudgetUpdate where
  seqIds : List Nat
  hadMask : Nat → Bool
  changed : Nat → Bool
  blockFinished : Nat → Bool

namespace DecodeEditBudget

/-- The budget after some calls of `update`, none once a call has raised. -/
def updates (numRows : Nat) (b : DecodeEditBudget) (calls : Nat → BudgetUpdate) :
    Nat → Option DecodeEditBudget
  | 0 => some b
  | n+1 => (updates numRows b calls n).bind fun b =>
      b.update numRows (calls n).seqIds (calls n).hadMask (calls n).changed (calls n).blockFinished

variable {calls : Nat → BudgetUpdate}

/-- The calls so far that a row was part of. -/
def turns (calls : Nat → BudgetUpdate) (r n : Nat) : Nat :=
  (List.range n).countP fun k => decide (r ∈ (calls k).seqIds)

theorem turns_succ :
    turns calls r (n+1) = turns calls r n + (decide (r ∈ (calls n).seqIds)).toNat := by
  unfold turns
  rw [List.range_succ,List.countP_append,List.countP_singleton]
  cases decide (r ∈ (calls n).seqIds) <;> rfl

theorem turns_mono {m : Nat} (h : m ≤ n) : turns calls r m ≤ turns calls r n := by
  induction n with
  | zero => rw [Nat.le_zero.mp h]
  | succ n ih =>
    obtain h | rfl := Nat.le_succ_iff.mp h
    · rw [turns_succ]
      exact (ih h).trans (Nat.le_add_right _ _)
    · exact le_rfl

theorem turns_unbounded (h : ∀ n, ∃ m ≥ n, r ∈ (calls m).seqIds) (k : Nat) :
    ∃ n, k ≤ turns calls r n := by
  induction k with
  | zero => exact ⟨0,Nat.zero_le _⟩
  | succ k ih =>
    obtain ⟨n,hn⟩ := ih
    obtain ⟨m,hm,hr⟩ := h n
    refine ⟨m+1,?_⟩
    have hle : turns calls r n ≤ turns calls r m := turns_mono hm
    rw [turns_succ,decide_eq_true hr,Bool.toNat_true]
    omega

/-- As long as no call raises, a row that no call finishes counts its turns. -/
theorem updates_counts (hfin : ∀ n, r ∈ (calls n).seqIds → (calls n).blockFinished r = false)
    {b' : DecodeEditBudget} (h : updates numRows b calls n = some b') :
    b'.blockIters r = b.blockIters r + turns calls r n ∧ b'.updateCalls = b.updateCalls+n ∧
      b'.maxBlockIters = b.maxBlockIters := by
  induction n generalizing b' with
  | zero =>
    cases h
    exact ⟨rfl,rfl,rfl⟩
  | succ n ih =>
    obtain ⟨b₁,hfirst,hlast⟩ := Option.bind_eq_some_iff.mp h
    obtain ⟨hiters,hcalls,hmax⟩ := ih hfirst
    rw [update_eq_some hlast,turns_succ]
    dsimp only
    refine ⟨?_,by omega,hmax⟩
    by_cases hr : r ∈ (calls n).seqIds
    · rw [putRows_of_mem hr,hfin n hr,if_neg Bool.false_ne_true,decide_eq_true hr,Bool.toNat_true]
      omega
    · rw [putRows_of_notMem hr,decide_eq_false hr,Bool.toNat_false]
      omega

/-- A row that has its turn again and again and is never finished makes some call raise. -/
theorem updates_raises (hmax : 0 < b.maxBlockIters) (hr : r < numRows)
    (hturns : ∀ n, ∃ m ≥ n, r ∈ (calls m).seqIds)
    (hfin : ∀ n, r ∈ (calls n).seqIds → (calls n).blockFinished r = false) :
    ∃ n, updates numRows b calls n = none := by
  by_contra hnone
  rw [not_exists] at hnone
  obtain ⟨n,hn⟩ := turns_unbounded hturns b.maxBlockIters
  -- the first call from there on at which the budget looks for stuck rows
  let k := n + (b.maxBlockIters - (b.updateCalls+n+1) % b.maxBlockIters) % b.maxBlockIters
  have hk : (b.updateCalls+k+1) % b.maxBlockIters = 0 := by
    have hsum : b.updateCalls+k+1 = (b.updateCalls+n+1) +
        (b.maxBlockIters - (b.updateCalls+n+1) % b.maxBlockIters) % b.maxBlockIters := by
      simp only [k]
      omega
    have hlt := Nat.mod_lt (b.updateCalls+n+1) hmax
    rw [hsum,Nat.add_mod,Nat.mod_mod,← Nat.add_mod_mod,Nat.mod_mod,Nat.add_mod_mod,
      Nat.add_sub_cancel' hlt.le,Nat.mod_self]
  obtain ⟨b₁,hb₁⟩ := Option.ne_none_iff_exists'.mp (hnone k)
  obtain ⟨b₂,hb₂⟩ := Option.ne_none_iff_exists'.mp (hnone (k+1))
  obtain ⟨_,hcalls,hmax₁⟩ := updates_counts hfin hb₁
  obtain ⟨hiters₂,_,_⟩ := updates_counts hfin hb₂
  have hupdate : b₁.update numRows (calls k).seqIds (calls k).hadMask (calls k).changed
      (calls k).blockFinished = some b₂ := by
    have h := hb₂
    rw [updates,hb₁] at h
    exact h
  have hstuck : b₁.maxBlockIters ≤ b₂.blockIters r := by
    have hmono : turns calls r n ≤ turns calls r (k+1) := turns_mono (by simp only [k]; omega)
    rw [hmax₁,hiters₂]
    omega
  rw [update_blockIters hupdate] at hstuck
  unfold update at hupdate
  dsimp only at hupdate
  rw [if_pos ⟨by rw [hcalls,hmax₁]; exact hk,r,hr,hstuck⟩] at hupdate
  cases hupdate

end DecodeEditBudget

end Budget

namespace JointThresholdDecoder

variable {V : Nat} [NeZero V] {Logit Conf Kv : Type} [LinearOrder Logit] [OrderBot Logit]
  [LinearOrder Conf]

section Update

variable {L : Nat} {d : JointThresholdDecoder Conf} {softmax : (Fin V → Logit) → Fin V → Conf}
  {row : DecoderRow (Fin L → Fin V → Logit)} {block : Fin L → Token} {i : Fin L}

/-- At each position some token other than the mask is possible. -/
def Finite (d : JointThresholdDecoder Conf) (logits : Fin L → Fin V → Logit) : Prop :=
  ∀ i, ∃ v, v ≠ LevenshteinJointDecoder.column V d.maskId ∧ logits i v ≠ ⊥

theorem confidence_ne_bot : d.confidence softmax row block i ≠ ⊥ ↔ block i = d.maskId := by
  unfold confidence
  split
  · next h => simpa using h
  · next h => simpa using h

theorem masked_of_updated_masked (hfinite : d.Finite row.logits)
    (h : d.updated softmax row block i = d.maskId) : block i = d.maskId := by
  unfold updated at h
  split at h
  · exact absurd h (x0_ne_mask (hfinite i))
  · exact h

/-- A pass over a block with masks leaves fewer of them, -/
theorem masks_updated_lt (hslack : ∀ c, d.slack c ≤ c) (hfinite : d.Finite row.logits)
    (hi : block i = d.maskId) :
    masks d.maskId (d.updated softmax row block) < masks d.maskId block := by
  obtain ⟨j,hj⟩ : ∃ j, transferred d.slack d.threshold (d.confidence softmax row block) j = true :=
    exists_transferred hslack (confidence_ne_bot.mpr hi)
  have hmask := confidence_ne_bot.mp (transferred_candidate hj)
  have hwritten : d.updated softmax row block j ≠ d.maskId := by
    unfold updated
    rw [hj,Bool.true_or,if_pos rfl]
    exact x0_ne_mask (hfinite j)
  exact masks_lt (fun _ => masked_of_updated_masked hfinite) hmask hwritten

/-- and one over a block without masks changes it only where the row may be edited. -/
theorem allowEdit_of_updated (hi : block i ≠ d.maskId)
    (h : d.updated softmax row block i ≠ block i) : row.allowEdit = true := by
  have hm2t : transferred d.slack d.threshold (d.confidence softmax row block) i = false := by
    rw [Bool.eq_false_iff]
    intro htransfer
    exact hi (confidence_ne_bot.mp (transferred_candidate htransfer))
  unfold updated at h
  rw [hm2t,Bool.false_or] at h
  cases hallow : row.allowEdit with
  | true => rfl
  | false => simp [t2t,hallow] at h

end Update

section Runner

variable {c : RunnerConfig} {b : Backend c (Fin c.blockLength → Fin V → Logit) Kv}
  {d : JointThresholdDecoder Conf} {softmax : (Fin V → Logit) → Fin V → Conf}
  {σ σ' : DecodeLoop Kv (Nat → Unit)} {seqIds : List Nat} {cacheLength m : Nat} {call : DecodeCall}

/-- What is left to do in a row's block: its masks, and the edits that the budget still allows. -/
def left (d : JointThresholdDecoder Conf) (b : Backend c (Fin c.blockLength → Fin V → Logit) Kv)
    (softmax : (Fin V → Logit) → Fin V → Conf) (m : Nat) (σ : DecodeLoop Kv (Nat → Unit))
    (r : Nat) : Nat :=
  masks c.maskId ((b.runner (d.decoder softmax)).block σ r) + (m - σ.editBudget.postSteps r)

theorem left_le (r : Nat) : d.left b softmax m σ r ≤ c.blockLength+m :=
  Nat.add_le_add (masks_le _ _) (Nat.sub_le _ _)

theorem tail_after_joint (hnd : seqIds.Nodup) {r : Nat} (hr : r ∈ seqIds) :
    ((b.runner (d.decoder softmax)).tail call σ seqIds cacheLength).after r =
      d.updated softmax ((b.runner (d.decoder softmax)).decoderRow call σ seqIds cacheLength r)
        ((b.runner (d.decoder softmax)).block σ r) :=
  tail_after_ofRows (R := b.runner (d.decoder softmax)) rfl hnd hr

/-- A pass that does not finish a row's block takes a mask from it, or an edit of its budget. -/
theorem joint_falls (hmask : d.maskId = c.maskId) (hslack : ∀ c, d.slack c ≤ c)
    (hfinite : ∀ cacheLength rows r, d.Finite (b.forward cacheLength rows r).logits)
    (hm : σ.editBudget.maxPostSteps = m) (hnd : seqIds.Nodup) :
    Falls (b.runner (d.decoder softmax)) call (d.left b softmax m) σ seqIds cacheLength := by
  let R := b.runner (d.decoder softmax)
  have hcases (r : Nat) (hr : r ∈ seqIds)
      (hfin : R.blockFinished call σ seqIds cacheLength r = false) :
      (R.hadMask σ r = true ∧ ∃ i, R.block σ r i = d.maskId) ∨
      R.hadMask σ r = false ∧ R.changed call σ seqIds cacheLength r = true ∧
        σ.editBudget.postSteps r < m := by
    cases hhad : R.hadMask σ r with
    | true =>
      obtain ⟨i,hi⟩ := hadMask_eq_true.mp hhad
      exact .inl ⟨rfl,i,hi.trans hmask.symm⟩
    | false =>
      right
      unfold blockFinished at hfin
      rw [hhad,Bool.not_false,Bool.true_and,Bool.not_eq_false'] at hfin
      obtain ⟨i,hi⟩ := changed_eq_true.mp hfin
      have hunmasked : R.block σ r i ≠ d.maskId := by
        intro hi'
        rw [hadMask_eq_true.mpr ⟨i,hi'.trans hmask⟩] at hhad
        cases hhad
      rw [tail_after_joint hnd hr] at hi
      have hallow : σ.editBudget.allowEdit r = true := allowEdit_of_updated hunmasked hi
      exact ⟨rfl,hfin,hm ▸ of_decide_eq_true hallow⟩
  constructor
  · intro r hr hfin
    unfold left
    obtain ⟨_,i,hi⟩ | ⟨_,_,hlt⟩ := hcases r hr hfin
    · have hpos : masks c.maskId (R.block σ r) ≠ 0 := by
        rw [Ne,masks_eq_zero]
        exact fun hnone => hnone i (hi.trans hmask)
      exact Nat.add_pos_left (Nat.pos_of_ne_zero hpos) _
    · exact Nat.add_pos_right _ (by omega)
  · intro σ' hrun r hr hfin
    have hblock := block_of_unfinished (decodeBatch_passed hrun) hr hfin
    have hpost := congrFun (DecodeEditBudget.update_postSteps (decodeBatch_budget hrun)) r
    rw [putRows_of_mem hr,hfin,if_neg Bool.false_ne_true] at hpost
    unfold left
    rw [hblock,hpost,tail_after_joint hnd hr,← hmask]
    obtain ⟨hhad,i,hi⟩ | ⟨hhad,hchanged,hlt⟩ := hcases r hr hfin
    · have hfewer : masks d.maskId (d.updated softmax (R.decoderRow call σ seqIds cacheLength r)
          (R.block σ r)) < masks d.maskId (R.block σ r) :=
        masks_updated_lt hslack (hfinite _ _ _) hi
      rw [hhad,Bool.not_true,Bool.false_and,Bool.toNat_false]
      exact Nat.add_lt_add_of_lt_of_le hfewer le_rfl
    · have hmono : masks d.maskId (d.updated softmax (R.decoderRow call σ seqIds cacheLength r)
          (R.block σ r)) ≤ masks d.maskId (R.block σ r) :=
        masks_mono fun i => masked_of_updated_masked (hfinite _ _ _)
      rw [hhad,hchanged,Bool.not_false,Bool.true_and,Bool.toNat_true]
      apply Nat.add_lt_add_of_le_of_lt hmono
      omega
  · intro σ' hrun r hr
    have hpost := congrFun (DecodeEditBudget.update_postSteps (decodeBatch_budget hrun)) r
    rw [putRows_of_notMem hr] at hpost
    unfold left
    rw [block_of_notMem (decodeBatch_passed hrun) hr,hpost]

/-- The budget that a decode loop starts with. -/
def freshBudget (c : RunnerConfig) (m : Nat) : DecodeEditBudget :=
  { maxPostSteps := m, maxBlockIters := c.blockLength+m+1 }

section Batches

variable {passes : List (Nat × Bool)}

theorem fresh_not_stuck (hmask : d.maskId = c.maskId) (hslack : ∀ c, d.slack c ≤ c)
    (hfinite : ∀ cacheLength rows r, d.Finite (b.forward cacheLength rows r).logits)
    (hfresh : σ.editBudget = freshBudget c m)
    (h : (b.runner (d.decoder softmax)).Batches call σ passes σ') (hnd : seqIds.Nodup) :
    (b.runner (d.decoder softmax)).decodeBatch call σ' seqIds cacheLength ≠ .error .stuck := by
  let keeps (σ : DecodeLoop Kv (Nat → Unit)) : Prop := σ.editBudget.maxPostSteps = m ∧
    σ.editBudget.maxBlockIters = c.blockLength+m+1
  have hkeeps (σ σ' : DecodeLoop Kv (Nat → Unit)) (seqIds : List Nat) (cacheLength : Nat)
      (hσ : keeps σ) (hrun : (b.runner (d.decoder softmax)).decodeBatch call σ seqIds cacheLength =
        .ok σ') : keeps σ' := by
    obtain ⟨hiters,hpost⟩ := decodeBatch_limits hrun
    exact ⟨hpost.trans hσ.1,hiters.trans hσ.2⟩
  have hfalls (σ : DecodeLoop Kv (Nat → Unit)) (seqIds : List Nat) (cacheLength : Nat)
      (hσ : keeps σ) (hnd : seqIds.Nodup) : Falls (b.runner (d.decoder softmax)) call
        (d.left b softmax m) σ seqIds cacheLength := joint_falls hmask hslack hfinite hσ.1 hnd
  have hσ : keeps σ := by
    simp only [keeps,hfresh]
    exact ⟨rfl,rfl⟩
  have hb : Budgeted (d.left b softmax m) (c.blockLength+m) σ := by
    intro r
    rw [hfresh]
    exact (Nat.zero_add _).le.trans (left_le r)
  have hσ' := h.kept hkeeps hσ
  apply (hfalls σ' seqIds cacheLength hσ' hnd).not_stuck
    (h.budgeted hkeeps hfalls hσ (fun _ r => left_le r) hb)
  rw [hσ'.2]
  omega

end Batches

/-- With the joint decoder, however its rows are batched, no more passes of a row than a block's
positions, the edits of its budget and one more go by without one that finishes the row's block. So
neither the decode loops nor a plan ever find a stuck row, and plans whose batches leave no row out
are finished in time. A budget that some decoder makes call for a row again and again without
finishing it does raise. -/
theorem joint_progress (b : Backend c (Fin c.blockLength → Fin V → Logit) Kv)
    (d : JointThresholdDecoder Conf) (softmax : (Fin V → Logit) → Fin V → Conf) (m : Nat)
    (hmask : d.maskId = c.maskId) (hslack : ∀ c, d.slack c ≤ c)
    (hfinite : ∀ cacheLength rows r, d.Finite (b.forward cacheLength rows r).logits) :
    let R := b.runner (d.decoder softmax)
    (∀ call σ passes σ', σ.editBudget.maxPostSteps = m → R.Batches call σ passes σ' →
      ∀ r before mid after, passesOf r passes = before ++ mid ++ after →
        c.blockLength+m+1 ≤ mid.length → true ∈ mid) ∧
    (∀ call σ passes σ' seqIds cacheLength, σ.editBudget = freshBudget c m →
      R.Batches call σ passes σ' → seqIds.Nodup →
        R.decodeBatch call σ' seqIds cacheLength ≠ .error .stuck) ∧
    (∀ (call : BatchesCall) σ ps ℓ, σ.editBudget = freshBudget c m →
      R.Runs call (R.enter call σ) ps ℓ → R.step call ℓ ≠ .error .stuck ∧
        ∃ passes, R.Batches call.toDecodeCall σ passes ℓ.toDecodeLoop ∧
          passes.map Prod.fst = ps.map Pass.seqId) ∧
    (∀ maxNumSeqs rowState rows kv, (rows.map PlanRow.seqId).Nodup →
      let P := b.pagedRunner (d.decoder softmax) maxNumSeqs m true rowState
      P.pagedDecode rows kv ≠ .error .stuck ∧
      ((∀ pending, (P.components pending).flatten.Perm pending) →
        P.pagedDecode rows kv = .error .tooLong ∨ ∃ σ', P.pagedDecode rows kv = .ok σ')) ∧
    ∀ numRows (budget : DecodeEditBudget) (calls : Nat → BudgetUpdate) r,
      0 < budget.maxBlockIters → r < numRows → (∀ n, ∃ k ≥ n, r ∈ (calls k).seqIds) →
      (∀ n, r ∈ (calls n).seqIds → (calls n).blockFinished r = false) →
        ∃ n, budget.updates numRows calls n = none := by
  refine ⟨?_,?_,?_,?_,fun numRows budget calls r hmax hr hturns hfin =>
    DecodeEditBudget.updates_raises hmax hr hturns hfin⟩
  · intro call σ passes σ' hm hbatches r before mid after hsplit hmid
    have hkeeps (σ σ' : DecodeLoop Kv (Nat → Unit)) (seqIds : List Nat) (cacheLength : Nat)
        (hσ : σ.editBudget.maxPostSteps = m)
        (hrun : (b.runner (d.decoder softmax)).decodeBatch call σ seqIds cacheLength = .ok σ') :
        σ'.editBudget.maxPostSteps = m := (decodeBatch_limits hrun).2.trans hσ
    have hfalls (σ : DecodeLoop Kv (Nat → Unit)) (seqIds : List Nat) (cacheLength : Nat)
        (hσ : σ.editBudget.maxPostSteps = m) (hnd : seqIds.Nodup) :
        Falls (b.runner (d.decoder softmax)) call (d.left b softmax m) σ seqIds cacheLength :=
      joint_falls hmask hslack hfinite hσ hnd
    exact hbatches.finishes hkeeps hfalls hm (fun _ r => left_le r) hsplit hmid
  · intro call σ passes σ' seqIds cacheLength hfresh hbatches hnd
    exact fresh_not_stuck hmask hslack hfinite hfresh hbatches hnd
  · intro call σ ps ℓ hfresh hruns
    have hfits := hruns.fits (fits_enter σ)
    obtain ⟨passes,hbatches,hrows⟩ := hruns.batches (fits_enter σ)
    refine ⟨fun hstuck => ?_,passes,hbatches,hrows⟩
    obtain ⟨part,parts,hparts,hrun⟩ := step_error hstuck
    have hnd : part.Nodup := by
      have hnd := hfits.distinct
      rw [hparts,List.flatten_cons,List.nodup_append] at hnd
      exact hnd.1
    exact fresh_not_stuck hmask hslack hfinite hfresh hbatches hnd hrun
  · intro maxNumSeqs rowState rows kv hslots
    dsimp only
    have hiters : (b.pagedRunner (d.decoder softmax) maxNumSeqs m true rowState).maxDecodeIters =
        c.blockLength+m+1 := by
      unfold PagedLladaRunner.maxDecodeIters
      rw [if_pos (.inr rfl)]
      rfl
    constructor
    · intro hstuck
      obtain ⟨σ',passes,part,cacheLength,hbatches,hnd,hrun⟩ :=
        pagedDecode_stuck hslots hstuck
      exact fresh_not_stuck hmask hslack hfinite rfl hbatches hnd hrun
    · intro hcover
      let P := b.pagedRunner (d.decoder softmax) maxNumSeqs m true rowState
      have hmeets : P.DecodeMeets rows
          (fun σ part cacheLength => part.Nodup → Falls (b.runner (d.decoder softmax))
            (P.planCall rows) (d.left b softmax m) σ part cacheLength)
          P.maxDecodeIters (rows.map PlanRow.seqId) (P.planLoop rows kv) :=
        PagedLladaRunner.decodeMeets_of_keeps (fun σ => σ.editBudget.maxPostSteps = m)
          (fun _ _ _ _ hσ hrun => (decodeBatch_limits hrun).2.trans hσ)
          (fun _ _ _ hσ hnd => joint_falls hmask hslack hfinite hσ hnd) hcover rfl
      have hlt : c.blockLength+m < P.maxDecodeIters := by
        rw [hiters]
        exact Nat.lt_succ_self _
      exact PagedLladaRunner.pagedDecode_ends (fun _ r => left_le r) hslots
        (hmeets.mono hslots fun _ _ _ hnd h => h hnd) (Nat.lt_succ_self _) hlt

end Runner

end JointThresholdDecoder

/-- A block of a prompt token and a mask is finished. -/
theorem smallPlan_joint_ends : ∃ σ', ((smallBackend 2).pagedRunner
    ((⟨0,0,0,fun c => c⟩ : JointThresholdDecoder Nat).decoder fun l v => l v) 1 3 true
      fun _ => ()).pagedDecode smallPlan (fun _ _ => none) = .ok σ' := by
  have hplans := (JointThresholdDecoder.joint_progress (smallBackend 2) ⟨0,0,0,fun c => c⟩
    (fun l v => l v) 3 rfl (fun _ => le_rfl)
    fun _ _ _ _ => ⟨(2 : Fin 4),by decide,one_ne_zero⟩).2.2.2.1
  have hends := (hplans 1 (fun _ => ()) smallPlan (fun _ _ => none) (by decide)).2 (by
    intro pending
    simp [components,smallBackend])
  exact hends.resolve_left (by intro h; cases h)

end FluxServe.Llada
