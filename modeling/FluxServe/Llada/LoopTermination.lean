import FluxServe.Engine.LaneProof
import FluxServe.Llada.BatchRuns
import FluxServe.Llada.Decomposition

namespace FluxServe.Llada

open Engine

variable {Logits Kv S : Type}

namespace LladaRunner

section Selection

variable {R : LladaRunner Logits Kv S} {c : BatchesCall} {ℓ : Looping Kv S} {seqIds rows : List Nat}
  {part : List Nat} {r : Nat}

theorem pos_of_mem_decompose {sizes : List Nat} {n size : Nat}
    (h : size ∈ decomposeBatchSize sizes n) : 0 < size := by
  induction sizes with
  | nil => cases h
  | cons bucket sizes ih =>
    rw [decomposeBatchSize_cons,List.mem_append] at h
    obtain h | h := h
    · exact ih h
    · obtain ⟨hne,rfl⟩ := List.mem_replicate.mp h
      apply Nat.pos_of_ne_zero
      intro hzero
      rw [hzero,Nat.div_zero] at hne
      exact hne rfl

theorem components_ne_nil : R.components seqIds ≠ [] := by
  unfold components
  split
  · exact List.cons_ne_nil _ _
  · dsimp only
    split
    · next hsplit =>
      cases hparts : decomposeBatchSize _ seqIds.length with
      | nil =>
        rw [hparts] at hsplit
        cases hsplit
      | cons part parts => exact List.cons_ne_nil _ _
    · exact List.cons_ne_nil _ _

theorem ne_nil_of_mem_components (hne : seqIds ≠ []) (h : part ∈ R.components seqIds) :
    part ≠ [] := by
  unfold components at h
  split at h
  · rwa [List.mem_singleton.mp h]
  · next sizes _ =>
    dsimp only at h
    split at h
    · have hsum := decomposeBatchSize_sum sizes seqIds.length
      have hlength := length_of_mem_splitParts (by omega) h
      exact List.ne_nil_of_length_pos (pos_of_mem_decompose hlength)
    · rwa [List.mem_singleton.mp h]

theorem mem_of_mem_select (h : r ∈ R.selectDecodeSequences c ℓ rows) : r ∈ rows :=
  (R.selector.perm (R.maskNumber c ℓ) rows).mem_iff.mp (List.mem_of_mem_take h)

theorem selectDecodeSequences_ne_nil (hne : rows ≠ []) : R.selectDecodeSequences c ℓ rows ≠ [] := by
  have hlength := (R.selector.perm (R.maskNumber c ℓ) rows).length_eq
  have hpos := R.miniBatchSize_pos
  have hrows := List.length_pos_of_ne_nil hne
  apply List.ne_nil_of_length_pos
  unfold selectDecodeSequences
  rw [List.length_take]
  omega

theorem mem_flagged : r ∈ flagged c ℓ ↔ r < c.numRows ∧ ℓ.decodingFlag r = true := by
  simp [flagged]

theorem mem_current {cacheLength : Nat} : r ∈ R.current c ℓ cacheLength ↔
    r ∈ flagged c ℓ ∧ ℓ.decodingStart r + R.blockLength ≤ cacheLength := by
  simp [current]

/-- Whenever some row still decodes, some row is within the cache length of the round. -/
theorem current_ne_nil (hroom : c.totalLength ≤ R.maxLength) (hfits : R.Fits c ℓ)
    (hparts : ℓ.parts = []) (hflagged : flagged c ℓ ≠ []) :
    R.current c ℓ (R.nextCacheLength c ℓ) ≠ [] := by
  unfold nextCacheLength
  split
  · obtain ⟨m,hm⟩ : ∃ m, ((flagged c ℓ).map ℓ.decodingStart).min? = some m := by
      apply Option.ne_none_iff_exists'.mp
      rw [Ne,List.min?_eq_none_iff,List.map_eq_nil_iff]
      exact hflagged
    obtain ⟨r,hr,rfl⟩ := List.mem_map.mp (List.min?_mem hm)
    have hmay := hfits.flags hparts r (mem_flagged.mp hr).2
    have hend := (of_decide_eq_true hmay).trans ((c.bounded r).trans hroom)
    rw [hm,Option.getD_some]
    exact List.ne_nil_of_mem (mem_current.mpr ⟨hr,le_cacheLength hend⟩)
  · next hne =>
    exact fun hnil => hne (List.isEmpty_iff.mpr hnil)

theorem le_reach {σ : DecodeLoop Kv S} (hr : r ∈ seqIds) :
    σ.decodingStart r + R.blockLength ≤ R.reach σ seqIds := by
  have hmem : σ.decodingStart r + R.blockLength ∈
      seqIds.map fun r => σ.decodingStart r + R.blockLength := List.mem_map_of_mem hr
  unfold reach
  cases hmax : (seqIds.map fun r => σ.decodingStart r + R.blockLength).max? with
  | none => simp [List.max?_eq_none_iff.mp hmax] at hmem
  | some m => exact (List.max?_eq_some_iff.mp hmax).2 _ hmem

end Selection

section Going

variable {R : LladaRunner Logits Kv S} {c : BatchesCall} {ℓ ℓ' : Looping Kv S} {r : Nat}

/-- What the decode loops keep about the batch that is under way. -/
structure Going (R : LladaRunner Logits Kv S) (c : BatchesCall) (ℓ : Looping Kv S) : Prop where
  fits : R.Fits c ℓ
  rows : ∀ r ∈ ℓ.parts.flatten, r < c.numRows
  nonempty : ∀ part ∈ ℓ.parts, part ≠ []
  length : ∀ length, ℓ.partLength = some length →
    ∀ r ∈ ℓ.parts.flatten, ℓ.decodingStart r + R.blockLength ≤ length
  flags : ∀ r, R.mayDecode c ℓ.toDecodeLoop r = true → ℓ.decodingFlag r = true

theorem going_enter (σ : DecodeLoop Kv S) : R.Going c (R.enter c σ) where
  fits := fits_enter σ
  rows _ hr := by cases hr
  nonempty _ hpart := by cases hpart
  length _ _ _ hr := by cases hr
  flags _ hmay := hmay

theorem Going.selected {seqIds : List Nat} {length : Nat} (h : R.Going c ℓ)
    (hfits : R.Fits c (R.selected ℓ seqIds length))
    (hrows : ∀ r ∈ seqIds, r < c.numRows)
    (hlength : ∀ r ∈ seqIds, ℓ.decodingStart r + R.blockLength ≤ length) :
    R.Going c (R.selected ℓ seqIds length) := by
  unfold LladaRunner.selected at hfits ⊢
  split
  · exact h
  · next hne =>
    rw [if_neg hne] at hfits
    have hne : seqIds ≠ [] := fun hnil => hne (List.isEmpty_iff.mpr hnil)
    have hsub := (components_flatten R seqIds).subset
    refine ⟨hfits,fun r hr => hrows r (hsub hr),fun part => ne_nil_of_mem_components hne,?_,h.flags⟩
    intro length' hsome r hr
    dsimp only at hsome
    split at hsome
    · cases hsome
    · cases hsome
      exact hlength r (hsub hr)

theorem Going.select (h : R.Going c ℓ) (hparts : ℓ.parts = []) : R.Going c (R.select c ℓ) := by
  have hfits := h.fits.select hparts
  have hround (cacheLength : Nat)
      (hfits : R.Fits c (R.selected { ℓ with currentCacheLength := cacheLength }
        (R.selectDecodeSequences c ℓ (R.current c ℓ cacheLength)) cacheLength)) :
      R.Going c (R.selected { ℓ with currentCacheLength := cacheLength }
        (R.selectDecodeSequences c ℓ (R.current c ℓ cacheLength)) cacheLength) := by
    have h' : R.Going c { ℓ with currentCacheLength := cacheLength } :=
      ⟨⟨h.fits.distinct,h.fits.running,h.fits.flags⟩,h.rows,h.nonempty,h.length,h.flags⟩
    apply h'.selected hfits
    · intro r hr
      exact (mem_flagged.mp (mem_current.mp (mem_of_mem_select hr)).1).1
    · intro r hr
      exact (mem_current.mp (mem_of_mem_select hr)).2
  have hall (hfits : R.Fits c (R.selected ℓ (R.selectDecodeSequences c ℓ (flagged c ℓ))
      (R.reach ℓ.toDecodeLoop (R.selectDecodeSequences c ℓ (flagged c ℓ))))) :
      R.Going c (R.selected ℓ (R.selectDecodeSequences c ℓ (flagged c ℓ))
        (R.reach ℓ.toDecodeLoop (R.selectDecodeSequences c ℓ (flagged c ℓ)))) := by
    apply h.selected hfits
    · intro r hr
      exact (mem_flagged.mp (mem_of_mem_select hr)).1
    · intro r hr
      exact le_reach hr
  unfold LladaRunner.select at hfits ⊢
  cases hmode : R.mode with
  | dense | flashinferDefault =>
    rw [hmode] at hfits
    exact hround _ hfits
  | flashinferMaxBatch | fa4 =>
    rw [hmode] at hfits
    exact hall hfits

/-- As long as some row decodes, the next batch is not empty. -/
theorem select_parts_ne_nil (hroom : c.totalLength ≤ R.maxLength) (h : R.Going c ℓ)
    (hparts : ℓ.parts = []) (hflagged : flagged c ℓ ≠ []) : (R.select c ℓ).parts ≠ [] := by
  have hselected (ℓ : Looping Kv S) (seqIds : List Nat) (length : Nat) (hne : seqIds ≠ []) :
      (R.selected ℓ seqIds length).parts ≠ [] := by
    unfold LladaRunner.selected
    rw [if_neg (by simpa using hne)]
    exact components_ne_nil
  unfold LladaRunner.select
  cases R.mode with
  | dense | flashinferDefault =>
    exact hselected _ _ _
      (selectDecodeSequences_ne_nil (current_ne_nil hroom h.fits hparts hflagged))
  | flashinferMaxBatch | fa4 => exact hselected _ _ _ (selectDecodeSequences_ne_nil hflagged)

theorem mayDecode_of_keeps (hkeeps : R.Keeps ℓ ℓ')
    (hmay : R.mayDecode c ℓ'.toDecodeLoop r = true) : R.mayDecode c ℓ.toDecodeLoop r = true := by
  have hle := hkeeps.start_le r
  have hmay := of_decide_eq_true hmay
  exact decide_eq_true (by omega)

theorem Going.step (h : R.Going c ℓ) (hstep : R.step c ℓ = .ok ℓ') : R.Going c ℓ' := by
  have hfits := h.fits.step hstep
  have hkeeps := h.fits.keeps hstep
  cases hparts : ℓ.parts with
  | nil =>
    rw [step_select hparts] at hstep
    cases hstep
    exact h.select hparts
  | cons part parts =>
    have hflatten : ℓ.parts.flatten = part ++ parts.flatten := by rw [hparts,List.flatten_cons]
    have hnd := h.fits.distinct
    rw [hflatten,List.nodup_append] at hnd
    unfold LladaRunner.step at hstep
    rw [hparts] at hstep
    obtain ⟨σ,hrun,hstep⟩ := bind_eq_ok hstep
    have hpassed := decodeBatch_passed hrun
    cases hstep
    refine ⟨hfits,fun r hr => h.rows r (hflatten ▸ List.mem_append_right _ hr),
      fun part' hpart => h.nonempty part' (hparts ▸ List.mem_cons_of_mem _ hpart),?_,?_⟩
    · intro length hsome r hr
      have hr' : r ∉ part := fun hmem => hnd.2.2 r hmem r hr rfl
      have hle := h.length length hsome r (hflatten ▸ List.mem_append_right _ hr)
      rw [← hpassed.decodingStart_of_notMem hr'] at hle
      exact hle
    · intro r hmay
      have hbefore := h.flags r (mayDecode_of_keeps hkeeps hmay)
      dsimp only
      split
      · exact Bool.and_eq_true_iff.mpr ⟨hbefore,hmay⟩
      · exact hbefore

theorem Runs.going {ps : List (Pass R.blockLength Kv)} (h : R.Runs c ℓ ps ℓ')
    (hgoing : R.Going c ℓ) : R.Going c ℓ' := by
  induction h with
  | here => exact hgoing
  | step _ run _ ih => exact ih (hgoing.step run)

/-- Every block that is gathered lies inside the token array and the cache length. -/
theorem Going.gathered (hwidth : c.totalLength ≤ c.width) (h : R.Going c ℓ) {part : List Nat}
    {parts : List (List Nat)} (hparts : ℓ.parts = part::parts) {r : Nat} (hr : r ∈ part) :
    ℓ.decodingStart r + R.blockLength ≤ c.width ∧
      ℓ.decodingStart r + R.blockLength ≤ R.lengthOf ℓ part := by
  have hmem : r ∈ ℓ.parts.flatten := by
    rw [hparts,List.flatten_cons]
    exact List.mem_append_left _ hr
  constructor
  · exact (of_decide_eq_true (h.fits.running r hmem)).trans ((c.bounded r).trans hwidth)
  · unfold lengthOf
    cases hlength : ℓ.partLength with
    | none => exact le_reach hr
    | some length => exact h.length length hlength r hmem

end Going

section Turns

variable {R : LladaRunner Logits Kv S} {c : BatchesCall} {ℓ ℓ' : Looping Kv S} {r : Nat}
  {part : List Nat} {parts : List (List Nat)}

/-- What a step that runs a part does to a row. -/
inductive RowTurn (R : LladaRunner Logits Kv S) (c : BatchesCall) (part : List Nat)
    (ℓ ℓ' : Looping Kv S) (r : Nat) : Prop
  | waits (out : r ∉ part) (x : ℓ'.x r = ℓ.x r)
      (start : ℓ'.decodingStart r = ℓ.decodingStart r)
      (iters : ℓ'.editBudget.blockIters r = ℓ.editBudget.blockIters r)
  | works (inside : r ∈ part)
      (unfinished : R.blockFinished c.toDecodeCall ℓ.toDecodeLoop part (R.lengthOf ℓ part) r =
        false)
      (x : ∀ p, ¬R.InBlock ℓ.toDecodeLoop r p → ℓ'.x r p = ℓ.x r p)
      (start : ℓ'.decodingStart r = ℓ.decodingStart r)
      (iters : ℓ'.editBudget.blockIters r = ℓ.editBudget.blockIters r + 1)
  | finishes (inside : r ∈ part) (x : ℓ'.x r = ℓ.x r)
      (unmasked : ∀ p, R.InBlock ℓ.toDecodeLoop r p → ℓ.x r p ≠ R.maskId)
      (iters : ℓ'.editBudget.blockIters r = 0)
      (start : ℓ'.decodingStart r =
        if R.earlyStop && R.generatedEosHit (ℓ'.x r) (c.promptLengths r)
          (ℓ.decodingStart r + R.blockLength) then c.totalLength
        else ℓ.decodingStart r + R.blockLength)

theorem Going.rowTurn (h : R.Going c ℓ) (hparts : ℓ.parts = part::parts)
    (hstep : R.step c ℓ = .ok ℓ') (r : Nat) : R.RowTurn c part ℓ ℓ' r := by
  have hrun := (step_batch hparts hstep).1
  have hpassed := decodeBatch_passed hrun
  have hiters := congrFun (DecodeEditBudget.update_blockIters (decodeBatch_budget hrun)) r
  have hnd : part.Nodup := by
    have hnd := h.fits.distinct
    rw [hparts,List.flatten_cons,List.nodup_append] at hnd
    exact hnd.1
  by_cases hr : r ∈ part
  · rw [putRows_of_mem hr] at hiters
    cases hfin : R.blockFinished c.toDecodeCall ℓ.toDecodeLoop part (R.lengthOf ℓ part) r with
    | false =>
      rw [hfin,if_neg Bool.false_ne_true] at hiters
      have hstart : ℓ'.decodingStart r = ℓ.decodingStart r := by
        obtain hsame | ⟨_,hfin',_⟩ := hpassed.decodingStart_cases (r := r)
        · exact hsame
        · rw [hfin] at hfin'
          cases hfin'
      exact .works hr hfin (fun p hp => hpassed.x_outside hnd fun _ => hp) hstart hiters
    | true =>
      rw [hfin,if_pos rfl] at hiters
      have hx : ℓ'.x r = ℓ.x r := by
        funext p
        by_cases hp : R.InBlock ℓ.toDecodeLoop r p
        · obtain ⟨i,rfl⟩ := exists_of_inBlock hp
          exact hpassed.x_finished hr hfin i
        · exact hpassed.x_outside hnd fun _ => hp
      have hrows : (R.tail c.toDecodeCall ℓ.toDecodeLoop part (R.lengthOf ℓ part)).rows r =
          ℓ'.x r := by
        rw [hpassed.x,putRows_of_mem hr]
      refine .finishes hr hx (fun p hp => ?_) hiters ?_
      · obtain ⟨i,rfl⟩ := exists_of_inBlock hp
        exact unmasked_of_finished hfin i
      · rw [hpassed.decodingStart,putRows_of_mem hr]
        unfold newStart
        rw [hfin,hrows]
        simp only [if_true,Bool.and_true]
  · rw [putRows_of_notMem hr] at hiters
    refine .waits hr ?_ (hpassed.decodingStart_of_notMem hr) hiters
    rw [hpassed.x,putRows_of_notMem hr]

/-- A block that is finished is left behind. -/
theorem le_newStart (h : R.Going c ℓ) (hparts : ℓ.parts = part::parts) (hr : r ∈ part)
    (eos : Bool) : ℓ.decodingStart r + R.blockLength ≤
      if eos then c.totalLength else ℓ.decodingStart r + R.blockLength := by
  have hmay := of_decide_eq_true (h.fits.running r (by
    rw [hparts,List.flatten_cons]
    exact List.mem_append_left _ hr))
  have hbound := c.bounded r
  split <;> omega

/-- The passes of a row over the block that begins at a place. -/
def passesAt (ps : List (Pass R.blockLength Kv)) (r start : Nat) : Nat :=
  ps.countP fun pass => decide (pass.seqId = r ∧ pass.start = start)

theorem passesAt_append {ps qs : List (Pass R.blockLength Kv)} {start : Nat} :
    passesAt (ps ++ qs) r start = passesAt ps r start + passesAt qs r start :=
  List.countP_append

theorem passesAt_passes_pos (hparts : ℓ.parts = part::parts) (hr : r ∈ part) :
    0 < passesAt (R.passes ℓ) r (ℓ.decodingStart r) := by
  unfold LladaRunner.passes
  rw [hparts]
  apply List.countP_pos_iff.mpr
  exact ⟨_,List.mem_map_of_mem hr,decide_eq_true ⟨rfl,rfl⟩⟩

theorem Runs.snoc {ℓ₁ ℓ₂ : Looping Kv S} {ps : List (Pass R.blockLength Kv)}
    (h : R.Runs c ℓ ps ℓ₁) (go : done c ℓ₁ = false) (run : R.step c ℓ₁ = .ok ℓ₂) :
    R.Runs c ℓ (ps ++ R.passes ℓ₁) ℓ₂ := by
  induction h with
  | here =>
    have hone := Runs.step go run .here
    rwa [List.append_nil] at hone
  | step go' run' _ ih =>
    rw [List.append_assoc]
    exact .step go' run' (ih go run)

end Turns

section Counting

variable {R : LladaRunner Logits Kv S} {c : BatchesCall} {ℓ₀ ℓ ℓ' : Looping Kv S} {K : Nat}
  {pre ps : List (Pass R.blockLength Kv)}

/-- The decoder finishes every block within this many passes of its row. -/
def FinishesWithin (R : LladaRunner Logits Kv S) (c : BatchesCall) (ℓ₀ : Looping Kv S) (K : Nat) :
    Prop :=
  ∀ ps ℓ, R.Runs c ℓ₀ ps ℓ → ∀ part parts, ℓ.parts = part::parts → ∀ r ∈ part,
    K ≤ passesAt ps r (ℓ.decodingStart r) + 1 →
      R.blockFinished c.toDecodeCall ℓ.toDecodeLoop part (R.lengthOf ℓ part) r = true

/-- A block that is not finished has had fewer passes. -/
structure Counted (R : LladaRunner Logits Kv S) (c : BatchesCall) (K : Nat)
    (ps : List (Pass R.blockLength Kv)) (ℓ : Looping Kv S) : Prop where
  going : R.Going c ℓ
  iters : ∀ r, ℓ.editBudget.blockIters r ≤ passesAt ps r (ℓ.decodingStart r) ∧
    ℓ.editBudget.blockIters r < K

theorem Counted.step (hK : R.FinishesWithin c ℓ₀ K) (hpre : R.Runs c ℓ₀ pre ℓ)
    (h : R.Counted c K pre ℓ) (hstep : R.step c ℓ = .ok ℓ') :
    R.Counted c K (pre ++ R.passes ℓ) ℓ' := by
  refine ⟨h.going.step hstep,fun r => ?_⟩
  obtain ⟨hle,hlt⟩ := h.iters r
  cases hparts : ℓ.parts with
  | nil =>
    have hpasses : R.passes ℓ = [] := by
      unfold LladaRunner.passes
      rw [hparts]
    rw [step_select hparts] at hstep
    cases hstep
    rw [hpasses,List.append_nil,select_loop]
    exact ⟨hle,hlt⟩
  | cons part parts =>
    rw [passesAt_append]
    cases h.going.rowTurn hparts hstep r with
    | waits _ _ start iters =>
      rw [start,iters]
      exact ⟨hle.trans (Nat.le_add_right _ _),hlt⟩
    | works inside unfinished _ start iters =>
      have hpos := passesAt_passes_pos (R := R) hparts inside
      rw [start,iters]
      refine ⟨by omega,?_⟩
      by_contra hge
      have hfin := hK pre ℓ hpre part parts hparts r inside (by omega)
      rw [unfinished] at hfin
      cases hfin
    | finishes _ _ _ iters _ =>
      rw [iters]
      exact ⟨Nat.zero_le _,by omega⟩

theorem Runs.counted (hK : R.FinishesWithin c ℓ₀ K) (hpre : R.Runs c ℓ₀ pre ℓ)
    (h : R.Runs c ℓ ps ℓ') (hcounted : R.Counted c K pre ℓ) : R.Counted c K (pre ++ ps) ℓ' := by
  induction h generalizing pre with
  | here => rwa [List.append_nil]
  | step go run _ ih =>
    rw [← List.append_assoc]
    exact ih (hpre.snoc go run) (hcounted.step hK hpre run)

/-- What a row may still take: a pass for each that its blocks may have. -/
def weight (R : LladaRunner Logits Kv S) (c : BatchesCall) (K : Nat) (ℓ : Looping Kv S) (r : Nat) :
    Nat :=
  (c.decodeLengths r - ℓ.decodingStart r)/R.blockLength*K - ℓ.editBudget.blockIters r

/-- What a loop may still take: for each pass of a row its step and the selection before it. -/
def fuel (R : LladaRunner Logits Kv S) (c : BatchesCall) (K : Nat) (ℓ : Looping Kv S) : Nat :=
  2*((List.range c.numRows).map (R.weight c K ℓ)).sum + ℓ.parts.isEmpty.toNat

theorem weight_lt {n e s s' i : Nat} (hn : 0 < n) (hfit : s+n ≤ e) (hi : i < K) (i' : Nat)
    (h : s' = s ∧ i' = i+1 ∨ s+n ≤ s') : (e-s')/n*K - i' < (e-s)/n*K - i := by
  have hblocks : 1 ≤ (e-s)/n := Nat.div_pos (by omega) hn
  have hroom : K ≤ (e-s)/n*K := Nat.le_mul_of_pos_left K hblocks
  obtain ⟨rfl,rfl⟩ | hnext := h
  · omega
  · have hfewer : (e-s')/n + 1 ≤ (e-s)/n := by
      have hadd : (e-s') + n ≤ e-s ∨ e-s' = 0 := by omega
      obtain hadd | hzero := hadd
      · calc (e-s')/n + 1 = (e-s'+n)/n := (Nat.add_div_right _ hn).symm
          _ ≤ (e-s)/n := Nat.div_le_div_right hadd
      · rw [hzero,Nat.zero_div]
        exact hblocks
    have hmul : ((e-s')/n + 1)*K ≤ (e-s)/n*K := Nat.mul_le_mul_right K hfewer
    rw [Nat.add_mul,Nat.one_mul] at hmul
    omega

theorem Counted.step_weight (hbefore : R.Counted c K pre ℓ) {part : List Nat}
    {parts : List (List Nat)} (hparts : ℓ.parts = part::parts) (hstep : R.step c ℓ = .ok ℓ')
    (r : Nat) : R.weight c K ℓ' r ≤ R.weight c K ℓ r ∧
      (r ∈ part → R.weight c K ℓ' r < R.weight c K ℓ r) := by
  have hfit (hr : r ∈ part) : ℓ.decodingStart r + R.blockLength ≤ c.decodeLengths r :=
    of_decide_eq_true (hbefore.going.fits.running r (by
      rw [hparts,List.flatten_cons]
      exact List.mem_append_left _ hr))
  have hi := (hbefore.iters r).2
  unfold weight
  cases hbefore.going.rowTurn hparts hstep r with
  | waits out _ start iters =>
    rw [start,iters]
    exact ⟨le_rfl,fun hr => absurd hr out⟩
  | works inside _ _ start iters =>
    have hlt := weight_lt R.blockLength_pos (hfit inside) hi _ (.inl ⟨start,iters⟩)
    exact ⟨hlt.le,fun _ => hlt⟩
  | finishes inside _ _ iters start =>
    have hpast := le_newStart hbefore.going hparts inside
      (R.earlyStop && R.generatedEosHit (ℓ'.x r) (c.promptLengths r)
        (ℓ.decodingStart r + R.blockLength))
    rw [← start] at hpast
    have hlt := weight_lt R.blockLength_pos (hfit inside) hi (ℓ'.editBudget.blockIters r)
      (.inr hpast)
    exact ⟨hlt.le,fun _ => hlt⟩

/-- Every step of a loop takes from what is left. -/
theorem Counted.step_fuel (hroom : c.totalLength ≤ R.maxLength) (h : R.Counted c K pre ℓ)
    (go : done c ℓ = false) (hstep : R.step c ℓ = .ok ℓ') : R.fuel c K ℓ' < R.fuel c K ℓ := by
  cases hparts : ℓ.parts with
  | nil =>
    have hflagged : flagged c ℓ ≠ [] := by
      intro hnil
      unfold done at go
      rw [hparts,hnil] at go
      cases go
    have hne := select_parts_ne_nil hroom h.going hparts hflagged
    rw [step_select hparts] at hstep
    cases hstep
    have hloop := select_loop (R := R) (c := c) (ℓ := ℓ)
    have hweight : R.weight c K (R.select c ℓ) = R.weight c K ℓ := by
      funext r
      unfold weight
      rw [hloop]
    have hempty : (R.select c ℓ).parts.isEmpty = false := by simpa using hne
    unfold fuel
    rw [hweight,hempty,hparts]
    exact Nat.lt_succ_self _
  | cons part parts =>
    obtain ⟨r,hr⟩ := List.exists_mem_of_ne_nil part
      (h.going.nonempty part (hparts ▸ List.mem_cons_self))
    have hrange : r < c.numRows := h.going.rows r (by
      rw [hparts,List.flatten_cons]
      exact List.mem_append_left _ hr)
    have hsum : ((List.range c.numRows).map (R.weight c K ℓ')).sum <
        ((List.range c.numRows).map (R.weight c K ℓ)).sum := by
      apply List.sum_lt_sum
      · intro r _
        exact (h.step_weight hparts hstep r).1
      · exact ⟨r,List.mem_range.mpr hrange,(h.step_weight hparts hstep r).2 hr⟩
    have hbool : ℓ'.parts.isEmpty.toNat ≤ 1 := Bool.toNat_le _
    unfold fuel
    omega

/-- No run of a loop has more steps than it has fuel. -/
theorem runFor_le (hroom : c.totalLength ≤ R.maxLength) (hK : R.FinishesWithin c ℓ₀ K)
    (hpre : R.Runs c ℓ₀ pre ℓ) (h : R.Counted c K pre ℓ) {n : Nat}
    (hrun : runFor R c n ℓ = some (ps,ℓ')) : n ≤ R.fuel c K ℓ := by
  induction n generalizing pre ℓ ps with
  | zero => exact Nat.zero_le _
  | succ n ih =>
    unfold runFor at hrun
    split at hrun
    · next go run =>
      obtain ⟨⟨later,ℓ''⟩,hrest,heq⟩ := Option.map_eq_some_iff.mp hrun
      cases heq
      have hle := ih (hpre.snoc go run) (h.step hK hpre run) hrest
      have hlt := h.step_fuel hroom go run
      omega
    · cases hrun

/-- A loop raises only where its budget gives up before the decoder does. -/
theorem Counted.step_cases (hwidth : c.totalLength ≤ c.width) (hK : R.FinishesWithin c ℓ₀ K)
    (hpre : R.Runs c ℓ₀ pre ℓ) (h : R.Counted c K pre ℓ) :
    (∃ ℓ', R.step c ℓ = .ok ℓ') ∨
      R.step c ℓ = .error .stuck ∧ ℓ.editBudget.maxBlockIters < K := by
  cases hparts : ℓ.parts with
  | nil => exact .inl ⟨_,step_select hparts⟩
  | cons part parts =>
    have hfits : ∀ r ∈ part, ℓ.decodingStart r + R.blockLength ≤ c.width := fun r hr =>
      (h.going.gathered hwidth hparts hr).1
    unfold LladaRunner.step
    rw [hparts]
    dsimp only
    obtain ⟨hrun,hnone⟩ | ⟨σ,hrun⟩ := decodeBatch_cases (R.lengthOf ℓ part) hfits
    · rw [hrun]
      refine .inr ⟨rfl,?_⟩
      by_contra hge
      refine DecodeEditBudget.update_ne_none (fun r => ?_) hnone
      obtain ⟨hle,hlt⟩ := h.iters r
      by_cases hr : r ∈ part
      · rw [putRows_of_mem hr]
        cases hfin : R.blockFinished c.toDecodeCall ℓ.toDecodeLoop part (R.lengthOf ℓ part) r with
        | true =>
          rw [if_pos rfl]
          omega
        | false =>
          rw [if_neg Bool.false_ne_true]
          by_contra hlast
          have htrue := hK pre ℓ hpre part parts hparts r hr (by omega)
          rw [hfin] at htrue
          cases htrue
      · rw [putRows_of_notMem hr]
        omega
    · rw [hrun]
      exact .inl ⟨_,rfl⟩

theorem step_maxBlockIters (hstep : R.step c ℓ = .ok ℓ') :
    ℓ'.editBudget.maxBlockIters = ℓ.editBudget.maxBlockIters := by
  cases hparts : ℓ.parts with
  | nil =>
    rw [step_select hparts] at hstep
    cases hstep
    rw [select_loop]
  | cons part parts => exact (decodeBatch_limits (step_batch hparts hstep).1).1

theorem Runs.maxBlockIters (h : R.Runs c ℓ ps ℓ') :
    ℓ'.editBudget.maxBlockIters = ℓ.editBudget.maxBlockIters := by
  induction h with
  | here => rfl
  | step _ run _ ih => exact ih.trans (step_maxBlockIters run)

/-- Where the budget does not give up, the loop comes to its end. -/
theorem exists_done (hroom : c.totalLength ≤ R.maxLength) (hwidth : c.totalLength ≤ c.width)
    (hK : R.FinishesWithin c ℓ₀ K) (hpre : R.Runs c ℓ₀ pre ℓ) (h : R.Counted c K pre ℓ)
    (hmax : K ≤ ℓ.editBudget.maxBlockIters) : ∃ ps ℓ', R.Runs c ℓ ps ℓ' ∧ done c ℓ' = true := by
  induction hn : R.fuel c K ℓ using Nat.strongRecOn generalizing pre ℓ with
  | ind n ih =>
    subst hn
    cases go : done c ℓ with
    | true => exact ⟨[],ℓ,.here,go⟩
    | false =>
      obtain ⟨ℓ₁,hstep⟩ | ⟨_,hlt⟩ := h.step_cases hwidth hK hpre
      · obtain ⟨ps,ℓ',hrun,hdone⟩ := ih _ (h.step_fuel hroom go hstep) (hpre.snoc go hstep)
          (h.step hK hpre hstep) (step_maxBlockIters hstep ▸ hmax) rfl
        exact ⟨_,ℓ',.step go hstep hrun,hdone⟩
      · omega

end Counting

end LladaRunner

end FluxServe.Llada
