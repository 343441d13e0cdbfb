import FluxServe.Llada.PagedProgress

namespace FluxServe.Llada

open Engine

variable {Logits Kv S : Type}

namespace LladaRunner

section Flags

variable {c : DecodeCall} {passes rest : List (Nat × Bool)} {r : Nat} {seqIds : List Nat}
  {f : Nat → Bool}

/-- Batches that are run one after the other, any rows together and in any order. For each row of
each batch it is listed whether the pass finished the row's block. -/
inductive Batches (R : LladaRunner Logits Kv S) (c : DecodeCall) :
    DecodeLoop Kv S → List (Nat × Bool) → DecodeLoop Kv S → Prop
  | here {σ : DecodeLoop Kv S} : Batches R c σ [] σ
  | batch {σ σ₁ σ' : DecodeLoop Kv S} {seqIds : List Nat} {cacheLength : Nat}
      {passes : List (Nat × Bool)} (distinct : seqIds.Nodup)
      (run : R.decodeBatch c σ seqIds cacheLength = .ok σ₁) (rest : Batches R c σ₁ passes σ') :
      Batches R c σ
        (seqIds.map (fun r => (r,R.blockFinished c σ seqIds cacheLength r)) ++ passes) σ'

/-- The passes of one row. -/
def passesOf (r : Nat) (passes : List (Nat × Bool)) : List Bool :=
  (passes.filter fun pass => pass.1 == r).map Prod.snd

theorem passesOf_append : passesOf r (passes ++ rest) = passesOf r passes ++ passesOf r rest := by
  unfold passesOf
  rw [List.filter_append,List.map_append]

theorem passesOf_notMem (hr : r ∉ seqIds) : passesOf r (seqIds.map fun r => (r,f r)) = [] := by
  unfold passesOf
  rw [List.map_eq_nil_iff,List.filter_eq_nil_iff]
  intro pass hpass
  obtain ⟨s,hs,rfl⟩ := List.mem_map.mp hpass
  simp only [beq_iff_eq]
  rintro rfl
  exact hr hs

theorem passesOf_mem (hnd : seqIds.Nodup) (hr : r ∈ seqIds) :
    passesOf r (seqIds.map fun r => (r,f r)) = [f r] := by
  induction seqIds with
  | nil => cases hr
  | cons s seqIds ih =>
    rw [List.nodup_cons] at hnd
    have hsplit : passesOf r ((s::seqIds).map fun r => (r,f r)) =
        passesOf r [(s,f s)] ++ passesOf r (seqIds.map fun r => (r,f r)) := by
      rw [List.map_cons,← List.singleton_append,passesOf_append]
    rw [hsplit]
    obtain rfl | hr := List.mem_cons.mp hr
    · rw [passesOf_notMem hnd.1]
      simp [passesOf]
    · have hne : s ≠ r := by
        rintro rfl
        exact hnd.1 hr
      rw [ih hnd.2 hr]
      simp [passesOf,hne]

end Flags

section Windows

variable {R : LladaRunner Logits Kv S} {c : DecodeCall} {σ σ' : DecodeLoop Kv S}
  {passes : List (Nat × Bool)} {measure : DecodeLoop Kv S → Nat → Nat} {bound r : Nat}
  {keeps : DecodeLoop Kv S → Prop}
  (hkeeps : ∀ σ σ' seqIds cacheLength, keeps σ →
    R.decodeBatch c σ seqIds cacheLength = .ok σ' → keeps σ')
  (hfalls : ∀ σ seqIds cacheLength, keeps σ → seqIds.Nodup → R.Falls c measure σ seqIds cacheLength)
include hkeeps hfalls

/-- A row has as many passes in a row that leave its block unfinished as there is left to do. -/
theorem Batches.unfinished_le (h : R.Batches c σ passes σ') (hσ : keeps σ) {mid after : List Bool}
    (hsplit : passesOf r passes = mid ++ after) (hmid : true ∉ mid) : mid.length ≤ measure σ r := by
  induction h generalizing mid with
  | here =>
    have hnil : mid = [] := (List.append_eq_nil_iff.mp hsplit.symm).1
    rw [hnil]
    exact Nat.zero_le _
  | @batch σ σ₁ σ' seqIds cacheLength passes distinct run rest ih =>
    have hfall := hfalls σ seqIds cacheLength hσ distinct
    have hσ₁ := hkeeps _ _ _ _ hσ run
    rw [passesOf_append] at hsplit
    by_cases hr : r ∈ seqIds
    · rw [passesOf_mem distinct hr,List.singleton_append] at hsplit
      cases mid with
      | nil => exact Nat.zero_le _
      | cons fin mid =>
        rw [List.cons_append,List.cons.injEq] at hsplit
        obtain ⟨hfin,hrest⟩ := hsplit
        rw [List.mem_cons,not_or] at hmid
        have hlt := hfall.rows σ₁ run r hr (by
          rw [hfin]
          exact (Bool.eq_false_or_eq_true fin).resolve_left fun htrue => hmid.1 htrue.symm)
        have hle := ih hσ₁ hrest hmid.2
        rw [List.length_cons]
        omega
    · rw [passesOf_notMem hr,List.nil_append] at hsplit
      rw [← hfall.others σ₁ run r hr]
      exact ih hσ₁ hsplit hmid

/-- More passes of a row than the bound do not go by without one that finishes its block. -/
theorem Batches.finishes (h : R.Batches c σ passes σ') (hσ : keeps σ)
    (hbound : ∀ σ r, measure σ r ≤ bound) {before mid after : List Bool}
    (hsplit : passesOf r passes = before ++ mid ++ after) (hmid : bound < mid.length) :
    true ∈ mid := by
  by_contra hnone
  have hle : mid.length ≤ bound := by
    clear hmid
    induction h generalizing before with
    | here =>
      have hleft := (List.append_eq_nil_iff.mp hsplit.symm).1
      rw [(List.append_eq_nil_iff.mp hleft).2]
      exact Nat.zero_le _
    | @batch σ σ₁ σ' seqIds cacheLength passes distinct run rest ih =>
      cases before with
      | nil =>
        have hall := Batches.batch distinct run rest
        exact (hall.unfinished_le hkeeps hfalls hσ hsplit hnone).trans (hbound σ r)
      | cons fin before =>
        have hσ₁ := hkeeps _ _ _ _ hσ run
        rw [passesOf_append] at hsplit
        by_cases hr : r ∈ seqIds
        · rw [passesOf_mem distinct hr] at hsplit
          simp only [List.singleton_append,List.cons_append,List.cons.injEq] at hsplit
          exact ih hσ₁ hsplit.2
        · rw [passesOf_notMem hr,List.nil_append] at hsplit
          exact ih hσ₁ hsplit
  omega

omit hfalls in
theorem Batches.kept (h : R.Batches c σ passes σ') (hσ : keeps σ) : keeps σ' := by
  induction h with
  | here => exact hσ
  | batch _ run _ ih => exact ih (hkeeps _ _ _ _ hσ run)

theorem Batches.budgeted (h : R.Batches c σ passes σ') (hσ : keeps σ)
    (hbound : ∀ σ r, measure σ r ≤ bound) (hb : Budgeted measure bound σ) :
    Budgeted measure bound σ' := by
  induction h with
  | here => exact hb
  | batch distinct run _ ih =>
    exact ih (hkeeps _ _ _ _ hσ run) ((hfalls _ _ _ hσ distinct).budgeted hbound hb run)

end Windows

section Runs

variable {R : LladaRunner Logits Kv S} {c : BatchesCall} {ℓ ℓ' : Looping Kv S}
  {ps : List (Pass R.blockLength Kv)}

theorem step_batch {part : List Nat} {parts : List (List Nat)} (hparts : ℓ.parts = part::parts)
    (h : R.step c ℓ = .ok ℓ') :
    R.decodeBatch c.toDecodeCall ℓ.toDecodeLoop part (R.lengthOf ℓ part) = .ok ℓ'.toDecodeLoop ∧
      R.passes ℓ = part.map fun r => ⟨r,ℓ.decodingStart r,R.block ℓ.toDecodeLoop r,
        (R.output ℓ.toDecodeLoop part (R.lengthOf ℓ part) r).kv⟩ := by
  unfold step at h
  rw [hparts] at h
  obtain ⟨σ,hrun,h⟩ := bind_eq_ok h
  cases h
  refine ⟨hrun,?_⟩
  unfold LladaRunner.passes
  rw [hparts]

/-- A decode loop runs batches, whatever it selects and however these are split. -/
theorem Runs.batches (h : R.Runs c ℓ ps ℓ') (hfits : R.Fits c ℓ) :
    ∃ passes, R.Batches c.toDecodeCall ℓ.toDecodeLoop passes ℓ'.toDecodeLoop ∧
      passes.map Prod.fst = ps.map Pass.seqId := by
  induction h with
  | here => exact ⟨[],.here,rfl⟩
  | @step ℓ ℓ₁ ℓ' ps go run rest ih =>
    obtain ⟨passes,hbatches,hrows⟩ := ih (hfits.step run)
    cases hparts : ℓ.parts with
    | nil =>
      have hpasses : R.passes ℓ = [] := by
        unfold LladaRunner.passes
        rw [hparts]
      rw [step_select hparts] at run
      cases run
      rw [select_loop] at hbatches
      refine ⟨passes,hbatches,?_⟩
      rw [hrows,hpasses,List.nil_append]
    | cons part parts =>
      have hnd : part.Nodup := by
        have hnd := hfits.distinct
        rw [hparts,List.flatten_cons,List.nodup_append] at hnd
        exact hnd.1
      obtain ⟨hrun,hpasses⟩ := step_batch hparts run
      refine ⟨_,.batch hnd hrun hbatches,?_⟩
      rw [List.map_append,List.map_append,hrows,hpasses,List.map_map,List.map_map]
      rfl

/-- A step raises where its batch does. -/
theorem step_error {e : LoopFault} (h : R.step c ℓ = .error e) :
    ∃ part parts, ℓ.parts = part::parts ∧
      R.decodeBatch c.toDecodeCall ℓ.toDecodeLoop part (R.lengthOf ℓ part) = .error e := by
  unfold step at h
  split at h
  · cases h
  · next part parts hparts =>
    obtain hrun | ⟨_,_,hok⟩ := bind_eq_error h
    · exact ⟨part,parts,hparts,hrun⟩
    · cases hok

end Runs

section Plans

variable {R : PagedLladaRunner Logits Kv S} {rows : List PlanRow} {σ σ₁ σ' : DecodeLoop Kv S}
  {passes passes' : List (Nat × Bool)} {c : DecodeCall} {pending : List Nat} {n : Nat}
  {parts : List (List Nat)} {kv : Nat → Nat → Option Kv} {e : LoopFault}

theorem Batches.trans {R : LladaRunner Logits Kv S} (h : R.Batches c σ passes σ₁)
    (h' : R.Batches c σ₁ passes' σ') : R.Batches c σ (passes ++ passes') σ' := by
  induction h with
  | here => exact h'
  | batch distinct run _ ih =>
    rw [List.append_assoc]
    exact .batch distinct run (ih h')

/-- A run of batches up to one that raises. -/
def Raises (R : LladaRunner Logits Kv S) (c : DecodeCall) (σ : DecodeLoop Kv S) (e : LoopFault) :
    Prop :=
  ∃ σ' passes part cacheLength, R.Batches c σ passes σ' ∧ part.Nodup ∧
    R.decodeBatch c σ' part cacheLength = .error e

theorem Raises.after {R : LladaRunner Logits Kv S} (h : R.Batches c σ passes σ₁)
    (h' : R.Raises c σ₁ e) : R.Raises c σ e := by
  obtain ⟨σ',later,part,cacheLength,hbatches,hnd,hrun⟩ := h'
  exact ⟨σ',_,part,cacheLength,h.trans hbatches,hnd,hrun⟩

theorem decodeParts_batches (hnd : parts.flatten.Nodup)
    (h : parts.foldlM (fun σ part => R.decodeBatch (R.planCall rows) σ part (R.reach σ part)) σ =
      .ok σ') : ∃ passes, R.Batches (R.planCall rows) σ passes σ' := by
  induction parts generalizing σ with
  | nil =>
    cases h
    exact ⟨[],.here⟩
  | cons part parts ih =>
    rw [List.flatten_cons,List.nodup_append] at hnd
    rw [List.foldlM_cons] at h
    obtain ⟨σ₁,hpart,hparts⟩ := bind_eq_ok h
    obtain ⟨passes,hbatches⟩ := ih hnd.2.1 hparts
    exact ⟨_,.batch hnd.1 hpart hbatches⟩

theorem decodeParts_raises (hnd : parts.flatten.Nodup)
    (h : parts.foldlM (fun σ part => R.decodeBatch (R.planCall rows) σ part (R.reach σ part)) σ =
      .error e) : R.Raises (R.planCall rows) σ e := by
  induction parts generalizing σ with
  | nil => cases h
  | cons part parts ih =>
    rw [List.flatten_cons,List.nodup_append] at hnd
    rw [List.foldlM_cons] at h
    obtain hpart | ⟨σ₁,hpart,hparts⟩ := bind_eq_error h
    · exact ⟨σ,[],part,_,.here,hnd.1,hpart⟩
    · exact (ih hnd.2.1 hparts).after (.batch hnd.1 hpart .here)

theorem decodeUntil_raises (hnd : pending.Nodup) (h : R.decodeUntil rows n pending σ = .error e) :
    (∃ seqIds, e = .unfinished seqIds) ∨ R.Raises (R.planCall rows) σ e := by
  induction n generalizing pending σ with
  | zero =>
    cases h
    exact .inl ⟨pending,rfl⟩
  | succ n ih =>
    have hparts : (R.components pending).flatten.Nodup :=
      hnd.sublist (components_flatten R.toLladaRunner pending)
    unfold PagedLladaRunner.decodeUntil at h
    obtain hselected | ⟨σ₁,hselected,hrest⟩ := bind_eq_error h
    · exact .inr (decodeParts_raises hparts hselected)
    · obtain ⟨passes,hbatches⟩ := decodeParts_batches hparts hselected
      dsimp only at hrest
      split at hrest
      · cases hrest
      · obtain hunfinished | hraises := ih (hnd.filter _) hrest
        · exact .inl hunfinished
        · exact .inr (hraises.after hbatches)

/-- A plan that finds stuck rows does so in one of its batches. -/
theorem pagedDecode_stuck (hslots : (rows.map PlanRow.seqId).Nodup)
    (h : R.pagedDecode rows kv = .error .stuck) :
    R.Raises (R.planCall rows) (R.planLoop rows kv) .stuck := by
  unfold PagedLladaRunner.pagedDecode at h
  split at h
  · cases h
  · obtain ⟨_,hunfinished⟩ | hraises := decodeUntil_raises hslots h
    · cases hunfinished
    · exact hraises

end Plans

end LladaRunner

end FluxServe.Llada
