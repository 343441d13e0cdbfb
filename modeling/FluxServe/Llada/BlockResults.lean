import FluxServe.Framework.RowLoop
import FluxServe.Llada.BlockCommit
import FluxServe.Llada.PagedDecode

namespace FluxServe.Llada

open Engine

variable {Logits Kv S : Type}

section Advanced

variable {R : LladaRunner Logits Kv S} {c : DecodeCall} {σ σ₁ σ' : DecodeLoop Kv S}
  {seqIds part rest : List Nat} {cacheLength r : Nat}

/-- No mask is left in a block of a row. -/
def Unmasked (R : LladaRunner Logits Kv S) (row : Nat → Token) (start : Nat) : Prop :=
  ∀ i : Fin R.blockLength, row (start+i) ≠ R.maskId

/-- Of these rows each stays at its block or leaves it without a mask; the others are as before. -/
structure Advanced (R : LladaRunner Logits Kv S) (σ : DecodeLoop Kv S) (seqIds : List Nat)
    (σ' : DecodeLoop Kv S) : Prop where
  others : ∀ r, r ∉ seqIds → σ'.x r = σ.x r ∧ σ'.decodingStart r = σ.decodingStart r
  rows : ∀ r ∈ seqIds, σ'.decodingStart r = σ.decodingStart r ∨
    Unmasked R (σ'.x r) (σ.decodingStart r)

theorem LladaRunner.Passed.advanced (h : R.Passed c σ seqIds cacheLength σ') :
    Advanced R σ seqIds σ' := by
  refine ⟨fun r hr => ⟨?_,h.decodingStart_of_notMem hr⟩,fun r hr => ?_⟩
  · rw [h.x,putRows_of_notMem hr]
  · obtain hsame | ⟨_,hfin,_⟩ := h.decodingStart_cases (r := r)
    · exact .inl hsame
    · right
      intro i
      rw [h.x_finished hr hfin i]
      exact LladaRunner.unmasked_of_finished hfin i

theorem Advanced.append (h : Advanced R σ part σ₁) (h' : Advanced R σ₁ rest σ')
    (hnd : (part ++ rest).Nodup) : Advanced R σ (part ++ rest) σ' := by
  have hdisjoint := (List.nodup_append.mp hnd).2.2
  refine ⟨fun r hr => ?_,fun r hr => ?_⟩
  · rw [List.mem_append,not_or] at hr
    obtain ⟨hx,hstart⟩ := h.others r hr.1
    obtain ⟨hx',hstart'⟩ := h'.others r hr.2
    exact ⟨hx'.trans hx,hstart'.trans hstart⟩
  · obtain hr | hr := List.mem_append.mp hr
    · have hrest : r ∉ rest := fun hmem => hdisjoint r hr r hmem rfl
      obtain ⟨hx,hstart⟩ := h'.others r hrest
      rw [hx,hstart]
      exact h.rows r hr
    · have hpart : r ∉ part := fun hmem => hdisjoint r hmem r hr rfl
      rw [← (h.others r hpart).2]
      exact h'.rows r hr

theorem Advanced.mono (h : Advanced R σ part σ') (hsub : part ⊆ seqIds) :
    Advanced R σ seqIds σ' := by
  refine ⟨fun r hr => h.others r fun hmem => hr (hsub hmem),fun r _ => ?_⟩
  by_cases hmem : r ∈ part
  · exact h.rows r hmem
  · exact .inl (h.others r hmem).2

end Advanced

namespace PagedLladaRunner

variable {R : PagedLladaRunner Logits Kv S} {rows : List PlanRow} {σ σ' : DecodeLoop Kv S}
  {pending : List Nat} {kv : Nat → Nat → Option Kv}

theorem decodeParts_advanced {parts : List (List Nat)} (hnd : parts.flatten.Nodup)
    (h : parts.foldlM (fun σ part => R.decodeBatch (R.planCall rows) σ part (R.reach σ part)) σ =
      .ok σ') : Advanced R.toLladaRunner σ parts.flatten σ' := by
  induction parts generalizing σ with
  | nil =>
    cases h
    exact ⟨fun _ _ => ⟨rfl,rfl⟩,fun _ _ => .inl rfl⟩
  | cons part parts ih =>
    rw [List.foldlM_cons] at h
    obtain ⟨σ₁,hpart,hparts⟩ := bind_eq_ok h
    rw [List.flatten_cons] at hnd ⊢
    have hpassed := LladaRunner.decodeBatch_passed hpart
    exact hpassed.advanced.append (ih (List.nodup_append.mp hnd).2.1 hparts) hnd

theorem decodeSelected_advanced (h : R.decodeSelected rows σ pending = .ok σ')
    (hnd : pending.Nodup) : Advanced R.toLladaRunner σ pending σ' := by
  have hsub := LladaRunner.components_flatten R.toLladaRunner pending
  exact (decodeParts_advanced (hnd.sublist hsub) h).mono hsub.subset

/-- The loop comes back once no row has a mask left in its block. -/
theorem decodeUntil_unmasked {n : Nat} (h : R.decodeUntil rows n pending σ = .ok σ')
    (hnd : pending.Nodup) : (∀ r, r ∉ pending → σ'.x r = σ.x r) ∧
      ∀ r ∈ pending, Unmasked R.toLladaRunner (σ'.x r) (σ.decodingStart r) := by
  induction n generalizing pending σ with
  | zero => cases h
  | succ n ih =>
    unfold decodeUntil at h
    obtain ⟨σ₁,hselected,h⟩ := bind_eq_ok h
    have hadvanced := decodeSelected_advanced hselected hnd
    have hmoved : ∀ r ∈ pending,
        r ∉ pending.filter (fun r => σ₁.decodingStart r == σ.decodingStart r) →
        Unmasked R.toLladaRunner (σ₁.x r) (σ.decodingStart r) := by
      intro r hr hnot
      obtain hsame | hunmasked := hadvanced.rows r hr
      · exact absurd (List.mem_filter.mpr ⟨hr,by simpa using hsame⟩) hnot
      · exact hunmasked
    dsimp only at h
    split at h
    · next hempty =>
      cases h
      refine ⟨fun r hr => (hadvanced.others r hr).1,fun r hr => hmoved r hr ?_⟩
      rw [List.isEmpty_iff.mp hempty]
      exact List.not_mem_nil
    · obtain ⟨hothers,hrows⟩ := ih h (hnd.filter _)
      refine ⟨fun r hr => ?_,fun r hr => ?_⟩
      · rw [hothers r fun hmem => hr (List.mem_filter.mp hmem).1]
        exact (hadvanced.others r hr).1
      · by_cases hmem : r ∈ pending.filter fun r => σ₁.decodingStart r == σ.decodingStart r
        · have hsame : σ₁.decodingStart r = σ.decodingStart r := by
            simpa using (List.mem_filter.mp hmem).2
          rw [← hsame]
          exact hrows r hmem
        · rw [hothers r hmem]
          exact hmoved r hr hmem

theorem rowOf_of_mem {row : PlanRow} (hnd : (rows.map PlanRow.seqId).Nodup) (h : row ∈ rows) :
    rowOf rows row.seqId = some row.state := by
  unfold rowOf
  cases hfind : rows.find? fun x => x.seqId == row.seqId with
  | none => exact absurd (List.find?_eq_none.mp hfind row h) (by simp)
  | some found =>
    have hid : found.seqId = row.seqId := by simpa using List.find?_some hfind
    rw [List.inj_on_of_nodup_map hnd (List.mem_of_find?_eq_some hfind) h hid]
    rfl

/-- A plan that is executed leaves no mask in the blocks of its rows. -/
theorem pagedDecode_unmasked (h : R.pagedDecode rows kv = .ok σ')
    (hnd : (rows.map PlanRow.seqId).Nodup) {row : PlanRow} (hrow : row ∈ rows) :
    Unmasked R.toLladaRunner (σ'.x row.seqId) (R.blockStart row.state) := by
  unfold pagedDecode at h
  split at h
  · cases h
  · have hblock := (decodeUntil_unmasked h hnd).2 row.seqId (List.mem_map_of_mem hrow)
    have hstart : (R.planLoop rows kv).decodingStart row.seqId = R.blockStart row.state := by
      simp only [planLoop,rowOf_of_mem hnd hrow,Option.map_some,Option.getD_some]
    rwa [hstart] at hblock

section Result

variable {state : Engine.RequestState} {rid : RequestId} {row : Nat → Token}

theorem generated_length
    (h : (R.generated state row).length < state.maxNewTokens-state.outputIds.length) :
    (R.generated state row).length =
      R.blockStart state + R.blockLength-max (R.blockStart state) state.inputIds.length := by
  unfold generated at h ⊢
  simp only [List.length_take,List.length_map,List.length_range'] at h ⊢
  omega

theorem mem_generated {t : Token} (hunmasked : Unmasked R.toLladaRunner row (R.blockStart state))
    (ht : t ∈ R.generated state row) : t ≠ R.maskId := by
  unfold generated at ht
  obtain ⟨p,hp,rfl⟩ := List.mem_map.mp (List.mem_of_mem_take ht)
  have hp := List.mem_range'_1.mp hp
  have hi : p-R.blockStart state < R.blockLength := by omega
  have hpos : R.blockStart state + (p-R.blockStart state) = p := by omega
  have hblock := hunmasked ⟨p-R.blockStart state,hi⟩
  dsimp only at hblock
  rwa [hpos] at hblock

/-- A row that goes on has its whole block generated, but for what belongs to the prompt. -/
theorem decodeResult_length (hunmasked : Unmasked R.toLladaRunner row (R.blockStart state))
    (hgoes : (R.decodeResult state rid row).finished = false) :
    (R.decodeResult state rid row).tokenIds.length =
      R.blockStart state + R.blockLength-max (R.blockStart state) state.inputIds.length := by
  have hstops : (!state.ignoreEos && (R.generated state row).any fun t => decide (t ∈ R.eosIds)) =
      false := by
    cases hstop : !state.ignoreEos &&
        (R.generated state row).any fun t => decide (t ∈ R.eosIds) with
    | false => rfl
    | true =>
      simp only [decodeResult,hstop,Bool.true_or] at hgoes
      cases hgoes
  have hkeep : (R.generated state row).filter (fun t => t ≠ R.maskId ∧
      (state.ignoreEos ∨ t ∉ R.eosIds)) = R.generated state row := by
    rw [List.filter_eq_self]
    intro t ht
    refine decide_eq_true ⟨mem_generated hunmasked ht,?_⟩
    obtain hignore | hany := Bool.and_eq_false_iff.mp hstops
    · exact .inl (by simpa using hignore)
    · exact .inr (by simpa using List.any_eq_false.mp hany t ht)
  have htokens : (R.decodeResult state rid row).tokenIds = R.generated state row := by
    simp only [decodeResult,hstops,if_neg Bool.false_ne_true]
    exact hkeep
  rw [htokens]
  apply generated_length
  simp only [decodeResult,hstops,if_neg Bool.false_ne_true,Bool.false_or,decide_eq_false_iff_not,
    not_le] at hgoes
  rw [hkeep] at hgoes
  omega

end Result

theorem executePagedDecode_results {rows : List (RequestId × PlanRow)}
    {results : List Engine.StepResult} (h : R.executePagedDecode rows kv = .ok results)
    (hnd : (rows.map fun x => x.2.seqId).Nodup) :
    results.map Engine.StepResult.rid = rows.map Prod.fst ∧
      ∀ r ∈ results, ∃ x ∈ rows, ∃ row, r = R.decodeResult x.2.state x.1 row ∧
        Unmasked R.toLladaRunner row (R.blockStart x.2.state) := by
  unfold executePagedDecode at h
  split at h
  · next hempty =>
    cases h
    rw [List.isEmpty_iff.mp hempty]
    exact ⟨rfl,fun _ hr => by cases hr⟩
  · obtain ⟨σ,hrun,h⟩ := bind_eq_ok h
    cases h
    have hslots : ((rows.map Prod.snd).map PlanRow.seqId).Nodup := by rwa [List.map_map]
    constructor
    · rw [List.map_map]
      rfl
    · intro r hr
      obtain ⟨x,hx,rfl⟩ := List.mem_map.mp hr
      exact ⟨x,hx,_,rfl,pagedDecode_unmasked hrun hslots (List.mem_map_of_mem hx)⟩

end PagedLladaRunner

end FluxServe.Llada
