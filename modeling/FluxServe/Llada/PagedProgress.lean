import FluxServe.Framework.Guards
import FluxServe.Llada.DecoderRuns

namespace FluxServe.Llada

open Engine LladaRunner

variable {Logits Kv S : Type}

namespace PagedLladaRunner

section Meets

variable (R : PagedLladaRunner Logits Kv S) (rows : List PlanRow)
  (ok : DecodeLoop Kv S → List Nat → Nat → Prop)

/-- Whether each part of a selected batch meets a condition when its turn comes. -/
def PartsMeet : List (List Nat) → DecodeLoop Kv S → Prop
  | [],_ => True
  | part::parts,σ => ok σ part (R.reach σ part) ∧
      ∀ σ', R.decodeBatch (R.planCall rows) σ part (R.reach σ part) = .ok σ' → PartsMeet parts σ'

/-- Whether in a run of the decode loop each batch meets a condition, and no batch that is split
leaves a row out. -/
def DecodeMeets : Nat → List Nat → DecodeLoop Kv S → Prop
  | 0,_,_ => True
  | n+1,pending,σ => (R.components pending).flatten.Perm pending ∧
      R.PartsMeet rows ok (R.components pending) σ ∧
      ∀ σ', R.decodeSelected rows σ pending = .ok σ' →
        DecodeMeets n (pending.filter fun r => σ'.decodingStart r == σ.decodingStart r) σ'

variable {R rows ok} {n : Nat} {pending : List Nat} {parts : List (List Nat)} {σ : DecodeLoop Kv S}

section Keeps

variable (keeps : DecodeLoop Kv S → Prop)
  (hkeeps : ∀ σ σ' part cacheLength, keeps σ →
    R.decodeBatch (R.planCall rows) σ part cacheLength = .ok σ' → keeps σ')
  (hok : ∀ σ part cacheLength, keeps σ → ok σ part cacheLength)
include hkeeps hok

theorem partsMeet_of_keeps (h : keeps σ) : R.PartsMeet rows ok parts σ := by
  induction parts generalizing σ with
  | nil => trivial
  | cons part parts ih => exact ⟨hok _ _ _ h,fun σ' hrun => ih (hkeeps σ σ' _ _ h hrun)⟩

/-- A condition that follows from what the batches keep is met by all of them. -/
theorem decodeMeets_of_keeps (hcover : ∀ pending, (R.components pending).flatten.Perm pending)
    (h : keeps σ) : R.DecodeMeets rows ok n pending σ := by
  have hparts (parts : List (List Nat)) (σ σ' : DecodeLoop Kv S) (h : keeps σ)
      (hrun : parts.foldlM
        (fun σ part => R.decodeBatch (R.planCall rows) σ part (R.reach σ part)) σ = .ok σ') :
      keeps σ' := by
    induction parts generalizing σ with
    | nil =>
      cases hrun
      exact h
    | cons part parts ih =>
      rw [List.foldlM_cons] at hrun
      obtain ⟨σ₁,hpart,hrest⟩ := bind_eq_ok hrun
      exact ih σ₁ (hkeeps σ σ₁ _ _ h hpart) hrest
  induction n generalizing pending σ with
  | zero => trivial
  | succ n ih =>
    exact ⟨hcover _,partsMeet_of_keeps keeps hkeeps hok h,fun σ' hrun => ih (hparts _ σ σ' h hrun)⟩

end Keeps

variable {ok' : DecodeLoop Kv S → List Nat → Nat → Prop}

theorem PartsMeet.mono (h : R.PartsMeet rows ok parts σ) (hnd : parts.flatten.Nodup)
    (himp : ∀ σ part cacheLength, part.Nodup → ok σ part cacheLength → ok' σ part cacheLength) :
    R.PartsMeet rows ok' parts σ := by
  induction parts generalizing σ with
  | nil => trivial
  | cons part parts ih =>
    have hnd' := List.nodup_append.mp (List.flatten_cons ▸ hnd)
    exact ⟨himp _ _ _ hnd'.1 h.1,fun σ' hrun => ih (h.2 σ' hrun) hnd'.2.1⟩

theorem DecodeMeets.mono (h : R.DecodeMeets rows ok n pending σ) (hnd : pending.Nodup)
    (himp : ∀ σ part cacheLength, part.Nodup → ok σ part cacheLength → ok' σ part cacheLength) :
    R.DecodeMeets rows ok' n pending σ := by
  induction n generalizing pending σ with
  | zero => trivial
  | succ n ih =>
    exact ⟨h.1,h.2.1.mono (h.1.nodup_iff.mpr hnd) himp,
      fun σ' hrun => ih (h.2.2 σ' hrun) (hnd.filter _)⟩

end Meets

section Lessened

variable {measure : DecodeLoop Kv S → Nat → Nat} {σ σ₁ σ' : DecodeLoop Kv S}
  {part rest seqIds : List Nat}

/-- Each of these rows has left its block or has less to do in it; the others are as before. -/
structure Lessened (measure : DecodeLoop Kv S → Nat → Nat) (σ : DecodeLoop Kv S)
    (seqIds : List Nat) (σ' : DecodeLoop Kv S) : Prop where
  others : ∀ r, r ∉ seqIds → σ'.decodingStart r = σ.decodingStart r ∧ measure σ' r = measure σ r
  rows : ∀ r ∈ seqIds, σ'.decodingStart r = σ.decodingStart r → measure σ' r < measure σ r

theorem Lessened.append (h : Lessened measure σ part σ₁) (h' : Lessened measure σ₁ rest σ')
    (hnd : (part ++ rest).Nodup) : Lessened measure σ (part ++ rest) σ' := by
  have hdisjoint := (List.nodup_append.mp hnd).2.2
  constructor
  · intro r hr
    rw [List.mem_append,not_or] at hr
    obtain ⟨hstart,hmeasure⟩ := h.others r hr.1
    obtain ⟨hstart',hmeasure'⟩ := h'.others r hr.2
    exact ⟨hstart'.trans hstart,hmeasure'.trans hmeasure⟩
  · intro r hr hsame
    obtain hr | hr := List.mem_append.mp hr
    · have hrest : r ∉ rest := fun hmem => hdisjoint r hr r hmem rfl
      obtain ⟨hstart,hmeasure⟩ := h'.others r hrest
      rw [hmeasure]
      exact h.rows r hr (hstart.symm.trans hsame)
    · have hpart : r ∉ part := fun hmem => hdisjoint r hmem r hr rfl
      obtain ⟨hstart,hmeasure⟩ := h.others r hpart
      rw [← hmeasure]
      exact h'.rows r hr (hsame.trans hstart.symm)

end Lessened

section Progress

variable {R : PagedLladaRunner Logits Kv S} {rows : List PlanRow} {σ σ' : DecodeLoop Kv S}
  {measure : DecodeLoop Kv S → Nat → Nat} {bound cacheLength n : Nat} {seqIds pending : List Nat}
  {parts : List (List Nat)} {kv : Nat → Nat → Option Kv}

/-- A row's next start is another one. -/
theorem decodingStart_ne (h : Passed R.toLladaRunner (R.planCall rows) σ seqIds cacheLength σ')
    {r : Nat} (hr : r ∈ seqIds)
    (hfin : R.blockFinished (R.planCall rows) σ seqIds cacheLength r = true) :
    σ'.decodingStart r ≠ σ.decodingStart r := by
  have hpos := R.blockLength_pos
  have hfits := h.fits r hr
  have htotal : (R.planCall rows).totalLength = (R.planCall rows).width := rfl
  rw [h.decodingStart,putRows_of_mem hr]
  unfold newStart
  rw [hfin]
  dsimp only
  rw [if_pos rfl]
  split
  · omega
  · omega

theorem decodeBatch_lessened
    (h : Falls R.toLladaRunner (R.planCall rows) measure σ seqIds cacheLength)
    (hrun : R.decodeBatch (R.planCall rows) σ seqIds cacheLength = .ok σ') :
    Lessened measure σ seqIds σ' := by
  have hpassed := decodeBatch_passed hrun
  constructor
  · intro r hr
    exact ⟨hpassed.decodingStart_of_notMem hr,h.others σ' hrun r hr⟩
  · intro r hr hsame
    cases hfin : R.blockFinished (R.planCall rows) σ seqIds cacheLength r with
    | true => exact absurd hsame (decodingStart_ne hpassed hr hfin)
    | false => exact h.rows σ' hrun r hr hfin

theorem decodeParts_lessened (hbound : ∀ σ r, measure σ r ≤ bound) (hnd : parts.flatten.Nodup)
    (hfits : ∀ r ∈ parts.flatten, σ.decodingStart r + R.blockLength ≤ R.planWidth rows)
    (hmeets : R.PartsMeet rows (Falls R.toLladaRunner (R.planCall rows) measure) parts σ)
    (hb : Budgeted measure bound σ) (hmax : bound < σ.editBudget.maxBlockIters) :
    ∃ σ', parts.foldlM
        (fun σ part => R.decodeBatch (R.planCall rows) σ part (R.reach σ part)) σ = .ok σ' ∧
      Lessened measure σ parts.flatten σ' ∧ Budgeted measure bound σ' ∧
      σ'.editBudget.maxBlockIters = σ.editBudget.maxBlockIters := by
  induction parts generalizing σ with
  | nil => exact ⟨σ,rfl,⟨fun _ _ => ⟨rfl,rfl⟩,fun _ hr => by cases hr⟩,hb,rfl⟩
  | cons part parts ih =>
    rw [List.flatten_cons] at hnd hfits ⊢
    obtain ⟨hfalls,hlater⟩ := hmeets
    have hdisjoint := (List.nodup_append.mp hnd).2.2
    have hpartFits : ∀ r ∈ part, σ.decodingStart r + R.blockLength ≤ (R.planCall rows).width :=
      fun r hr => hfits r (List.mem_append_left _ hr)
    obtain ⟨hstuck,_⟩ | ⟨σ₁,hrun⟩ := decodeBatch_cases (R.reach σ part) hpartFits
    · exact absurd hstuck (hfalls.not_stuck hb hmax)
    · have hlessened := decodeBatch_lessened hfalls hrun
      have hmax₁ := (decodeBatch_limits hrun).1
      have hfits₁ : ∀ r ∈ parts.flatten, σ₁.decodingStart r + R.blockLength ≤ R.planWidth rows := by
        intro r hr
        rw [(hlessened.others r fun hmem => hdisjoint r hmem r hr rfl).1]
        exact hfits r (List.mem_append_right _ hr)
      obtain ⟨σ',hrest,hlessened',hb',hmax'⟩ := ih (List.nodup_append.mp hnd).2.1 hfits₁
        (hlater σ₁ hrun) (hfalls.budgeted hbound hb hrun) (hmax₁ ▸ hmax)
      refine ⟨σ',?_,hlessened.append hlessened' hnd,hb',hmax'.trans hmax₁⟩
      rw [List.foldlM_cons,hrun]
      exact hrest

/-- The loop ends in time where each pass of a row finishes its block or gets nearer to that. -/
theorem decodeUntil_ends (hbound : ∀ σ r, measure σ r ≤ bound) (hnd : pending.Nodup)
    (hfits : ∀ r ∈ pending, σ.decodingStart r + R.blockLength ≤ R.planWidth rows)
    (hmeets : R.DecodeMeets rows (Falls R.toLladaRunner (R.planCall rows) measure) n pending σ)
    (hb : Budgeted measure bound σ) (hmax : bound < σ.editBudget.maxBlockIters) (hn : 0 < n)
    (hleft : ∀ r ∈ pending, measure σ r < n) : ∃ σ', R.decodeUntil rows n pending σ = .ok σ' := by
  induction n generalizing pending σ with
  | zero => cases hn
  | succ n ih =>
    obtain ⟨hcover,hparts,hlater⟩ := hmeets
    obtain ⟨σ₁,hrun,hlessened,hb₁,hmax₁⟩ := decodeParts_lessened hbound
      (hcover.nodup_iff.mpr hnd) (fun r hr => hfits r (hcover.mem_iff.mp hr)) hparts hb hmax
    have hselected : R.decodeSelected rows σ pending = .ok σ₁ := hrun
    unfold decodeUntil
    rw [hselected]
    change ∃ σ', (if (pending.filter fun r => σ₁.decodingStart r == σ.decodingStart r).isEmpty
      then pure σ₁ else R.decodeUntil rows n _ σ₁) = .ok σ'
    split
    · exact ⟨σ₁,rfl⟩
    · next hne =>
      have hstays : ∀ r ∈ pending.filter (fun r => σ₁.decodingStart r == σ.decodingStart r),
          σ₁.decodingStart r = σ.decodingStart r ∧ measure σ₁ r < n := by
        intro r hr
        obtain ⟨hr,hsame⟩ := List.mem_filter.mp hr
        have hsame : σ₁.decodingStart r = σ.decodingStart r := by simpa using hsame
        have hlt := hlessened.rows r (hcover.mem_iff.mpr hr) hsame
        have hleft := hleft r hr
        exact ⟨hsame,by omega⟩
      have hn' : 0 < n := by
        obtain ⟨r,hr⟩ := List.exists_mem_of_ne_nil _ fun hnil => hne (List.isEmpty_iff.mpr hnil)
        exact Nat.zero_lt_of_lt (hstays r hr).2
      apply ih (hnd.filter _) _ (hlater σ₁ hselected) hb₁ (hmax₁ ▸ hmax) hn' fun r hr =>
        (hstays r hr).2
      intro r hr
      rw [(hstays r hr).1]
      exact hfits r (List.mem_filter.mp hr).1

theorem planLoop_fits {r : Nat} (hr : r ∈ rows.map PlanRow.seqId) :
    (R.planLoop rows kv).decodingStart r + R.blockLength ≤ R.planWidth rows := by
  obtain ⟨row,hrow,hid⟩ : ∃ row ∈ rows, rowOf rows r = some row.state := by
    obtain ⟨row,hrow,rfl⟩ := List.mem_map.mp hr
    cases hfind : rows.find? fun x => x.seqId == row.seqId with
    | none => exact absurd (List.find?_eq_none.mp hfind row hrow) (by simp)
    | some found =>
      refine ⟨found,List.mem_of_find?_eq_some hfind,?_⟩
      unfold rowOf
      rw [hfind]
      rfl
  have hstart : (R.planLoop rows kv).decodingStart r = R.blockStart row.state := by
    simp only [planLoop,hid,Option.map_some,Option.getD_some]
  have hmem : R.blockStart row.state + R.blockLength ∈
      rows.map fun x => R.blockStart x.state + R.blockLength := List.mem_map_of_mem hrow
  rw [hstart]
  unfold planWidth
  cases hmax : (rows.map fun x => R.blockStart x.state + R.blockLength).max? with
  | none => simp [List.max?_eq_none_iff.mp hmax] at hmem
  | some m => exact (List.max?_eq_some_iff.mp hmax).2 _ hmem

/-- A plan is executed unless a row is longer than the token array. -/
theorem pagedDecode_ends (hbound : ∀ σ r, measure σ r ≤ bound)
    (hslots : (rows.map PlanRow.seqId).Nodup)
    (hmeets : R.DecodeMeets rows (Falls R.toLladaRunner (R.planCall rows) measure) R.maxDecodeIters
      (rows.map PlanRow.seqId) (R.planLoop rows kv))
    (hmax : bound < R.maxBlockIters) (hiters : bound < R.maxDecodeIters) :
    R.pagedDecode rows kv = .error .tooLong ∨ ∃ σ', R.pagedDecode rows kv = .ok σ' := by
  unfold pagedDecode
  split
  · exact .inl rfl
  · right
    apply decodeUntil_ends hbound hslots (fun r hr => planLoop_fits hr) hmeets _ hmax (by omega)
    · intro r _
      exact (hbound _ r).trans_lt hiters
    · intro r
      exact (Nat.zero_add _).le.trans (hbound _ r)

end Progress

end PagedLladaRunner

end FluxServe.Llada
