import FluxServe.Nemotron.BlockRows

namespace FluxServe.Engine.NemotronRunner

variable {M : NemotronModel} {R : NemotronRunner M} {rows : List OfflineRow}
  {outs : List (List Token)} {row : OfflineRow} {out : List Token}

section Start

variable {prompt : List Token} {generationLength : Nat} {s : BlockState M}

/-- The variables of the block loop after a prefill. -/
def enterBlocks (R : NemotronRunner M) (prompt : List Token) (x : List M.Logits × List M.Kv) :
    BlockState M where
  cache := x.2
  prefixLength := prompt.length
  seed := R.seedFrom x.1

theorem startBlocks_eq_ok : R.startBlocks prompt generationLength = .ok s ↔
    prompt.length+R.paddedGeneration generationLength ≤ R.positionLimit ∧
    ∃ x, R.prefill prompt (List.replicate (prompt.length+R.paddedGeneration generationLength)
      M.zero) = .ok x ∧ R.enterBlocks prompt x = s := by
  have hstart : R.startBlocks prompt generationLength =
      (R.checkContext (prompt.length+R.paddedGeneration generationLength) >>= fun _ =>
        R.prefill prompt (List.replicate (prompt.length+R.paddedGeneration generationLength)
          M.zero) >>= fun x => .ok (R.enterBlocks prompt x)) := rfl
  rw [hstart,R.checkContext_bind_eq_ok]
  apply and_congr_right
  intro _
  cases R.prefill prompt (List.replicate (prompt.length+R.paddedGeneration generationLength)
    M.zero) with
  | error e => exact ⟨fun h => (nomatch h),fun ⟨x,hx,_⟩ => (nomatch hx)⟩
  | ok x =>
    constructor
    · intro h
      injection h with h
      exact ⟨x,rfl,h⟩
    · rintro ⟨y,hy,h⟩
      injection hy with hy
      subst hy
      exact congrArg Except.ok h

@[simp] theorem paddedGeneration_zero (R : NemotronRunner M) : R.paddedGeneration 0 = 0 := by
  have hpos := R.blockLength_pos
  unfold paddedGeneration
  rw [Nat.zero_add,Nat.div_eq_of_lt (by omega),Nat.zero_mul]

theorem paddedGeneration_bounds (R : NemotronRunner M) (n : Nat) :
    n ≤ R.paddedGeneration n ∧ R.paddedGeneration n < n+R.blockLength := by
  have hpos := R.blockLength_pos
  have hle := Nat.div_mul_le_self (n+R.blockLength-1) R.blockLength
  have hlt := Nat.lt_div_mul_add hpos (a := n+R.blockLength-1)
  unfold paddedGeneration
  omega

theorem paddedGeneration_blocks (R : NemotronRunner M) (n : Nat) :
    R.paddedGeneration n/R.blockLength*R.blockLength = R.paddedGeneration n := by
  unfold paddedGeneration
  rw [Nat.mul_div_cancel _ R.blockLength_pos]

/-- So many blocks serve a generation length as soon as their tokens do. -/
theorem paddedGeneration_le_iff (R : NemotronRunner M) (k n : Nat) :
    R.paddedGeneration n ≤ k*R.blockLength ↔ n ≤ k*R.blockLength := by
  have hpos := R.blockLength_pos
  constructor
  · exact (R.paddedGeneration_bounds n).1.trans
  · intro h
    unfold paddedGeneration
    apply Nat.mul_le_mul_right
    rw [Nat.div_le_iff_le_mul_add_pred hpos,Nat.mul_comm]
    omega

end Start

/-- What the dense runner returns for a row alone. -/
def BlockDenseYields (R : NemotronRunner M) (row : OfflineRow) (out : List Token) : Prop :=
  ∃ fuel, R.diffusionGenerateOne fuel row.stopOnEos row.prompt row.generationLength =
    some (.ok out)

/-- What a row of a batch comes to, by itself. -/
def BlockRowYields (R : NemotronRunner M) (row : OfflineRow) (out : List Token) : Prop :=
  ∃ r, R.prefillBlockRow row = .ok r ∧ ∃ r', R.BlockEnds r r' ∧ R.blockOutput r' = .ok out

/-- A row without a token to generate does not stop at the end of sequence, and its prompt fits. -/
def BlockFits (R : NemotronRunner M) (row : OfflineRow) : Prop :=
  row.generationLength = 0 → row.stopOnEos = false ∧ row.prompt.length ≤ R.positionLimit

theorem blockDenseYields_zero (h0 : row.generationLength = 0) :
    R.BlockDenseYields row out ↔ out = [] := by
  unfold BlockDenseYields diffusionGenerateOne
  simp only [if_pos h0]
  constructor
  · rintro ⟨_,h⟩
    injection h with h
    injection h with h
    exact h.symm
  · rintro rfl
    exact ⟨0,rfl⟩

/-- The dense loop goes on from here to an output. -/
def BlocksPending (R : NemotronRunner M) (stop : Bool) (generationLength : Nat)
    (s : BlockState M) (out : List Token) : Prop :=
  ∃ t, (∃ n, Halts (R.blocksRemain generationLength) (R.generateBlock stop) s (.ok t) n) ∧
    R.cutAtEos stop (t.emitted.flatten.take generationLength) = .ok out

theorem blockDenseYields_iff (h0 : row.generationLength ≠ 0) : R.BlockDenseYields row out ↔
    ∃ s₀, R.startBlocks row.prompt row.generationLength = .ok s₀ ∧
      R.BlocksPending row.stopOnEos row.generationLength s₀ out := by
  unfold BlockDenseYields diffusionGenerateOne
  simp only [if_neg h0]
  constructor
  · rintro ⟨fuel,h⟩
    split at h
    · cases h
    · next s₀ hs₀ =>
      obtain ⟨r,hr,hout⟩ := Option.bind_eq_some_iff.mp h
      injection hout with hout
      cases r with
      | error e => cases hout
      | ok t =>
        obtain ⟨n,_,hn⟩ := halts_of_tryLoop hr
        exact ⟨s₀,hs₀,t,⟨n,hn⟩,hout⟩
  · rintro ⟨s₀,hs₀,t,⟨n,hn⟩,hout⟩
    refine ⟨n,?_⟩
    rw [hs₀]
    dsimp only
    rw [hn.tryLoop_eq (Nat.le_refl n)]
    exact congrArg some hout

theorem blockPositions_le : R.blockPositions rows ≤ R.positionLimit ↔
    ∀ row ∈ rows, row.prompt.length+R.paddedGeneration row.generationLength ≤ R.positionLimit := by
  unfold blockPositions
  cases h : (rows.map fun row =>
    row.prompt.length+R.paddedGeneration row.generationLength).max? with
  | none =>
    rw [List.max?_eq_none_iff,List.map_eq_nil_iff] at h
    subst h
    simp
  | some m =>
    have hmax := List.max?_eq_some_iff.mp h
    rw [Option.getD_some]
    constructor
    · intro hm row hrow
      exact (hmax.2 _ (List.mem_map.mpr ⟨row,hrow,rfl⟩)).trans hm
    · intro hall
      obtain ⟨row,hrow,rfl⟩ := List.mem_map.mp hmax.1
      exact hall row hrow

/-- A batch returns what its rows yield, when its positions are within the limit. -/
theorem diffusionGenerate_iff : (∃ fuel, R.diffusionGenerate fuel rows = some (.ok outs)) ↔
    R.blockPositions rows ≤ R.positionLimit ∧ List.Forall₂ R.BlockRowYields rows outs := by
  have hstart (rs : List (BlockRow M)) : R.startBlockRows rows = .ok rs ↔
      R.blockPositions rows ≤ R.positionLimit ∧
        List.Forall₂ (fun row r => R.prefillBlockRow row = .ok r) rows rs := by
    rw [startBlockRows,R.checkContext_bind_eq_ok,mapM_eq_ok]
  unfold diffusionGenerate
  constructor
  · rintro ⟨fuel,h⟩
    cases hrs : R.startBlockRows rows with
    | error e =>
      rw [hrs] at h
      cases h
    | ok rs =>
      rw [hrs] at h
      obtain ⟨hlimit,hrows⟩ := (hstart rs).mp hrs
      obtain ⟨r,hr,hout⟩ := Option.bind_eq_some_iff.mp h
      injection hout with hout
      cases r with
      | error e => cases hout
      | ok rs' =>
        exact ⟨hlimit,forall₂_exists.mpr ⟨rs,hrows,forall₂_exists.mpr
          ⟨rs',R.runBlockLoop_iff.mp ⟨fuel,hr⟩,mapM_eq_ok.mp hout⟩⟩⟩
  · rintro ⟨hlimit,hrows⟩
    obtain ⟨rs,hrs,hyields⟩ := forall₂_exists.mp hrows
    obtain ⟨rs',hloops,houts⟩ := forall₂_exists.mp hyields
    obtain ⟨fuel,hr⟩ := R.runBlockLoop_iff.mpr hloops
    refine ⟨fuel,?_⟩
    rw [(hstart rs).mpr ⟨hlimit,hrs⟩]
    dsimp only
    rw [hr]
    exact congrArg some (mapM_eq_ok.mpr houts)

theorem diffusionGenerate_mono {fuel fuel' : Nat} {r : Except NemotronFault (List (List Token))}
    (h : R.diffusionGenerate fuel rows = some r) (hle : fuel ≤ fuel') :
    R.diffusionGenerate fuel' rows = some r := by
  unfold diffusionGenerate at h ⊢
  split at h
  · exact h
  · obtain ⟨x,hx,hout⟩ := Option.bind_eq_some_iff.mp h
    exact Option.bind_eq_some_iff.mpr ⟨x,tryLoop_mono hx hle,hout⟩

/-- The row of a prompt before its first block is entered. -/
def emptyRow (R : NemotronRunner M) (row : OfflineRow) (x : List M.Logits × List M.Kv) :
    BlockRow M where
  generationLength := row.generationLength
  prefixLength := row.prompt.length
  blockBudget := R.paddedGeneration row.generationLength/R.blockLength
  block := R.nextBlock (R.seedFrom x.1) []
  seed := R.seedFrom x.1
  stopOnEos := row.stopOnEos
  cache := x.2

theorem prefillBlockRow_eq (R : NemotronRunner M) (row : OfflineRow) :
    R.prefillBlockRow row = (R.prefill row.prompt []).map fun x =>
      if R.paddedGeneration row.generationLength = 0 then
        { R.emptyRow row x with state := .done }
      else R.enterBlock (R.emptyRow row x) := by
  unfold prefillBlockRow
  cases R.prefill row.prompt [] <;> rfl

/-- A row enters the batch where the dense loop starts. -/
theorem prefillBlockRow_agrees (hp : row.prompt ≠ []) (h0 : row.generationLength ≠ 0)
    {s₀ : BlockState M} (hs₀ : R.startBlocks row.prompt row.generationLength = .ok s₀) :
    ∃ r, R.prefillBlockRow row = .ok r ∧
      R.BlockAgrees row.stopOnEos row.generationLength s₀ r := by
  obtain ⟨logits,filled,filled',hrun,hrun',hsame,hlong,hlong'⟩ := R.prefill_congr hp []
    (List.replicate (row.prompt.length+R.paddedGeneration row.generationLength) M.zero)
  obtain ⟨_,x,hx,rfl⟩ := startBlocks_eq_ok.mp hs₀
  rw [hrun'] at hx
  injection hx with hx
  subst hx
  have hpadded : 0 < R.paddedGeneration row.generationLength := by
    have := (R.paddedGeneration_bounds row.generationLength).1
    omega
  have hrow : R.prefillBlockRow row = .ok (R.enterBlock (R.emptyRow row (logits,filled))) := by
    rw [prefillBlockRow_eq,hrun]
    simp only [Except.map]
    rw [if_neg (by omega)]
  refine ⟨_,hrow,enterBlock_agrees rfl ?_ ?_ rfl⟩
  · exact ⟨rfl,hsame,hlong',hlong,rfl,rfl,R.paddedGeneration_blocks _,rfl⟩
  · rw [blocksRemain_eq_true]
    refine ⟨rfl,?_⟩
    simp only [enterBlocks,List.length_nil,Nat.zero_mul]
    exact hpadded

/-- A row with tokens to generate yields what the dense runner does. -/
theorem blockRowYields_of_dense (hp : row.prompt ≠ []) (h0 : row.generationLength ≠ 0)
    (hdense : R.BlockDenseYields row out) : R.BlockRowYields row out := by
  obtain ⟨s₀,hs₀,t,⟨n,hn⟩,hout⟩ := (blockDenseYields_iff h0).mp hdense
  obtain ⟨r,hr,hagrees⟩ := prefillBlockRow_agrees hp h0 hs₀
  obtain ⟨r',hends,htracks⟩ := hagrees.halts hn
  refine ⟨r,hr,r',hends,?_⟩
  unfold blockOutput
  rw [htracks.stopOnEos,htracks.emitted,htracks.budget]
  exact hout

/-- A row without a token to generate yields none, but the cut of nothing raises. -/
theorem blockRowYields_zero (hp : row.prompt ≠ []) (h0 : row.generationLength = 0) :
    R.BlockRowYields row out ↔ row.stopOnEos = false ∧ out = [] := by
  obtain ⟨logits,filled,_,hrun,_⟩ := R.prefill_congr hp [] []
  have hrow : R.prefillBlockRow row =
      .ok { R.emptyRow row (logits,filled) with state := .done } := by
    rw [prefillBlockRow_eq,hrun,h0,paddedGeneration_zero]
    rfl
  have hends : R.BlockEnds { R.emptyRow row (logits,filled) with state := .done }
      { R.emptyRow row (logits,filled) with state := .done } :=
    ⟨0,halts_done (by simp [BlockRow.active])⟩
  have houtput : R.blockOutput { R.emptyRow row (logits,filled) with state := .done } =
      R.cutAtEos row.stopOnEos [] := by
    unfold blockOutput emptyRow
    simp
  have hiff : R.BlockRowYields row out ↔ R.cutAtEos row.stopOnEos [] = .ok out := by
    rw [← houtput]
    constructor
    · rintro ⟨r,hr,r',⟨m,hm⟩,hout⟩
      rw [hrow] at hr
      injection hr with hr
      subst hr
      obtain ⟨_,hhalts⟩ := hends
      have hsame := hm.unique hhalts
      injection hsame with hsame
      subst hsame
      exact hout
    · intro h
      exact ⟨_,hrow,_,hends,h⟩
  rw [hiff]
  cases row.stopOnEos with
  | true =>
    constructor
    · intro h
      cases h
    · rintro ⟨h,_⟩
      cases h
  | false =>
    constructor
    · intro h
      injection h with h
      exact ⟨rfl,h.symm⟩
    · rintro ⟨_,rfl⟩
      rfl

/-- A batch emits for each row what the dense runner emits for that row alone, exactly when its rows
without a token to generate do not stop at the end of sequence and fit. -/
theorem diffusionGenerate_of_dense (hne : ∀ row ∈ rows, row.prompt ≠ [])
    (hdense : List.Forall₂ R.BlockDenseYields rows outs) :
    (∃ fuel, R.diffusionGenerate fuel rows = some (.ok outs)) ↔
      ∀ row ∈ rows, R.BlockFits row := by
  have hrows := (List.forall₂_and_left rows outs).mpr ⟨hne,hdense⟩
  rw [diffusionGenerate_iff,blockPositions_le]
  constructor
  · rintro ⟨hlimit,hyields⟩
    have hgood : List.Forall₂ (fun row out => R.BlockFits row ∧ R.BlockDenseYields row out)
        rows outs := by
      apply List.Forall₂.mp ?_ ((List.forall₂_and_left rows outs).mpr ⟨hlimit,hrows⟩) hyields
      intro row out ⟨hle,hp,hrow⟩ hyield
      refine ⟨fun h0 => ⟨((blockRowYields_zero hp h0).mp hyield).1,?_⟩,hrow⟩
      rwa [h0,paddedGeneration_zero,Nat.add_zero] at hle
    exact ((List.forall₂_and_left rows outs).mp hgood).1
  · intro hfits
    have hall := (List.forall₂_and_left rows outs).mpr ⟨hfits,hrows⟩
    have hgood : List.Forall₂ (fun row out =>
        row.prompt.length+R.paddedGeneration row.generationLength ≤ R.positionLimit ∧
          R.BlockRowYields row out) rows outs := by
      apply hall.imp
      intro row out ⟨hfit,hp,hrow⟩
      by_cases h0 : row.generationLength = 0
      · obtain ⟨hstop,hle⟩ := hfit h0
        refine ⟨?_,(blockRowYields_zero hp h0).mpr ⟨hstop,(blockDenseYields_zero h0).mp hrow⟩⟩
        rw [h0,paddedGeneration_zero]
        exact hle
      · obtain ⟨s₀,hs₀,_⟩ := (blockDenseYields_iff h0).mp hrow
        exact ⟨(startBlocks_eq_ok.mp hs₀).1,blockRowYields_of_dense hp h0 hrow⟩
    exact (List.forall₂_and_left rows outs).mp hgood

end FluxServe.Engine.NemotronRunner
