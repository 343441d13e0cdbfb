import FluxServe.Llada.LoopTermination

namespace FluxServe.Llada

open Engine

variable {Logits Kv S : Type}

namespace LladaRunner

section Rows

variable (R : LladaRunner Logits Kv S) (c : BatchesCall) (σ : DecodeLoop Kv S) (ℓ : Looping Kv S)
  (r k : Nat)

/-- Where some blocks of a row end. -/
def blockEnd : Nat := σ.decodingStart r + k*R.blockLength

/-- Whether a stop token is among what a row has generated once some blocks are decoded. -/
def stopsAt : Bool := R.generatedEosHit (ℓ.x r) (c.promptLengths r) (R.blockEnd σ r k)

/-- The first blocks of a row have no masks left, and besides them the row is as it was. -/
structure DecodedTo : Prop where
  unmasked : ∀ p, σ.decodingStart r ≤ p → p < R.blockEnd σ r k → ℓ.x r p ≠ R.maskId
  others : ∀ p, p < σ.decodingStart r ∨ R.blockEnd σ r k ≤ p → ℓ.x r p = σ.x r p

/-- The row is decoded to the end of the first block with a generated stop token. -/
def Stopped : Prop :=
  R.earlyStop = true ∧ ∃ k, 1 ≤ k ∧ R.DecodedTo σ ℓ r k ∧ R.stopsAt c σ ℓ r k = true ∧
    ∀ j, 1 ≤ j → j < k → R.stopsAt c σ ℓ r j = false

/-- The row is decoded exactly up to its length. -/
def Exhausted : Prop :=
  ∃ k, R.DecodedTo σ ℓ r k ∧ R.blockEnd σ r k = c.decodeLengths r ∧
    (R.earlyStop = true → ∀ j, 1 ≤ j → j ≤ k → R.stopsAt c σ ℓ r j = false)

/-- The blocks that a row has behind it, while it decodes and after an early stop. -/
structure Decoding : Prop where
  unmasked : ∀ p, σ.decodingStart r ≤ p → p < R.blockEnd σ r k → ℓ.x r p ≠ R.maskId
  below : ∀ p, p < σ.decodingStart r → ℓ.x r p = σ.x r p
  beyond : ∀ p, R.blockEnd σ r k ≤ p →
    ¬(R.mayDecode c ℓ.toDecodeLoop r = true ∧ p < R.blockEnd σ r k + R.blockLength) →
      ℓ.x r p = σ.x r p
  bound : k ≠ 0 → R.blockEnd σ r k ≤ c.decodeLengths r
  before : R.earlyStop = true → ∀ j, 1 ≤ j → j < k → R.stopsAt c σ ℓ r j = false
  place : ℓ.decodingStart r = R.blockEnd σ r k ∧
      (R.earlyStop = true → k ≠ 0 → R.stopsAt c σ ℓ r k = false) ∨
    R.earlyStop = true ∧ k ≠ 0 ∧ ℓ.decodingStart r = c.totalLength ∧
      R.stopsAt c σ ℓ r k = true

variable {R c σ ℓ r k} {ℓ' : Looping Kv S} {part : List Nat} {parts : List (List Nat)}

@[simp]
theorem blockEnd_zero : R.blockEnd σ r 0 = σ.decodingStart r := by simp [blockEnd]

theorem blockEnd_succ : R.blockEnd σ r (k+1) = R.blockEnd σ r k + R.blockLength := by
  simp only [blockEnd,Nat.add_mul,Nat.one_mul,Nat.add_assoc]

theorem blockEnd_mono {j : Nat} (h : j ≤ k) : R.blockEnd σ r j ≤ R.blockEnd σ r k :=
  Nat.add_le_add_left (Nat.mul_le_mul_right _ h) _

theorem decodingStart_le_blockEnd : σ.decodingStart r ≤ R.blockEnd σ r k := Nat.le_add_right _ _

/-- A stop token counts where it stands. -/
theorem stopsAt_congr (h : ∀ p, p < R.blockEnd σ r k → ℓ'.x r p = ℓ.x r p) :
    R.stopsAt c σ ℓ' r k = R.stopsAt c σ ℓ r k := by
  unfold stopsAt generatedEosHit
  rw [Bool.eq_iff_iff,List.any_eq_true,List.any_eq_true]
  apply exists_congr
  intro p
  apply and_congr_right
  intro hp
  have hp := List.mem_range'_1.mp hp
  rw [h p (by omega)]

theorem decoding_enter : R.Decoding c σ (R.enter c σ) r 0 where
  unmasked p hge hlt := by
    rw [blockEnd_zero] at hlt
    omega
  below _ _ := rfl
  beyond _ _ _ := rfl
  bound hne := absurd rfl hne
  before _ j _ hlt := absurd hlt (Nat.not_lt_zero j)
  place := .inl ⟨blockEnd_zero.symm,fun _ hne => absurd rfl hne⟩

/-- A row that may decode stands at the end of its blocks. -/
theorem Decoding.start (h : R.Decoding c σ ℓ r k) (hmay : R.mayDecode c ℓ.toDecodeLoop r = true) :
    ℓ.decodingStart r = R.blockEnd σ r k ∧
      (R.earlyStop = true → k ≠ 0 → R.stopsAt c σ ℓ r k = false) := by
  obtain hplace | ⟨_,_,hend,_⟩ := h.place
  · exact hplace
  · have hfit := of_decide_eq_true hmay
    have hbound := c.bounded r
    have hpos := R.blockLength_pos
    omega

theorem Decoding.congr (h : R.Decoding c σ ℓ r k) (hx : ℓ'.x r = ℓ.x r)
    (hstart : ℓ'.decodingStart r = ℓ.decodingStart r) : R.Decoding c σ ℓ' r k := by
  have hmay : R.mayDecode c ℓ'.toDecodeLoop r = R.mayDecode c ℓ.toDecodeLoop r := by
    unfold mayDecode
    rw [hstart]
  have hstops (j : Nat) : R.stopsAt c σ ℓ' r j = R.stopsAt c σ ℓ r j :=
    stopsAt_congr fun p _ => congrFun hx p
  constructor
  · rw [hx]
    exact h.unmasked
  · rw [hx]
    exact h.below
  · rw [hx,hmay]
    exact h.beyond
  · exact h.bound
  · simpa only [hstops] using h.before
  · rw [hstart,hstops]
    exact h.place

theorem Decoding.works (h : R.Decoding c σ ℓ r k) (hmay : R.mayDecode c ℓ.toDecodeLoop r = true)
    (hx : ∀ p, ¬R.InBlock ℓ.toDecodeLoop r p → ℓ'.x r p = ℓ.x r p)
    (hstart : ℓ'.decodingStart r = ℓ.decodingStart r) : R.Decoding c σ ℓ' r k := by
  obtain ⟨hplace,hstop⟩ := h.start hmay
  have hmay' : R.mayDecode c ℓ'.toDecodeLoop r = true := by
    unfold mayDecode at hmay ⊢
    rwa [hstart]
  have hbefore (p : Nat) (hp : p < R.blockEnd σ r k) : ℓ'.x r p = ℓ.x r p :=
    hx p fun hin => absurd hin.1 (by omega)
  have hstops (j : Nat) (hj : j ≤ k) : R.stopsAt c σ ℓ' r j = R.stopsAt c σ ℓ r j :=
    stopsAt_congr fun p hp => hbefore p (hp.trans_le (blockEnd_mono hj))
  constructor
  · intro p hge hlt
    rw [hbefore p hlt]
    exact h.unmasked p hge hlt
  · intro p hp
    rw [hbefore p (hp.trans_le decodingStart_le_blockEnd)]
    exact h.below p hp
  · intro p hge hnot
    rw [hmay'] at hnot
    have hpast : R.blockEnd σ r k + R.blockLength ≤ p := by
      by_contra hlt
      exact hnot ⟨rfl,not_le.mp hlt⟩
    rw [hx p fun hin => absurd hin.2 (by omega)]
    exact h.beyond p hge fun hin => absurd hin.2 (by omega)
  · exact h.bound
  · intro hearly j hj hlt
    rw [hstops j hlt.le]
    exact h.before hearly j hj hlt
  · left
    rw [hstart,hstops k le_rfl]
    exact ⟨hplace,hstop⟩

theorem Decoding.finishes (h : R.Decoding c σ ℓ r k) (hmay : R.mayDecode c ℓ.toDecodeLoop r = true)
    (hx : ℓ'.x r = ℓ.x r) (hunmasked : ∀ p, R.InBlock ℓ.toDecodeLoop r p → ℓ.x r p ≠ R.maskId)
    (hstart : ℓ'.decodingStart r =
      if R.earlyStop && R.generatedEosHit (ℓ'.x r) (c.promptLengths r)
        (ℓ.decodingStart r + R.blockLength) then c.totalLength
      else ℓ.decodingStart r + R.blockLength) : R.Decoding c σ ℓ' r (k+1) := by
  obtain ⟨hplace,hstop⟩ := h.start hmay
  have hfit := of_decide_eq_true hmay
  have hnext : ℓ.decodingStart r + R.blockLength = R.blockEnd σ r (k+1) := by
    rw [hplace,blockEnd_succ]
  have hstops (j : Nat) : R.stopsAt c σ ℓ' r j = R.stopsAt c σ ℓ r j :=
    stopsAt_congr fun p _ => congrFun hx p
  constructor
  · intro p hge hlt
    rw [hx]
    by_cases hp : p < R.blockEnd σ r k
    · exact h.unmasked p hge hp
    · apply hunmasked
      constructor
      · omega
      · omega
  · rw [hx]
    exact h.below
  · intro p hge _
    rw [hx]
    apply h.beyond p
    · rw [blockEnd_succ] at hge
      omega
    · rw [blockEnd_succ] at hge
      exact fun hin => absurd hin.2 (by omega)
  · intro _
    rw [← hnext]
    exact hfit
  · intro hearly j hj hlt
    rw [hstops]
    obtain hlt | rfl := Nat.lt_succ_iff_lt_or_eq.mp hlt
    · exact h.before hearly j hj hlt
    · exact hstop hearly (by omega)
  · rw [hnext] at hstart
    cases hhit : R.earlyStop && R.stopsAt c σ ℓ' r (k+1) with
    | true =>
      obtain ⟨hearly,hhit'⟩ := Bool.and_eq_true_iff.mp hhit
      unfold stopsAt at hhit
      rw [hhit,if_pos rfl] at hstart
      exact .inr ⟨hearly,Nat.succ_ne_zero k,hstart,hhit'⟩
    | false =>
      left
      have hno := hhit
      unfold stopsAt at hhit
      rw [hhit,if_neg Bool.false_ne_true] at hstart
      refine ⟨hstart,fun hearly _ => ?_⟩
      rwa [hearly,Bool.true_and] at hno

theorem Decoding.step (hgoing : R.Going c ℓ) (h : R.Decoding c σ ℓ r k)
    (hstep : R.step c ℓ = .ok ℓ') : ∃ k', R.Decoding c σ ℓ' r k' := by
  cases hparts : ℓ.parts with
  | nil =>
    rw [step_select hparts] at hstep
    cases hstep
    have hloop := select_loop (R := R) (c := c) (ℓ := ℓ)
    exact ⟨k,h.congr (by rw [hloop]) (by rw [hloop])⟩
  | cons part parts =>
    have hmay (hr : r ∈ part) : R.mayDecode c ℓ.toDecodeLoop r = true :=
      hgoing.fits.running r (by
        rw [hparts,List.flatten_cons]
        exact List.mem_append_left _ hr)
    cases hgoing.rowTurn hparts hstep r with
    | waits _ x start _ => exact ⟨k,h.congr x start⟩
    | works inside _ x start _ => exact ⟨k,h.works (hmay inside) x start⟩
    | finishes inside x unmasked _ start => exact ⟨k+1,h.finishes (hmay inside) x unmasked start⟩

theorem Runs.decoding {ps : List (Pass R.blockLength Kv)} (h : R.Runs c ℓ ps ℓ')
    (hgoing : R.Going c ℓ) (hrow : R.Decoding c σ ℓ r k) : ∃ k', R.Decoding c σ ℓ' r k' := by
  induction h generalizing k with
  | here => exact ⟨k,hrow⟩
  | step _ run _ ih =>
    obtain ⟨k',hrow'⟩ := hrow.step hgoing run
    exact ih (hgoing.step run) hrow'

theorem Decoding.decodedTo (h : R.Decoding c σ ℓ r k)
    (hend : R.mayDecode c ℓ.toDecodeLoop r = false) : R.DecodedTo σ ℓ r k := by
  refine ⟨h.unmasked,fun p hp => ?_⟩
  obtain hp | hp := hp
  · exact h.below p hp
  · apply h.beyond p hp
    rw [hend]
    exact fun hin => Bool.false_ne_true hin.1

/-- A row that does not decode any more was stopped, or is less than a block before its length. -/
theorem Decoding.ended (h : R.Decoding c σ ℓ r k)
    (hend : R.mayDecode c ℓ.toDecodeLoop r = false)
    (hle : σ.decodingStart r ≤ c.decodeLengths r) : R.Stopped c σ ℓ r ∨
      R.DecodedTo σ ℓ r k ∧
        (R.earlyStop = true → ∀ j, 1 ≤ j → j ≤ k → R.stopsAt c σ ℓ r j = false) ∧
        R.blockEnd σ r k ≤ c.decodeLengths r ∧
        c.decodeLengths r < R.blockEnd σ r k + R.blockLength := by
  obtain ⟨hplace,hstop⟩ | ⟨hearly,hk,_,hhit⟩ := h.place
  · right
    refine ⟨h.decodedTo hend,fun hearly j hj hjk => ?_,?_,?_⟩
    · obtain hlt | rfl := hjk.lt_or_eq
      · exact h.before hearly j hj hlt
      · exact hstop hearly (by omega)
    · by_cases hk : k = 0
      · rw [hk,blockEnd_zero]
        exact hle
      · exact h.bound hk
    · have hnot := of_decide_eq_false hend
      rw [hplace] at hnot
      omega
  · exact .inl ⟨hearly,k,by omega,h.decodedTo hend,hhit,h.before hearly⟩

end Rows

section Generate

variable {R : LladaRunner Logits Kv S} {g : Canvas} {unbounded : Bool} {σ : DecodeLoop Kv S}
  {ℓ : Looping Kv S} {r : Nat} {row : Nat × Nat}

/-- The runner once `preprocess_inputs` has made room for a canvas. -/
def preprocessInputs (R : LladaRunner Logits Kv S) (g : Canvas) : LladaRunner Logits Kv S :=
  { R with maxLength := max R.maxLength (g.totalLength R.toRunnerConfig) }

theorem startOf_le_decodeLength (unbounded : Bool) (row : Nat × Nat) :
    Canvas.startOf R.toRunnerConfig unbounded row.1 ≤
      Canvas.decodeLength R.toRunnerConfig unbounded row := by
  unfold Canvas.decodeLength
  split
  · calc Canvas.startOf R.toRunnerConfig unbounded row.1
        ≤ row.1 := Canvas.startOf_le _ _ _
      _ ≤ row.1+row.2 := Nat.le_add_right _ _
      _ ≤ _ := le_ceilTo R.blockLength_pos _
  · exact le_rfl

/-- Less than a block before its length a row is at it if and only if nothing is to be generated or
its decoding started on the block grid. -/
theorem blockEnd_eq_iff {k : Nat}
    (hstart : σ.decodingStart r = Canvas.startOf R.toRunnerConfig unbounded row.1)
    (hle : R.blockEnd σ r k ≤ Canvas.decodeLength R.toRunnerConfig unbounded row)
    (hlt : Canvas.decodeLength R.toRunnerConfig unbounded row <
      R.blockEnd σ r k + R.blockLength) :
    R.blockEnd σ r k = Canvas.decodeLength R.toRunnerConfig unbounded row ↔
      row.2 = 0 ∨ R.blockLength ∣ Canvas.startOf R.toRunnerConfig unbounded row.1 := by
  have hpos := R.blockLength_pos
  unfold Canvas.decodeLength at hle hlt ⊢
  unfold blockEnd at hle hlt ⊢
  rw [hstart] at hle hlt ⊢
  by_cases hgen : 0 < row.2
  · have hgrid := dvd_ceilTo R.blockLength (row.1+row.2)
    rw [if_pos hgen] at hle hlt ⊢
    have hmul : R.blockLength ∣ k*R.blockLength := Nat.dvd_mul_left _ _
    constructor
    · intro heq
      right
      rw [← heq] at hgrid
      exact (Nat.dvd_add_left hmul).mp hgrid
    · intro h
      obtain h | h := h
      · omega
      · obtain ⟨a,ha⟩ := Nat.dvd_add h hmul
        obtain ⟨b,hb⟩ := hgrid
        rw [ha,hb] at hle hlt ⊢
        have hab : b < a+1 := by
          apply Nat.lt_of_mul_lt_mul_left (a := R.blockLength)
          rw [Nat.mul_add,Nat.mul_one]
          exact hlt
        have hba : a ≤ b := Nat.le_of_mul_le_mul_left hle hpos
        rw [Nat.le_antisymm hba (Nat.lt_succ_iff.mp hab)]
  · rw [if_neg hgen] at hle hlt ⊢
    constructor
    · intro _
      exact .inl (by omega)
    · intro _
      omega

/-- With a decoder that finishes every block within `K` passes of its row, every run of a decode
loop of `generate` is bounded; while rows decode the inner selection is not empty, and what is
gathered is inside the token array and the cache length; unless the edit budget gives up before the
decoder does, the loop comes to its end. There each row is decoded exactly up to its length, or to
the end of the first block with a generated stop token, if and only if it was stopped, or has
nothing to generate, or its decoding started on the block grid. -/
theorem decode_loops_end (R : LladaRunner Logits Kv S) (g : Canvas) (unbounded : Bool)
    (σ : DecodeLoop Kv S) {K : Nat} (hpos : 0 < K)
    (hstarts : ∀ r row, g.rows[r]? = some row →
      σ.decodingStart r = Canvas.startOf R.toRunnerConfig unbounded row.1)
    (hbudget : ∀ r, σ.editBudget.blockIters r = 0)
    (hK : (R.preprocessInputs g).FinishesWithin (g.call R.toRunnerConfig unbounded)
      ((R.preprocessInputs g).enter (g.call R.toRunnerConfig unbounded) σ) K) :
    let P := R.preprocessInputs g
    let c := g.call R.toRunnerConfig unbounded
    (∀ ps ℓ, P.Runs c (P.enter c σ) ps ℓ →
      (ℓ.parts = [] → flagged c ℓ ≠ [] → P.current c ℓ (P.nextCacheLength c ℓ) ≠ []) ∧
      ∀ part parts, ℓ.parts = part::parts → ∀ r ∈ part,
        ℓ.decodingStart r + P.blockLength ≤ c.width ∧
          ℓ.decodingStart r + P.blockLength ≤ P.lengthOf ℓ part) ∧
    (∃ bound, ∀ n ps ℓ, runFor P c n (P.enter c σ) = some (ps,ℓ) → n ≤ bound) ∧
    (K ≤ σ.editBudget.maxBlockIters →
      (∀ ps ℓ, P.Runs c (P.enter c σ) ps ℓ → ∃ ℓ', P.step c ℓ = .ok ℓ') ∧
      ∃ ps ℓ, P.Runs c (P.enter c σ) ps ℓ ∧ done c ℓ = true) ∧
    ∀ ps ℓ, P.Runs c (P.enter c σ) ps ℓ → done c ℓ = true → ∀ r row, g.rows[r]? = some row →
      (P.Stopped c σ ℓ r ∨ P.Exhausted c σ ℓ r ↔
        P.Stopped c σ ℓ r ∨ row.2 = 0 ∨
          R.blockLength ∣ Canvas.startOf R.toRunnerConfig unbounded row.1) := by
  intro P c
  have hroom : c.totalLength ≤ P.maxLength := le_max_right _ _
  have hcounted : P.Counted c K [] (P.enter c σ) := by
    refine ⟨going_enter σ,fun r => ?_⟩
    have hzero : (P.enter c σ).editBudget.blockIters r = 0 := hbudget r
    rw [hzero]
    exact ⟨Nat.zero_le _,hpos⟩
  have hreached {ps : List (Pass P.blockLength Kv)} {ℓ : Looping Kv S}
      (h : P.Runs c (P.enter c σ) ps ℓ) : P.Counted c K ps ℓ := Runs.counted hK .here h hcounted
  refine ⟨fun ps ℓ h => ⟨?_,?_⟩,?_,fun hmax => ⟨?_,?_⟩,?_⟩
  · exact current_ne_nil hroom (hreached h).going.fits
  · intro part parts hparts r hr
    exact (hreached h).going.gathered le_rfl hparts hr
  · exact ⟨P.fuel c K (P.enter c σ),fun n ps ℓ => runFor_le hroom hK .here hcounted⟩
  · intro ps ℓ h
    obtain hok | ⟨_,hlt⟩ := (hreached h).step_cases le_rfl hK h
    · exact hok
    · rw [h.maxBlockIters] at hlt
      exact absurd hlt (not_lt.mpr hmax)
  · exact exists_done hroom le_rfl hK .here hcounted hmax
  · intro ps ℓ h hdone r row hrow
    have hgoing := (hreached h).going
    have hrange : r < c.numRows := (List.getElem?_eq_some_iff.mp hrow).1
    have hlength : c.decodeLengths r = Canvas.decodeLength R.toRunnerConfig unbounded row := by
      change ((g.rows[r]?).map (Canvas.decodeLength R.toRunnerConfig unbounded)).getD 0 = _
      rw [hrow]
      rfl
    have hend : P.mayDecode c ℓ.toDecodeLoop r = false := by
      rw [Bool.eq_false_iff]
      intro hmay
      have hmem := mem_flagged.mpr ⟨hrange,hgoing.flags r hmay⟩
      have hnil := List.isEmpty_iff.mp (Bool.and_eq_true_iff.mp hdone).2
      rw [hnil] at hmem
      cases hmem
    have hstart := hstarts r row hrow
    have hle : σ.decodingStart r ≤ c.decodeLengths r := by
      rw [hstart,hlength]
      exact startOf_le_decodeLength unbounded row
    obtain ⟨k,hrow'⟩ := h.decoding (going_enter σ) (decoding_enter (r := r))
    obtain hstopped | ⟨hdecoded,hstops,hbefore,hafter⟩ := hrow'.ended hend hle
    · exact iff_of_true (.inl hstopped) (.inl hstopped)
    · rw [hlength] at hbefore hafter
      have hiff := blockEnd_eq_iff hstart hbefore hafter
      constructor
      · intro hright
        obtain hstopped | ⟨k',hdecoded',hend',_⟩ := hright
        · exact .inl hstopped
        · right
          rw [hlength] at hend'
          have hlast : Canvas.decodeLength R.toRunnerConfig unbounded row <
              R.blockEnd σ r k' + R.blockLength :=
            hend'.symm.trans_lt (Nat.lt_add_of_pos_right R.blockLength_pos)
          exact (blockEnd_eq_iff hstart hend'.le hlast).mp hend'
      · intro hcond
        obtain hstopped | hcond := hcond
        · exact .inl hstopped
        · exact .inr ⟨k,hdecoded,(hiff.mpr hcond).trans hlength.symm,hstops⟩

end Generate

section Small

variable {R : LladaRunner Logits Kv S} {c : BatchesCall} {ℓ ℓ' : Looping Kv S}
  {ps : List (Pass R.blockLength Kv)}

theorem Runs.runFor (h : R.Runs c ℓ ps ℓ') : ∃ n, runFor R c n ℓ = some (ps,ℓ') := by
  induction h with
  | here => exact ⟨0,rfl⟩
  | step go run _ ih =>
    obtain ⟨n,hn⟩ := ih
    refine ⟨n+1,?_⟩
    unfold LladaRunner.runFor
    rw [go,run]
    dsimp only
    rw [hn]
    rfl

theorem runFor_none {n k : Nat} (h : LladaRunner.runFor R c n ℓ = none) :
    LladaRunner.runFor R c (n+k) ℓ = none := by
  induction n generalizing ℓ with
  | zero => cases h
  | succ n ih =>
    rw [Nat.succ_add]
    unfold LladaRunner.runFor at h ⊢
    split
    · next go run =>
      rw [go,run] at h
      rw [ih (Option.map_eq_none_iff.mp h)]
      rfl
    · rfl

/-- A loop whose runs are all looked at. -/
theorem finishesWithin_of_runFor {K N : Nat} (hnone : LladaRunner.runFor R c (N+1) ℓ = none)
    (hall : ∀ n ≤ N, ∀ x ∈ LladaRunner.runFor R c n ℓ, ∀ r ∈ x.2.parts.headD [],
      K ≤ passesAt x.1 r (x.2.decodingStart r) + 1 →
        R.blockFinished c.toDecodeCall x.2.toDecodeLoop (x.2.parts.headD [])
          (R.lengthOf x.2 (x.2.parts.headD [])) r = true) : R.FinishesWithin c ℓ K := by
  intro ps ℓ' h part parts hparts r hr hpasses
  obtain ⟨n,hn⟩ := h.runFor
  have hle : n ≤ N := by
    by_contra hlt
    have hlater : LladaRunner.runFor R c (N+1+(n-(N+1))) ℓ = none := runFor_none hnone
    rw [Nat.add_sub_cancel' (by omega),hn] at hlater
    cases hlater
  have hlast := hall n hle _ hn r
  rw [hparts] at hlast
  exact hlast hr hpasses

/-- A runner that prefills this much of a prompt at most. -/
def limitedRunner (prefillingLimit : Nat) :
    LladaRunner (Fin 2 → Fin 4 → Nat) Token (Nat → Unit) :=
  { smallRunner .dense false 2 with prefillingLimit }

/-- A prompt of two tokens to which two more are generated. -/
def promptCanvas : Canvas := ⟨2,[(2,2)],by decide⟩

def promptLoop (start : Nat) : DecodeLoop Token (Nat → Unit) :=
  { maskedLoop with
    x := fun _ p => if p < 2 then 1 else 0
    decodingStart := fun _ => start }

/-- Behind two prefilled tokens the two that are generated are decoded. -/
theorem promptCanvas_decoded : ∃ ps ℓ,
    ((limitedRunner 128).preprocessInputs promptCanvas).Runs
      (promptCanvas.call (limitedRunner 128).toRunnerConfig false)
      (((limitedRunner 128).preprocessInputs promptCanvas).enter
        (promptCanvas.call (limitedRunner 128).toRunnerConfig false) (promptLoop 2)) ps ℓ ∧
    (((limitedRunner 128).preprocessInputs promptCanvas).Stopped
        (promptCanvas.call (limitedRunner 128).toRunnerConfig false) (promptLoop 2) ℓ 0 ∨
      ((limitedRunner 128).preprocessInputs promptCanvas).Exhausted
        (promptCanvas.call (limitedRunner 128).toRunnerConfig false) (promptLoop 2) ℓ 0) := by
  have hK : ((limitedRunner 128).preprocessInputs promptCanvas).FinishesWithin
      (promptCanvas.call (limitedRunner 128).toRunnerConfig false)
      (((limitedRunner 128).preprocessInputs promptCanvas).enter
        (promptCanvas.call (limitedRunner 128).toRunnerConfig false) (promptLoop 2)) 2 := by
    apply finishesWithin_of_runFor (N := 4)
    · decide
    · decide
  have hstarts : ∀ r row, promptCanvas.rows[r]? = some row → (promptLoop 2).decodingStart r =
      Canvas.startOf (limitedRunner 128).toRunnerConfig false row.1 := by
    intro r row hrow
    cases List.mem_singleton.mp (List.mem_of_getElem? hrow)
    rfl
  have hends := decode_loops_end (limitedRunner 128) promptCanvas false (promptLoop 2)
    Nat.two_pos hstarts (fun _ => rfl) hK
  obtain ⟨ps,ℓ,hruns,hdone⟩ := (hends.2.2.1 (by decide)).2
  exact ⟨ps,ℓ,hruns,(hends.2.2.2 ps ℓ hruns hdone 0 (2,2) rfl).mpr (.inr (.inr (by decide)))⟩

/-- Where only one of them is prefilled, the last token is left out. -/
theorem promptCanvas_leaves_token :
    ((limitedRunner 1).preprocessInputs promptCanvas).FinishesWithin
      (promptCanvas.call (limitedRunner 1).toRunnerConfig false)
      (((limitedRunner 1).preprocessInputs promptCanvas).enter
        (promptCanvas.call (limitedRunner 1).toRunnerConfig false) (promptLoop 1)) 2 ∧
    (promptLoop 1).decodingStart 0 = Canvas.startOf (limitedRunner 1).toRunnerConfig false 2 ∧
    ∃ ps ℓ, ((limitedRunner 1).preprocessInputs promptCanvas).Runs
        (promptCanvas.call (limitedRunner 1).toRunnerConfig false)
        (((limitedRunner 1).preprocessInputs promptCanvas).enter
          (promptCanvas.call (limitedRunner 1).toRunnerConfig false) (promptLoop 1)) ps ℓ ∧
      done (promptCanvas.call (limitedRunner 1).toRunnerConfig false) ℓ = true ∧
      ¬(((limitedRunner 1).preprocessInputs promptCanvas).Stopped
          (promptCanvas.call (limitedRunner 1).toRunnerConfig false) (promptLoop 1) ℓ 0 ∨
        ((limitedRunner 1).preprocessInputs promptCanvas).Exhausted
          (promptCanvas.call (limitedRunner 1).toRunnerConfig false) (promptLoop 1) ℓ 0) := by
  refine ⟨?_,by decide,?_⟩
  · apply finishesWithin_of_runFor (N := 4)
    · decide
    · decide
  · obtain ⟨⟨ps,ℓ⟩,hrun,hdone⟩ : ∃ x,
        LladaRunner.runFor ((limitedRunner 1).preprocessInputs promptCanvas)
          (promptCanvas.call (limitedRunner 1).toRunnerConfig false) 4
          (((limitedRunner 1).preprocessInputs promptCanvas).enter
            (promptCanvas.call (limitedRunner 1).toRunnerConfig false) (promptLoop 1)) = some x ∧
        done (promptCanvas.call (limitedRunner 1).toRunnerConfig false) x.2 = true := by
      decide
    refine ⟨ps,ℓ,runs_of_runFor hrun,hdone,?_⟩
    intro hright
    obtain ⟨hearly,_⟩ | ⟨k,_,hend,_⟩ := hright
    · cases hearly
    · change 1+k*2 = 4 at hend
      omega

end Small

end LladaRunner

end FluxServe.Llada
