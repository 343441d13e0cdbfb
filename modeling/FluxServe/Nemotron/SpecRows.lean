import FluxServe.Nemotron.Paged
import FluxServe.Nemotron.Speculation

namespace FluxServe.Engine.NemotronRunner

variable {M : NemotronModel} (R : NemotronRunner M)

theorem maxDenoiseSteps_pos : 0 < R.maxDenoiseSteps := by
  have hpos := R.blockLength_pos
  unfold maxDenoiseSteps
  split <;> omega

/-- One turn of an active row. -/
def specTurn (r : SpecRow M) : Except NemotronFault (SpecRow M) :=
  if r.state = .draft then R.draftRow r else R.verifyRow r

theorem speculationTurn_eq_ok {rows rows' : List (SpecRow M)} :
    R.speculationTurn rows = .ok rows' ↔ turnRows SpecRow.active R.specTurn rows = .ok rows' := by
  unfold speculationTurn
  rw [twoPasses_eq_ok fun r hr => by simp_all]
  have hactive : (fun r : SpecRow M => decide (r.state = .draft) || decide (r.state = .verify)) =
      SpecRow.active := by
    funext r
    cases h : r.state <;> simp [SpecRow.active,h]
  rw [hactive]
  simp only [decide_eq_true_eq]
  rfl

section Draft

variable {cache : List M.Kv} {r : SpecRow M}

theorem draftSteps_resolved {prefixLength : Nat} (n : Nat) {block : List Token}
    (h : R.draftDecoder.hasMasks block = false) :
    R.draftSteps prefixLength cache n block = block := by
  cases n with
  | zero => rfl
  | succ n =>
    unfold draftSteps
    rw [h]
    rfl

theorem draftStep_resolved {logits : List M.Logits} {block : List Token}
    (h : R.draftDecoder.hasMasks block = false) : R.draftStep logits block = block :=
  R.draftDecoder.step_of_resolved h

/-- A row in its draft phase makes the draft steps of its block one turn at a time, and at least
one: on a block without masks that step does nothing. -/
theorem draftRow_visits (n : Nat) (r : SpecRow M) (hstate : r.state = .draft)
    (hsteps : r.draftSteps+(n+1) = R.maxDenoiseSteps) (hlong : r.prefixLength ≤ r.cache.length)
    (hcache : r.cache.take r.prefixLength = cache.take r.prefixLength) :
    (R.draftDecoder.hasMasks (R.draftSteps r.prefixLength cache (n+1) r.block) = false →
      ∃ steps cache', Visited SpecRow.active R.specTurn r { r with
          block := R.draftSteps r.prefixLength cache (n+1) r.block
          draftSteps := steps
          cache := cache'
          state := .verify } ∧
        cache'.take r.prefixLength = cache.take r.prefixLength ∧
        r.prefixLength ≤ cache'.length) ∧
    (R.draftDecoder.hasMasks (R.draftSteps r.prefixLength cache (n+1) r.block) = true →
      ∃ m e, Halts SpecRow.active R.specTurn r (.error e) m) := by
  have hactive : r.active = true := by simp [SpecRow.active,hstate]
  have hturn : R.specTurn r = R.draftRow r := by rw [specTurn,if_pos hstate]
  have hlogits : (commit true false r.block r.prefixLength r.cache).1 =
      denoise true r.block r.prefixLength cache := by
    simp only [commit,denoise,hcache]
  have hwritten : (commit true false r.block r.prefixLength r.cache).2.take r.prefixLength =
      cache.take r.prefixLength := (commit_take_before hlong).trans hcache
  have hlength : r.prefixLength ≤ (commit true false r.block r.prefixLength r.cache).2.length := by
    rw [commit_length hlong]
    omega
  -- the block after this turn, and what the remaining steps make of it
  obtain ⟨block,hblock⟩ : ∃ b, b = R.draftStep (denoise true r.block r.prefixLength cache) r.block :=
    ⟨_,rfl⟩
  have hrest : R.draftSteps r.prefixLength cache (n+1) r.block =
      R.draftSteps r.prefixLength cache n block := by
    cases hmasks : R.draftDecoder.hasMasks r.block with
    | false =>
      have hsame : block = r.block := by rw [hblock,R.draftStep_resolved hmasks]
      rw [R.draftSteps_resolved _ hmasks,hsame,R.draftSteps_resolved _ hmasks]
    | true =>
      rw [draftSteps,if_pos hmasks,hblock]
  rw [hrest]
  cases hmasks : R.draftDecoder.hasMasks block with
  | false =>
    rw [R.draftSteps_resolved _ hmasks]
    refine ⟨fun _ => ⟨r.draftSteps+1,_,.turn .start hactive ?_,hwritten,hlength⟩,fun h => ?_⟩
    · rw [hturn]
      unfold draftRow
      simp only [hlogits,← hblock,hmasks]
      rfl
    · rw [hmasks] at h
      cases h
  | true =>
    cases n with
    | zero =>
      refine ⟨fun h => ?_,fun _ => ⟨1,.draftLeftMasks (block.count R.maskId) (r.draftSteps+1)
        r.prefixLength,halts_error hactive ?_⟩⟩
      · rw [draftSteps,hmasks] at h
        cases h
      · rw [hturn]
        unfold draftRow
        simp only [hlogits,← hblock,hmasks]
        rw [if_neg (by simp),if_pos (by omega)]
        rfl
    | succ n =>
      obtain ⟨hdone,hraise⟩ := draftRow_visits n
        { r with
          block
          draftSteps := r.draftSteps+1
          cache := (commit true false r.block r.prefixLength r.cache).2 }
        hstate (by dsimp only; omega) hlength hwritten
      have hok : R.specTurn r = .ok { r with
          block
          draftSteps := r.draftSteps+1
          cache := (commit true false r.block r.prefixLength r.cache).2 } := by
        rw [hturn]
        unfold draftRow
        simp only [hlogits,← hblock,hmasks]
        rw [if_neg (by simp),if_neg (by omega)]
        rfl
      refine ⟨fun h => ?_,fun h => ?_⟩
      · obtain ⟨steps,cache',hvisited,hkept⟩ := hdone h
        exact ⟨steps,cache',.cons hactive hok hvisited,hkept⟩
      · obtain ⟨m,e,hends⟩ := hraise h
        exact ⟨m+1,e,hends.cons hactive hok⟩

end Draft

section Lockstep

variable {stop : Bool} {generationLength : Nat} {s s' t : SpecState M} {r : SpecRow M}

/-- A paged row carries the variables of the dense loop, and its pages the same prefix. -/
structure Tracks (stop : Bool) (generationLength : Nat) (s : SpecState M) (r : SpecRow M) :
    Prop where
  prefixed : r.prefixLength = s.prefixLength
  cache : r.cache.take s.prefixLength = s.cache.take s.prefixLength
  long : s.prefixLength ≤ s.cache.length
  rowLong : s.prefixLength ≤ r.cache.length
  seed : r.seed = s.nextToken
  emitted : r.emitted = s.emitted
  terminal : r.terminal = s.terminal
  budget : r.generationLength = generationLength
  stopOnEos : r.stopOnEos = stop
  unbounded : r.maxIterations = none

/-- A paged row stands where the dense loop tests its condition. -/
structure Agrees (stop : Bool) (generationLength : Nat) (s : SpecState M) (r : SpecRow M) : Prop
    extends Tracks stop generationLength s r where
  drafts : specRemains generationLength s = true → r.state = .draft ∧ r.draftSteps = 0 ∧
    R.speculativeBlock s.nextToken s.marker = .ok (r.block,r.forced)
  done : specRemains generationLength s = false → r.state = .done

/-- What the verification of a row makes of it before its next block. -/
def acceptRow (r : SpecRow M) (cache : List M.Kv) (accepted : List Token) : SpecRow M :=
  { r with
    cache
    forced := 0
    iterations := r.iterations+1
    draftSteps := 0
    prefixLength := r.prefixLength+accepted.length
    seed := accepted.getLastD r.seed
    emitted := r.emitted ++ upTo (R.stopsAt r.stopOnEos) accepted
    terminal := r.terminal || accepted.any (R.stopsAt r.stopOnEos) }

theorem verifyRow_eq (r : SpecRow M) (hunbounded : r.maxIterations = none) :
    R.verifyRow r =
      let y := commit false true r.block r.prefixLength r.cache
      let r' := R.acceptRow r y.2 (acceptedTokens (sampleTokens y.1) r.block r.forced)
      if r'.terminal || decide (r'.generationLength ≤ r'.emitted.length) then
        .ok { r' with state := .done }
      else do
        let x ← R.speculativeBlock r'.seed (R.thinkingBudget.due r'.emitted)
        return { r' with block := x.1, forced := x.2, state := .draft } := by
  unfold verifyRow acceptRow
  simp only [emit_eq,hunbounded,Option.any_none,Bool.or_false]
  rfl

variable {R}

theorem Tracks.accept (h : Tracks stop generationLength s r) (hs : s.terminal = false)
    {cache cache' : List M.Kv} {accepted : List Token}
    (hcache : cache'.take (s.prefixLength+accepted.length) =
      cache.take (s.prefixLength+accepted.length))
    (hlong : s.prefixLength+accepted.length ≤ cache.length)
    (hrow : s.prefixLength+accepted.length ≤ cache'.length) :
    Tracks stop generationLength (R.accept stop generationLength s cache accepted)
      (R.acceptRow r cache' accepted) where
  prefixed := congrArg (· + accepted.length) h.prefixed
  cache := hcache
  long := hlong
  rowLong := hrow
  seed := by simp only [NemotronRunner.accept,acceptRow,h.seed]
  emitted := by simp only [NemotronRunner.accept,acceptRow,h.emitted,h.stopOnEos]
  terminal := by
    simp only [NemotronRunner.accept,acceptRow,h.terminal,hs,h.stopOnEos,Bool.false_or]
  budget := h.budget
  stopOnEos := h.stopOnEos
  unbounded := h.unbounded

theorem Tracks.goes_on (h : Tracks stop generationLength s r) :
    (r.terminal || decide (r.generationLength ≤ r.emitted.length)) =
      !specRemains generationLength s := by
  rw [h.terminal,h.emitted,h.budget]
  unfold specRemains
  rw [Bool.not_and,Bool.not_not,Bool.or_comm,← decide_not]
  simp only [Nat.not_lt]

theorem draftBlock_eq (R : NemotronRunner M) (block : List Token) (prefixLength : Nat)
    (cache : List M.Kv) :
    R.draftBlock block prefixLength cache =
      if R.draftDecoder.hasMasks (R.draftSteps prefixLength cache R.maxDenoiseSteps block) then
        .error (.draftLeftMasks ((R.draftSteps prefixLength cache R.maxDenoiseSteps block).count
          R.maskId) R.maxDenoiseSteps prefixLength)
      else .ok (R.draftSteps prefixLength cache R.maxDenoiseSteps block) := rfl

/-- The turns of a row that drafts end as the draft of the dense loop does. -/
theorem Agrees.draft (h : R.Agrees stop generationLength s r)
    (go : specRemains generationLength s = true) :
    (∀ drafted, R.draftBlock r.block s.prefixLength s.cache = .ok drafted →
      ∃ r', Visited SpecRow.active R.specTurn r r' ∧ Tracks stop generationLength s r' ∧
        r'.block = drafted ∧ r'.forced = r.forced ∧ r'.state = .verify) ∧
    (∀ e, R.draftBlock r.block s.prefixLength s.cache = .error e →
      ∃ m e', Halts SpecRow.active R.specTurn r (.error e') m) := by
  obtain ⟨hstate,hsteps,_⟩ := h.drafts go
  obtain ⟨n,hn⟩ : ∃ n, n+1 = R.maxDenoiseSteps :=
    ⟨R.maxDenoiseSteps-1,Nat.sub_add_cancel R.maxDenoiseSteps_pos⟩
  have hcache : r.cache.take r.prefixLength = s.cache.take r.prefixLength := by
    rw [h.prefixed]
    exact h.cache
  obtain ⟨hdone,hraise⟩ := R.draftRow_visits n r hstate (by omega) (h.prefixed ▸ h.rowLong) hcache
  rw [hn] at hdone hraise
  refine ⟨fun drafted hd => ?_,fun e hd => ?_⟩
  · rw [draftBlock_eq,← h.prefixed] at hd
    split at hd
    · cases hd
    · rename_i hmasks
      injection hd with hd
      obtain ⟨steps,cache',hvisited,hkept,hlong⟩ := hdone (by simpa using hmasks)
      rw [h.prefixed] at hkept hlong
      exact ⟨_,hvisited,⟨h.prefixed,hkept,h.long,hlong,h.seed,h.emitted,h.terminal,h.budget,
        h.stopOnEos,h.unbounded⟩,hd,rfl,rfl⟩
  · rw [draftBlock_eq,← h.prefixed] at hd
    split at hd
    · rename_i hmasks
      exact hraise hmasks
    · cases hd

/-- The verification of a row and of the dense loop accept the same tokens. -/
theorem Tracks.verify (h : Tracks stop generationLength s r) (hs : s.terminal = false)
    (hstate : r.state = .verify) (hlen : r.forced < r.block.length) {x : SpecState M}
    (hx : x = R.accept stop generationLength s (commit false true r.block s.prefixLength s.cache).2
      (acceptedTokens (sampleTokens (commit false true r.block s.prefixLength s.cache).1) r.block
        r.forced)) :
    (∃ e, specRemains generationLength x = true ∧
      R.speculativeBlock x.nextToken x.marker = .error e ∧ R.specTurn r = .error e) ∨
    ∃ r', R.specTurn r = .ok r' ∧ R.Agrees stop generationLength x r' := by
  have hlogits : (commit false true r.block s.prefixLength r.cache).1 =
      (commit false true r.block s.prefixLength s.cache).1 := commit_congr h.cache
  obtain ⟨accepted,haccepted⟩ : ∃ a, a = acceptedTokens (sampleTokens
      (commit false true r.block s.prefixLength s.cache).1) r.block r.forced := ⟨_,rfl⟩
  have hverified : (sampleTokens (commit false true r.block s.prefixLength s.cache).1).length =
      r.block.length := by simp [sampleTokens]
  have hle := (acceptedTokens_length_le hverified hlen).1
  rw [← haccepted] at hle hx
  have hfits (c : List M.Kv) (hc : s.prefixLength ≤ c.length) :
      s.prefixLength+accepted.length ≤ (commit false true r.block s.prefixLength c).2.length := by
    rw [commit_length hc]
    omega
  have hcut : (commit false true r.block s.prefixLength r.cache).2.take
      (s.prefixLength+accepted.length) = (commit false true r.block s.prefixLength s.cache).2.take
        (s.prefixLength+accepted.length) := commit_take_congr h.cache h.rowLong h.long hle
  have htracks := h.accept (R := R) hs hcut (hfits _ h.long) (hfits _ h.rowLong)
  have hturn : R.specTurn r = R.verifyRow r := by rw [specTurn,if_neg (by simp [hstate])]
  have hverify := R.verifyRow_eq r h.unbounded
  simp only [h.prefixed,hlogits] at hverify
  rw [← haccepted,htracks.goes_on] at hverify
  rw [← hx] at htracks hverify
  cases hgo : specRemains generationLength x with
  | false =>
    rw [hgo] at hverify
    refine .inr ⟨_,hturn.trans hverify,⟨⟨htracks.prefixed,htracks.cache,htracks.long,htracks.rowLong,
      htracks.seed,htracks.emitted,htracks.terminal,htracks.budget,htracks.stopOnEos,
      htracks.unbounded⟩,fun h => ?_,fun _ => rfl⟩⟩
    rw [hgo] at h
    cases h
  | true =>
    have hgo' := specRemains_eq_true.mp hgo
    have hmarker : x.marker = R.thinkingBudget.due x.emitted := by
      rw [hx] at hgo' ⊢
      simp only [NemotronRunner.accept] at hgo' ⊢
      rw [if_neg (by omega)]
    have hsame : R.speculativeBlock (R.acceptRow r (commit false true r.block s.prefixLength
        r.cache).2 accepted).seed (R.thinkingBudget.due (R.acceptRow r (commit false true r.block
        s.prefixLength r.cache).2 accepted).emitted) = R.speculativeBlock x.nextToken x.marker := by
      rw [htracks.seed,htracks.emitted,hmarker]
    rw [hgo,hsame] at hverify
    cases hb : R.speculativeBlock x.nextToken x.marker with
    | error e =>
      rw [hb] at hverify
      exact .inl ⟨e,rfl,rfl,hturn.trans hverify⟩
    | ok y =>
      rw [hb] at hverify
      refine .inr ⟨_,hturn.trans hverify,⟨⟨htracks.prefixed,htracks.cache,htracks.long,
        htracks.rowLong,htracks.seed,htracks.emitted,htracks.terminal,htracks.budget,
        htracks.stopOnEos,htracks.unbounded⟩,fun _ => ⟨rfl,rfl,hb⟩,fun h => ?_⟩⟩
      rw [hgo] at h
      cases h

/-- A row ends as the dense loop does. -/
theorem Agrees.halts {res : Except NemotronFault (SpecState M)} {n : Nat}
    (h : R.Agrees stop generationLength s r)
    (hends : Halts (specRemains generationLength) (R.speculate stop generationLength) s res n) :
    (∀ t, res = .ok t → ∃ m r', Halts SpecRow.active R.specTurn r (.ok r') m ∧
      Tracks stop generationLength t r') ∧
    (∀ e, res = .error e → ∃ m e', Halts SpecRow.active R.specTurn r (.error e') m) := by
  induction n generalizing s r with
  | zero =>
    obtain ⟨hstop,rfl,_⟩ | ⟨_,_,_,_,hn⟩ | ⟨_,_,_,_,_,hn⟩ := hends.cases
    · refine ⟨fun t ht => ?_,fun e he => by cases he⟩
      cases ht
      exact ⟨0,r,halts_done (by simp [SpecRow.active,h.done hstop]),h.toTracks⟩
    · omega
    · omega
  | succ n ih =>
    obtain ⟨_,_,hn⟩ | ⟨go,e,hraise,rfl,_⟩ | ⟨go,u,k,hu,hk,hn⟩ := hends.cases
    · omega
    · refine ⟨fun t ht => (nomatch ht),fun e' _ => ?_⟩
      rw [speculate_eq,(h.drafts go).2.2] at hraise
      change (R.draftBlock r.block s.prefixLength s.cache >>= _) = _ at hraise
      cases hd : R.draftBlock r.block s.prefixLength s.cache with
      | error e => exact (h.draft go).2 e hd
      | ok drafted =>
        rw [hd] at hraise
        cases hraise
    · obtain rfl : k = n := by omega
      have hblock := (h.drafts go).2.2
      rw [speculate_eq,hblock] at hu
      change (R.draftBlock r.block s.prefixLength s.cache >>= _) = _ at hu
      cases hd : R.draftBlock r.block s.prefixLength s.cache with
      | error e =>
        rw [hd] at hu
        cases hu
      | ok drafted =>
        rw [hd] at hu
        injection hu with hu
        obtain ⟨r₁,hvisited,htracks,hdrafted,hforced,hstate⟩ := (h.draft go).1 drafted hd
        obtain ⟨hlen,hlt⟩ := R.speculativeBlock_spec hblock
        have hlength := (R.draftBlock_spec hd).1
        have hactive : r₁.active = true := by simp [SpecRow.active,hstate]
        obtain ⟨e,hgo,hblock',hturn⟩ | ⟨r₂,hturn,hagrees⟩ :=
          htracks.verify (specRemains_eq_true.mp go).2 hstate (by rw [hforced,hdrafted]; omega)
            (hu.symm.trans (by rw [hforced,hdrafted]))
        · obtain ⟨m,hm⟩ := hvisited.halts (halts_error hactive hturn)
          refine ⟨fun t ht => ?_,fun _ _ => ⟨m,e,hm⟩⟩
          have hraise : R.speculate stop generationLength u = .error e := by
            rw [speculate_eq,hblock']
            rfl
          have hres := hk.unique (halts_error hgo hraise)
          rw [ht] at hres
          cases hres
        · obtain ⟨hok,herror⟩ := ih hagrees hk
          refine ⟨fun t ht => ?_,fun e he => ?_⟩
          · obtain ⟨m,r',hm,ht'⟩ := hok t ht
            obtain ⟨m',hm'⟩ := hvisited.halts (hm.cons hactive hturn)
            exact ⟨m',r',hm',ht'⟩
          · obtain ⟨m,e',hm⟩ := herror e he
            obtain ⟨m',hm'⟩ := hvisited.halts (hm.cons hactive hturn)
            exact ⟨m',e',hm'⟩

end Lockstep

section Batch

variable {R} {rows : List OfflineRow} {outs : List (List Token)} {row : OfflineRow}
  {out : List Token}

/-- What a row of a batch comes to, by itself. -/
def RowYields (R : NemotronRunner M) (row : OfflineRow) (out : List Token) : Prop :=
  ∃ r, R.prefillSpecRow row = .ok r ∧
    ∃ r', (∃ m, Halts SpecRow.active R.specTurn r (.ok r') m) ∧ R.specOutput r' = .ok out

/-- The batch loop is the loop of each of its rows. -/
theorem runSpeculation_iff {rs rs' : List (SpecRow M)} :
    (∃ fuel, R.runSpeculation fuel rs = some (.ok rs')) ↔
      List.Forall₂ (fun r r' => ∃ m, Halts SpecRow.active R.specTurn r (.ok r') m) rs rs' :=
  tryLoop_rows_iff fun _ _ => R.speculationTurn_eq_ok

theorem startSpecRows_eq_ok {rs : List (SpecRow M)} :
    R.startSpecRows rows = .ok rs ↔ R.specPositions rows ≤ R.positionLimit ∧
      List.Forall₂ (fun row r => R.prefillSpecRow row = .ok r) rows rs := by
  rw [startSpecRows,R.checkContext_bind_eq_ok,mapM_eq_ok]

/-- A batch returns what its rows yield, when its positions are within the limit. -/
theorem specGenerate_iff :
    (∃ fuel, R.specGenerate fuel rows = some (.ok outs)) ↔
      R.specPositions rows ≤ R.positionLimit ∧ List.Forall₂ R.RowYields rows outs := by
  unfold specGenerate
  constructor
  · rintro ⟨fuel,h⟩
    cases hstart : R.startSpecRows rows with
    | error e =>
      rw [hstart] at h
      cases h
    | ok rs =>
      rw [hstart] at h
      obtain ⟨hlimit,hrows⟩ := startSpecRows_eq_ok.mp hstart
      obtain ⟨r,hr,hout⟩ := Option.bind_eq_some_iff.mp h
      injection hout with hout
      cases r with
      | error e => cases hout
      | ok rs' =>
        exact ⟨hlimit,forall₂_exists.mpr ⟨rs,hrows,forall₂_exists.mpr
          ⟨rs',runSpeculation_iff.mp ⟨fuel,hr⟩,mapM_eq_ok.mp hout⟩⟩⟩
  · rintro ⟨hlimit,hrows⟩
    obtain ⟨rs,hrs,hyields⟩ := forall₂_exists.mp hrows
    obtain ⟨rs',hloops,houts⟩ := forall₂_exists.mp hyields
    obtain ⟨fuel,hfuel⟩ := runSpeculation_iff.mpr hloops
    refine ⟨fuel,?_⟩
    rw [startSpecRows_eq_ok.mpr ⟨hlimit,hrs⟩]
    dsimp only
    rw [hfuel]
    exact congrArg some (mapM_eq_ok.mpr houts)

theorem specGenerate_mono {fuel fuel' : Nat} {r : Except NemotronFault (List (List Token))}
    (h : R.specGenerate fuel rows = some r) (hle : fuel ≤ fuel') :
    R.specGenerate fuel' rows = some r := by
  unfold specGenerate at h ⊢
  split at h
  · exact h
  · obtain ⟨x,hx,hout⟩ := Option.bind_eq_some_iff.mp h
    exact Option.bind_eq_some_iff.mpr ⟨x,tryLoop_mono hx hle,hout⟩

/-- The token that the prefill of a prompt predicts. -/
def firstToken (R : NemotronRunner M) (prompt : List Token) : Token :=
  match R.prefill prompt [] with
  | .ok x => R.seedFrom x.1
  | .error _ => R.maskId

/-- A row enters the batch where the dense loop starts, but with nothing forced yet. -/
theorem prefillSpecRow_agrees (hp : row.prompt ≠ []) :
    ∃ r, R.prefillSpecRow row = .ok r ∧ r.generationLength = row.generationLength ∧
      r.stopOnEos = row.stopOnEos ∧ (row.generationLength ≤ 1 → r.active = false) ∧
      ∀ s₀, R.startSpec row.stopOnEos row.prompt row.generationLength = .ok s₀ →
        s₀.emitted = [R.firstToken row.prompt] ∧ s₀.marker = R.thinkingBudget.due s₀.emitted ∧
        (s₀.terminal = true ↔ R.stopsAt row.stopOnEos (R.firstToken row.prompt) = true) ∧
        R.Agrees row.stopOnEos row.generationLength { s₀ with marker := none } r := by
  obtain ⟨logits,filled,filled',hrun,hrun',hsame,hlong,hlong'⟩ := R.prefill_congr hp []
    (List.replicate (R.specLength row.prompt.length row.generationLength) M.zero)
  have hfirst : R.firstToken row.prompt = R.seedFrom logits := by
    unfold firstToken
    rw [hrun]
  have hrow : R.prefillSpecRow row = .ok {
      generationLength := row.generationLength
      prefixLength := row.prompt.length
      block := R.maskedBlock (R.seedFrom logits)
      seed := R.seedFrom logits
      stopOnEos := row.stopOnEos
      emitted := [R.seedFrom logits]
      terminal := row.stopOnEos && R.decoder.isEos (R.seedFrom logits)
      state :=
        if (row.stopOnEos && R.decoder.isEos (R.seedFrom logits)) ||
          decide (row.generationLength ≤ 1) then .done else .draft
      cache := filled } := by
    unfold prefillSpecRow
    rw [hrun]
    rfl
  refine ⟨_,hrow,rfl,rfl,fun h => by simp [SpecRow.active,h],fun s₀ hs₀ => ?_⟩
  obtain ⟨_,x,hx,rfl⟩ := startSpec_eq_ok.mp hs₀
  rw [hrun'] at hx
  injection hx with hx
  subst hx
  refine ⟨by rw [hfirst]; rfl,rfl,by rw [hfirst]; rfl,
    ⟨rfl,hsame,hlong',hlong,rfl,rfl,rfl,rfl,rfl,rfl⟩,fun hgo => ?_,fun hstop => ?_⟩
  · obtain ⟨hshort,hterminal⟩ := specRemains_eq_true.mp hgo
    have hstate : ¬((row.stopOnEos && R.decoder.isEos (R.seedFrom logits)) ||
        decide (row.generationLength ≤ 1)) = true := by
      simp only [enterSpec,List.length_singleton] at hshort hterminal
      simp only [hterminal,Bool.false_or,decide_eq_true_eq]
      omega
    exact ⟨if_neg hstate,rfl,rfl⟩
  · have hstate : ((row.stopOnEos && R.decoder.isEos (R.seedFrom logits)) ||
        decide (row.generationLength ≤ 1)) = true := by
      obtain hshort | hterminal := specRemains_eq_false.mp hstop
      · simp only [enterSpec,List.length_singleton] at hshort
        simp [hshort]
      · simp only [enterSpec] at hterminal
        simp [hterminal]
    exact if_pos hstate

/-- What a row yields is what the dense loop yields when nothing is forced at its start. -/
theorem rowYields_iff (hp : row.prompt ≠ []) {s₀ : SpecState M}
    (hs₀ : R.startSpec row.stopOnEos row.prompt row.generationLength = .ok s₀) :
    R.RowYields row out ↔ ∃ t, (∃ n, Halts (specRemains row.generationLength)
      (R.speculate row.stopOnEos row.generationLength) { s₀ with marker := none } (.ok t) n) ∧
      R.cutAtEos row.stopOnEos (t.emitted.take row.generationLength) = .ok out := by
  obtain ⟨r,hr,_,_,_,hstart⟩ := prefillSpecRow_agrees (R := R) hp
  obtain ⟨_,_,_,hagrees⟩ := hstart s₀ hs₀
  have houtput (t : SpecState M) (r' : SpecRow M)
      (h : Tracks row.stopOnEos row.generationLength t r') : R.specOutput r' =
        R.cutAtEos row.stopOnEos (t.emitted.take row.generationLength) := by
    unfold specOutput
    rw [h.stopOnEos,h.emitted,h.budget]
  constructor
  · rintro ⟨r₁,hr₁,r',⟨m,hm⟩,hout⟩
    rw [hr] at hr₁
    injection hr₁ with hr₁
    subst hr₁
    obtain ⟨res,n,_,hn⟩ := specLoop_halts R row.stopOnEos row.generationLength
      { s₀ with marker := none }
    obtain ⟨hok,herror⟩ := hagrees.halts hn
    cases res with
    | error e =>
      obtain ⟨m',e',hm'⟩ := herror e rfl
      exact absurd (hm.unique hm') (by simp)
    | ok t =>
      obtain ⟨m',r'',hm',htracks⟩ := hok t rfl
      have hsame := hm.unique hm'
      injection hsame with hsame
      subst hsame
      exact ⟨t,⟨n,hn⟩,by rw [← houtput t r' htracks]; exact hout⟩
  · rintro ⟨t,⟨n,hn⟩,hout⟩
    obtain ⟨m,r',hm,htracks⟩ := (hagrees.halts hn).1 t rfl
    exact ⟨r,hr,r',⟨m,hm⟩,by rw [houtput t r' htracks]; exact hout⟩

/-- A row without a token to generate yields none, but the cut of nothing raises. -/
theorem rowYields_zero (hp : row.prompt ≠ []) (h0 : row.generationLength = 0) :
    R.RowYields row out ↔ row.stopOnEos = false ∧ out = [] := by
  obtain ⟨r,hr,hbudget,hstop,hdone,_⟩ := prefillSpecRow_agrees (R := R) hp
  have hends : Halts SpecRow.active R.specTurn r (.ok r) 0 := halts_done (hdone (by omega))
  have hout : R.specOutput r = R.cutAtEos row.stopOnEos [] := by
    unfold specOutput
    rw [hstop,hbudget,h0,List.take_zero]
  have hiff : R.RowYields row out ↔ R.cutAtEos row.stopOnEos [] = .ok out := by
    constructor
    · rintro ⟨r₁,hr₁,r',⟨m,hm⟩,hr'⟩
      rw [hr] at hr₁
      injection hr₁ with hr₁
      subst hr₁
      have hsame := hm.unique hends
      injection hsame with hsame
      subst hsame
      rw [← hout]
      exact hr'
    · intro h
      exact ⟨r,hr,r,⟨0,hends⟩,hout.trans h⟩
  rw [hiff]
  cases row.stopOnEos with
  | true =>
    constructor
    · intro h
      cases h
    · rintro ⟨h,_⟩
      cases h
  | false =>
    constructor
    · intro h
      injection h with h
      exact ⟨rfl,h.symm⟩
    · rintro ⟨_,rfl⟩
      rfl

end Batch

end FluxServe.Engine.NemotronRunner
