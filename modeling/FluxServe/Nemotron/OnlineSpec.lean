import FluxServe.Nemotron.Serving
import FluxServe.Nemotron.SpecAgreement

namespace FluxServe.Engine.NemotronRunner

variable {M : NemotronModel} {R : NemotronRunner M}

/-- The tokens that a verification of a drafted block accepts. -/
def acceptedAt (prefixLength : Nat) (cache : List M.Kv) (drafted : List Token) (forced : Nat) :
    List Token :=
  acceptedTokens (sampleTokens (commit false true drafted prefixLength cache).1) drafted forced

theorem acceptedAt_length_le (prefixLength : Nat) (cache : List M.Kv) {drafted : List Token}
    {forced : Nat} (h : forced < drafted.length) :
    (acceptedAt prefixLength cache drafted forced).length ≤ drafted.length ∧
      acceptedAt prefixLength cache drafted forced ≠ [] :=
  acceptedTokens_length_le (by simp [sampleTokens]) h

/-- The verification of a row that is bound to one iteration is its last. -/
theorem verifyRow_last {r : SpecRow M} (hbound : r.maxIterations = some 1) :
    R.verifyRow r = .ok { R.acceptRow r (commit false true r.block r.prefixLength r.cache).2
      (acceptedAt r.prefixLength r.cache r.block r.forced) with state := .done } := by
  unfold verifyRow acceptRow acceptedAt
  simp only [emit_eq,hbound,Option.any_some,Nat.le_add_left,decide_true,Bool.or_true,if_true]
  rfl

/-- What one speculation makes of a row: it accepts what the verifier does over the prefix, and
holds its KV. -/
structure Speculated (R : NemotronRunner M) (r r' : SpecRow M) (cache : List M.Kv)
    (drafted accepted : List Token) : Prop where
  accepted_eq : accepted = acceptedAt r.prefixLength cache drafted r.forced
  prefixed : r'.prefixLength = r.prefixLength+accepted.length
  seed : r'.seed = accepted.getLastD r.seed
  emitted : r'.emitted = r.emitted ++ upTo (R.stopsAt r.stopOnEos) accepted
  cache : r'.cache.take (r.prefixLength+accepted.length) =
    (commit false true drafted r.prefixLength cache).2.take (r.prefixLength+accepted.length)
  long : r.prefixLength+accepted.length ≤ r'.cache.length

/-- A row that is bound to one iteration drafts, verifies and is done, unless its draft raises. -/
theorem specRow_once (r : SpecRow M) (cache : List M.Kv) (hstate : r.state = .draft)
    (hsteps : r.draftSteps = 0) (hbound : r.maxIterations = some 1)
    (hforced : r.forced < r.block.length) (hlong : r.prefixLength ≤ cache.length)
    (hrow : r.prefixLength ≤ r.cache.length)
    (hcache : r.cache.take r.prefixLength = cache.take r.prefixLength) :
    (∀ drafted, R.draftBlock r.block r.prefixLength cache = .ok drafted →
      ∃ m r', Halts SpecRow.active R.specTurn r (.ok r') m ∧
        ∃ accepted, R.Speculated r r' cache drafted accepted) ∧
    (∀ e, R.draftBlock r.block r.prefixLength cache = .error e →
      ∃ m e', Halts SpecRow.active R.specTurn r (.error e') m) := by
  obtain ⟨n,hn⟩ : ∃ n, n+1 = R.maxDenoiseSteps :=
    ⟨R.maxDenoiseSteps-1,Nat.sub_add_cancel R.maxDenoiseSteps_pos⟩
  obtain ⟨hdone,hraise⟩ := R.draftRow_visits n r hstate (by omega) hrow hcache
  rw [hn] at hdone hraise
  constructor
  · intro drafted hd
    obtain ⟨hlen,_,_⟩ := R.draftBlock_spec hd
    rw [draftBlock_eq] at hd
    split at hd
    · cases hd
    · next hmasks =>
      injection hd with hd
      obtain ⟨steps,cache',hvisited,hkept,hlong'⟩ := hdone (by simpa using hmasks)
      rw [hd] at hvisited
      obtain ⟨v,hv⟩ : ∃ v : SpecRow M, v = { r with
        block := drafted, draftSteps := steps, cache := cache', state := .verify } := ⟨_,rfl⟩
      have hverify := R.verifyRow_last (r := v) (by rw [hv]; exact hbound)
      have hturn : R.specTurn v = R.verifyRow v := by rw [specTurn,if_neg (by simp [hv])]
      have hactive : v.active = true := by simp [SpecRow.active,hv]
      have hsame : acceptedAt v.prefixLength v.cache v.block v.forced =
          acceptedAt r.prefixLength cache drafted r.forced := by
        rw [hv]
        unfold acceptedAt
        rw [commit_congr hkept]
      have hroom : r.forced < drafted.length := by
        rw [hlen]
        exact hforced
      have hle := (acceptedAt_length_le r.prefixLength cache hroom).1
      rw [← hv] at hvisited
      obtain ⟨m,hm⟩ := hvisited.halts ((halts_done (by simp [SpecRow.active])).cons hactive
        (hturn.trans hverify))
      refine ⟨m,_,hm,acceptedAt r.prefixLength cache drafted r.forced,rfl,?_,?_,?_,?_,?_⟩
      · simp only [acceptRow,hsame]
        rw [hv]
      · simp only [acceptRow,hsame]
        rw [hv]
      · simp only [acceptRow,hsame]
        rw [hv]
      · simp only [acceptRow]
        rw [hv]
        exact commit_take_congr hkept hlong' hlong hle
      · simp only [acceptRow]
        rw [hv,commit_length hlong']
        dsimp only
        omega
  · intro e hd
    rw [draftBlock_eq] at hd
    split at hd
    · next hmasks => exact hraise hmasks
    · cases hd

/-- What a row of a plan call comes to. -/
def SpecEnds (R : NemotronRunner M) (r r' : SpecRow M) : Prop :=
  ∃ m, Halts SpecRow.active R.specTurn r (.ok r') m

theorem speculation_rowwise (R : NemotronRunner M) : Rowwise R.speculation R.SpecEnds where
  run_iff _ _ := runSpeculation_iff
  result_rid _ _ _ _ := rfl
  settle_state _ _ := rfl

section Row

variable {rid : RequestId} {state : RequestState} {s s' : Slot M} {r : StepResult} {seed : Token}
  {prefixLength : Nat}

/-- What a request counts as produced when it decodes. -/
def produced (state : RequestState) (seed : Token) (prefixLength : Nat) : List Token :=
  if decodesFirst state prefixLength then [seed] else state.outputIds

/-- The decode row of a request with a seed and a prefix. -/
theorem decodes_iff (hseed : s.requestSeed = some seed) (hpref : s.requestPrefix = some prefixLength) :
    Decodes R.speculation R.SpecEnds rid state s s' r ↔ ∃ x row', R.speculativeBlock seed
        (R.thinkingBudget.due (produced state seed prefixLength)) = .ok x ∧
      R.SpecEnds (R.planSpecRow state s.cache seed prefixLength x) row' ∧
      s' = { s with
        requestSeed := some row'.seed
        requestPrefix := some row'.prefixLength
        cache := row'.cache } ∧
      r = R.stepResult rid state row'.emitted (row'.prefixLength-prefixLength) false := by
  have henter : R.enterSpecRow rid state s =
      R.speculativeBlock seed (R.thinkingBudget.due (produced state seed prefixLength)) >>=
        fun x => .ok (R.planSpecRow state s.cache seed prefixLength x) := by
    unfold enterSpecRow
    rw [hseed,hpref]
    rfl
  constructor
  · rintro ⟨row,row',hrow,hends,hs',hr⟩
    change R.enterSpecRow rid state s = .ok row at hrow
    rw [henter] at hrow
    cases hx : R.speculativeBlock seed
        (R.thinkingBudget.due (produced state seed prefixLength)) with
    | error e =>
      rw [hx] at hrow
      cases hrow
    | ok x =>
      rw [hx] at hrow
      injection hrow with hrow
      refine ⟨x,row',rfl,?_,hs',?_⟩
      · rw [hrow]
        exact hends
      · rw [hr]
        change R.stepResult rid state row'.emitted
          (row'.prefixLength-s.requestPrefix.getD 0) false = _
        rw [hpref,Option.getD_some]
  · rintro ⟨x,row',hx,hends,hs',hr⟩
    refine ⟨_,row',?_,hends,hs',?_⟩
    · change R.enterSpecRow rid state s = _
      rw [henter,hx]
      rfl
    · rw [hr]
      change _ = R.stepResult rid state row'.emitted
        (row'.prefixLength-s.requestPrefix.getD 0) false
      rw [hpref,Option.getD_some]

end Row

section Accepted

variable {prefixLength : Nat} {cache : List M.Kv} {drafted : List Token} {forced : Nat}

theorem matching_subset (verified guesses : List Token) :
    ∀ t ∈ matching verified guesses, t ∈ verified := by
  induction verified generalizing guesses with
  | nil => simp [matching]
  | cons v verified ih =>
    cases guesses with
    | nil => simp [matching]
    | cons g guesses =>
      unfold matching
      split
      · intro t ht
        obtain rfl | ht := List.mem_cons.mp ht
        · exact List.mem_cons_self
        · exact List.mem_cons_of_mem _ (ih guesses t ht)
      · intro t ht
        rw [List.mem_singleton.mp ht]
        exact List.mem_cons_self

/-- All that is matched is guessed, but for the last token. -/
theorem matching_guessed (verified guesses : List Token) :
    ∀ t ∈ matching verified guesses, t ∈ guesses ∨ (matching verified guesses).getLast? = some t := by
  induction verified generalizing guesses with
  | nil => simp [matching]
  | cons v verified ih =>
    cases guesses with
    | nil => simp [matching]
    | cons g guesses =>
      unfold matching
      split
      · next hvg =>
        intro t ht
        obtain rfl | ht := List.mem_cons.mp ht
        · exact .inl (by rw [hvg]; exact List.mem_cons_self)
        · obtain hg | hlast := ih guesses t ht
          · exact .inl (List.mem_cons_of_mem _ hg)
          · refine .inr ?_
            rw [List.getLast?_cons,hlast]
            rfl
      · intro t ht
        rw [List.mem_singleton.mp ht]
        exact .inr rfl

/-- The verifier predicts no mask, whatever it is run on. -/
def VerifierNeverMasks (R : NemotronRunner M) : Prop :=
  ∀ past tokens, ∀ x ∈ M.forward false true past tokens, M.argmax x.2 ≠ R.maskId

theorem acceptedAt_unmasked (prefixLength : Nat) (cache : List M.Kv) (forced : Nat)
    (h : R.VerifierNeverMasks) (hdrafted : R.maskId ∉ drafted) :
    R.maskId ∉ acceptedAt prefixLength cache drafted forced := by
  intro hmem
  obtain hforced | hmatched := List.mem_append.mp hmem
  · exact hdrafted (List.drop_subset _ _ (List.take_subset _ _ hforced))
  · have hverified := List.drop_subset _ _ (matching_subset _ _ _ hmatched)
    simp only [sampleTokens,commit,List.map_map,List.mem_map] at hverified
    obtain ⟨x,hx,hmask⟩ := hverified
    exact h _ _ x hx hmask

/-- Of the accepted tokens only the last may be a mask. -/
theorem acceptedAt_last (hdrafted : R.maskId ∉ drafted)
    (h : R.maskId ∈ acceptedAt prefixLength cache drafted forced) :
    (acceptedAt prefixLength cache drafted forced).getLast? = some R.maskId := by
  obtain hforced | hmatched := List.mem_append.mp h
  · exact absurd (List.drop_subset _ _ (List.take_subset _ _ hforced)) hdrafted
  · obtain hguessed | hlast := matching_guessed _ _ _ hmatched
    · exact absurd (List.drop_subset _ _ hguessed) hdrafted
    · unfold acceptedAt acceptedTokens
      rw [List.getLast?_append,hlast]
      rfl

end Accepted

section Online

variable {rid : RequestId} {asked state : RequestState} {out outputs generated : List Token}
  {σ : SpecState M} {s s' : Slot M} {r : StepResult}

/-- The dense loop goes on from here to an output. -/
def Pending (R : NemotronRunner M) (stop : Bool) (generationLength : Nat) (σ : SpecState M)
    (out : List Token) : Prop :=
  ∃ t n, Halts (specRemains generationLength) (R.speculate stop generationLength) σ (.ok t) n ∧
    R.cutAtEos stop (t.emitted.take generationLength) = .ok out

/-- What a row that brings a request to what the dense loop has emitted returns. -/
theorem stepResult_emitted (rid : RequestId) (state : RequestState) (generated : List Token)
    (hemitted : state.outputIds ++ generated = σ.emitted)
    (hstop : ∀ t ∈ state.outputIds, R.stopsAt (!state.ignoreEos) t = false)
    (hshort : state.outputIds.length ≤ state.maxNewTokens) (hunmasked : R.maskId ∉ σ.emitted)
    (hterminal : σ.terminal = σ.emitted.any (R.stopsAt (!state.ignoreEos))) (hne : σ.emitted ≠ [])
    (hgen : state.maxNewTokens ≠ 0)
    (hfuture : R.Pending (!state.ignoreEos) state.maxNewTokens σ out) (reserve : Nat) :
    (specRemains state.maxNewTokens σ = false →
      (R.stepResult rid state generated reserve false).finished = true ∧
      state.outputIds ++ (R.stepResult rid state generated reserve false).tokenIds =
        withoutLast (R.stopsAt (!state.ignoreEos)) out) ∧
    (specRemains state.maxNewTokens σ = true →
      (R.stepResult rid state generated reserve false).finished = false ∧
      state.outputIds ++ (R.stepResult rid state generated reserve false).tokenIds =
        σ.emitted) := by
  obtain ⟨htokens,hfinished⟩ := stepResult_eq R rid state generated reserve false hstop hshort
    fun hmem => hunmasked (by
      rw [← hemitted]
      exact List.take_subset _ _ ((List.takeWhile_prefix _).subset hmem))
  rw [hemitted] at htokens hfinished
  constructor
  · intro hdone
    obtain ⟨t,n,hn,hout⟩ := hfuture
    have hsame := hn.unique (halts_done hdone)
    injection hsame with hsame
    subst hsame
    rw [R.cutAtEos_eq _ fun _ => take_ne_nil hne hgen] at hout
    injection hout with hout
    refine ⟨hfinished.mpr ?_,?_⟩
    · obtain hlong | hterm := specRemains_eq_false.mp hdone
      · exact .inr hlong
      · by_cases hlong : state.maxNewTokens ≤ t.emitted.length
        · exact .inr hlong
        · rw [List.take_of_length_le (by omega),← hterminal,hterm]
          exact .inl rfl
    · rw [htokens,← hout,withoutLast_upTo]
  · intro hgo
    obtain ⟨hlen,hterm⟩ := specRemains_eq_true.mp hgo
    have hall : σ.emitted.take state.maxNewTokens = σ.emitted :=
      List.take_of_length_le hlen.le
    rw [hall,← hterminal,hterm] at hfinished
    rw [hall] at htokens
    constructor
    · rw [← Bool.not_eq_true,hfinished]
      rintro (hbad | hbad)
      · cases hbad
      · omega
    · rw [htokens]
      apply List.takeWhile_eq_self_iff.mpr
      rw [hterm] at hterminal
      simpa using hterminal.symm

/-- A request between plan calls stands where the dense loop tests its condition; before its first
decode row it has not returned the token of the prefill. -/
structure OnlineAt (R : NemotronRunner M) (asked : RequestState) (out outputs : List Token)
    (σ : SpecState M) (s : Slot M) : Prop where
  state : ∃ b, s.state = some (asked.served b outputs 0)
  seed : s.requestSeed = some σ.nextToken
  prefixed : s.requestPrefix = some σ.prefixLength
  cache : s.cache.take σ.prefixLength = σ.cache.take σ.prefixLength
  long : σ.prefixLength ≤ σ.cache.length
  slotLong : σ.prefixLength ≤ s.cache.length
  emitted : (outputs = [] ∧ σ.prefixLength = asked.inputIds.length ∧ σ.emitted = [σ.nextToken]) ∨
    (outputs = σ.emitted ∧ outputs ≠ [] ∧ specRemains asked.maxNewTokens σ = true)
  marker : σ.marker = R.thinkingBudget.due σ.emitted
  terminal : σ.terminal = σ.emitted.any (R.stopsAt (!asked.ignoreEos))
  unmasked : R.maskId ∉ σ.emitted
  future : R.Pending (!asked.ignoreEos) asked.maxNewTokens σ out

theorem OnlineAt.emitted_ne_nil (h : R.OnlineAt asked out outputs σ s) : σ.emitted ≠ [] := by
  obtain ⟨_,_,hone⟩ | ⟨hsame,hne,_⟩ := h.emitted
  · rw [hone]
    exact List.cons_ne_nil _ _
  · rw [← hsame]
    exact hne

/-- What counts as produced is what the dense loop has emitted. -/
theorem OnlineAt.produced (h : R.OnlineAt asked out outputs σ s) (b : Bool) :
    produced (asked.served b outputs 0) σ.nextToken σ.prefixLength = σ.emitted := by
  unfold NemotronRunner.produced decodesFirst
  obtain ⟨hnil,hlen,hone⟩ | ⟨hsame,hne,_⟩ := h.emitted
  · simp [RequestState.served,hnil,hlen,hone]
  · cases outputs with
    | nil => exact absurd rfl hne
    | cons t ts => simpa [RequestState.served] using hsame

theorem OnlineAt.outputs_stop (h : R.OnlineAt asked out outputs σ s) :
    (∀ t ∈ outputs, R.stopsAt (!asked.ignoreEos) t = false) ∧
      outputs.length ≤ asked.maxNewTokens := by
  obtain ⟨hnil,_,_⟩ | ⟨hsame,_,hgo⟩ := h.emitted
  · rw [hnil]
    exact ⟨fun t ht => (List.not_mem_nil ht).elim,Nat.zero_le _⟩
  · obtain ⟨hlen,hterm⟩ := specRemains_eq_true.mp hgo
    have hnone := h.terminal
    rw [hterm] at hnone
    rw [hsame]
    refine ⟨?_,hlen.le⟩
    simpa using hnone.symm

/-- What the decode row of a request has emitted before it runs. -/
theorem OnlineAt.row_emitted (h : R.OnlineAt asked out outputs σ s) (b : Bool)
    (x : List Token × Nat) :
    outputs ++ (R.planSpecRow (asked.served b outputs 0) s.cache σ.nextToken σ.prefixLength
      x).emitted = σ.emitted := by
  unfold planSpecRow decodesFirst
  obtain ⟨hnil,hlen,hone⟩ | ⟨hsame,hne,_⟩ := h.emitted
  · simp [RequestState.served,hnil,hlen,hone]
  · cases outputs with
    | nil => exact absurd rfl hne
    | cons t ts => simpa [RequestState.served] using hsame

/-- The decode row of a request drafts exactly when the dense loop goes on. -/
theorem OnlineAt.row_state (h : R.OnlineAt asked out outputs σ s) (b : Bool)
    (x : List Token × Nat) :
    (R.planSpecRow (asked.served b outputs 0) s.cache σ.nextToken σ.prefixLength x).state =
      if specRemains asked.maxNewTokens σ then .draft else .done := by
  unfold planSpecRow decodesFirst
  obtain ⟨hnil,hlen,hone⟩ | ⟨hsame,hne,hgo⟩ := h.emitted
  · have hterm := h.terminal
    rw [hone] at hterm
    have hgo : specRemains asked.maxNewTokens σ =
        (decide (1 < asked.maxNewTokens) && !σ.terminal) := by
      unfold specRemains
      rw [hone,List.length_singleton]
    rw [hgo,hterm]
    simp only [RequestState.served,hnil,hlen,decide_true,List.isEmpty_nil,Bool.and_self,
      Bool.true_and,List.length_nil,Nat.sub_zero,List.any_cons,List.any_nil,Bool.or_false,stopsAt]
    by_cases hone' : asked.maxNewTokens ≤ 1
    · have hmax : max 1 asked.maxNewTokens = 1 := by omega
      have hnot : ¬ 1 < asked.maxNewTokens := by omega
      simp [hmax,hnot]
    · have hmax : max 1 asked.maxNewTokens = asked.maxNewTokens := by omega
      have hlt : 1 < asked.maxNewTokens := by omega
      rw [hmax,decide_eq_false hone',decide_eq_true hlt,Bool.or_false,Bool.true_and]
      cases !asked.ignoreEos && R.decoder.isEos σ.nextToken <;> rfl
  · rw [hgo]
    cases outputs with
    | nil => exact absurd rfl hne
    | cons t ts => simp [RequestState.served]

/-- One iteration of the dense loop is what a drafting decode row does. -/
theorem OnlineAt.iteration (hsure : R.VerifierNeverMasks) (h : R.OnlineAt asked out outputs σ s)
    (hgo : specRemains asked.maxNewTokens σ = true) (b : Bool) :
    ∃ x row' σ', R.speculativeBlock σ.nextToken σ.marker = .ok x ∧
      R.SpecEnds (R.planSpecRow (asked.served b outputs 0) s.cache σ.nextToken σ.prefixLength x)
        row' ∧
      R.speculate (!asked.ignoreEos) asked.maxNewTokens σ = .ok σ' ∧
      R.Pending (!asked.ignoreEos) asked.maxNewTokens σ' out ∧
      row'.seed = σ'.nextToken ∧ row'.prefixLength = σ'.prefixLength ∧
      outputs ++ row'.emitted = σ'.emitted ∧
      row'.cache.take σ'.prefixLength = σ'.cache.take σ'.prefixLength ∧
      σ'.prefixLength ≤ σ'.cache.length ∧ σ'.prefixLength ≤ row'.cache.length ∧
      σ'.terminal = σ'.emitted.any (R.stopsAt (!asked.ignoreEos)) ∧ R.maskId ∉ σ'.emitted := by
  obtain ⟨t,n,hn,hout⟩ := h.future
  obtain ⟨hbad,_,_⟩ | ⟨_,_,_,hbad,_⟩ | ⟨_,σ',k,hrun,hk,_⟩ := hn.cases
  · rw [hgo] at hbad
    cases hbad
  · cases hbad
  have hrun' := hrun
  rw [speculate_eq] at hrun
  cases hx : R.speculativeBlock σ.nextToken σ.marker with
  | error e =>
    rw [hx] at hrun
    cases hrun
  | ok x =>
    rw [hx] at hrun
    change (R.draftBlock x.1 σ.prefixLength σ.cache >>= _) = _ at hrun
    cases hd : R.draftBlock x.1 σ.prefixLength σ.cache with
    | error e =>
      rw [hd] at hrun
      cases hrun
    | ok drafted =>
      rw [hd] at hrun
      injection hrun with hrun
      obtain ⟨row,hrow⟩ : ∃ row, row = R.planSpecRow (asked.served b outputs 0) s.cache σ.nextToken
        σ.prefixLength x := ⟨_,rfl⟩
      obtain ⟨hblock,hforced⟩ := R.speculativeBlock_spec hx
      obtain ⟨hlen,hdrafted,_⟩ := R.draftBlock_spec hd
      have hstate : row.state = .draft := by
        rw [hrow,h.row_state b x,if_pos hgo]
      have honce := specRow_once (R := R) row σ.cache hstate (by rw [hrow]; rfl)
        (by rw [hrow]; rfl) (by rw [hrow]; change x.2 < x.1.length; omega)
        (by rw [hrow]; exact h.long) (by rw [hrow]; exact h.slotLong) (by rw [hrow]; exact h.cache)
      obtain ⟨m,row',hends,accepted,hspec⟩ := honce.1 drafted (by rw [hrow]; exact hd)
      have hpref : row.prefixLength = σ.prefixLength := by rw [hrow]; rfl
      have hstop : row.stopOnEos = !asked.ignoreEos := by rw [hrow]; rfl
      have hseed : row.seed = σ.nextToken := by rw [hrow]; rfl
      have haccepted : accepted = acceptedAt σ.prefixLength σ.cache drafted x.2 := by
        rw [hspec.accepted_eq,hpref,hrow]
        rfl
      have hσ' : σ' = R.accept (!asked.ignoreEos) asked.maxNewTokens σ
          (commit false true drafted σ.prefixLength σ.cache).2 accepted := by
        rw [← hrun,haccepted]
        rfl
      have hroom : x.2 < drafted.length := by omega
      have hle := (acceptedAt_length_le σ.prefixLength σ.cache hroom).1
      rw [← haccepted] at hle
      refine ⟨x,row',σ',rfl,⟨m,by rw [← hrow]; exact hends⟩,hrun',⟨t,k,hk,hout⟩,?_,?_,?_,?_,?_,?_,
        ?_,?_⟩
      · rw [hspec.seed,hseed,hσ']
        rfl
      · rw [hspec.prefixed,hpref,hσ']
        rfl
      · rw [hspec.emitted,hstop,← List.append_assoc,hrow,h.row_emitted b x,hσ']
        rfl
      · rw [hσ']
        have hcache := hspec.cache
        rw [hpref] at hcache
        exact hcache
      · rw [hσ']
        change σ.prefixLength+accepted.length ≤
          (commit false true drafted σ.prefixLength σ.cache).2.length
        rw [commit_length h.long]
        omega
      · rw [hσ']
        have hlong := hspec.long
        rw [hpref] at hlong
        exact hlong
      · have hterm := h.terminal
        rw [(specRemains_eq_true.mp hgo).2] at hterm
        rw [hσ']
        simp only [NemotronRunner.accept,List.any_append,← hterm,Bool.false_or,upTo_any]
      · rw [hσ']
        intro hmem
        obtain hold | hnew := List.mem_append.mp hmem
        · exact h.unmasked hold
        · have hnot := acceptedAt_unmasked σ.prefixLength σ.cache x.2 hsure hdrafted
          rw [← haccepted] at hnot
          exact hnot ((upTo_isPrefix _ _).subset hnew)

/-- The row of a request in a plan call that it is part of does not raise. -/
theorem OnlineAt.decodes (hsure : R.VerifierNeverMasks) (h : R.OnlineAt asked out outputs σ s)
    (hroom : R.blockLength = 1 → R.thinkingBudget.setting = none) (hstate : s.state = some state) :
    ∃ s' r, Decodes R.speculation R.SpecEnds rid state s s' r := by
  obtain ⟨b,hserved⟩ := h.state
  rw [hstate] at hserved
  injection hserved with hserved
  subst hserved
  suffices hrow : ∃ x row', R.speculativeBlock σ.nextToken σ.marker = .ok x ∧
      R.SpecEnds (R.planSpecRow (asked.served b outputs 0) s.cache σ.nextToken σ.prefixLength x)
        row' by
    obtain ⟨x,row',hx,hends⟩ := hrow
    refine ⟨_,_,(decodes_iff h.seed h.prefixed).mpr ⟨x,row',?_,hends,rfl,rfl⟩⟩
    rw [h.produced b,← h.marker]
    exact hx
  cases hgo : specRemains asked.maxNewTokens σ with
  | true =>
    obtain ⟨x,row',_,hx,hends,_⟩ := h.iteration hsure hgo b
    exact ⟨x,row',hx,hends⟩
  | false =>
    obtain ⟨x,hx⟩ : ∃ x, R.speculativeBlock σ.nextToken σ.marker = .ok x := by
      unfold speculativeBlock
      split
      · exact ⟨_,rfl⟩
      · next t ht =>
        have hpos := R.blockLength_pos
        have hne : R.blockLength ≠ 1 := by
          intro hone
          rw [h.marker,ThinkingBudget.due,hroom hone] at ht
          simp at ht
        rw [if_pos (by omega)]
        exact ⟨_,rfl⟩
    refine ⟨x,_,hx,0,halts_done ?_⟩
    rw [SpecRow.active,h.row_state b x,hgo]
    rfl

/-- A decode row of a request either ends it with the output of the dense runner or brings it to
where the dense loop stands after its next iteration. -/
theorem OnlineAt.decode (hsure : R.VerifierNeverMasks) (hgen : asked.maxNewTokens ≠ 0)
    (hunfinished : asked.finishedReason = none) (h : R.OnlineAt asked out outputs σ s)
    (hstate : s.state = some state)
    (hdec : Decodes R.speculation R.SpecEnds rid state s s' r) :
    (r.finished = true ∧
      outputs ++ r.tokenIds = withoutLast (R.stopsAt (!asked.ignoreEos)) out) ∨
    (r.finished = false ∧ ∃ σ', R.OnlineAt asked out σ'.emitted σ' (s'.deliver r) ∧
      outputs ++ r.tokenIds = σ'.emitted ∧ outputs.length < σ'.emitted.length) := by
  obtain ⟨b,hserved⟩ := h.state
  have hsame := hstate
  rw [hserved] at hsame
  injection hsame with hsame
  subst hsame
  obtain ⟨x,row',hx,hends,rfl,rfl⟩ := (decodes_iff h.seed h.prefixed).mp hdec
  rw [h.produced b,← h.marker] at hx
  obtain ⟨hstop,hshort⟩ := h.outputs_stop
  cases hgo : specRemains asked.maxNewTokens σ with
  | false =>
    -- the dense loop is not entered, and the row is done before it runs
    have hidle : row' = R.planSpecRow (asked.served b outputs 0) s.cache σ.nextToken
        σ.prefixLength x := by
      obtain ⟨m,hm⟩ := hends
      have hdone := hm.unique (halts_done (by
        rw [SpecRow.active,h.row_state b x,hgo]
        rfl))
      injection hdone
    have hresult := (stepResult_emitted rid (asked.served b outputs 0) row'.emitted
      (by rw [hidle]; exact h.row_emitted b x) hstop hshort h.unmasked
      h.terminal h.emitted_ne_nil hgen h.future (row'.prefixLength-σ.prefixLength)).1 hgo
    exact .inl hresult
  | true =>
    obtain ⟨x',row'',σ',hx',hends',hrun,hfuture,hseed,hpref,hemitted,hcache,hlong,hlong',hterm,
      hmask⟩ := h.iteration hsure hgo b
    rw [hx] at hx'
    injection hx' with hx'
    subst hx'
    have hrow : row' = row'' := by
      obtain ⟨m,hm⟩ := hends
      obtain ⟨m',hm'⟩ := hends'
      have hends'' := hm.unique hm'
      injection hends''
    subst hrow
    obtain ⟨⟨tokens,hne,hgrown⟩,hmarker⟩ := speculate_emits hrun
    have hne' : σ'.emitted ≠ [] := by
      rw [hgrown]
      exact List.append_ne_nil_of_right_ne_nil _ hne
    obtain ⟨hdone,hon⟩ := stepResult_emitted rid (asked.served b outputs 0) row'.emitted
      hemitted hstop hshort hmask hterm hne' hgen hfuture
      (row'.prefixLength-σ.prefixLength)
    cases hgo' : specRemains asked.maxNewTokens σ' with
    | false => exact .inl (hdone hgo')
    | true =>
      obtain ⟨hfin,htokens⟩ := hon hgo'
      refine .inr ⟨hfin,σ',?_,htokens,?_⟩
      · have hdeliver := deliver_running (s := { s with
            requestSeed := some row'.seed
            requestPrefix := some row'.prefixLength
            cache := row'.cache }) hstate
          (by simp [RequestState.finished,RequestState.served,hunfinished]) hfin
        rw [hdeliver]
        refine ⟨⟨b,?_⟩,congrArg some hseed,congrArg some hpref,hcache,hlong,hlong',
          .inr ⟨rfl,hne',hgo'⟩,hmarker hgo',hterm,hmask,hfuture⟩
        have hcompleted : (R.stepResult rid (asked.served b outputs 0) row'.emitted
            (row'.prefixLength-σ.prefixLength) false).decodeBlockCompleted = false := rfl
        simp only [hcompleted,Bool.false_eq_true,if_false]
        rw [← htokens]
        rfl
      · rw [hgrown,List.length_append]
        have hpos := List.length_pos_of_ne_nil hne
        have hle : outputs.length ≤ σ.emitted.length := by
          obtain ⟨hnil,_,_⟩ | ⟨hsame,_,_⟩ := h.emitted
          · rw [hnil]
            exact Nat.zero_le _
          · rw [hsame]
        omega

theorem VerifierNeverMasks.neverMasks (h : R.VerifierNeverMasks) : R.NeverMasks := by
  intro ts hts
  obtain ⟨xs,hxs⟩ : ∃ xs, xs = M.forward false true [] ts := ⟨_,rfl⟩
  have hne : xs ≠ [] := by
    apply List.ne_nil_of_length_pos
    rw [hxs,M.forward_length]
    exact List.length_pos_of_ne_nil hts
  obtain ⟨ys,y,rfl⟩ := List.eq_nil_or_concat xs |>.resolve_left hne
  have hlast : R.next ts = M.argmax y.2 := by
    unfold next seedFrom sampleTokens
    rw [← hxs]
    simp
  rw [hlast]
  apply h [] ts
  rw [← hxs,List.concat_eq_append]
  exact List.mem_append_right _ (List.mem_singleton_self y)

/-- A prefilled request stands where the dense loop is entered. -/
theorem onlineAt_prefilled (hm : M.Causal) (hsure : R.VerifierNeverMasks)
    (hgen : asked.maxNewTokens ≠ 0) (hp : asked.inputIds ≠ [])
    (hdense : R.DenseYields ⟨asked.inputIds,asked.maxNewTokens,!asked.ignoreEos⟩ out)
    (h : Prefilling R true asked asked.inputIds.length s) :
    ∃ σ, R.OnlineAt asked out [] σ s := by
  obtain ⟨s₀,hs₀,t,⟨n,hn⟩,hout⟩ := (denseYields_iff hgen).mp hdense
  obtain ⟨_,hbad⟩ | ⟨hbad,_⟩ | ⟨_,s₁,hs₁,hat,hlen,hmarker⟩ :=
    startSpec_cases (R := R) hm (!asked.ignoreEos) asked.inputIds asked.maxNewTokens
  · rw [hs₀] at hbad
    cases hbad
  · exact absurd hbad hp
  rw [hs₀] at hs₁
  injection hs₁ with hs₁
  subst hs₁
  obtain ⟨⟨seed,hseed,hnext⟩,hpref⟩ := h.ready hp rfl
  have hgreedy : s₀.nextToken = R.next asked.inputIds := unrolls_singleton.mp hat.greedy
  have hprefixed : s₀.prefixLength = asked.inputIds.length := by
    have hlength := hat.length
    rwa [List.length_nil,Nat.add_zero] at hlength
  have hone : s₀.emitted = [s₀.nextToken] := by
    rw [hat.emitted,List.nil_append,upTo_cons]
    split <;> rfl
  refine ⟨s₀,h.state,?_,?_,?_,?_,?_,.inl ⟨rfl,hprefixed,hone⟩,hmarker,?_,?_,⟨t,n,hn,hout⟩⟩
  · rw [hseed,hnext hm,hgreedy]
  · rw [hpref rfl,hprefixed]
  · have hcausal := hat.causal
    rw [List.append_nil] at hcausal
    rw [hcausal,hprefixed,h.causal hm,List.take_length]
  · rw [hprefixed,hlen]
    unfold specLength
    omega
  · rw [hprefixed]
    exact h.long
  · rw [hat.terminal,hone,List.nil_append]
  · rw [hone,hgreedy]
    intro hmem
    exact hsure.neverMasks _ hp (List.mem_singleton.mp hmem).symm

end Online

section Served

variable {rid : RequestId} {asked : RequestState} {out : List Token} {w₀ w : Served M} {done : Nat}
  {visited : List (Slot M)} {results : List StepResult}

/-- After so many decode rows a request stands in the dense loop, one token further at least for
each of them. -/
def StandsAt (R : NemotronRunner M) (asked : RequestState) (out : List Token) (n : Nat)
    (outputs : List Token) (s : Slot M) : Prop :=
  n ≤ outputs.length ∧ ∃ σ, R.OnlineAt asked out outputs σ s

theorem DenseYields.prompt_ne_nil {row : OfflineRow} (h : R.DenseYields row out)
    (h0 : row.generationLength ≠ 0) : row.prompt ≠ [] := by
  obtain ⟨s₀,hs₀,_⟩ := (denseYields_iff h0).mp h
  obtain ⟨_,x,hx,_⟩ := startSpec_eq_ok.mp hs₀
  intro hnil
  rw [hnil] at hx
  cases hx

theorem standsAt_prefilled (hm : M.Causal) (hsure : R.VerifierNeverMasks)
    (hgen : asked.maxNewTokens ≠ 0)
    (hdense : R.DenseYields ⟨asked.inputIds,asked.maxNewTokens,!asked.ignoreEos⟩ out) (s : Slot M)
    (h : Prefilling R true asked asked.inputIds.length s) : R.StandsAt asked out 0 [] s :=
  ⟨Nat.zero_le _,onlineAt_prefilled hm hsure hgen (hdense.prompt_ne_nil hgen) hdense h⟩

theorem serving_stands (hm : M.Causal) (hsure : R.VerifierNeverMasks)
    (hgen : asked.maxNewTokens ≠ 0) (h₀ : Submitted asked (w₀ rid))
    (hdense : R.DenseYields ⟨asked.inputIds,asked.maxNewTokens,!asked.ignoreEos⟩ out)
    (hrun : Serving R.speculation R rid asked.inputIds w₀ done visited results w) :
    Streams R true asked (R.StandsAt asked out) (withoutLast (R.stopsAt (!asked.ignoreEos)) out)
      done visited results (w rid) := by
  apply Serving.streams (speculation_rowwise R) h₀
    (standsAt_prefilled hm hsure hgen hdense) ?_ hrun
  intro n outputs s state s' r ⟨hcount,σ,hat⟩ hstate hdec
  obtain hended | ⟨hfin,σ',hat',hout,hgrown⟩ :=
    hat.decode hsure hgen h₀.unfinished hstate hdec
  · exact .inl hended
  · refine .inr ⟨hfin,?_,σ',?_⟩
    · rw [hout]
      omega
    · rw [hout]
      exact hat'

/-- Online self-speculation. What a request has returned when it is finished is the output of the
dense runner, without the end of sequence that the generation stops at. Until then every decode row
has returned a token at least, and its row raises in no batch, except that a block of one position
has no place for a marker. -/
theorem speculation_agrees (hm : M.Causal) (hsure : R.VerifierNeverMasks)
    (hgen : asked.maxNewTokens ≠ 0) (h₀ : Submitted asked (w₀ rid))
    (hdense : R.DenseYields ⟨asked.inputIds,asked.maxNewTokens,!asked.ignoreEos⟩ out)
    (hrun : Serving R.speculation R rid asked.inputIds w₀ done visited results w) :
    (endedBy results = true →
      tokensOf results = withoutLast (R.stopsAt (!asked.ignoreEos)) out) ∧
    ∀ state, (w rid).state = some state →
      visited.length ≤ (tokensOf results).length ∧
      (tokensOf results).length < asked.maxNewTokens ∧
      (done = asked.inputIds.length → (R.blockLength = 1 → R.thinkingBudget.setting = none) →
        ∀ op : PlanOp, rid ∈ op.decodes → (∀ p ∈ op.prefills, p.tokens ≠ []) →
          (∀ other ∈ op.decodes, other ≠ rid → ∀ state, (w other).state = some state →
            state.finished = false →
            ∃ s' r, Decodes R.speculation R.SpecEnds other state (w other) s' r) →
          ∃ fuel x, R.speculation.executePlan R fuel op w = some (.ok x)) := by
  have h := serving_stands hm hsure hgen h₀ hdense hrun
  refine ⟨h.output,fun state hstate => ⟨?_,?_,?_⟩⟩
  · obtain ⟨_,⟨hv,_,_⟩ | ⟨_,hcount,_⟩⟩ := h.live state hstate
    · rw [hv]
      exact Nat.zero_le _
    · exact hcount
  · obtain ⟨_,⟨_,htokens,_⟩ | ⟨_,_,σ,hat⟩⟩ := h.live state hstate
    · rw [htokens,List.length_nil]
      omega
    · obtain ⟨hnil,_,_⟩ | ⟨hsame,_,hgo⟩ := hat.emitted
      · rw [hnil,List.length_nil]
        omega
      · rw [hsame]
        exact (specRemains_eq_true.mp hgo).1
  · intro hd hroom op hmem hchunks hothers
    rw [hd] at h
    obtain ⟨_,σ,hat⟩ := h.stands (standsAt_prefilled hm hsure hgen hdense) hstate
    apply executePlan_total (speculation_rowwise R) hchunks
    intro other hother state' hstate' hfin
    by_cases hsame : other = rid
    · rw [hsame] at hstate' ⊢
      exact hat.decodes hsure hroom hstate'
    · exact hothers other hother hsame state' hstate' hfin

/-- A request with the prompt 5. -/
def askedFive (maxNewTokens : Nat) : RequestState where
  rid := [5]
  inputIds := [5]
  maxNewTokens

/-- The request alone. -/
def servedFive (M : NemotronModel) (maxNewTokens : Nat) : Served M := fun rid =>
  if rid = [5] then { state := some (askedFive maxNewTokens) } else {}

def prefillFive : PlanOp where
  prefills := [⟨[5],0,[5]⟩]
  distinct := by decide

def decodeFive : PlanOp where
  decodes := [[5]]
  distinct := by decide

theorem servedFive_submitted (M : NemotronModel) (maxNewTokens : Nat) :
    Submitted (askedFive maxNewTokens) (servedFive M maxNewTokens [5]) :=
  ⟨rfl,rfl,rfl,rfl,rfl,rfl⟩

theorem prefillFive_serving (K : PagedRunner M) {maxNewTokens : Nat} {returned : List StepResult}
    (call : K.executeForwardOp R 9 prefillFive (servedFive M maxNewTokens) = some (returned,w)) :
    Serving K R [5] [5] (servedFive M maxNewTokens) 1 [] (resultsOf [5] returned) w :=
  .prefill .start (List.mem_singleton_self _) rfl rfl (List.prefix_refl _) call

theorem decodeFive_serving {K : PagedRunner M} {returned : List StepResult} {w' : Served M}
    (run : Serving K R [5] [5] w₀ 1 visited results w)
    (call : K.executeForwardOp R 9 decodeFive w = some (returned,w')) :
    Serving K R [5] [5] w₀ 1 (visited ++ [w [5]]) (results ++ resultsOf [5] returned) w' :=
  .decode run (List.mem_singleton_self _) call

theorem steppingRunner_verifier (thinkingBudget : ThinkingBudget) :
    (steppingRunner thinkingBudget).VerifierNeverMasks :=
  fun past tokens => steppingModel_argmax false true past tokens

/-- A prefill and one decode row return two tokens. -/
theorem speculation_agrees_stepping : ∃ visited results w,
    Serving (steppingRunner {}).speculation (steppingRunner {}) [5] [5]
      (servedFive steppingModel 2) 1 visited results w ∧
    endedBy results = true ∧ tokensOf results = [6,7] := by
  have hdense : (steppingRunner {}).DenseYields ⟨[5],2,true⟩ [6,7] := ⟨2,rfl⟩
  have hpre : Serving (steppingRunner {}).speculation (steppingRunner {}) [5] [5]
      (servedFive steppingModel 2) 1 [] _ _ := prefillFive_serving _ rfl
  have hrun := decodeFive_serving hpre rfl
  refine ⟨_,_,_,hrun,rfl,?_⟩
  exact (speculation_agrees steppingModel_causal (steppingRunner_verifier {}) (by decide)
    (servedFive_submitted _ 2) hdense hrun).1 rfl

end Served

end FluxServe.Engine.NemotronRunner
