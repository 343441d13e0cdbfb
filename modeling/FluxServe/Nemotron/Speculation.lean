import FluxServe.Nemotron.Causal

namespace FluxServe.Engine.NemotronRunner

variable {M : NemotronModel} (R : NemotronRunner M) {stop : Bool} {prompt : List Token}
  {generationLength : Nat} {s s' : SpecState M}

/-- Whether a token ends the output. -/
def stopsAt (stop : Bool) (t : Token) : Bool := stop && R.decoder.isEos t

theorem emit_eq (stop : Bool) (tokens : List Token) :
    R.emit stop tokens = (upTo (R.stopsAt stop) tokens,tokens.any (R.stopsAt stop)) := by
  induction tokens with
  | nil => rfl
  | cons t tokens ih =>
    unfold emit
    rw [upTo_cons,List.any_cons,ih]
    cases h : R.stopsAt stop t with
    | true =>
      rw [stopsAt] at h
      simp [h]
    | false =>
      rw [stopsAt] at h
      simp [h]

theorem cutAtEos_eq (stop : Bool) {generated : List Token} (h : stop = true → generated ≠ []) :
    R.cutAtEos stop generated = .ok (upTo (R.stopsAt stop) generated) := by
  unfold cutAtEos
  cases stop with
  | false =>
    have hnone : upTo (R.stopsAt false) generated = generated := upTo_of_none fun _ _ => rfl
    rw [hnone]
    rfl
  | true =>
    have hne : generated.isEmpty = false := by simpa using h rfl
    have hstops : R.stopsAt true = R.decoder.isEos := by funext t; simp [stopsAt]
    have hindex : R.decoder.firstEosIndex generated = .ok (generated.findIdx R.decoder.isEos) := by
      unfold ThresholdDecoder.firstEosIndex
      rw [hne]
      rfl
    rw [if_pos rfl,hindex,hstops,upTo_eq_take]
    change Except.ok _ = Except.ok _
    rw [← List.take_take,List.take_of_length_le (Nat.le_refl generated.length)]

section Draft

variable {prefixLength : Nat} {cache : List M.Kv} {block drafted : List Token}

theorem draftSteps_spec (n : Nat) (block : List Token) :
    (R.draftSteps prefixLength cache n block).length = block.length ∧
    ∀ (i : Nat) (t : Token), block[i]? = some t → t ≠ R.maskId →
      (R.draftSteps prefixLength cache n block)[i]? = some t := by
  induction n generalizing block with
  | zero => exact ⟨rfl,fun i t h _ => h⟩
  | succ n ih =>
    unfold draftSteps
    split
    · obtain ⟨hlen,hkeep⟩ :=
        ih (R.draftStep (denoise true block prefixLength cache) block)
      refine ⟨by rw [hlen]; exact ThresholdDecoder.step_length _,fun i t h ht => ?_⟩
      exact hkeep i t (R.draftDecoder.step_decided h ht) ht
    · exact ⟨rfl,fun i t h _ => h⟩

/-- A draft fills the masks of its block and leaves the rest. -/
theorem draftBlock_spec (h : R.draftBlock block prefixLength cache = .ok drafted) :
    drafted.length = block.length ∧ R.maskId ∉ drafted ∧
    ∀ (i : Nat) (t : Token), block[i]? = some t → t ≠ R.maskId → drafted[i]? = some t := by
  unfold draftBlock at h
  dsimp only at h
  split at h
  · cases h
  · rename_i hmasks
    injection h with h
    subst h
    obtain ⟨hlen,hkeep⟩ := R.draftSteps_spec R.maxDenoiseSteps block
    exact ⟨hlen,fun hmem => hmasks (decide_eq_true hmem),hkeep⟩

/-- All a draft raises is that it left masks. -/
theorem draftBlock_error {e : NemotronFault} (h : R.draftBlock block prefixLength cache = .error e) :
    ∃ remaining, e = .draftLeftMasks remaining R.maxDenoiseSteps prefixLength := by
  unfold draftBlock at h
  dsimp only at h
  split at h
  · injection h with h
    exact ⟨_,h.symm⟩
  · cases h

@[simp] theorem maskedBlock_length (seed : Token) :
    (R.maskedBlock seed).length = R.blockLength := by simp [maskedBlock]

theorem maskedBlock_head (seed : Token) : (R.maskedBlock seed)[0]? = some seed := by
  have hpos := R.blockLength_pos
  simp [maskedBlock,hpos]

end Draft

/-- Verified tokens that continue a sequence greedily along the guesses are accepted so, and all
but the last of them are the guesses. -/
theorem matching_spec {next : List Token → Token} (ts verified guesses : List Token)
    (h : ∀ i, i ≤ guesses.length → verified[i]? = some (next (ts ++ guesses.take i))) :
    ∃ n, n ≤ guesses.length ∧
      matching verified guesses = guesses.take n ++ [next (ts ++ guesses.take n)] ∧
      Unrolls next ts (matching verified guesses) := by
  induction guesses generalizing ts verified with
  | nil =>
    have h0 := h 0 (Nat.le_refl 0)
    cases verified with
    | nil => simp at h0
    | cons v verified =>
      simp only [List.getElem?_cons_zero,List.take_zero,List.append_nil,Option.some.injEq] at h0
      subst h0
      exact ⟨0,Nat.le_refl 0,by simp [matching],unrolls_singleton.mpr rfl⟩
  | cons g guesses ih =>
    have h0 := h 0 (Nat.zero_le _)
    cases verified with
    | nil => simp at h0
    | cons v verified =>
      simp only [List.getElem?_cons_zero,List.take_zero,List.append_nil,Option.some.injEq] at h0
      subst h0
      unfold matching
      split
      · rename_i hg
        obtain ⟨n,hn,heq,hunrolls⟩ := ih (ts ++ [g]) verified fun i hi => by
          have := h (i+1) (by simpa using hi)
          simpa using this
        refine ⟨n+1,by simpa using hn,?_,unrolls_cons.mpr ⟨rfl,?_⟩⟩
        · rw [heq,hg]
          simp
        · rw [hg]
          exact hunrolls
      · exact ⟨0,Nat.zero_le _,by simp,unrolls_singleton.mpr rfl⟩

theorem speculativeBlock_spec {seed : Token} {marker : Option Token} {block : List Token}
    {forced : Nat} (h : R.speculativeBlock seed marker = .ok (block,forced)) :
    block.length = R.blockLength ∧ forced < R.blockLength := by
  have hpos := R.blockLength_pos
  unfold speculativeBlock at h
  cases marker with
  | none =>
    cases h
    exact ⟨R.maskedBlock_length seed,hpos⟩
  | some t =>
    dsimp only at h
    split at h
    · cases h
      exact ⟨by simp,by assumption⟩
    · cases h

theorem acceptedTokens_length_le {verified drafted : List Token} {forced : Nat}
    (hlen : verified.length = drafted.length) (hforced : forced < drafted.length) :
    (acceptedTokens verified drafted forced).length ≤ drafted.length ∧
      acceptedTokens verified drafted forced ≠ [] := by
  have hmatching (vs gs : List Token) : (matching vs gs).length ≤ vs.length ∧
      (vs ≠ [] → matching vs gs ≠ []) := by
    induction vs generalizing gs with
    | nil => simp [matching]
    | cons v vs ih =>
      cases gs with
      | nil => simp [matching]
      | cons g gs =>
        unfold matching
        split
        · simpa using (ih gs).1
        · simp
  have hdrop : verified.drop forced ≠ [] := by
    intro hnil
    have := congrArg List.length hnil
    simp at this
    omega
  obtain ⟨hle,hne⟩ := hmatching (verified.drop forced) (drafted.drop (forced+1))
  unfold acceptedTokens
  refine ⟨?_,fun hnil => hne hdrop (List.append_eq_nil_iff.mp hnil).2⟩
  rw [List.length_append,List.length_take,List.length_drop]
  rw [List.length_drop] at hle
  omega

/-- A forced token that the verifier predicts is accepted as if it had been guessed. -/
theorem acceptedTokens_forced {seed t : Token} {verified guesses : List Token}
    (h : verified[0]? = some t) (hg : guesses[0]? = some t) :
    acceptedTokens verified (seed :: guesses) 1 = acceptedTokens verified (seed :: guesses) 0 := by
  cases verified with
  | nil => simp at h
  | cons v verified =>
    cases guesses with
    | nil => simp at hg
    | cons g guesses =>
      simp only [List.getElem?_cons_zero,Option.some.injEq] at h hg
      subst h hg
      simp [acceptedTokens,matching]

/-- The greedy verifier never predicts the mask. -/
def NeverMasks : Prop := ∀ ts, ts ≠ [] → R.next ts ≠ R.maskId

/-- Where the loop stands: the cache holds the causal KV of the prompt and of `written`, which
continues the prompt greedily and has the next token after it; those are emitted up to where the
output ends. -/
structure SpecAt (stop : Bool) (prompt : List Token) (s : SpecState M) (written : List Token) :
    Prop where
  length : s.prefixLength = prompt.length+written.length
  causal : s.cache.take s.prefixLength = M.causalKv (prompt ++ written)
  greedy : Unrolls R.next prompt (written ++ [s.nextToken])
  emitted : s.emitted = upTo (R.stopsAt stop) (written ++ [s.nextToken])
  terminal : s.terminal = (written ++ [s.nextToken]).any (R.stopsAt stop)

variable {R} {written : List Token}

theorem specRemains_eq_true :
    specRemains generationLength s = true ↔
      s.emitted.length < generationLength ∧ s.terminal = false := by
  simp [specRemains]

theorem specRemains_eq_false :
    specRemains generationLength s = false ↔
      generationLength ≤ s.emitted.length ∨ s.terminal = true := by
  simp only [specRemains,Bool.and_eq_false_iff,decide_eq_false_iff_not,Nat.not_lt,
    Bool.not_eq_false']

/-- What an iteration makes of the accepted tokens and the cache its verification left. -/
def accept (R : NemotronRunner M) (stop : Bool) (generationLength : Nat) (s : SpecState M)
    (cache : List M.Kv) (accepted : List Token) : SpecState M :=
  let emitted := s.emitted ++ upTo (R.stopsAt stop) accepted
  { cache
    prefixLength := s.prefixLength+accepted.length
    nextToken := accepted.getLastD s.nextToken
    emitted
    terminal := accepted.any (R.stopsAt stop)
    marker :=
      if generationLength ≤ emitted.length then s.marker else R.thinkingBudget.due emitted }

theorem speculate_eq (R : NemotronRunner M) (stop : Bool) (generationLength : Nat)
    (s : SpecState M) :
    R.speculate stop generationLength s = (do
      let x ← R.speculativeBlock s.nextToken s.marker
      let drafted ← R.draftBlock x.1 s.prefixLength s.cache
      let y := commit false true drafted s.prefixLength s.cache
      return R.accept stop generationLength s y.2
        (acceptedTokens (sampleTokens y.1) drafted x.2)) := by
  unfold speculate accept
  simp only [emit_eq]

theorem SpecAt.not_stops (h : R.SpecAt stop prompt s written) (hs : s.terminal = false) :
    ∀ t ∈ written ++ [s.nextToken], R.stopsAt stop t = false := by
  have hnone := h.terminal.symm.trans hs
  rw [List.any_eq_false] at hnone
  simpa using hnone

theorem SpecAt.running (h : R.SpecAt stop prompt s written) (hs : s.terminal = false) :
    s.emitted = written ++ [s.nextToken] :=
  h.emitted.trans (upTo_of_none (h.not_stops hs))

theorem SpecAt.emitted_ne_nil (h : R.SpecAt stop prompt s written) : s.emitted ≠ [] := by
  rw [h.emitted]
  exact upTo_ne_nil (by simp)

/-- Accepting tokens keeps the place, when they continue greedily and their KV is there. -/
theorem SpecAt.accept (h : R.SpecAt stop prompt s written) (hs : s.terminal = false)
    {cache : List M.Kv} {xs : List Token} {x : Token}
    (hgreedy : Unrolls R.next prompt (written ++ s.nextToken :: xs ++ [x]))
    (hcache : cache.take (s.prefixLength+(xs.length+1)) =
      M.causalKv (prompt ++ (written ++ s.nextToken :: xs))) :
    R.SpecAt stop prompt (R.accept stop generationLength s cache (xs ++ [x]))
      (written ++ s.nextToken :: xs) where
  length := by
    simp [NemotronRunner.accept,h.length]
    omega
  causal := by
    simpa [NemotronRunner.accept] using hcache
  greedy := by
    simpa [NemotronRunner.accept] using hgreedy
  emitted := by
    simp only [NemotronRunner.accept]
    rw [h.running hs,← upTo_append_of_none _ (h.not_stops hs)]
    simp
  terminal := by
    have hnone : (written ++ [s.nextToken]).any (R.stopsAt stop) = false :=
      h.terminal.symm.trans hs
    simp only [NemotronRunner.accept,List.getLastD_concat]
    have hsplit : (written ++ s.nextToken :: xs ++ [x]).any (R.stopsAt stop) =
        ((written ++ [s.nextToken]).any (R.stopsAt stop) || (xs ++ [x]).any (R.stopsAt stop)) := by
      rw [← List.any_append]
      simp
    rw [hsplit,hnone,Bool.false_or]

/-- An iteration that does not raise emits tokens, and says what is to be forced next. -/
theorem speculate_emits (h : R.speculate stop generationLength s = .ok s') :
    (∃ tokens, tokens ≠ [] ∧ s'.emitted = s.emitted ++ tokens) ∧
      (specRemains generationLength s' = true →
        s'.marker = R.thinkingBudget.due s'.emitted) := by
  rw [speculate_eq] at h
  cases hb : R.speculativeBlock s.nextToken s.marker with
  | error e =>
    rw [hb] at h
    cases h
  | ok x =>
    rw [hb] at h
    change (R.draftBlock x.1 s.prefixLength s.cache >>= _) = _ at h
    cases hd : R.draftBlock x.1 s.prefixLength s.cache with
    | error e =>
      rw [hd] at h
      cases h
    | ok drafted =>
      rw [hd] at h
      injection h with h
      subst h
      obtain ⟨hlen,hforced⟩ := R.speculativeBlock_spec hb
      have hdrafted := (R.draftBlock_spec hd).1
      have hverified : (sampleTokens (commit false true drafted s.prefixLength s.cache).1).length =
          drafted.length := by simp [sampleTokens]
      have hshort : x.2 < drafted.length := by omega
      have hne := (acceptedTokens_length_le hverified hshort).2
      refine ⟨⟨_,upTo_ne_nil hne,rfl⟩,fun hgo => ?_⟩
      have hshort := (specRemains_eq_true.mp hgo).1
      simp only [NemotronRunner.accept] at hshort ⊢
      rw [if_neg (by omega)]

/-- What is forced, if anything is, is what the verifier predicts. -/
def Guessed (R : NemotronRunner M) (prompt : List Token) (s : SpecState M) (written : List Token) :
    Prop :=
  ∀ t, s.marker = some t → t ≠ R.maskId ∧ R.next (prompt ++ (written ++ [s.nextToken])) = t

/-- The draft of a block keeps its seed, and a token forced after it. -/
theorem draftBlock_speculative {prefixLength : Nat} {cache : List M.Kv} {seed : Token}
    {marker : Option Token} {x : List Token × Nat} {drafted : List Token} (hs : seed ≠ R.maskId)
    (hx : R.speculativeBlock seed marker = .ok x)
    (hd : R.draftBlock x.1 prefixLength cache = .ok drafted) :
    ∃ guesses, drafted = seed :: guesses ∧ guesses.length+1 = R.blockLength ∧
      ((marker = none ∧ x.2 = 0) ∨
        ∃ t, marker = some t ∧ x.2 = 1 ∧ (t ≠ R.maskId → guesses[0]? = some t)) := by
  obtain ⟨hlen,_,hkeep⟩ := R.draftBlock_spec hd
  have hblock := (R.speculativeBlock_spec hx).1
  have hhead : x.1[0]? = some seed ∧ ((marker = none ∧ x.2 = 0) ∨
      ∃ t, marker = some t ∧ x.2 = 1 ∧ x.1[1]? = some t) := by
    unfold speculativeBlock at hx
    cases marker with
    | none =>
      cases hx
      exact ⟨R.maskedBlock_head seed,.inl ⟨rfl,rfl⟩⟩
    | some t =>
      dsimp only at hx
      split at hx
      · rename_i hlt
        cases hx
        refine ⟨?_,.inr ⟨t,rfl,rfl,?_⟩⟩
        · dsimp only
          rw [List.getElem?_set_ne (by omega)]
          exact R.maskedBlock_head seed
        · simp [hlt]
      · cases hx
  obtain ⟨hseed,hmarker⟩ := hhead
  have hfirst := hkeep 0 seed hseed hs
  cases drafted with
  | nil => simp at hfirst
  | cons t guesses =>
    simp only [List.getElem?_cons_zero,Option.some.injEq] at hfirst
    subst hfirst
    refine ⟨guesses,rfl,by simpa [hblock] using hlen,hmarker.imp_right ?_⟩
    rintro ⟨m,hm,hforced,hat⟩
    refine ⟨m,hm,hforced,fun hne => ?_⟩
    simpa using hkeep 1 m hat hne

/-- An iteration that does not raise emits greedy tokens and writes their KV but for the last, when
it forces nothing else. -/
theorem SpecAt.speculate (hm : M.Causal) (hmask : R.NeverMasks) (hp : prompt ≠ [])
    (h : R.SpecAt stop prompt s written) (hguessed : R.Guessed prompt s written)
    (hs : s.terminal = false) (hrun : R.speculate stop generationLength s = .ok s') :
    (∃ written', R.SpecAt stop prompt s' written') ∧
      s'.cache.length = max s.cache.length (s.prefixLength+R.blockLength) := by
  have hnext : s.nextToken = R.next (prompt ++ written) :=
    unrolls_singleton.mp (unrolls_append.mp h.greedy).2
  have hts : (prompt ++ written).length = s.prefixLength := by simp [h.length]
  have hcausal : s.cache.take (prompt ++ written).length = M.causalKv (prompt ++ written) := by
    rw [hts]
    exact h.causal
  have hle : s.prefixLength ≤ s.cache.length := by
    have hlen := congrArg List.length h.causal
    rw [NemotronModel.causalKv_length,hts,List.length_take] at hlen
    omega
  rw [speculate_eq] at hrun
  cases hb : R.speculativeBlock s.nextToken s.marker with
  | error e =>
    rw [hb] at hrun
    cases hrun
  | ok x =>
    rw [hb] at hrun
    change (R.draftBlock x.1 s.prefixLength s.cache >>= _) = _ at hrun
    cases hd : R.draftBlock x.1 s.prefixLength s.cache with
    | error e =>
      rw [hd] at hrun
      cases hrun
    | ok drafted =>
      rw [hd] at hrun
      injection hrun with hrun
      subst hrun
      obtain ⟨guesses,rfl,hlen,hforced⟩ :=
        draftBlock_speculative (by rw [hnext]; exact hmask _ (by simp [hp])) hb hd
      have hverified (i : Nat) (hi : i ≤ guesses.length) :
          (sampleTokens (commit false true (s.nextToken :: guesses) s.prefixLength s.cache).1)[i]? =
            some (R.next ((prompt ++ written ++ [s.nextToken]) ++ guesses.take i)) := by
        have hlt : i < (s.nextToken :: guesses).length := by simpa using Nat.lt_succ_of_le hi
        have hat := R.commit_verified hm hcausal hlt
        rw [hts] at hat
        simpa using hat
      -- the draft is followed as far as it guesses the greedy continuation
      obtain ⟨n,hn,haccepted,hunrolls⟩ := matching_spec _ _ guesses hverified
      rw [haccepted] at hunrolls
      have hacc : acceptedTokens (sampleTokens (commit false true (s.nextToken :: guesses)
          s.prefixLength s.cache).1) (s.nextToken :: guesses) x.2 = guesses.take n ++
            [R.next ((prompt ++ written ++ [s.nextToken]) ++ guesses.take n)] := by
        obtain ⟨_,hzero⟩ | ⟨t,ht,hone,hguess⟩ := hforced
        · rw [hzero]
          exact haccepted
        · obtain ⟨hmasked,hpredicted⟩ := hguessed t ht
          have hfirst := hverified 0 (Nat.zero_le _)
          rw [List.take_zero,List.append_nil,List.append_assoc,hpredicted] at hfirst
          rw [hone,acceptedTokens_forced hfirst (hguess hmasked)]
          exact haccepted
      have hshort : n+1 ≤ (s.nextToken :: guesses).length := by simpa using hn
      have htake := commit_take hm hcausal hshort
      rw [hts] at htake
      rw [hacc]
      have hgreedy : Unrolls R.next prompt (written ++ s.nextToken :: guesses.take n ++
          [R.next ((prompt ++ written ++ [s.nextToken]) ++ guesses.take n)]) := by
        rw [List.append_assoc prompt] at hunrolls
        simpa using unrolls_append.mpr ⟨h.greedy,hunrolls⟩
      refine ⟨⟨_,h.accept hs hgreedy ?_⟩,?_⟩
      · simpa [Nat.min_eq_left hn] using htake
      · simp only [NemotronRunner.accept]
        rw [commit_length hle]
        simp [hlen]

/-- The variables of the loop after a prefill. -/
def enterSpec (R : NemotronRunner M) (stop : Bool) (prompt : List Token)
    (x : List M.Logits × List M.Kv) : SpecState M where
  cache := x.2
  prefixLength := prompt.length
  nextToken := R.seedFrom x.1
  emitted := [R.seedFrom x.1]
  terminal := stop && R.decoder.isEos (R.seedFrom x.1)
  marker := R.thinkingBudget.due [R.seedFrom x.1]

theorem startSpec_eq (R : NemotronRunner M) (stop : Bool) (prompt : List Token)
    (generationLength : Nat) :
    R.startSpec stop prompt generationLength =
      (R.checkContext (R.specLength prompt.length generationLength) >>= fun _ =>
        R.prefill prompt (List.replicate (R.specLength prompt.length generationLength) M.zero) >>=
          fun x => .ok (R.enterSpec stop prompt x)) := rfl

theorem startSpec_eq_ok : R.startSpec stop prompt generationLength = .ok s ↔
    R.specLength prompt.length generationLength ≤ R.positionLimit ∧
    ∃ x, R.prefill prompt (List.replicate (R.specLength prompt.length generationLength) M.zero) =
      .ok x ∧ R.enterSpec stop prompt x = s := by
  rw [startSpec_eq,R.checkContext_bind_eq_ok]
  refine and_congr_right fun _ => ?_
  cases R.prefill prompt (List.replicate (R.specLength prompt.length generationLength) M.zero) with
  | error e => exact ⟨fun h => (nomatch h),fun ⟨x,hx,_⟩ => (nomatch hx)⟩
  | ok x =>
    constructor
    · intro h
      injection h with h
      exact ⟨x,rfl,h⟩
    · rintro ⟨y,hy,h⟩
      injection hy with hy
      subst hy
      exact congrArg Except.ok h

/-- How the loop is entered, or why it is not. -/
theorem startSpec_cases (hm : M.Causal) (stop : Bool) (prompt : List Token)
    (generationLength : Nat) :
    (R.positionLimit < R.specLength prompt.length generationLength ∧
      R.startSpec stop prompt generationLength =
        .error (.contextLimit (R.specLength prompt.length generationLength) R.positionLimit)) ∨
    (prompt = [] ∧ R.startSpec stop prompt generationLength = .error .emptyPrompt) ∨
    (prompt ≠ [] ∧ ∃ s, R.startSpec stop prompt generationLength = .ok s ∧
      R.SpecAt stop prompt s [] ∧ s.cache.length = R.specLength prompt.length generationLength ∧
      s.marker = R.thinkingBudget.due s.emitted) := by
  by_cases hlimit : R.specLength prompt.length generationLength ≤ R.positionLimit
  · by_cases hp : prompt = []
    · refine .inr (.inl ⟨hp,?_⟩)
      rw [startSpec_eq,checkContext,if_pos hlimit,hp]
      rfl
    · obtain ⟨logits,cache,hrun,hseed,hcausal,hlen⟩ :=
        R.prefill_spec hm hp (List.replicate (R.specLength prompt.length generationLength) M.zero)
      refine .inr (.inr ⟨hp,_,startSpec_eq_ok.mpr ⟨hlimit,_,hrun,rfl⟩,?_,?_,rfl⟩)
      · exact {
          length := rfl
          causal := by simpa [enterSpec] using hcausal
          greedy := unrolls_singleton.mpr hseed
          emitted := by
            change [R.seedFrom logits] = upTo _ [R.seedFrom logits]
            rw [upTo_cons]
            split <;> rfl
          terminal := by simp [stopsAt,enterSpec] }
      · rw [List.length_replicate] at hlen
        simp only [enterSpec]
        rw [hlen]
        unfold specLength
        omega
  · refine .inl ⟨by omega,?_⟩
    rw [startSpec_eq,checkContext,if_neg hlimit]
    rfl

/-- Nothing is forced any more. -/
def Quiet (R : NemotronRunner M) (generationLength : Nat) (s : SpecState M) : Prop :=
  (∀ tokens, R.thinkingBudget.due (s.emitted ++ tokens) = none) ∧
    (specRemains generationLength s = true → s.marker = none)

theorem quiet_of_disabled (hoff : R.thinkingBudget.setting = none)
    (hs : s.marker = R.thinkingBudget.due s.emitted) : R.Quiet generationLength s := by
  have hdue (tokens : List Token) : R.thinkingBudget.due tokens = none := by
    simp [ThinkingBudget.due,ThinkingBudget.forceNextToken,hoff]
  exact ⟨fun _ => hdue _,fun _ => hs.trans (hdue _)⟩

/-- Once the marker is out, nothing is forced any more. -/
theorem quiet_of_satisfied (hsat : R.thinkingBudget.satisfied s.emitted = true)
    (hs : specRemains generationLength s = true → s.marker = R.thinkingBudget.due s.emitted) :
    R.Quiet generationLength s := by
  have hdue (tokens : List Token) : R.thinkingBudget.due (s.emitted ++ tokens) = none := by
    have hsat' : R.thinkingBudget.satisfied (s.emitted ++ tokens) = true := by
      unfold ThinkingBudget.satisfied at hsat ⊢
      split at hsat
      · rfl
      · simp only [decide_eq_true_eq] at hsat ⊢
        exact List.mem_append_left _ hsat
    simp [ThinkingBudget.due,hsat']
  refine ⟨hdue,fun go => (hs go).trans ?_⟩
  simpa using hdue []

theorem Quiet.speculate (h : R.Quiet generationLength s)
    (hrun : R.speculate stop generationLength s = .ok s') : R.Quiet generationLength s' := by
  obtain ⟨⟨tokens,_,hemitted⟩,hmarker⟩ := speculate_emits hrun
  refine ⟨fun more => ?_,fun go => (hmarker go).trans ?_⟩
  · rw [hemitted,List.append_assoc]
    exact h.1 _
  · rw [hemitted]
    exact h.1 _

/-- What holds at every test of the loop condition. -/
theorem visited_specAt (hm : M.Causal) (hmask : R.NeverMasks) (hp : prompt ≠ [])
    {s₀ : SpecState M} (h₀ : ∃ written, R.SpecAt stop prompt s₀ written)
    (hquiet : R.Quiet generationLength s₀)
    (hlen : specRemains generationLength s₀ = true →
      s₀.cache.length = R.specLength prompt.length generationLength)
    (h : Visited (specRemains generationLength) (R.speculate stop generationLength) s₀ s) :
    (∃ written, R.SpecAt stop prompt s written) ∧ R.Quiet generationLength s ∧
    (specRemains generationLength s = true →
      s.cache.length = R.specLength prompt.length generationLength) := by
  refine h.invariant (P := fun t => (∃ written, R.SpecAt stop prompt t written) ∧
    R.Quiet generationLength t ∧ (specRemains generationLength t = true →
      t.cache.length = R.specLength prompt.length generationLength)) ⟨h₀,hquiet,hlen⟩ ?_
  rintro t u ⟨⟨written,hw⟩,hquiet,hroom⟩ go turned
  have hgo := specRemains_eq_true.mp go
  obtain ⟨hat,hcache⟩ := hw.speculate hm hmask hp
    (fun t ht => by rw [hquiet.2 go] at ht; cases ht) hgo.2 turned
  have hshort := congrArg List.length (hw.running hgo.2)
  rw [List.length_append,List.length_singleton] at hshort
  refine ⟨hat,hquiet.speculate turned,fun _ => ?_⟩
  rw [hcache,hroom go,hw.length]
  unfold specLength
  omega

/-- The output of a loop that has ended is the greedy continuation, cut where it ends. -/
theorem SpecAt.output (h : R.SpecAt stop prompt s written)
    (hdone : specRemains generationLength s = false) :
    upTo (R.stopsAt stop) (s.emitted.take generationLength) =
      upTo (R.stopsAt stop) (unroll R.next prompt generationLength) := by
  obtain ⟨n,hn⟩ : ∃ n, written ++ [s.nextToken] = unroll R.next prompt n := ⟨_,h.greedy⟩
  have hpref : s.emitted <+: unroll R.next prompt (max n generationLength) := by
    have hup := upTo_isPrefix (R.stopsAt stop) (unroll R.next prompt n)
    rw [h.emitted,hn]
    refine hup.trans ?_
    rw [← unroll_take prompt (Nat.le_max_left n generationLength)]
    exact List.take_prefix _ _
  have hlong : generationLength ≤ s.emitted.length ∨ s.emitted.any (R.stopsAt stop) = true := by
    refine (specRemains_eq_false.mp hdone).imp_right fun hterm => ?_
    rw [h.emitted,upTo_any,← h.terminal,hterm]
  rw [upTo_take_of_isPrefix hpref hlong,unroll_take prompt (Nat.le_max_right n generationLength)]

theorem speculate_error {e : NemotronFault} (hmarker : s.marker = none)
    (h : R.speculate stop generationLength s = .error e) :
    ∃ remaining calls prefixLength, e = .draftLeftMasks remaining calls prefixLength := by
  rw [speculate_eq,hmarker] at h
  change (R.draftBlock (R.maskedBlock s.nextToken) s.prefixLength s.cache >>= _) = _ at h
  cases hd : R.draftBlock (R.maskedBlock s.nextToken) s.prefixLength s.cache with
  | error e' =>
    rw [hd] at h
    injection h with h
    subst h
    obtain ⟨k,hk⟩ := R.draftBlock_error hd
    exact ⟨k,_,_,hk⟩
  | ok drafted =>
    rw [hd] at h
    cases h

/-- Every iteration emits a token, so the generation length bounds their number. -/
theorem specLoop_halts (R : NemotronRunner M) (stop : Bool) (generationLength : Nat)
    (s : SpecState M) :
    ∃ r n, n ≤ generationLength-s.emitted.length+1 ∧
      Halts (specRemains generationLength) (R.speculate stop generationLength) s r n := by
  refine halts_of_measure (P := fun _ => True) (fun t => generationLength-t.emitted.length) ?_ _ s
    trivial (Nat.le_refl _)
  intro t u _ go turned
  obtain ⟨⟨tokens,hne,hemitted⟩,_⟩ := speculate_emits turned
  have hpos := List.length_pos_of_ne_nil hne
  have hshort := (specRemains_eq_true.mp go).1
  rw [hemitted,List.length_append]
  exact ⟨trivial,by omega⟩

/-- A loop that forces nothing ends with the greedy output, unless a draft leaves masks. -/
theorem specLoop_outcome (hm : M.Causal) (hmask : R.NeverMasks) (hp : prompt ≠ [])
    (h₀ : ∃ written, R.SpecAt stop prompt s written) (hquiet : R.Quiet generationLength s)
    (hlen : specRemains generationLength s = true →
      s.cache.length = R.specLength prompt.length generationLength) {r : Except NemotronFault (SpecState M)}
    {n : Nat} (h : Halts (specRemains generationLength) (R.speculate stop generationLength) s r n) :
    (∃ remaining calls prefixLength, r = .error (.draftLeftMasks remaining calls prefixLength)) ∨
    ∃ t, r = .ok t ∧ t.emitted ≠ [] ∧ upTo (R.stopsAt stop) (t.emitted.take generationLength) =
      upTo (R.stopsAt stop) (unroll R.next prompt generationLength) := by
  cases r with
  | error e =>
    obtain ⟨t,hvisited,go,hraise⟩ := h.raised
    obtain ⟨_,hquiet',_⟩ := visited_specAt hm hmask hp h₀ hquiet hlen hvisited
    obtain ⟨k,c,p,rfl⟩ := speculate_error (hquiet'.2 go) hraise
    exact .inl ⟨k,c,p,rfl⟩
  | ok t =>
    obtain ⟨hvisited,hdone⟩ := h.visited
    obtain ⟨⟨written,hw⟩,_,_⟩ := visited_specAt hm hmask hp h₀ hquiet hlen hvisited
    exact .inr ⟨t,rfl,hw.emitted_ne_nil,hw.output hdone⟩

theorem take_ne_nil {generated : List Token} (h : generated ≠ []) (h0 : generationLength ≠ 0) :
    generated.take generationLength ≠ [] := by
  intro hnil
  have hpos := List.length_pos_of_ne_nil h
  have hlen := congrArg List.length hnil
  rw [List.length_take,List.length_nil] at hlen
  omega

/-- Self-speculation is lossless. Unless a draft leaves masks, or the prompt is empty or too long,
the output is the greedy decode of the verifier, cut at the generation length and at the first end
of sequence. At every test of the loop the prefix of the cache holds the causal KV of the prompt
and of all greedy tokens but the last; while the loop goes on those are the emitted ones, and a
block fits in what is allocated. -/
theorem specGenerateOne_lossless (hm : M.Causal) (hoff : R.thinkingBudget.setting = none)
    (hmask : R.NeverMasks) (stop : Bool) (prompt : List Token) (generationLength : Nat)
    {fuel : Nat} (hfuel : generationLength ≤ fuel) :
    (∃ r, R.specGenerateOne fuel stop prompt generationLength = some r ∧
      (r = .ok (upTo (R.stopsAt stop) (unroll R.next prompt generationLength)) ∨
        (∃ remaining calls prefixLength,
          r = .error (.draftLeftMasks remaining calls prefixLength)) ∨
        (R.positionLimit < R.specLength prompt.length generationLength ∧
          r = .error (.contextLimit (R.specLength prompt.length generationLength)
            R.positionLimit)) ∨
        (prompt = [] ∧ r = .error .emptyPrompt))) ∧
    ∀ s₀ s, R.startSpec stop prompt generationLength = .ok s₀ →
      Visited (specRemains generationLength) (R.speculate stop generationLength) s₀ s →
      (∃ written, s.prefixLength = prompt.length+written.length ∧
        s.cache.take s.prefixLength = M.causalKv (prompt ++ written) ∧
        Unrolls R.next prompt (written ++ [s.nextToken]) ∧
        s.emitted = upTo (R.stopsAt stop) (written ++ [s.nextToken])) ∧
      (specRemains generationLength s = true →
        s.prefixLength = (prompt ++ s.emitted.dropLast).length ∧
        s.cache.take s.prefixLength = M.causalKv (prompt ++ s.emitted.dropLast) ∧
        s.prefixLength+R.blockLength ≤ R.specLength prompt.length generationLength) := by
  have hcases := startSpec_cases (R := R) hm stop prompt generationLength
  constructor
  · by_cases h0 : generationLength = 0
    · refine ⟨_,by rw [specGenerateOne,if_pos h0],.inl ?_⟩
      rw [h0]
      rfl
    · unfold specGenerateOne
      rw [if_neg h0]
      obtain ⟨hlimit,hs⟩ | ⟨hp,hs⟩ | ⟨hp,s,hs,hat,hlen,hmarker⟩ := hcases
      · rw [hs]
        exact ⟨_,rfl,.inr (.inr (.inl ⟨hlimit,rfl⟩))⟩
      · rw [hs]
        exact ⟨_,rfl,.inr (.inr (.inr ⟨hp,rfl⟩))⟩
      · rw [hs]
        dsimp only
        have hone := List.length_pos_of_ne_nil hat.emitted_ne_nil
        obtain ⟨r,n,hn,hends⟩ := specLoop_halts R stop generationLength s
        rw [hends.tryLoop_eq (show n ≤ fuel by omega)]
        refine ⟨_,rfl,?_⟩
        obtain ⟨k,c,p,rfl⟩ | ⟨t,rfl,hne,hout⟩ := specLoop_outcome hm hmask hp ⟨_,hat⟩
          (quiet_of_disabled hoff hmarker) (fun _ => hlen) hends
        · exact .inr (.inl ⟨k,c,p,rfl⟩)
        · rw [← hout]
          exact .inl (R.cutAtEos_eq stop fun _ => take_ne_nil hne h0)
  · intro s₀ s hs₀ hvisited
    obtain ⟨_,hs⟩ | ⟨_,hs⟩ | ⟨hp,t,hs,hat,hlen,hmarker⟩ := hcases
    · rw [hs] at hs₀
      cases hs₀
    · rw [hs] at hs₀
      cases hs₀
    · rw [hs] at hs₀
      injection hs₀ with hs₀
      subst hs₀
      obtain ⟨⟨written,hw⟩,_,hroom⟩ := visited_specAt hm hmask hp ⟨_,hat⟩
        (quiet_of_disabled hoff hmarker) (fun _ => hlen) hvisited
      refine ⟨⟨written,hw.length,hw.causal,hw.greedy,hw.emitted⟩,fun hgo => ?_⟩
      have hgo' : s.emitted.length < generationLength ∧ s.terminal = false := by
        simpa [specRemains] using hgo
      have hrunning := hw.running hgo'.2
      have hdrop : s.emitted.dropLast = written := by
        rw [hrunning,List.dropLast_concat]
      have hshort := congrArg List.length hrunning
      rw [List.length_append,List.length_singleton] at hshort
      rw [hdrop]
      refine ⟨by rw [hw.length,List.length_append],hw.causal,?_⟩
      rw [hw.length]
      unfold specLength
      omega

/-- A checkpoint that counts: after a token comes the next natural number, and a drafted block
counts on from its seed. -/
def countingModel : NemotronModel where
  Kv := Token
  Logits := Token
  Confidence := Nat
  linear := inferInstance
  zero := 0
  forward _ causal _ tokens :=
    if causal then tokens.map fun t => (t,((t.natAbs+1 : Nat) : Int))
    else tokens.mapIdx fun i t => (t,tokens.headD 0+i)
  forward_length _ _ _ _ := by split <;> simp
  argmax t := t
  confidence _ := 0

/-- Blocks of four over the mask zero. -/
def countingRunner (eosIds : List Token) (thinkingBudget : ThinkingBudget) :
    NemotronRunner countingModel where
  blockLength := 4
  blockLength_pos := four_pos
  prefillChunkSize_pos := prefillChunk_pos
  decoder := ⟨(0 : Nat),0,eosIds⟩
  draftThreshold := (0 : Nat)
  thinkingBudget
  positionLimit := 100

theorem countingModel_causal : countingModel.Causal := by
  intro ts tokens
  exact List.map_append

theorem countingRunner_neverMasks (eosIds : List Token) (thinkingBudget : ThinkingBudget) :
    (countingRunner eosIds thinkingBudget).NeverMasks := by
  intro ts hts
  obtain ⟨xs,x,rfl⟩ := List.eq_nil_or_concat ts |>.resolve_left hts
  rw [List.concat_eq_append]
  have hlast : (countingRunner eosIds thinkingBudget).next (xs ++ [x]) = ((x.natAbs+1 : Nat) : Int) := by
    change List.getLastD (List.map (fun t => t) (List.map Prod.snd
      ((xs ++ [x]).map fun t => (t,((t.natAbs+1 : Nat) : Int))))) 0 = _
    simp
  rw [hlast]
  change ((x.natAbs+1 : Nat) : Int) ≠ 0
  omega

theorem specGenerateOne_lossless_counting :
    ∃ r, (countingRunner [99] {}).specGenerateOne 5 false [5] 5 = some r ∧ r = .ok [6,7,8,9,10] := by
  obtain ⟨r,hr,_⟩ := (specGenerateOne_lossless countingModel_causal rfl
    (countingRunner_neverMasks [99] {}) false [5] 5 (Nat.le_refl 5)).1
  refine ⟨r,hr,?_⟩
  have hrun : (countingRunner [99] {}).specGenerateOne 5 false [5] 5 = some (.ok [6,7,8,9,10]) := by
    rfl
  rw [hrun] at hr
  exact (Option.some.inj hr).symm

/-- The last iteration moves the prefix by all it accepted, past the emitted end of sequence and
past what the allocation leaves for another block. -/
theorem specGenerateOne_overruns :
    countingModel.Causal ∧ (countingRunner [7] {}).NeverMasks ∧
    ∃ s₀ s, (countingRunner [7] {}).startSpec true [5] 3 = .ok s₀ ∧
      Visited (specRemains 3) ((countingRunner [7] {}).speculate true 3) s₀ s ∧
      s.prefixLength ≠ ([5] ++ s.emitted.dropLast).length ∧
      (countingRunner [7] {}).specLength 1 3 < s.prefixLength+4 := by
  refine ⟨countingModel_causal,countingRunner_neverMasks _ _,_,_,rfl,.turn .start rfl rfl,?_,?_⟩
  · decide
  · decide

end FluxServe.Engine.NemotronRunner
