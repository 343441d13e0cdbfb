import FluxServe.Nemotron.BlockAgreement
import FluxServe.Nemotron.OnlineSpec

namespace FluxServe.Engine.NemotronRunner

variable {M : NemotronModel} {R : NemotronRunner M}

section Settled

variable {stop : Bool} {final : List Token}

theorem eosIsTerminal_stops (hstop : stop = true) (h : R.decoder.eosIsTerminal final = true) :
    final.any (R.stopsAt stop) = true := by
  have hstops : R.stopsAt stop = R.decoder.isEos := by
    funext t
    simp [stopsAt,hstop]
  rw [hstops]
  exact (Bool.and_eq_true _ _ ▸ h).1

/-- No token before the end of a settled block is masked. -/
theorem settledBlock_unmasked (h : R.settledBlock stop final = true) :
    R.maskId ∉ final.takeWhile fun t => !R.stopsAt stop t := by
  intro hmem
  obtain hfull | hends := Bool.or_eq_true _ _ ▸ h
  · have hmask : R.decoder.hasMasks final = true :=
      decide_eq_true ((List.takeWhile_prefix _).subset hmem)
    rw [hmask] at hfull
    cases hfull
  · obtain ⟨hstop,hterminal⟩ := Bool.and_eq_true _ _ ▸ hends
    have hstops : R.stopsAt stop = R.decoder.isEos := by
      funext t
      simp [stopsAt,hstop]
    rw [hstops] at hmem
    have hclean := (Bool.and_eq_true _ _ ▸ hterminal).2
    have hmask : R.decoder.hasMasks (final.takeWhile fun t => !R.decoder.isEos t) = true :=
      decide_eq_true hmem
    rw [hmask] at hclean
    cases hclean

/-- A settled block that does not end the sequence stops nowhere and is without masks. -/
theorem settledBlock_open (h : R.settledBlock stop final = true)
    (hopen : (stop && R.decoder.eosIsTerminal final) = false) :
    (∀ t ∈ final, R.stopsAt stop t = false) ∧ R.maskId ∉ final := by
  rw [settledBlock,hopen,Bool.or_false] at h
  have hmask : R.maskId ∉ final := by
    intro hmem
    have hmask : R.decoder.hasMasks final = true := decide_eq_true hmem
    rw [hmask] at h
    cases h
  refine ⟨fun t ht => ?_,hmask⟩
  cases hstop : R.stopsAt stop t with
  | false => rfl
  | true =>
    obtain ⟨hon,heos⟩ := Bool.and_eq_true _ _ ▸ hstop
    have hclean : R.decoder.hasMasks (final.takeWhile fun t => !R.decoder.isEos t) = false :=
      decide_eq_false fun hmem => hmask ((List.takeWhile_prefix _).subset hmem)
    have hany : final.any R.decoder.isEos = true := List.any_eq_true.mpr ⟨t,ht,heos⟩
    rw [ThresholdDecoder.eosIsTerminal,hany,hclean,hon] at hopen
    cases hopen

end Settled

theorem blockDiffusion_rowwise (R : NemotronRunner M) : Rowwise R.blockDiffusion R.BlockEnds where
  run_iff _ _ := R.runBlockLoop_iff
  result_rid _ _ _ _ := rfl
  settle_state _ _ := rfl

/-- A row with a budget of one block commits what its block comes to, and is done. -/
theorem blockRow_once {r : BlockRow M} (cache : List M.Kv) (h : R.Entered r)
    (hbudget : r.blockBudget = 1) (hlong : r.prefixLength ≤ cache.length)
    (hrow : r.prefixLength ≤ r.cache.length)
    (hcache : r.cache.take r.prefixLength = cache.take r.prefixLength) {final : List Token}
    (hfinal : R.finalBlock r.stopOnEos r.block r.prefixLength cache = .ok final) :
    ∃ r', R.BlockEnds r r' ∧ r'.emitted = r.emitted ++ [final] ∧
      r'.seed = R.seedFrom (commit false true final r.prefixLength cache).1 ∧
      r'.cache.take (r.prefixLength+final.length) =
        (commit false true final r.prefixLength cache).2.take (r.prefixLength+final.length) ∧
      r.prefixLength+final.length ≤ r'.cache.length := by
  obtain ⟨steps,cache',hvisited,hkept,hlong'⟩ := (h.visits cache hrow hcache).1 final hfinal
  obtain ⟨v,hv⟩ : ∃ v : BlockRow M, v = { r with
    block := final
    denoiseSteps := steps
    cache := cache'
    terminal := r.stopOnEos && R.decoder.eosIsTerminal final
    state := .commit } := ⟨_,rfl⟩
  rw [← hv] at hvisited
  have hlast : (v.terminal || decide (v.blockBudget ≤ v.emitted.length+1)) = true := by
    rw [hv,Bool.or_eq_true,decide_eq_true_eq]
    dsimp only
    omega
  have hturn : R.blockRowTurn v = .ok { R.committedRow v with state := .done } := by
    rw [blockRowTurn,if_neg (by rw [hv]; simp),commitRow_eq,if_pos hlast]
  have hactive : v.active = true := by
    rw [hv]
    simp [BlockRow.active]
  have hdone : BlockRow.active { R.committedRow v with state := .done } = false := by
    simp [BlockRow.active]
  obtain ⟨m,hm⟩ := hvisited.halts ((halts_done hdone).cons hactive hturn)
  refine ⟨_,⟨m,hm⟩,?_,?_,?_,?_⟩
  · rw [committedRow,hv]
  · rw [committedRow,hv]
    exact congrArg R.seedFrom (commit_congr hkept)
  · rw [committedRow,hv]
    exact commit_take_congr hkept hlong' hlong (Nat.le_refl _)
  · rw [committedRow,hv]
    dsimp only
    rw [commit_length hlong']
    omega

section Online

variable {rid : RequestId} {asked state : RequestState} {out : List Token} {σ τ : BlockState M}
  {s s' : Slot M} {r : StepResult}

/-- A request between plan calls stands where the dense loop goes on with another block. -/
structure OnlineBlockAt (R : NemotronRunner M) (asked : RequestState) (out : List Token)
    (σ : BlockState M) (s : Slot M) : Prop where
  state : ∃ b, s.state = some (asked.served b σ.emitted.flatten σ.emitted.length)
  seed : s.requestSeed = some σ.seed
  prefixed : σ.prefixLength = asked.inputIds.length+σ.emitted.length*R.blockLength
  cache : s.cache.take σ.prefixLength = σ.cache.take σ.prefixLength
  long : σ.prefixLength ≤ σ.cache.length
  slotLong : σ.prefixLength ≤ s.cache.length
  blocks : σ.emitted.flatten.length = σ.emitted.length*R.blockLength
  running : ∀ t ∈ σ.emitted.flatten, R.stopsAt (!asked.ignoreEos) t = false
  unmasked : R.maskId ∉ σ.emitted.flatten
  remains : R.blocksRemain asked.maxNewTokens σ = true
  future : R.BlocksPending (!asked.ignoreEos) asked.maxNewTokens σ out

theorem OnlineBlockAt.short (h : R.OnlineBlockAt asked out σ s) :
    σ.emitted.flatten.length < asked.maxNewTokens := by
  have hlt := (blocksRemain_eq_true.mp h.remains).2
  rw [h.blocks]
  by_contra hle
  have hpadded := (R.paddedGeneration_le_iff σ.emitted.length asked.maxNewTokens).mpr (by omega)
  omega

/-- The row of a request that decodes. -/
def planBlock (R : NemotronRunner M) (asked : RequestState) (σ : BlockState M) (s : Slot M) :
    BlockRow M where
  generationLength := asked.maxNewTokens
  prefixLength := σ.prefixLength
  blockBudget := 1
  block := R.nextBlock σ.seed σ.emitted.flatten
  seed := σ.seed
  stopOnEos := !asked.ignoreEos
  cache := s.cache

theorem OnlineBlockAt.enters (h : R.OnlineBlockAt asked out σ s) (b : Bool) :
    R.enterPlanBlock rid (asked.served b σ.emitted.flatten σ.emitted.length) s =
      .ok (if R.endsAtOnce (R.planBlock asked σ s) then
        { R.planBlock asked σ s with terminal := true, state := .commit }
      else R.planBlock asked σ s) := by
  have hplace : asked.inputIds.length+((σ.emitted.length : Int).toNat)*R.blockLength =
      σ.prefixLength := by
    rw [Int.toNat_natCast,h.prefixed]
  unfold enterPlanBlock planBlock
  rw [h.seed]
  simp only [RequestState.served,hplace]
  rfl

theorem planBlock_entered (asked : RequestState) (σ : BlockState M) (s : Slot M) :
    R.Entered (if R.endsAtOnce (R.planBlock asked σ s) then
      { R.planBlock asked σ s with terminal := true, state := .commit }
    else R.planBlock asked σ s) := by
  split
  · next hends =>
    refine ⟨rfl,fun _ => ⟨rfl,rfl⟩,fun hno => ?_⟩
    change R.endsAtOnce (R.planBlock asked σ s) = false at hno
    rw [hends] at hno
    cases hno
  · next hends => exact ⟨rfl,fun hyes => absurd hyes hends,fun _ => rfl⟩

/-- The row of a request that decodes makes the block of the dense loop. -/
theorem OnlineBlockAt.row (h : R.OnlineBlockAt asked out σ s) (rid : RequestId) (b : Bool) :
    ∃ row row' final,
      R.enterPlanBlock rid (asked.served b σ.emitted.flatten σ.emitted.length) s = .ok row ∧
      R.BlockEnds row row' ∧ row'.emitted = [final] ∧ final.length = R.blockLength ∧
      R.settledBlock (!asked.ignoreEos) final = true ∧
      row'.seed = (R.committed (!asked.ignoreEos) σ final).seed ∧
      row'.cache.take (σ.prefixLength+R.blockLength) =
        (R.committed (!asked.ignoreEos) σ final).cache.take (σ.prefixLength+R.blockLength) ∧
      σ.prefixLength+R.blockLength ≤ row'.cache.length ∧
      R.BlocksPending (!asked.ignoreEos) asked.maxNewTokens
        (R.committed (!asked.ignoreEos) σ final) out := by
  obtain ⟨t,⟨n,hn⟩,hout⟩ := h.future
  obtain ⟨hstop,_⟩ | ⟨_,_,_,hbad,_⟩ | ⟨_,u,k,hu,hk,_⟩ := hn.cases
  · rw [h.remains] at hstop
    cases hstop
  · cases hbad
  rw [generateBlock_eq] at hu
  cases hfinal : R.finalBlock (!asked.ignoreEos) (R.nextBlock σ.seed σ.emitted.flatten)
      σ.prefixLength σ.cache with
  | error e =>
    rw [hfinal] at hu
    cases hu
  | ok final =>
    rw [hfinal] at hu
    injection hu with hu
    subst hu
    obtain ⟨hlen,hsettled⟩ := finalBlock_spec hfinal
    rw [nextBlock_length] at hlen
    obtain ⟨row,hrow⟩ : ∃ row, row = (if R.endsAtOnce (R.planBlock asked σ s) then
      { R.planBlock asked σ s with terminal := true, state := .commit }
    else R.planBlock asked σ s) := ⟨_,rfl⟩
    have hentered := planBlock_entered (R := R) asked σ s
    have hsame : row.prefixLength = σ.prefixLength ∧ row.blockBudget = 1 ∧ row.cache = s.cache ∧
        row.stopOnEos = !asked.ignoreEos ∧ row.block = R.nextBlock σ.seed σ.emitted.flatten ∧
        row.emitted = [] := by
      rw [hrow]
      split <;> exact ⟨rfl,rfl,rfl,rfl,rfl,rfl⟩
    obtain ⟨hpref,hbudget,hcache,hstop,hblock,hemitted⟩ := hsame
    rw [← hrow] at hentered
    obtain ⟨row',hends,hout',hseed,hkept,hlong⟩ := blockRow_once σ.cache hentered hbudget
      (by rw [hpref]; exact h.long) (by rw [hpref,hcache]; exact h.slotLong)
      (by rw [hpref,hcache]; exact h.cache) (by rw [hstop,hblock,hpref]; exact hfinal)
    rw [hpref,hlen] at hkept hlong
    rw [hpref] at hseed
    rw [hemitted] at hout'
    exact ⟨row,row',final,by rw [h.enters b,hrow],hends,hout',hlen,hsettled,hseed,hkept,hlong,
      t,⟨k,hk⟩,hout⟩

/-- What the row that commits a block returns. -/
theorem OnlineBlockAt.result (h : R.OnlineBlockAt asked out σ s) (rid : RequestId) (b : Bool)
    {final : List Token} (hlen : final.length = R.blockLength)
    (hsettled : R.settledBlock (!asked.ignoreEos) final = true)
    (hfuture : R.BlocksPending (!asked.ignoreEos) asked.maxNewTokens
      (R.committed (!asked.ignoreEos) σ final) out)
    (hr : r = R.stepResult rid (asked.served b σ.emitted.flatten σ.emitted.length) final
      R.blockLength true) :
    (R.blocksRemain asked.maxNewTokens (R.committed (!asked.ignoreEos) σ final) = false →
      r.finished = true ∧ σ.emitted.flatten ++ r.tokenIds =
        withoutLast (R.stopsAt (!asked.ignoreEos)) out) ∧
    (R.blocksRemain asked.maxNewTokens (R.committed (!asked.ignoreEos) σ final) = true →
      r.finished = false ∧ r.tokenIds = final ∧
      (∀ t ∈ final, R.stopsAt (!asked.ignoreEos) t = false) ∧ R.maskId ∉ final) := by
  have hpos := R.blockLength_pos
  have hwhile (ts : List Token) : ((σ.emitted.flatten ++ ts).takeWhile
      fun t => !R.stopsAt (!asked.ignoreEos) t) =
        σ.emitted.flatten ++ ts.takeWhile fun t => !R.stopsAt (!asked.ignoreEos) t := by
    apply List.takeWhile_append_of_pos
    intro t ht
    rw [h.running t ht]
    rfl
  obtain ⟨htokens,hfinished⟩ := stepResult_eq R rid
    (asked.served b σ.emitted.flatten σ.emitted.length) final R.blockLength true h.running
    h.short.le (by
      intro hmem
      rw [← List.take_takeWhile] at hmem
      have hall := List.take_subset _ _ hmem
      change R.maskId ∈ (σ.emitted.flatten ++ final).takeWhile
        (fun t => !R.stopsAt (!asked.ignoreEos) t) at hall
      rw [hwhile] at hall
      obtain hbefore | hblock := List.mem_append.mp hall
      · exact h.unmasked hbefore
      · exact settledBlock_unmasked hsettled hblock)
  rw [← hr] at htokens hfinished
  change σ.emitted.flatten ++ r.tokenIds = ((σ.emitted.flatten ++ final).take
    asked.maxNewTokens).takeWhile (fun t => !R.stopsAt (!asked.ignoreEos) t) at htokens
  change r.finished = true ↔ ((σ.emitted.flatten ++ final).take asked.maxNewTokens).any
    (R.stopsAt (!asked.ignoreEos)) = true ∨
      asked.maxNewTokens ≤ (σ.emitted.flatten ++ final).length at hfinished
  have hcount : (σ.emitted.flatten ++ final).length = (σ.emitted.length+1)*R.blockLength := by
    rw [List.length_append,h.blocks,hlen,Nat.add_mul,Nat.one_mul]
  have hflat : (R.committed (!asked.ignoreEos) σ final).emitted.flatten =
      σ.emitted.flatten ++ final := by
    simp [committed]
  have hblocks : (R.committed (!asked.ignoreEos) σ final).emitted.length = σ.emitted.length+1 := by
    simp [committed]
  have hfits := R.paddedGeneration_le_iff (σ.emitted.length+1) asked.maxNewTokens
  constructor
  · intro hdone
    obtain ⟨t,⟨n,hn⟩,hout⟩ := hfuture
    have hsame := hn.unique (halts_done hdone)
    injection hsame with hsame
    rw [hsame,hflat] at hout
    have hgen : asked.maxNewTokens ≠ 0 := by
      have := h.short
      omega
    have hne : (σ.emitted.flatten ++ final) ≠ [] := by
      apply List.ne_nil_of_length_pos
      rw [List.length_append,hlen]
      omega
    rw [R.cutAtEos_eq _ fun _ => take_ne_nil hne hgen] at hout
    injection hout with hout
    refine ⟨hfinished.mpr ?_,?_⟩
    · by_cases hlong : asked.maxNewTokens ≤ (σ.emitted.flatten ++ final).length
      · exact .inr hlong
      · have hleft : (!asked.ignoreEos && R.decoder.eosIsTerminal final) = true := by
          cases hleft : !asked.ignoreEos && R.decoder.eosIsTerminal final with
          | true => rfl
          | false =>
            have hgo : R.blocksRemain asked.maxNewTokens
                (R.committed (!asked.ignoreEos) σ final) = true := by
              apply blocksRemain_eq_true.mpr
              refine ⟨hleft,?_⟩
              rw [hblocks]
              omega
            rw [hgo] at hdone
            cases hdone
        obtain ⟨hstop,hterminal⟩ := Bool.and_eq_true _ _ ▸ hleft
        refine .inl ?_
        rw [List.take_of_length_le (by omega),List.any_append,
          eosIsTerminal_stops hstop hterminal,Bool.or_true]
    · rw [htokens,← hout,withoutLast_upTo]
  · intro hgo
    obtain ⟨hleft,hlt⟩ := blocksRemain_eq_true.mp hgo
    rw [hblocks] at hlt
    obtain ⟨hnone,hmask⟩ := settledBlock_open hsettled hleft
    have hshort : (σ.emitted.flatten ++ final).length < asked.maxNewTokens := by omega
    have hall : (σ.emitted.flatten ++ final).take asked.maxNewTokens =
        σ.emitted.flatten ++ final := List.take_of_length_le hshort.le
    have hquiet : ∀ t ∈ σ.emitted.flatten ++ final, R.stopsAt (!asked.ignoreEos) t = false := by
      intro t ht
      obtain ht | ht := List.mem_append.mp ht
      · exact h.running t ht
      · exact hnone t ht
    rw [hall] at htokens hfinished
    refine ⟨?_,?_,hnone,hmask⟩
    · rw [← Bool.not_eq_true,hfinished]
      rintro (hany | hle)
      · obtain ⟨t,ht,hstop⟩ := List.any_eq_true.mp hany
        rw [hquiet t ht] at hstop
        cases hstop
      · omega
    · rw [hwhile] at htokens
      have htokens := List.append_cancel_left htokens
      rw [htokens]
      apply List.takeWhile_eq_self_iff.mpr
      intro t ht
      rw [hnone t ht]
      rfl

/-- A decode row ends the request with the output of the dense runner, or returns the next block of
the dense loop. -/
theorem OnlineBlockAt.decode (h : R.OnlineBlockAt asked out σ s)
    (hunfinished : asked.finishedReason = none) (hstate : s.state = some state)
    (hdec : Decodes R.blockDiffusion R.BlockEnds rid state s s' r) :
    (r.finished = true ∧ σ.emitted.flatten ++ r.tokenIds =
      withoutLast (R.stopsAt (!asked.ignoreEos)) out) ∨
    (r.finished = false ∧ ∃ τ, R.OnlineBlockAt asked out τ (s'.deliver r) ∧
      τ.emitted.flatten = σ.emitted.flatten ++ r.tokenIds ∧
      τ.emitted.length = σ.emitted.length+1) := by
  obtain ⟨b,hserved⟩ := h.state
  have hsame := hstate
  rw [hserved] at hsame
  injection hsame with hsame
  subst hsame
  obtain ⟨row,row',final,hrow,hends,hemitted,hlen,hsettled,hseed,hcache,hlong,hfuture⟩ :=
    h.row rid b
  obtain ⟨row₁,row₂,hrow₁,hends₁,hs',hr⟩ := hdec
  change R.enterPlanBlock rid _ s = .ok row₁ at hrow₁
  rw [hrow] at hrow₁
  injection hrow₁ with hrow₁
  subst hrow₁
  obtain rfl : row' = row₂ := by
    obtain ⟨m,hm⟩ := hends
    obtain ⟨m₁,hm₁⟩ := hends₁
    have hsame := hm.unique hm₁
    injection hsame
  change r = R.stepResult rid _ (row'.emitted.headD []) R.blockLength true at hr
  rw [hemitted] at hr
  obtain ⟨hdone,hon⟩ := h.result rid b hlen hsettled hfuture hr
  cases hgo : R.blocksRemain asked.maxNewTokens (R.committed (!asked.ignoreEos) σ final) with
  | false => exact .inl (hdone hgo)
  | true =>
    obtain ⟨hfin,htokens,hnone,hmask⟩ := hon hgo
    have hflat : (R.committed (!asked.ignoreEos) σ final).emitted.flatten =
        σ.emitted.flatten ++ final := by
      simp [committed]
    have hblocks : (R.committed (!asked.ignoreEos) σ final).emitted.length =
        σ.emitted.length+1 := by
      simp [committed]
    refine .inr ⟨hfin,_,?_,by rw [hflat,htokens],hblocks⟩
    have hkept : s'.state = some (asked.served b σ.emitted.flatten σ.emitted.length) := by
      rw [hs']
      exact hserved
    rw [deliver_running hkept (by simp [RequestState.finished,RequestState.served,hunfinished])
      hfin]
    have hcompleted : r.decodeBlockCompleted = true := by rw [hr]; rfl
    refine {
      state := ⟨b,?_⟩
      seed := ?_
      prefixed := ?_
      cache := ?_
      long := ?_
      slotLong := ?_
      blocks := ?_
      running := ?_
      unmasked := ?_
      remains := hgo
      future := hfuture }
    · rw [hcompleted,if_pos rfl,hflat,hblocks,htokens]
      rfl
    · rw [hs']
      exact congrArg some hseed
    · rw [hblocks,Nat.add_mul,Nat.one_mul,← Nat.add_assoc,← h.prefixed]
      rfl
    · rw [hs']
      exact hcache
    · change σ.prefixLength+R.blockLength ≤
        (commit false true final σ.prefixLength σ.cache).2.length
      rw [commit_length h.long]
      omega
    · rw [hs']
      exact hlong
    · rw [hflat,hblocks,List.length_append,h.blocks,hlen,Nat.add_mul,Nat.one_mul]
    · intro t ht
      rw [hflat] at ht
      obtain ht | ht := List.mem_append.mp ht
      · exact h.running t ht
      · exact hnone t ht
    · rw [hflat]
      intro ht
      obtain ht | ht := List.mem_append.mp ht
      · exact h.unmasked ht
      · exact hmask ht

/-- The row of a request that decodes does not raise. -/
theorem OnlineBlockAt.decodes (h : R.OnlineBlockAt asked out σ s) (hstate : s.state = some state) :
    ∃ s' r, Decodes R.blockDiffusion R.BlockEnds rid state s s' r := by
  obtain ⟨b,hserved⟩ := h.state
  rw [hserved] at hstate
  injection hstate with hstate
  subst hstate
  obtain ⟨row,row',final,hrow,hends,_⟩ := h.row rid b
  exact ⟨_,_,row,row',hrow,hends,rfl,rfl⟩

/-- A prefilled request stands where the dense loop is entered. -/
theorem onlineBlockAt_prefilled (hm : M.Causal) (hgen : asked.maxNewTokens ≠ 0)
    (hp : asked.inputIds ≠ [])
    (hdense : R.BlockDenseYields ⟨asked.inputIds,asked.maxNewTokens,!asked.ignoreEos⟩ out)
    (h : Prefilling R false asked asked.inputIds.length s) :
    ∃ σ, R.OnlineBlockAt asked out σ s ∧ σ.emitted = [] := by
  obtain ⟨s₀,hs₀,hfuture⟩ := (blockDenseYields_iff hgen).mp hdense
  obtain ⟨_,x,hx,rfl⟩ := startBlocks_eq_ok.mp hs₀
  obtain ⟨logits,filled,hrun,hnext,hcausal,hlen⟩ := R.prefill_spec hm hp
    (List.replicate (asked.inputIds.length+R.paddedGeneration asked.maxNewTokens) M.zero)
  rw [hrun] at hx
  injection hx with hx
  subst hx
  obtain ⟨⟨seed,hseed,hsame⟩,_⟩ := h.ready hp rfl
  have hbounds := (R.paddedGeneration_bounds asked.maxNewTokens).1
  refine ⟨R.enterBlocks asked.inputIds (logits,filled),{
    state := h.state
    seed := ?_
    prefixed := ?_
    cache := ?_
    long := ?_
    slotLong := h.long
    blocks := by simp [enterBlocks]
    running := by simp [enterBlocks]
    unmasked := by simp [enterBlocks]
    remains := ?_
    future := hfuture },rfl⟩
  · rw [hseed,hsame hm,← hnext]
    rfl
  · simp [enterBlocks]
  · change s.cache.take asked.inputIds.length = filled.take asked.inputIds.length
    rw [hcausal,h.causal hm,List.take_length]
  · change asked.inputIds.length ≤ filled.length
    rw [hlen]
    omega
  · apply blocksRemain_eq_true.mpr
    refine ⟨rfl,?_⟩
    simp only [enterBlocks,List.length_nil,Nat.zero_mul]
    omega

/-- After so many decode rows a request stands in the dense loop, as many blocks further. -/
def StandsAtBlock (R : NemotronRunner M) (asked : RequestState) (out : List Token) (n : Nat)
    (outputs : List Token) (s : Slot M) : Prop :=
  ∃ σ, R.OnlineBlockAt asked out σ s ∧ σ.emitted.flatten = outputs ∧ σ.emitted.length = n

theorem standsAtBlock_prefilled (hm : M.Causal) (hgen : asked.maxNewTokens ≠ 0)
    (hdense : R.BlockDenseYields ⟨asked.inputIds,asked.maxNewTokens,!asked.ignoreEos⟩ out)
    (s : Slot M) (h : Prefilling R false asked asked.inputIds.length s) :
    R.StandsAtBlock asked out 0 [] s := by
  have hp : asked.inputIds ≠ [] := by
    obtain ⟨s₀,hs₀,_⟩ := (blockDenseYields_iff hgen).mp hdense
    obtain ⟨_,x,hx,_⟩ := startBlocks_eq_ok.mp hs₀
    intro hnil
    dsimp only at hx
    rw [hnil] at hx
    cases hx
  obtain ⟨σ,hat,hnone⟩ := onlineBlockAt_prefilled hm hgen hp hdense h
  exact ⟨σ,hat,by rw [hnone]; rfl,by rw [hnone]; rfl⟩

variable {w₀ w : Served M} {done : Nat} {visited : List (Slot M)} {results : List StepResult}

theorem serving_blocks (hm : M.Causal) (hgen : asked.maxNewTokens ≠ 0)
    (h₀ : Submitted asked (w₀ rid))
    (hdense : R.BlockDenseYields ⟨asked.inputIds,asked.maxNewTokens,!asked.ignoreEos⟩ out)
    (hrun : Serving R.blockDiffusion R rid asked.inputIds w₀ done visited results w) :
    Streams R false asked (R.StandsAtBlock asked out)
      (withoutLast (R.stopsAt (!asked.ignoreEos)) out) done visited results (w rid) := by
  apply Serving.streams (blockDiffusion_rowwise R) h₀ (standsAtBlock_prefilled hm hgen hdense) ?_
    hrun
  intro n outputs s state s' r ⟨σ,hat,houtputs,hcount⟩ hstate hdec
  subst houtputs hcount
  obtain hended | ⟨hfin,τ,hat',hflat,hblocks⟩ := hat.decode h₀.unfinished hstate hdec
  · exact .inl hended
  · exact .inr ⟨hfin,τ,hat',hflat,hblocks⟩

end Online

/-- The paths of block diffusion. A batch emits for each row what the dense runner emits for that
row alone, exactly when its rows without a token to generate do not stop at the end of sequence and
fit. In plan calls a request has returned, when it is finished, the output of the dense runner
without the end of sequence that the generation stops at; until then each decode row has returned a
block, and its row raises in no batch. -/
theorem diffusion_agrees (R : NemotronRunner M) :
    (∀ rows outs, (∀ row ∈ rows, row.prompt ≠ []) → List.Forall₂ R.BlockDenseYields rows outs →
      ((∃ enough, ∀ fuel, enough ≤ fuel → R.diffusionGenerate fuel rows = some (.ok outs)) ↔
        ∀ row ∈ rows, R.BlockFits row)) ∧
    (M.Causal → ∀ rid asked w₀ out done visited results w, asked.maxNewTokens ≠ 0 →
      Submitted asked (w₀ rid) →
      R.BlockDenseYields ⟨asked.inputIds,asked.maxNewTokens,!asked.ignoreEos⟩ out →
      Serving R.blockDiffusion R rid asked.inputIds w₀ done visited results w →
      (endedBy results = true →
        tokensOf results = withoutLast (R.stopsAt (!asked.ignoreEos)) out) ∧
      ∀ state, (w rid).state = some state →
        (tokensOf results).length = visited.length*R.blockLength ∧
        (tokensOf results).length < asked.maxNewTokens ∧
        (done = asked.inputIds.length →
          ∀ op : PlanOp, rid ∈ op.decodes → (∀ p ∈ op.prefills, p.tokens ≠ []) →
            (∀ other ∈ op.decodes, other ≠ rid → ∀ state, (w other).state = some state →
              state.finished = false →
              ∃ s' r, Decodes R.blockDiffusion R.BlockEnds other state (w other) s' r) →
            ∃ fuel x, R.blockDiffusion.executePlan R fuel op w = some (.ok x))) := by
  constructor
  · intro rows outs hne hdense
    rw [← diffusionGenerate_of_dense hne hdense]
    constructor
    · rintro ⟨enough,hrun⟩
      exact ⟨enough,hrun enough (Nat.le_refl enough)⟩
    · rintro ⟨enough,hrun⟩
      exact ⟨enough,fun fuel hle => diffusionGenerate_mono hrun hle⟩
  · intro hm rid asked w₀ out done visited results w hgen h₀ hdense hrun
    have h := serving_blocks hm hgen h₀ hdense hrun
    refine ⟨h.output,fun state hstate => ⟨?_,?_,?_⟩⟩
    · obtain ⟨_,⟨hv,htokens,_⟩ | ⟨_,σ,hat,hflat,hcount⟩⟩ := h.live state hstate
      · rw [hv,htokens,List.length_nil,List.length_nil,Nat.zero_mul]
      · rw [← hflat,hat.blocks,hcount]
    · obtain ⟨_,⟨_,htokens,_⟩ | ⟨_,σ,hat,hflat,_⟩⟩ := h.live state hstate
      · rw [htokens,List.length_nil]
        omega
      · rw [← hflat]
        exact hat.short
    · intro hd op hmem hchunks hothers
      rw [hd] at h
      obtain ⟨σ,hat,_⟩ := h.stands (standsAtBlock_prefilled hm hgen hdense) hstate
      apply executePlan_total (blockDiffusion_rowwise R) hchunks
      intro other hother state' hstate' hfin
      by_cases hsame : other = rid
      · rw [hsame] at hstate' ⊢
        exact hat.decodes hstate'
      · exact hothers other hother hsame state' hstate' hfin

/-- Two rows in one batch, and one request in a prefill and a decode row. -/
theorem diffusion_agrees_stepping :
    (∃ enough, ∀ fuel, enough ≤ fuel →
      (steppingRunner {}).diffusionGenerate fuel [⟨[5],6,true⟩,⟨[7,8],0,false⟩] =
        some (.ok [[6,1,1,1,2,1],[]])) ∧
    ∃ visited results w, Serving (steppingRunner {}).blockDiffusion (steppingRunner {}) [5] [5]
      (servedFive steppingModel 3) 1 visited results w ∧
      endedBy results = true ∧ tokensOf results = [6,1,1] := by
  have hdense : (steppingRunner {}).BlockDenseYields ⟨[5],6,true⟩ [6,1,1,1,2,1] := ⟨3,rfl⟩
  have hnone : (steppingRunner {}).BlockDenseYields ⟨[7,8],0,false⟩ [] := ⟨0,rfl⟩
  have hshort : (steppingRunner {}).BlockDenseYields ⟨[5],3,true⟩ [6,1,1] := ⟨2,rfl⟩
  have hpre : Serving (steppingRunner {}).blockDiffusion (steppingRunner {}) [5] [5]
      (servedFive steppingModel 3) 1 [] _ _ := prefillFive_serving _ rfl
  have hrun := decodeFive_serving hpre rfl
  constructor
  · apply ((diffusion_agrees (steppingRunner {})).1 _ _ (by decide)
      (.cons hdense (.cons hnone .nil))).mpr
    intro row hrow h0
    obtain rfl | hrow := List.mem_cons.mp hrow
    · exact absurd h0 (by decide)
    · rw [List.mem_singleton.mp hrow]
      exact ⟨rfl,by decide⟩
  · refine ⟨_,_,_,hrun,rfl,?_⟩
    exact ((diffusion_agrees (steppingRunner {})).2 steppingModel_causal [5] (askedFive 3) _ _ _ _
      _ _ (by decide) (servedFive_submitted _ 3) hshort hrun).1 rfl

/-- A batch raises for a row without a token to generate that stops at the end of sequence. -/
theorem diffusionGenerate_raises :
    (steppingRunner {}).BlockDenseYields ⟨[5],0,true⟩ [] ∧
    ∀ fuel, (steppingRunner {}).diffusionGenerate fuel [⟨[5],0,true⟩] ≠ some (.ok [[]]) := by
  refine ⟨⟨0,rfl⟩,fun fuel hrun => ?_⟩
  have hraise : (steppingRunner {}).diffusionGenerate 1 [⟨[5],0,true⟩] =
      some (.error .emptyReduction) := by rfl
  have hleft := diffusionGenerate_mono hrun (Nat.le_max_left fuel 1)
  rw [diffusionGenerate_mono hraise (Nat.le_max_right fuel 1)] at hleft
  cases hleft

end FluxServe.Engine.NemotronRunner
