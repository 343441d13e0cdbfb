import FluxServe.Nemotron.Causal
import FluxServe.Nemotron.PlanProof
import FluxServe.Nemotron.Speculation

namespace FluxServe.Engine

variable {M : NemotronModel}

/-- One request in the plan calls: its prompt in chunks, then decode rows, each call with any rows
of other requests and between them anything that concerns only others. It counts the prompt tokens
that are prefilled, and keeps the slot before each decode row and the results of the request. -/
inductive Serving (K : PagedRunner M) (R : NemotronRunner M) (rid : RequestId)
    (prompt : List Token) (w₀ : Served M) :
    Nat → List (Slot M) → List StepResult → Served M → Prop
  | start : Serving K R rid prompt w₀ 0 [] [] w₀
  | other {done : Nat} {visited : List (Slot M)} {results : List StepResult} {w w' : Served M}
      (run : Serving K R rid prompt w₀ done visited results w) (same : w' rid = w rid) :
      Serving K R rid prompt w₀ done visited results w'
  | prefill {done : Nat} {visited : List (Slot M)} {results returned : List StepResult}
      {w w' : Served M} {fuel : Nat} {op : PlanOp} {p : PrefillRow}
      (run : Serving K R rid prompt w₀ done visited results w)
      (row : p ∈ op.prefills) (own : p.rid = rid) (offset : p.offset = done)
      (chunk : p.tokens <+: prompt.drop done)
      (call : K.executeForwardOp R fuel op w = some (returned,w')) :
      Serving K R rid prompt w₀ (done+p.tokens.length) visited
        (results ++ resultsOf rid returned) w'
  | decode {visited : List (Slot M)} {results returned : List StepResult} {w w' : Served M}
      {fuel : Nat} {op : PlanOp}
      (run : Serving K R rid prompt w₀ prompt.length visited results w)
      (row : rid ∈ op.decodes) (call : K.executeForwardOp R fuel op w = some (returned,w')) :
      Serving K R rid prompt w₀ prompt.length (visited ++ [w rid])
        (results ++ resultsOf rid returned) w'

variable {R : NemotronRunner M} {K : PagedRunner M} {rid : RequestId} {prompt : List Token}
  {w₀ w w' : Served M} {done : Nat} {visited : List (Slot M)} {results : List StepResult}

/-- A call without a row of the request is among what concerns only others. -/
theorem Serving.bystander {Ends : K.Row → K.Row → Prop} (hk : Rowwise K Ends)
    (run : Serving K R rid prompt w₀ done visited results w) {fuel : Nat} {op : PlanOp}
    {returned : List StepResult} (call : K.executeForwardOp R fuel op w = some (returned,w'))
    (hrid : rid ∉ op.requestIds) : Serving K R rid prompt w₀ done visited results w' :=
  .other run (executeForwardOp_others hk call hrid)

/-- The tokens of some results. -/
def tokensOf (results : List StepResult) : List Token := results.flatMap StepResult.tokenIds

/-- Whether a result ended the request. -/
def endedBy (results : List StepResult) : Bool := results.any StepResult.finished

@[simp] theorem tokensOf_append (rs rs' : List StepResult) :
    tokensOf (rs ++ rs') = tokensOf rs ++ tokensOf rs' := List.flatMap_append

@[simp] theorem tokensOf_singleton (r : StepResult) : tokensOf [r] = r.tokenIds := by
  simp [tokensOf]

@[simp] theorem endedBy_append (rs rs' : List StepResult) :
    endedBy (rs ++ rs') = (endedBy rs || endedBy rs') := List.any_append

@[simp] theorem endedBy_singleton (r : StepResult) : endedBy [r] = r.finished := by
  simp [endedBy]

theorem deliver_unfinished {s : Slot M} {state : RequestState} {r : StepResult}
    (h : ∀ state, s.state = some state → state.finished = false)
    (hstate : (s.deliver r).state = some state) : state.finished = false := by
  cases hs : s.state with
  | none =>
    rw [Slot.deliver,hs] at hstate
    exact h state hstate
  | some state' =>
    have hfin := h state' hs
    cases hr : r.finished with
    | true =>
      rw [deliver_finished hs hfin hr] at hstate
      cases hstate
    | false =>
      rw [deliver_running hs hfin hr] at hstate
      injection hstate with hstate
      rw [← hstate]
      split <;> exact hfin

/-- A request that the engine holds is never a finished one. -/
theorem Serving.unfinished {Ends : K.Row → K.Row → Prop} (hk : Rowwise K Ends)
    (h₀ : ∀ state, (w₀ rid).state = some state → state.finished = false)
    (h : Serving K R rid prompt w₀ done visited results w) :
    ∀ state, (w rid).state = some state → state.finished = false := by
  induction h with
  | start => exact h₀
  | other _ same ih =>
    rw [same]
    exact ih
  | @prefill d v rs returned w w' fuel op p _ row own offset chunk call ih =>
    intro state hstate
    cases hbefore : (w rid).state with
    | none =>
      rw [(executeForwardOp_gone hk call hbefore).2] at hstate
      cases hstate
    | some before =>
      subst own
      have hfin := ih before hbefore
      obtain ⟨_,hnone⟩ | ⟨_,_,hslot⟩ := executeForwardOp_prefill hk call row hbefore hfin
      · rw [hnone] at hstate
        cases hstate
      · rw [hslot,Slot.prefilled,prefillSlot_state,hbefore] at hstate
        dsimp only at hstate
        split at hstate
        all_goals
          injection hstate with hstate
          rw [← hstate]
          exact hfin
  | @decode v rs returned w w' fuel op _ row call ih =>
    intro state hstate
    cases hbefore : (w rid).state with
    | none =>
      rw [(executeForwardOp_gone hk call hbefore).2] at hstate
      cases hstate
    | some before =>
      obtain ⟨_,hnone⟩ | ⟨r,s',⟨_,row',_,_,hs',_⟩,_,hslot⟩ :=
        executeForwardOp_decode hk call row hbefore (ih _ hbefore)
      · rw [hnone] at hstate
        cases hstate
      · rw [hslot] at hstate
        apply deliver_unfinished ?_ hstate
        intro state' hstate'
        have hkept : s'.state = some before := by
          rw [hs',hk.settle_state,hbefore]
        have hsame : before = state' := by
          apply Option.some.inj
          rw [← hkept,← hstate']
          split <;> rfl
        rw [← hsame]
        exact ih _ hbefore

/-- What holds of a request in the plan calls: it keeps through its own rows, and through whatever
ends it. -/
theorem Serving.preserves {Ends : K.Row → K.Row → Prop} (hk : Rowwise K Ends)
    (h₀ : ∀ state, (w₀ rid).state = some state → state.finished = false)
    {P : Nat → List (Slot M) → List StepResult → Slot M → Prop}
    (start : P 0 [] [] (w₀ rid))
    (gone : ∀ d v rs s d' v' s', P d v rs s → s'.state = none → P d' v' rs s')
    (prefill : ∀ d v rs s state p, P d v rs s → s.state = some state → p.rid = rid →
      p.offset = d → p.tokens <+: prompt.drop d → p.tokens ≠ [] →
      P (d+p.tokens.length) v (rs ++ [{ rid := rid }]) ((R.prefillSlot p s).prefilled K.speculates))
    (decode : ∀ v rs s state s' r, P prompt.length v rs s → s.state = some state →
      state.finished = false → Decodes K Ends rid state s s' r →
      P prompt.length (v ++ [s]) (rs ++ [r])
        ((if r.finished then s'.release else s').deliver r))
    (h : Serving K R rid prompt w₀ done visited results w) : P done visited results (w rid) := by
  induction h with
  | start => exact start
  | other _ same ih =>
    rw [same]
    exact ih
  | @prefill d v rs returned w w' fuel op p run row own offset chunk call ih =>
    cases hstate : (w rid).state with
    | none =>
      obtain ⟨hof,hnone⟩ := executeForwardOp_gone hk call hstate
      rw [hof,List.append_nil]
      exact gone _ _ _ _ _ _ _ ih hnone
    | some state =>
      have hfin := run.unfinished hk h₀ state hstate
      subst own
      obtain ⟨hof,hnone⟩ | ⟨hne,hof,hslot⟩ := executeForwardOp_prefill hk call row hstate hfin
      · rw [hof,List.append_nil]
        exact gone _ _ _ _ _ _ _ ih hnone
      · rw [hof,hslot]
        exact prefill _ _ _ _ state p ih hstate rfl offset chunk hne
  | @decode v rs returned w w' fuel op run row call ih =>
    cases hstate : (w rid).state with
    | none =>
      obtain ⟨hof,hnone⟩ := executeForwardOp_gone hk call hstate
      rw [hof,List.append_nil]
      exact gone _ _ _ _ _ _ _ ih hnone
    | some state =>
      have hfin := run.unfinished hk h₀ state hstate
      obtain ⟨hof,hnone⟩ | ⟨r,s',hdec,hof,hslot⟩ :=
        executeForwardOp_decode hk call row hstate hfin
      · rw [hof,List.append_nil]
        exact gone _ _ _ _ _ _ _ ih hnone
      · rw [hof,hslot]
        exact decode _ _ _ state s' r ih hstate hfin hdec

section Prefill

open NemotronRunner

variable {asked : RequestState} {speculates : Bool} {s : Slot M}

/-- A request later on, as far as the plan calls change it. -/
def RequestState.served (asked : RequestState) (prefilled : Bool) (outputs : List Token)
    (blocks : Int) : RequestState :=
  { asked with
    planPrefillDone := prefilled
    outputIds := outputs
    currentDecodeBlock := blocks }

/-- A request as it was taken in, before any of its plan calls. -/
structure Submitted (asked : RequestState) (s : Slot M) : Prop where
  state : s.state = some asked
  outputs : asked.outputIds = []
  blocks : asked.currentDecodeBlock = 0
  unfinished : asked.finishedReason = none
  seed : s.requestSeed = none
  unprefixed : s.requestPrefix = none

/-- A request after so many tokens of its prompt. Only the last chunk gives the seed. -/
structure Prefilling (R : NemotronRunner M) (speculates : Bool) (asked : RequestState) (done : Nat)
    (s : Slot M) : Prop where
  state : ∃ b, s.state = some (asked.served b [] 0)
  long : done ≤ s.cache.length
  pending : asked.inputIds = [] ∨ done < asked.inputIds.length →
    s.requestSeed = none ∧ s.requestPrefix = none
  ready : asked.inputIds ≠ [] → done = asked.inputIds.length →
    (∃ t, s.requestSeed = some t ∧ (M.Causal → t = R.next asked.inputIds)) ∧
    (speculates = true → s.requestPrefix = some asked.inputIds.length)
  causal : M.Causal → s.cache.take done = M.causalKv (asked.inputIds.take done)

theorem Submitted.running (h : Submitted asked s) :
    ∀ state, s.state = some state → state.finished = false := by
  intro state hstate
  rw [h.state] at hstate
  injection hstate with hstate
  rw [← hstate,RequestState.finished,h.unfinished]
  rfl

theorem Submitted.prefilling (h : Submitted asked s) : Prefilling R speculates asked 0 s where
  state := by
    refine ⟨asked.planPrefillDone,?_⟩
    rw [h.state,RequestState.served,← h.outputs,← h.blocks]
  long := Nat.zero_le _
  pending _ := ⟨h.seed,h.unprefixed⟩
  ready hne h0 := absurd (List.length_eq_zero_iff.mp h0.symm) hne
  causal _ := (List.eq_nil_of_length_eq_zero (M.causalKv_length [])).symm

theorem prefillSlot_eq (R : NemotronRunner M) {state : RequestState} (p : PrefillRow)
    (hstate : s.state = some state) :
    R.prefillSlot p s = { s with
      cache := (commit false true p.tokens p.offset s.cache).2
      requestSeed :=
        if p.offset+p.tokens.length < state.inputIds.length then s.requestSeed
        else some (R.seedFrom (commit false true p.tokens p.offset s.cache).1) } := by
  unfold NemotronRunner.prefillSlot
  rw [hstate]
  dsimp only
  split <;> rfl

theorem prefilled_eq {state : RequestState} (speculates : Bool) (hstate : s.state = some state) :
    s.prefilled speculates = { s with
      state := some { state with planPrefillDone := true }
      requestPrefix :=
        if speculates && s.requestSeed.isSome then some state.inputIds.length
        else s.requestPrefix } := by
  unfold Slot.prefilled
  rw [hstate]
  dsimp only
  split <;> rfl

/-- A chunk that continues the prompt prefills it further. -/
theorem Prefilling.chunk (h : Prefilling R speculates asked done s) {p : PrefillRow}
    (hoffset : p.offset = done) (hchunk : p.tokens <+: asked.inputIds.drop done)
    (hne : p.tokens ≠ []) :
    Prefilling R speculates asked (done+p.tokens.length)
      ((R.prefillSlot p s).prefilled speculates) := by
  subst hoffset
  obtain ⟨b,hstate⟩ := h.state
  have hpos := List.length_pos_of_ne_nil hne
  have hle := hchunk.length_le
  rw [List.length_drop] at hle
  have hcut : asked.inputIds.take (p.offset+p.tokens.length) =
      asked.inputIds.take p.offset ++ p.tokens := by
    rw [List.take_add]
    exact congrArg (asked.inputIds.take p.offset ++ ·) (List.prefix_iff_eq_take.mp hchunk).symm
  obtain ⟨out,hout⟩ : ∃ out, out = commit false true p.tokens p.offset s.cache := ⟨_,rfl⟩
  have hlong : p.offset+p.tokens.length ≤ out.2.length := by
    rw [hout,commit_length h.long]
    omega
  have htake : (asked.inputIds.take p.offset).length = p.offset := by
    rw [List.length_take]
    omega
  have hcausal (hm : M.Causal) : out.2.take (p.offset+p.tokens.length) =
      M.causalKv (asked.inputIds.take (p.offset+p.tokens.length)) := by
    have hpref : s.cache.take (asked.inputIds.take p.offset).length =
        M.causalKv (asked.inputIds.take p.offset) := by
      rw [htake]
      exact h.causal hm
    have hkv := commit_take hm hpref (Nat.le_refl p.tokens.length)
    rw [htake,← hout,List.take_length] at hkv
    rw [hcut]
    exact hkv
  have hslot : (R.prefillSlot p s).state = some (asked.served b [] 0) := by
    rw [prefillSlot_state,hstate]
  rw [prefilled_eq speculates hslot,prefillSlot_eq R p hstate,← hout]
  by_cases hshort : p.offset+p.tokens.length < asked.inputIds.length
  · obtain ⟨hseed,hpref⟩ := h.pending (.inr (by omega))
    have hnone : (if p.offset+p.tokens.length < (asked.served b [] 0).inputIds.length then
        s.requestSeed else some (R.seedFrom out.1)) = none := (if_pos hshort).trans hseed
    simp only [hnone,Option.isSome_none,Bool.and_false]
    exact ⟨⟨true,rfl⟩,hlong,fun _ => ⟨rfl,hpref⟩,fun _ heq => by omega,hcausal⟩
  · have hsome : (if p.offset+p.tokens.length < (asked.served b [] 0).inputIds.length then
        s.requestSeed else some (R.seedFrom out.1)) = some (R.seedFrom out.1) := if_neg hshort
    have hseed (hm : M.Causal) : R.seedFrom out.1 = R.next asked.inputIds := by
      have hall : asked.inputIds.take (p.offset+p.tokens.length) = asked.inputIds :=
        List.take_of_length_le (by omega)
      have hnext := R.next_append hm (asked.inputIds.take p.offset) hne
      rw [← hcut,hall] at hnext
      rw [← hnext,hout]
      simp only [commit]
      rw [h.causal hm]
    simp only [hsome,Option.isSome_some,Bool.and_true]
    refine ⟨⟨true,rfl⟩,hlong,?_,fun _ _ => ⟨⟨_,rfl,hseed⟩,fun hspec => if_pos hspec⟩,hcausal⟩
    rintro (hnil | hlt)
    · rw [hnil,List.length_nil] at hle
      omega
    · exact absurd hlt hshort

end Prefill

section Streams

variable {asked : RequestState} {speculates : Bool} {s : Slot M} {out : List Token}
  {At : Nat → List Token → Slot M → Prop}

/-- What a request has been through in the plan calls: it is prefilled, then stands somewhere after
so many decode rows and tokens, and has returned the whole output when it is finished. -/
structure Streams (R : NemotronRunner M) (speculates : Bool) (asked : RequestState)
    (At : Nat → List Token → Slot M → Prop) (out : List Token) (done : Nat)
    (visited : List (Slot M)) (results : List StepResult) (s : Slot M) : Prop where
  output : endedBy results = true → tokensOf results = out
  live : ∀ state, s.state = some state → endedBy results = false ∧
    ((visited = [] ∧ tokensOf results = [] ∧ Prefilling R speculates asked done s) ∨
      (done = asked.inputIds.length ∧ At visited.length (tokensOf results) s))

/-- Where a live request stands that is prefilled. -/
theorem Streams.stands
    (h : Streams R speculates asked At out asked.inputIds.length visited results s)
    (enter : ∀ s, Prefilling R speculates asked asked.inputIds.length s → At 0 [] s)
    {state : RequestState} (hstate : s.state = some state) :
    At visited.length (tokensOf results) s := by
  obtain ⟨_,⟨hv,htokens,hpre⟩ | ⟨_,hat⟩⟩ := h.live state hstate
  · rw [hv,htokens]
    exact enter s hpre
  · exact hat

/-- A request that each decode row ends with the whole output, or takes on, streams that output. -/
theorem Serving.streams {Ends : K.Row → K.Row → Prop} (hk : Rowwise K Ends)
    (h₀ : Submitted asked (w₀ rid))
    (enter : ∀ s, Prefilling R K.speculates asked asked.inputIds.length s → At 0 [] s)
    (decode : ∀ n outputs s state s' r, At n outputs s → s.state = some state →
      Decodes K Ends rid state s s' r →
      (r.finished = true ∧ outputs ++ r.tokenIds = out) ∨
        (r.finished = false ∧ At (n+1) (outputs ++ r.tokenIds) (s'.deliver r)))
    (hrun : Serving K R rid asked.inputIds w₀ done visited results w) :
    Streams R K.speculates asked At out done visited results (w rid) := by
  apply hrun.preserves hk h₀.running
    (P := fun d v rs s => Streams R K.speculates asked At out d v rs s)
  · refine ⟨fun h => ?_,fun state hstate => ?_⟩
    · cases h
    · exact ⟨rfl,.inl ⟨rfl,rfl,h₀.prefilling⟩⟩
  · intro d v rs s d' v' s' h hnone
    refine ⟨h.output,fun state hstate => ?_⟩
    rw [hnone] at hstate
    cases hstate
  · intro d v rs s state p h hstate hown hoffset hchunk hne
    obtain ⟨hrunning,⟨hv,htokens,hpre⟩ | ⟨hd,_⟩⟩ := h.live state hstate
    · have hnext := hpre.chunk hoffset hchunk hne
      refine ⟨fun hended => ?_,fun state' hstate' => ?_⟩
      · rw [endedBy_append,hrunning] at hended
        cases hended
      · refine ⟨by rw [endedBy_append,hrunning]; rfl,.inl ⟨hv,?_,hnext⟩⟩
        rw [tokensOf_append,htokens]
        rfl
    · rw [hd,List.drop_length] at hchunk
      exact absurd (List.prefix_nil.mp hchunk) hne
  · intro v rs s state s' r h hstate hunfinished hdec
    have hrunning := (h.live state hstate).1
    obtain ⟨hfin,hout⟩ | ⟨hfin,hat⟩ := decode _ _ _ _ _ _ (h.stands enter hstate) hstate hdec
    · have hgone : ((if r.finished then s'.release else s').deliver r).state = none := by
        rw [hfin,if_pos rfl]
        obtain ⟨row,row',_,_,hs',_⟩ := hdec
        apply deliver_finished ?_ hunfinished hfin
        rw [hs']
        exact (hk.settle_state row' s).trans hstate
      refine ⟨fun _ => ?_,fun state' hstate' => ?_⟩
      · rw [tokensOf_append,tokensOf_singleton]
        exact hout
      · rw [hgone] at hstate'
        cases hstate'
    · rw [hfin,if_neg Bool.false_ne_true]
      refine ⟨fun hended => ?_,fun state' hstate' => ?_⟩
      · rw [endedBy_append,hrunning,endedBy_singleton,hfin] at hended
        cases hended
      · refine ⟨by rw [endedBy_append,hrunning,endedBy_singleton,hfin]; rfl,.inr ⟨rfl,?_⟩⟩
        rw [List.length_append,List.length_singleton,tokensOf_append,tokensOf_singleton]
        exact hat

end Streams

section Results

/-- Among tokens without a mask before their end, a row returns those before their end. -/
theorem returned_eq (R : NemotronRunner M) (state : RequestState) (generated : List Token)
    (hmask : R.maskId ∉ (generated.take (state.maxNewTokens-state.outputIds.length)).takeWhile
      fun t => !R.stopsAt (!state.ignoreEos) t) :
    R.returned state generated =
      ((generated.take (state.maxNewTokens-state.outputIds.length)).takeWhile
          fun t => !R.stopsAt (!state.ignoreEos) t,
        (generated.take (state.maxNewTokens-state.outputIds.length)).any
          (R.stopsAt (!state.ignoreEos))) := by
  unfold NemotronRunner.returned
  obtain ⟨kept,hkept⟩ : ∃ kept, kept = generated.take (state.maxNewTokens-state.outputIds.length) :=
    ⟨_,rfl⟩
  rw [← hkept] at hmask ⊢
  cases hignore : state.ignoreEos with
  | true =>
    rw [hignore] at hmask
    have hall : (kept.takeWhile fun t => !R.stopsAt (!true) t) = kept := by
      simp [NemotronRunner.stopsAt]
    rw [hall] at hmask ⊢
    have hnone : kept.any (R.stopsAt (!true)) = false := by
      simp [NemotronRunner.stopsAt]
    rw [hnone]
    simp only [Bool.not_true,Bool.false_and,Bool.false_eq_true,if_false,true_or,and_true]
    congr 1
    apply List.filter_eq_self.mpr
    intro t ht
    have hne : t ≠ R.maskId := fun h => hmask (h ▸ ht)
    simpa using hne
  | false =>
    rw [hignore] at hmask
    have hstops : R.stopsAt (!false) = R.decoder.isEos := by
      funext t
      simp [NemotronRunner.stopsAt]
    simp only [hstops] at hmask ⊢
    have hcut : (if kept.any R.decoder.isEos then kept.takeWhile fun t => !R.decoder.isEos t
        else kept) = kept.takeWhile fun t => !R.decoder.isEos t := by
      split
      · rfl
      · next hnone =>
        symm
        apply List.takeWhile_eq_self_iff.mpr
        simpa using hnone
    simp only [Bool.not_false,Bool.true_and,hcut,Bool.false_eq_true,false_or]
    congr 1
    apply List.filter_eq_self.mpr
    intro t ht
    have hne : t ≠ R.maskId := fun h => hmask (h ▸ ht)
    have heos : R.decoder.isEos t = false := by simpa using List.mem_takeWhile_imp ht
    simp [hne,heos]

/-- What a request has returned after another row: all that is generated, up to its budget and its
end. It is finished when it reaches one of them. -/
theorem stepResult_eq (R : NemotronRunner M) (rid : RequestId) (state : RequestState)
    (generated : List Token) (reserve : Nat) (completed : Bool)
    (hstop : ∀ t ∈ state.outputIds, R.stopsAt (!state.ignoreEos) t = false)
    (hshort : state.outputIds.length ≤ state.maxNewTokens)
    (hmask : R.maskId ∉ ((state.outputIds ++ generated).take state.maxNewTokens).takeWhile
      fun t => !R.stopsAt (!state.ignoreEos) t) :
    state.outputIds ++ (R.stepResult rid state generated reserve completed).tokenIds =
      ((state.outputIds ++ generated).take state.maxNewTokens).takeWhile
        (fun t => !R.stopsAt (!state.ignoreEos) t) ∧
    ((R.stepResult rid state generated reserve completed).finished = true ↔
      ((state.outputIds ++ generated).take state.maxNewTokens).any
          (R.stopsAt (!state.ignoreEos)) = true ∨
        state.maxNewTokens ≤ (state.outputIds ++ generated).length) := by
  obtain ⟨kept,hkept⟩ : ∃ kept, kept = generated.take (state.maxNewTokens-state.outputIds.length) :=
    ⟨_,rfl⟩
  have htake : (state.outputIds ++ generated).take state.maxNewTokens =
      state.outputIds ++ kept := by
    rw [List.take_append,List.take_of_length_le hshort,hkept]
  have hwhile : ((state.outputIds ++ kept).takeWhile fun t => !R.stopsAt (!state.ignoreEos) t) =
      state.outputIds ++ kept.takeWhile fun t => !R.stopsAt (!state.ignoreEos) t := by
    apply List.takeWhile_append_of_pos
    intro t ht
    rw [hstop t ht]
    rfl
  rw [htake,hwhile] at hmask ⊢
  have hreturned := returned_eq R state generated
    (by rw [← hkept]; exact fun h => hmask (List.mem_append_right _ h))
  rw [← hkept] at hreturned
  unfold NemotronRunner.stepResult
  rw [hreturned]
  refine ⟨rfl,?_⟩
  have hnone : state.outputIds.any (R.stopsAt (!state.ignoreEos)) = false := by
    apply List.any_eq_false.mpr
    intro t ht
    rw [hstop t ht]
    exact Bool.false_ne_true
  dsimp only
  rw [List.any_append,hnone,Bool.false_or,Bool.or_eq_true,decide_eq_true_eq]
  have hlen : kept.length = min (state.maxNewTokens-state.outputIds.length) generated.length := by
    rw [hkept,List.length_take]
  constructor
  · rintro (hany | hle)
    · exact .inl hany
    · refine .inr ?_
      have hpref := (List.takeWhile_prefix (l := kept)
        fun t => !R.stopsAt (!state.ignoreEos) t).length_le
      rw [List.length_append]
      omega
  · rintro (hany | hle)
    · exact .inl hany
    · cases hany : kept.any (R.stopsAt (!state.ignoreEos)) with
      | true => exact .inl rfl
      | false =>
        refine .inr ?_
        have hall : (kept.takeWhile fun t => !R.stopsAt (!state.ignoreEos) t) = kept := by
          apply List.takeWhile_eq_self_iff.mpr
          simpa using hany
        rw [hall,hlen]
        rw [List.length_append] at hle
        omega

end Results

end FluxServe.Engine
