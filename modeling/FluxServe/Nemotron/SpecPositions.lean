import FluxServe.Nemotron.OnlineSpec

namespace FluxServe.Engine.NemotronRunner

variable {M : NemotronModel} {R : NemotronRunner M} {rid : RequestId}
  {asked state : RequestState} {outputs : List Token} {seed : Token} {prefixLength : Nat}
  {s s' : Slot M} {r : StepResult} {w₀ w : Served M} {done : Nat} {visited : List (Slot M)}
  {results : List StepResult}

/-- The verifier predicts the mask where a decode row emits it: as the token of the prefill that is
still to be returned, or as the token after what it accepts of the draft. -/
def PredictsMask (R : NemotronRunner M) (s : Slot M) : Prop :=
  ∃ state seed prefixLength, s.state = some state ∧ s.requestSeed = some seed ∧
    s.requestPrefix = some prefixLength ∧
    ((decodesFirst state prefixLength = true ∧ seed = R.maskId) ∨
      ∃ x drafted, R.speculativeBlock seed
          (R.thinkingBudget.due (produced state seed prefixLength)) = .ok x ∧
        (R.planSpecRow state s.cache seed prefixLength x).state = .draft ∧
        R.draftBlock x.1 prefixLength s.cache = .ok drafted ∧
        (acceptedAt prefixLength s.cache drafted x.2).getLast? = some R.maskId)

/-- The runner, the engine and the client agree on the length of a request, but for the token of
the prefill while that is still to be returned. -/
structure InStep (R : NemotronRunner M) (asked : RequestState) (outputs : List Token) (seed : Token)
    (prefixLength : Nat) (s : Slot M) : Prop where
  state : ∃ b, s.state = some (asked.served b outputs 0)
  seed : s.requestSeed = some seed
  prefixed : s.requestPrefix = some prefixLength
  long : prefixLength ≤ s.cache.length
  place : (outputs = [] ∧ prefixLength = asked.inputIds.length) ∨
    (outputs ≠ [] ∧ prefixLength+1 = asked.inputIds.length+outputs.length)
  unmasked : R.maskId ∉ outputs
  stops : ∀ t ∈ outputs, R.stopsAt (!asked.ignoreEos) t = false
  short : outputs.length ≤ asked.maxNewTokens

/-- What a request still has to return before the tokens of its row. -/
def pendingSeed (outputs : List Token) (seed : Token) : List Token :=
  if outputs = [] then [seed] else []

theorem InStep.decodesFirst (h : R.InStep asked outputs seed prefixLength s) (b : Bool) :
    NemotronRunner.decodesFirst (asked.served b outputs 0) prefixLength = decide (outputs = []) := by
  unfold NemotronRunner.decodesFirst
  obtain ⟨hnil,hlen⟩ | ⟨hne,_⟩ := h.place
  · simp [RequestState.served,hnil,hlen]
  · cases outputs with
    | nil => exact absurd rfl hne
    | cons t ts => simp [RequestState.served]

theorem InStep.row_emitted (h : R.InStep asked outputs seed prefixLength s) (b : Bool)
    (x : List Token × Nat) :
    (R.planSpecRow (asked.served b outputs 0) s.cache seed prefixLength x).emitted =
      pendingSeed outputs seed := by
  unfold planSpecRow pendingSeed
  rw [h.decodesFirst b]
  simp only [decide_eq_true_eq]

/-- A decode row that does not draft is one that ends its request. -/
theorem InStep.row_done (h : R.InStep asked outputs seed prefixLength s) (b : Bool)
    (x : List Token × Nat)
    (hdone : (R.planSpecRow (asked.served b outputs 0) s.cache seed prefixLength x).state ≠ .draft) :
    outputs = [] ∧ (R.stopsAt (!asked.ignoreEos) seed = true ∨ asked.maxNewTokens ≤ 1) := by
  unfold planSpecRow at hdone
  rw [h.decodesFirst b] at hdone
  dsimp only at hdone
  split at hdone
  · next hends =>
    rw [Bool.and_eq_true,decide_eq_true_eq] at hends
    obtain ⟨hnil,hends⟩ := hends
    refine ⟨hnil,?_⟩
    rw [hnil] at hends
    simp only [RequestState.served,decide_true,Bool.true_and,Bool.or_eq_true,List.length_nil,
      Nat.sub_zero] at hends
    refine hends.imp id fun hle => ?_
    have hone := of_decide_eq_true hle
    omega
  · exact absurd rfl hdone

/-- A decode row ends its request or leaves it in step, unless the verifier predicts the mask. -/
theorem InStep.decode (hunfinished : asked.finishedReason = none)
    (h : R.InStep asked outputs seed prefixLength s) (hmask : ¬R.PredictsMask s)
    (hstate : s.state = some state) (hdec : Decodes R.speculation R.SpecEnds rid state s s' r) :
    r.finished = true ∨ (r.finished = false ∧ ∃ outputs' seed' prefixLength',
      R.InStep asked outputs' seed' prefixLength' (s'.deliver r) ∧ outputs' ≠ []) := by
  obtain ⟨b,hserved⟩ := h.state
  have hsame := hstate
  rw [hserved] at hsame
  injection hsame with hsame
  subst hsame
  obtain ⟨x,row',hx,hends,rfl,rfl⟩ := (decodes_iff h.seed h.prefixed).mp hdec
  have hfirst : outputs = [] → seed ≠ R.maskId := by
    intro hnil hseed
    refine hmask ⟨_,seed,prefixLength,hstate,h.seed,h.prefixed,.inl ⟨?_,hseed⟩⟩
    rw [h.decodesFirst b,hnil]
    rfl
  have hpending : R.maskId ∉ outputs ++ pendingSeed outputs seed := by
    intro hmem
    obtain hold | hnew := List.mem_append.mp hmem
    · exact h.unmasked hold
    · unfold pendingSeed at hnew
      split at hnew
      · next hnil => exact hfirst hnil (List.mem_singleton.mp hnew).symm
      · cases hnew
  by_cases hdraft :
      (R.planSpecRow (asked.served b outputs 0) s.cache seed prefixLength x).state = .draft
  · -- the row drafts, and what the verifier accepts has no mask
    obtain ⟨m,hm⟩ := hends
    obtain ⟨hblock,hforced⟩ := R.speculativeBlock_spec hx
    obtain ⟨hrun,hraise⟩ := specRow_once (R := R)
      (R.planSpecRow (asked.served b outputs 0) s.cache seed prefixLength x) s.cache hdraft rfl rfl
      (by change x.2 < x.1.length; omega) h.long h.long rfl
    obtain ⟨drafted,hd⟩ : ∃ drafted, R.draftBlock x.1 prefixLength s.cache = .ok drafted := by
      cases hd : R.draftBlock x.1 prefixLength s.cache with
      | ok drafted => exact ⟨drafted,rfl⟩
      | error e =>
        obtain ⟨m',e',hm'⟩ := hraise e hd
        have hbad := hm.unique hm'
        cases hbad
    obtain ⟨_,hdrafted,_⟩ := R.draftBlock_spec hd
    obtain ⟨m',row'',hm',accepted,hspec⟩ := hrun drafted hd
    have hrow := hm.unique hm'
    injection hrow with hrow
    subst hrow
    have haccepted : R.maskId ∉ accepted := by
      intro hmem
      have hspec' : accepted = acceptedAt prefixLength s.cache drafted x.2 := hspec.accepted_eq
      rw [hspec'] at hmem
      exact hmask ⟨_,seed,prefixLength,hstate,h.seed,h.prefixed,
        .inr ⟨x,drafted,hx,hdraft,hd,acceptedAt_last hdrafted hmem⟩⟩
    have hemitted : row'.emitted = pendingSeed outputs seed ++
        upTo (R.stopsAt (!asked.ignoreEos)) accepted := by
      have hgrown := hspec.emitted
      rw [h.row_emitted b x] at hgrown
      exact hgrown
    have hunmasked : R.maskId ∉ outputs ++ row'.emitted := by
      rw [hemitted,← List.append_assoc]
      intro hmem
      obtain hold | hnew := List.mem_append.mp hmem
      · exact hpending hold
      · exact haccepted ((upTo_isPrefix _ _).subset hnew)
    obtain ⟨htokens,hfinished⟩ := stepResult_eq R rid (asked.served b outputs 0) row'.emitted
      (row'.prefixLength-prefixLength) false h.stops h.short fun hmem =>
        hunmasked (List.take_subset _ _ ((List.takeWhile_prefix _).subset hmem))
    cases hfin : (R.stepResult rid (asked.served b outputs 0) row'.emitted
        (row'.prefixLength-prefixLength) false).finished with
    | true => exact .inl rfl
    | false =>
      rw [hfin] at hfinished
      obtain ⟨hnone,hlen⟩ : ((outputs ++ row'.emitted).take asked.maxNewTokens).any
          (R.stopsAt (!asked.ignoreEos)) = false ∧
          (outputs ++ row'.emitted).length < asked.maxNewTokens := by
        have hnot := fun hor => Bool.false_ne_true (hfinished.mpr hor)
        exact ⟨Bool.eq_false_iff.mpr fun hany => hnot (.inl hany),
          Nat.lt_of_not_le fun hle => hnot (.inr hle)⟩
      have hall : (outputs ++ row'.emitted).take asked.maxNewTokens = outputs ++ row'.emitted :=
        List.take_of_length_le hlen.le
      rw [hall] at hnone
      have hstops : ∀ t ∈ outputs ++ row'.emitted, R.stopsAt (!asked.ignoreEos) t = false := by
        simpa using List.any_eq_false.mp hnone
      have hout : outputs ++ (R.stepResult rid (asked.served b outputs 0) row'.emitted
          (row'.prefixLength-prefixLength) false).tokenIds = outputs ++ row'.emitted := by
        refine htokens.trans ?_
        change List.takeWhile _ ((outputs ++ row'.emitted).take asked.maxNewTokens) = _
        rw [hall]
        apply List.takeWhile_eq_self_iff.mpr
        intro t ht
        change (!R.stopsAt (!asked.ignoreEos) t) = true
        rw [hstops t ht]
        rfl
      have hwhole : upTo (R.stopsAt (!asked.ignoreEos)) accepted = accepted := by
        apply upTo_of_none
        have hany : accepted.any (R.stopsAt (!asked.ignoreEos)) = false := by
          rw [← upTo_any]
          apply List.any_eq_false.mpr
          intro t ht
          rw [hstops t (by rw [hemitted]; simp [ht])]
          exact Bool.false_ne_true
        simpa using hany
      rw [hwhole] at hemitted
      have hne : accepted ≠ [] := by
        rw [hspec.accepted_eq]
        obtain ⟨hlen',_,_⟩ := R.draftBlock_spec hd
        exact (acceptedAt_length_le _ _ (by rw [hlen']; change x.2 < x.1.length; omega)).2
      have hpref : row'.prefixLength = prefixLength+accepted.length := hspec.prefixed
      have hdeliver := deliver_running (s := { s with
          requestSeed := some row'.seed
          requestPrefix := some row'.prefixLength
          cache := row'.cache }) hstate
        (by simp [RequestState.finished,RequestState.served,hunfinished]) hfin
      refine .inr ⟨rfl,outputs ++ row'.emitted,row'.seed,row'.prefixLength,?_,?_⟩
      · rw [hdeliver]
        refine ⟨⟨b,?_⟩,rfl,rfl,?_,.inr ⟨?_,?_⟩,hunmasked,hstops,hlen.le⟩
        · have hcompleted : (R.stepResult rid (asked.served b outputs 0) row'.emitted
              (row'.prefixLength-prefixLength) false).decodeBlockCompleted = false := rfl
          simp only [hcompleted,Bool.false_eq_true,if_false]
          rw [← hout]
          rfl
        · rw [hpref]
          exact hspec.long
        · rw [hemitted]
          simp [hne]
        · rw [hpref,hemitted]
          simp only [List.length_append]
          unfold pendingSeed
          obtain ⟨hnil,hlen'⟩ | ⟨hsome,hlen'⟩ := h.place
          · rw [if_pos hnil,hnil]
            simp only [List.length_nil,List.length_singleton]
            omega
          · rw [if_neg hsome]
            simp only [List.length_nil]
            omega
      · rw [hemitted]
        simp [hne]
  · -- the row is done before it runs, which ends its request
    left
    obtain ⟨hnil,hends'⟩ := h.row_done b x hdraft
    have hidle : row' = R.planSpecRow (asked.served b outputs 0) s.cache seed prefixLength x := by
      obtain ⟨m,hm⟩ := hends
      have hactive : (R.planSpecRow (asked.served b outputs 0) s.cache seed prefixLength x).active =
          false := by
        unfold SpecRow.active
        unfold planSpecRow at hdraft ⊢
        dsimp only at hdraft ⊢
        split
        · rfl
        · next hcond => rw [if_neg hcond] at hdraft; exact absurd rfl hdraft
      have hdone := hm.unique (halts_done hactive)
      injection hdone
    have hemitted : row'.emitted = [seed] := by
      rw [hidle,h.row_emitted b x,pendingSeed,if_pos hnil]
    subst hnil
    rw [hemitted]
    refine (stepResult_eq R rid (asked.served b [] 0) [seed] _ false h.stops h.short
      fun hmem => ?_).2.mpr ?_
    · have hseed := List.take_subset _ _ ((List.takeWhile_prefix _).subset hmem)
      exact hfirst rfl (List.mem_singleton.mp hseed).symm
    · obtain hstop | hone := hends'
      · by_cases h0 : asked.maxNewTokens = 0
        · exact .inr (by change asked.maxNewTokens ≤ 1; omega)
        · refine .inl ?_
          change (List.take asked.maxNewTokens [seed]).any (R.stopsAt (!asked.ignoreEos)) = true
          rw [List.take_of_length_le (by rw [List.length_singleton]; omega)]
          simp [hstop]
      · exact .inr hone

/-- A prefilled request is in step. -/
theorem inStep_prefilled (hp : asked.inputIds ≠ [])
    (h : Prefilling R true asked asked.inputIds.length s) :
    ∃ seed, R.InStep asked [] seed asked.inputIds.length s := by
  obtain ⟨⟨seed,hseed,_⟩,hpref⟩ := h.ready hp rfl
  exact ⟨seed,h.state,hseed,hpref rfl,h.long,.inl ⟨rfl,rfl⟩,List.not_mem_nil,
    fun t ht => (List.not_mem_nil ht).elim,Nat.zero_le _⟩

/-- A request through its plan calls: it is being prefilled, or it is in step. -/
def Synchronous (R : NemotronRunner M) (asked : RequestState) (done : Nat)
    (visited : List (Slot M)) (s : Slot M) : Prop :=
  (visited = [] ∧ Prefilling R true asked done s) ∨
    (visited ≠ [] ∧ done = asked.inputIds.length ∧ ∃ outputs seed prefixLength,
      R.InStep asked outputs seed prefixLength s ∧ outputs ≠ [])

theorem serving_synchronous (h₀ : Submitted asked (w₀ rid))
    (hrun : Serving R.speculation R rid asked.inputIds w₀ done visited results w) :
    (∀ s ∈ visited, ¬R.PredictsMask s) → ∀ state, (w rid).state = some state →
      R.Synchronous asked done visited (w rid) := by
  apply hrun.preserves (speculation_rowwise R) h₀.running (P := fun d v _ s =>
    (∀ s ∈ v, ¬R.PredictsMask s) → ∀ state, s.state = some state → R.Synchronous asked d v s)
  · intro _ _ _
    exact .inl ⟨rfl,h₀.prefilling⟩
  · intro d v rs s d' v' s' _ hnone _ state hstate
    rw [hnone] at hstate
    cases hstate
  · intro d v rs s state p h hstate _ hoffset hchunk hne hmask _ _
    obtain ⟨hv,hpre⟩ | ⟨_,hd,_⟩ := h hmask state hstate
    · exact .inl ⟨hv,hpre.chunk hoffset hchunk hne⟩
    · rw [hd,List.drop_length] at hchunk
      exact absurd (List.prefix_nil.mp hchunk) hne
  · intro v rs s state s' r h hstate hfin hdec hmask state' hstate'
    obtain ⟨outputs,seed,prefixLength,hstep⟩ : ∃ outputs seed prefixLength,
        R.InStep asked outputs seed prefixLength s := by
      obtain ⟨_,hpre⟩ | ⟨_,_,outputs,seed,prefixLength,hstep,_⟩ :=
        h (fun s hs => hmask s (List.mem_append_left _ hs)) state hstate
      · by_cases hp : asked.inputIds = []
        · -- without a prompt there is no seed, and the row raises
          obtain ⟨row,_,hrow,_⟩ := hdec
          change R.enterSpecRow rid state s = .ok row at hrow
          rw [enterSpecRow,(hpre.pending (.inl hp)).1] at hrow
          cases hrow
        · obtain ⟨seed,hstep⟩ := inStep_prefilled hp hpre
          exact ⟨[],seed,_,hstep⟩
      · exact ⟨outputs,seed,prefixLength,hstep⟩
    obtain hended | ⟨hgoes,outputs',seed',prefixLength',hstep',hne⟩ := hstep.decode h₀.unfinished
      (hmask s (List.mem_append_right _ (List.mem_singleton_self s))) hstate hdec
    · rw [hended,if_pos rfl] at hstate'
      obtain ⟨row,row',_,_,hs',_⟩ := hdec
      have hkept : s'.release.state = some state := by
        rw [hs']
        exact hstate
      rw [deliver_finished hkept hfin hended] at hstate'
      cases hstate'
    · rw [hgoes,if_neg Bool.false_ne_true]
      exact .inr ⟨by simp,rfl,outputs',seed',prefixLength',hstep',hne⟩

/-- The committed prefix and the tokens returned stay in step: in every run of plan calls in which
the verifier never predicts the mask where it is emitted, the prefix is one less than the prompt
with the outputs whenever a decode row leaves the request unfinished. Before the first one it is
the prompt. -/
theorem speculation_in_step (h₀ : Submitted asked (w₀ rid))
    (hrun : Serving R.speculation R rid asked.inputIds w₀ done visited results w)
    (hmask : ∀ s ∈ visited, ¬R.PredictsMask s) :
    ∀ state, (w rid).state = some state →
      (visited ≠ [] → state.outputIds ≠ [] ∧ (w rid).requestPrefix =
        some (state.inputIds.length+state.outputIds.length-1)) ∧
      (visited = [] → done = asked.inputIds.length → asked.inputIds ≠ [] →
        state.outputIds = [] ∧ (w rid).requestPrefix = some state.inputIds.length) := by
  intro state hstate
  obtain ⟨hv,hpre⟩ | ⟨hv,_,outputs,seed,prefixLength,hstep,hne⟩ :=
    serving_synchronous h₀ hrun hmask state hstate
  · obtain ⟨b,hb⟩ := hpre.state
    rw [hstate] at hb
    injection hb with hb
    subst hb
    exact ⟨fun h => absurd hv h,fun _ hd hp => ⟨rfl,(hpre.ready hp hd).2 rfl⟩⟩
  · obtain ⟨b,hb⟩ := hstep.state
    rw [hstate] at hb
    injection hb with hb
    subst hb
    obtain ⟨hnil,_⟩ | ⟨_,hplace⟩ := hstep.place
    · exact absurd hnil hne
    refine ⟨fun _ => ⟨hne,?_⟩,fun hnil => absurd hnil hv⟩
    change (w rid).requestPrefix = some (asked.inputIds.length+outputs.length-1)
    rw [hstep.prefixed,← hplace]
    rfl

theorem VerifierNeverMasks.not_predictsMask (h : R.VerifierNeverMasks)
    (hseed : s.requestSeed ≠ some R.maskId) : ¬R.PredictsMask s := by
  rintro ⟨state,seed,prefixLength,_,hs,_,⟨_,rfl⟩ | ⟨x,drafted,_,_,hd,hlast⟩⟩
  · exact hseed hs
  · obtain ⟨_,hdrafted,_⟩ := R.draftBlock_spec hd
    exact acceptedAt_unmasked _ _ _ h hdrafted (List.mem_of_getLast? hlast)

/-- After a prefill and a decode row the prefix of the request is two tokens long. -/
theorem speculation_in_step_stepping : ∃ visited results w,
    Serving (steppingRunner {}).speculation (steppingRunner {}) [5] [5]
      (servedFive steppingModel 3) 1 visited results w ∧
    ∃ state, (w [5]).state = some state ∧ state.outputIds = [6,7] ∧
      (w [5]).requestPrefix = some 2 := by
  have hpre : Serving (steppingRunner {}).speculation (steppingRunner {}) [5] [5]
      (servedFive steppingModel 3) 1 [] _ _ := prefillFive_serving _ rfl
  have hrun := decodeFive_serving hpre rfl
  refine ⟨_,_,_,hrun,_,rfl,rfl,?_⟩
  refine ((speculation_in_step (servedFive_submitted _ 3) hrun ?_ _ rfl).1 (by simp)).2
  intro s hs
  rw [List.mem_singleton.mp hs]
  apply (steppingRunner_verifier {}).not_predictsMask
  decide

/-- A checkpoint whose verifier predicts the mask after a six. -/
def forgettingModel : NemotronModel where
  Kv := Token
  Logits := Token
  Confidence := Nat
  linear := inferInstance
  zero := 0
  forward adapter _ _ tokens :=
    tokens.map fun t => (t,if adapter = false ∧ t = 6 then 0 else ((t.natAbs+1 : Nat) : Int))
  forward_length _ _ _ _ := List.length_map _
  argmax t := t
  confidence _ := 0

def forgettingRunner : NemotronRunner forgettingModel where
  blockLength := 4
  blockLength_pos := four_pos
  prefillChunkSize_pos := prefillChunk_pos
  decoder := ⟨(0 : Nat),0,[99]⟩
  draftThreshold := (0 : Nat)
  positionLimit := 100

/-- The mask that the verifier predicts is committed, but not returned. -/
theorem speculation_drifts : ∃ visited results w,
    Serving forgettingRunner.speculation forgettingRunner [5] [5]
      (servedFive forgettingModel 8) 1 visited results w ∧ visited ≠ [] ∧
    ∃ state, (w [5]).state = some state ∧ state.inputIds = [5] ∧ state.outputIds = [6] ∧
      (w [5]).requestPrefix = some 2 := by
  have hpre : Serving forgettingRunner.speculation forgettingRunner [5] [5]
      (servedFive forgettingModel 8) 1 [] _ _ := prefillFive_serving _ rfl
  have hrun := decodeFive_serving hpre rfl
  exact ⟨_,_,_,hrun,by simp,_,rfl,rfl,rfl,rfl⟩

end FluxServe.Engine.NemotronRunner
