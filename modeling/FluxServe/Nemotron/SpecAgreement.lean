import FluxServe.Nemotron.SpecRows

namespace FluxServe.Engine.NemotronRunner

variable {M : NemotronModel} {R : NemotronRunner M} {rows : List OfflineRow}
  {outs : List (List Token)} {row : OfflineRow} {out : List Token}

/-- What the dense runner returns for a row alone. -/
def DenseYields (R : NemotronRunner M) (row : OfflineRow) (out : List Token) : Prop :=
  ∃ fuel, R.specGenerateOne fuel row.stopOnEos row.prompt row.generationLength = some (.ok out)

/-- A row without a token to generate does not stop at the end of sequence, and a speculative block
fits behind its prompt. -/
def Fits (R : NemotronRunner M) (row : OfflineRow) : Prop :=
  row.generationLength = 0 →
    row.stopOnEos = false ∧ R.specLength row.prompt.length 0 ≤ R.positionLimit

/-- The dense loop runs on this row. -/
def Speculates (R : NemotronRunner M) (row : OfflineRow) : Prop :=
  2 ≤ row.generationLength ∧ R.stopsAt row.stopOnEos (R.firstToken row.prompt) = false

/-- No marker is due after the token of the prefill. -/
def Unforced (R : NemotronRunner M) (row : OfflineRow) : Prop :=
  R.Speculates row → R.thinkingBudget.due [R.firstToken row.prompt] = none

/-- The verifier itself predicts the marker that is due after the token of the prefill. -/
def MarkerPredicted (R : NemotronRunner M) (row : OfflineRow) : Prop :=
  R.Speculates row → ∀ t, R.thinkingBudget.due [R.firstToken row.prompt] = some t →
    R.next (row.prompt ++ [R.firstToken row.prompt]) = t

/-- Drafts fill their blocks. -/
def DraftsFill (R : NemotronRunner M) : Prop :=
  ∀ block prefixLength cache, ∃ drafted, R.draftBlock block prefixLength cache = .ok drafted

theorem denseYields_zero (h0 : row.generationLength = 0) : R.DenseYields row out ↔ out = [] := by
  unfold DenseYields specGenerateOne
  simp only [if_pos h0]
  constructor
  · rintro ⟨_,h⟩
    injection h with h
    injection h with h
    exact h.symm
  · rintro rfl
    exact ⟨0,rfl⟩

theorem denseYields_iff (h0 : row.generationLength ≠ 0) : R.DenseYields row out ↔
    ∃ s₀, R.startSpec row.stopOnEos row.prompt row.generationLength = .ok s₀ ∧
      ∃ t, (∃ n, Halts (specRemains row.generationLength)
        (R.speculate row.stopOnEos row.generationLength) s₀ (.ok t) n) ∧
        R.cutAtEos row.stopOnEos (t.emitted.take row.generationLength) = .ok out := by
  unfold DenseYields specGenerateOne
  simp only [if_neg h0]
  constructor
  · rintro ⟨fuel,h⟩
    split at h
    · cases h
    · rename_i s₀ hs₀
      obtain ⟨r,hr,hout⟩ := Option.bind_eq_some_iff.mp h
      injection hout with hout
      cases r with
      | error e => cases hout
      | ok t =>
        obtain ⟨n,_,hn⟩ := halts_of_tryLoop hr
        exact ⟨s₀,hs₀,t,⟨n,hn⟩,hout⟩
  · rintro ⟨s₀,hs₀,t,⟨n,hn⟩,hout⟩
    refine ⟨n,?_⟩
    rw [hs₀]
    dsimp only
    rw [hn.tryLoop_eq (Nat.le_refl n)]
    exact congrArg some hout

theorem specPositions_le : R.specPositions rows ≤ R.positionLimit ↔
    ∀ row ∈ rows, R.specLength row.prompt.length row.generationLength ≤ R.positionLimit := by
  unfold specPositions
  cases h : (rows.map fun row => R.specLength row.prompt.length row.generationLength).max? with
  | none =>
    rw [List.max?_eq_none_iff,List.map_eq_nil_iff] at h
    subst h
    simp
  | some m =>
    have hmax := List.max?_eq_some_iff.mp h
    rw [Option.getD_some]
    constructor
    · intro hm row hrow
      exact (hmax.2 _ (List.mem_map.mpr ⟨row,hrow,rfl⟩)).trans hm
    · intro hall
      obtain ⟨row,hrow,rfl⟩ := List.mem_map.mp hmax.1
      exact hall row hrow

/-- Where nothing is forced after the token of the prefill, a row of a batch yields what the dense
runner does. -/
theorem rowYields_of_unforced (hp : row.prompt ≠ []) (hdense : R.DenseYields row out)
    (hfits : R.Fits row) (hunforced : R.Unforced row) : R.RowYields row out := by
  by_cases h0 : row.generationLength = 0
  · exact (rowYields_zero hp h0).mpr ⟨(hfits h0).1,(denseYields_zero h0).mp hdense⟩
  · obtain ⟨s₀,hs₀,t,⟨n,hn⟩,hout⟩ := (denseYields_iff h0).mp hdense
    obtain ⟨r,_,_,_,_,hstart⟩ := prefillSpecRow_agrees (R := R) hp
    obtain ⟨hemitted,hmarker,hterminal,_⟩ := hstart s₀ hs₀
    refine (rowYields_iff hp hs₀).mpr ?_
    cases hgo : specRemains row.generationLength s₀ with
    | false =>
      have hsame := hn.unique (halts_done hgo)
      injection hsame with hsame
      subst hsame
      exact ⟨{ t with marker := none },⟨0,halts_done hgo⟩,hout⟩
    | true =>
      obtain ⟨hshort,hterm⟩ := specRemains_eq_true.mp hgo
      rw [hemitted,List.length_singleton] at hshort
      have hnone : s₀.marker = none := by
        rw [hmarker,hemitted]
        refine hunforced ⟨hshort,?_⟩
        rw [← Bool.not_eq_true,← hterminal,hterm]
        exact Bool.false_ne_true
      have hsame : { s₀ with marker := none } = s₀ := by
        rw [← hnone]
      rw [hsame]
      exact ⟨t,⟨n,hn⟩,hout⟩

section Exact

variable {stop : Bool} {prompt : List Token} {generationLength : Nat} {s t u : SpecState M}
  {written : List Token} {n : Nat}

theorem visited_emitted_isPrefix
    (h : Visited (specRemains generationLength) (R.speculate stop generationLength) s t) :
    s.emitted <+: t.emitted := by
  refine h.invariant (P := fun t => s.emitted <+: t.emitted) (List.prefix_refl _) ?_
  intro t u ht _ turned
  obtain ⟨⟨tokens,_,hemitted⟩,_⟩ := speculate_emits turned
  rw [hemitted]
  exact ht.trans (List.prefix_append _ _)

theorem halts_second {x : Token} (hu : u.emitted[1]? = some x)
    (h : Halts (specRemains generationLength) (R.speculate stop generationLength) u (.ok t) n) :
    t.emitted[1]? = some x := by
  obtain ⟨rest,hrest⟩ := visited_emitted_isPrefix h.visited.1
  have hlt : 1 < u.emitted.length := (List.getElem?_eq_some_iff.mp hu).1
  rw [← hrest,List.getElem?_append_left hlt]
  exact hu

/-- The second token of an output that does not stop at its first. -/
theorem cutAtEos_second {emitted : List Token} {x y : Token} (h2 : 2 ≤ generationLength)
    (hx : emitted[0]? = some x) (hy : emitted[1]? = some y) (hstop : R.stopsAt stop x = false)
    (hout : R.cutAtEos stop (emitted.take generationLength) = .ok out) : out[1]? = some y := by
  obtain ⟨k,rfl⟩ : ∃ k, generationLength = k+2 := ⟨generationLength-2,by omega⟩
  obtain ⟨rest,rfl⟩ : ∃ rest, emitted = x :: y :: rest := by
    cases emitted with
    | nil => simp at hx
    | cons a emitted =>
      cases emitted with
      | nil => simp at hy
      | cons b rest =>
        simp only [List.getElem?_cons_zero,List.getElem?_cons_succ,Option.some.injEq] at hx hy
        exact ⟨rest,by rw [hx,hy]⟩
  rw [R.cutAtEos_eq stop (by simp)] at hout
  injection hout with hout
  rw [← hout]
  simp only [List.take_succ_cons,upTo_cons,hstop]
  rw [if_neg Bool.false_ne_true]
  split <;> rfl

theorem SpecAt.second (h : R.SpecAt stop prompt s written) (h2 : 2 ≤ s.emitted.length) :
    s.emitted[1]? = some (R.next (prompt ++ [R.next prompt])) := by
  obtain ⟨n,hn⟩ : ∃ n, written ++ [s.nextToken] = unroll R.next prompt n := ⟨_,h.greedy⟩
  have hpref := upTo_isPrefix (R.stopsAt stop) (written ++ [s.nextToken])
  rw [← h.emitted,hn] at hpref
  obtain ⟨k,rfl⟩ : ∃ k, n = k+2 := by
    have hle := hpref.length_le
    rw [unroll_length] at hle
    exact ⟨n-2,by omega⟩
  have hlt : 1 < s.emitted.length := by omega
  rw [List.getElem?_eq_getElem hlt,← List.prefix_iff_getElem?.mp hpref 1 hlt]
  rfl

/-- The first iteration of a loop that is entered with its first token. -/
theorem first_iteration {x : Token} (hone : s.emitted = [x])
    (hrun : R.speculate stop generationLength s = .ok u) : 2 ≤ u.emitted.length := by
  obtain ⟨⟨tokens,hne,hemitted⟩,_⟩ := speculate_emits hrun
  have hpos := List.length_pos_of_ne_nil hne
  rw [hemitted,hone,List.length_append,List.length_singleton]
  omega

/-- A forced token is emitted after the first. -/
theorem forced_second {x m : Token} (hone : s.emitted = [x]) (hs : s.nextToken ≠ R.maskId)
    (hm : s.marker = some m) (hmask : m ≠ R.maskId)
    (hrun : R.speculate stop generationLength s = .ok u) : u.emitted[1]? = some m := by
  rw [speculate_eq] at hrun
  cases hb : R.speculativeBlock s.nextToken s.marker with
  | error e =>
    rw [hb] at hrun
    cases hrun
  | ok y =>
    rw [hb] at hrun
    change (R.draftBlock y.1 s.prefixLength s.cache >>= _) = _ at hrun
    cases hd : R.draftBlock y.1 s.prefixLength s.cache with
    | error e =>
      rw [hd] at hrun
      cases hrun
    | ok drafted =>
      rw [hd] at hrun
      injection hrun with hrun
      obtain ⟨guesses,rfl,_,⟨hnone,_⟩ | ⟨t,ht,hforced,hguess⟩⟩ := draftBlock_speculative hs hb hd
      · rw [hm] at hnone
        cases hnone
      · rw [hm] at ht
        injection ht with ht
        subst ht
        obtain ⟨rest,hrest⟩ : ∃ rest, guesses = m :: rest := by
          cases guesses with
          | nil => simp at hguess; exact absurd hguess hmask
          | cons g rest =>
            have := hguess hmask
            simp only [List.getElem?_cons_zero,Option.some.injEq] at this
            exact ⟨rest,by rw [this]⟩
        have hemitted : u.emitted = x :: upTo (R.stopsAt stop) (m :: matching
            ((sampleTokens (commit false true (s.nextToken :: guesses) s.prefixLength
              s.cache).1).drop 1) rest) := by
          rw [← hrun,hforced,hrest]
          simp only [accept,hone,acceptedTokens,List.drop_succ_cons,List.drop_zero,
            List.take_succ_cons,List.take_zero,List.cons_append,List.nil_append]
        rw [hemitted,upTo_cons]
        split <;> rfl

theorem DraftsFill.speculate (hfill : R.DraftsFill) (hmarker : s.marker = none) :
    ∃ u, R.speculate stop generationLength s = .ok u := by
  obtain ⟨drafted,hd⟩ := hfill (R.maskedBlock s.nextToken) s.prefixLength s.cache
  rw [speculate_eq,hmarker]
  change ∃ u, (R.draftBlock (R.maskedBlock s.nextToken) s.prefixLength s.cache >>= _) = _
  rw [hd]
  exact ⟨_,rfl⟩

/-- A loop entered with its first token, whose forced token is what the verifier predicts, ends
with the greedy output as soon as its first iteration returns. -/
theorem specLoop_predicted (hm : M.Causal) (hmask : R.NeverMasks) (hfill : R.DraftsFill)
    (hp : prompt ≠ []) (hat : R.SpecAt stop prompt s []) (hone : s.emitted = [R.next prompt])
    (hgo : specRemains generationLength s = true)
    (hlen : s.cache.length = R.specLength prompt.length generationLength) {limit : Nat} {m : Token}
    (hsetting : R.thinkingBudget.setting = some (limit,m))
    (hpredicted : R.next (prompt ++ [R.next prompt]) = m) (hmarked : m ≠ R.maskId)
    (hmarker : s.marker = none ∨ s.marker = some m)
    (hrun : R.speculate stop generationLength s = .ok u) {r : Except NemotronFault (SpecState M)}
    (h : Halts (specRemains generationLength) (R.speculate stop generationLength) u r n) :
    ∃ t, r = .ok t ∧ t.emitted ≠ [] ∧ upTo (R.stopsAt stop) (t.emitted.take generationLength) =
      upTo (R.stopsAt stop) (unroll R.next prompt generationLength) := by
  have hguessed : R.Guessed prompt s [] := by
    intro t ht
    obtain hnone | hsome := hmarker
    · rw [hnone] at ht
      cases ht
    · rw [hsome] at ht
      injection ht with ht
      subst ht
      have hnext : s.nextToken = R.next prompt := unrolls_singleton.mp hat.greedy
      refine ⟨hmarked,?_⟩
      rw [List.nil_append,hnext]
      exact hpredicted
  obtain ⟨hshort,hterm⟩ := specRemains_eq_true.mp hgo
  obtain ⟨⟨w,hw⟩,hcache⟩ := hat.speculate hm hmask hp hguessed hterm hrun
  have hsecond := hw.second (first_iteration hone hrun)
  have hquiet : R.Quiet generationLength u := by
    apply quiet_of_satisfied ?_ (speculate_emits hrun).2
    rw [hpredicted] at hsecond
    simp only [ThinkingBudget.satisfied,hsetting,decide_eq_true_eq]
    exact List.mem_of_getElem? hsecond
  have hroom : specRemains generationLength u = true →
      u.cache.length = R.specLength prompt.length generationLength := by
    intro _
    rw [hcache,hlen,hat.length]
    unfold specLength
    simp only [List.length_nil]
    omega
  cases r with
  | error e =>
    obtain ⟨t,hvisited,go,hraise⟩ := h.raised
    obtain ⟨_,hquiet',_⟩ := visited_specAt hm hmask hp ⟨w,hw⟩ hquiet hroom hvisited
    obtain ⟨v,hv⟩ := hfill.speculate (hquiet'.2 go)
    rw [hv] at hraise
    cases hraise
  | ok t =>
    obtain ⟨_,_,_,hbad⟩ | hgreedy := specLoop_outcome hm hmask hp ⟨w,hw⟩ hquiet hroom h
    · cases hbad
    · exact hgreedy

theorem due_eq_some {x m : Token} (h : R.thinkingBudget.due [x] = some m) :
    ∃ limit, R.thinkingBudget.setting = some (limit,m) := by
  unfold ThinkingBudget.due at h
  split at h
  · obtain ⟨y,hy,rfl⟩ := Option.map_eq_some_iff.mp h
    exact ⟨y.1,hy⟩
  · cases h

theorem firstToken_eq (hm : M.Causal) (hp : prompt ≠ []) : R.firstToken prompt = R.next prompt := by
  obtain ⟨logits,cache,hrun,hseed,_⟩ := R.prefill_spec hm hp []
  unfold firstToken
  rw [hrun]
  exact hseed

/-- For a causal model whose drafts fill their blocks, a row of a batch yields what the dense runner
does exactly when it fits and the verifier predicts a marker that is due at once. -/
theorem rowYields_iff_predicted (hm : M.Causal) (hmask : R.NeverMasks) (hfill : R.DraftsFill)
    (hmarked : ∀ limit m, R.thinkingBudget.setting = some (limit,m) → m ≠ R.maskId)
    (hp : row.prompt ≠ []) (hdense : R.DenseYields row out)
    (hfits : row.generationLength = 0 →
      R.specLength row.prompt.length 0 ≤ R.positionLimit) :
    R.RowYields row out ↔ R.Fits row ∧ R.MarkerPredicted row := by
  have hfirst := firstToken_eq (R := R) hm hp
  by_cases h0 : row.generationLength = 0
  · rw [rowYields_zero hp h0,(denseYields_zero h0).mp hdense]
    constructor
    · rintro ⟨hstop,_⟩
      exact ⟨fun _ => ⟨hstop,hfits h0⟩,fun hs => by have := hs.1; omega⟩
    · rintro ⟨hf,_⟩
      exact ⟨(hf h0).1,rfl⟩
  · obtain ⟨s₀,hs₀,t,⟨n,hn⟩,hout⟩ := (denseYields_iff h0).mp hdense
    obtain ⟨r,_,_,_,_,hstart⟩ := prefillSpecRow_agrees (R := R) hp
    obtain ⟨hemitted,hmarker,hterminal,_⟩ := hstart s₀ hs₀
    obtain ⟨_,hbad⟩ | ⟨hbad,_⟩ | ⟨_,s₁,hs₁,hat,hlen,_⟩ :=
      startSpec_cases (R := R) hm row.stopOnEos row.prompt row.generationLength
    · rw [hs₀] at hbad
      cases hbad
    · exact absurd hbad hp
    rw [hs₀] at hs₁
    injection hs₁ with hs₁
    subst hs₁
    have hvacuous : R.Fits row := fun h => absurd h h0
    by_cases hspec : R.Speculates row ∧ (R.thinkingBudget.due [R.firstToken row.prompt]).isSome
    · obtain ⟨⟨h2,hstop⟩,hsome⟩ := hspec
      obtain ⟨m,hm'⟩ := Option.isSome_iff_exists.mp hsome
      obtain ⟨limit,hsetting⟩ := due_eq_some hm'
      have hnext : s₀.nextToken = R.next row.prompt := unrolls_singleton.mp hat.greedy
      have hgo : specRemains row.generationLength s₀ = true := by
        refine specRemains_eq_true.mpr ⟨by rw [hemitted]; exact h2,?_⟩
        rw [← Bool.not_eq_true,hterminal,hstop]
        exact Bool.false_ne_true
      have hone : s₀.emitted = [R.next row.prompt] := by rw [hemitted,hfirst]
      have hmarker' : s₀.marker = some m := by rw [hmarker,hemitted,hm']
      have hseed : s₀.nextToken ≠ R.maskId := by rw [hnext]; exact hmask _ hp
      -- the first iterations with and without the marker
      obtain ⟨_,hr,_⟩ | ⟨_,_,_,hr,_⟩ | ⟨_,u,k,hu,hk,_⟩ := hn.cases
      · injection hr with hr
        rw [hr] at hn
        exact absurd (hn.visited.2) (by rw [hgo]; simp)
      · cases hr
      have hat' : R.SpecAt row.stopOnEos row.prompt { s₀ with marker := none } [] :=
        ⟨hat.length,hat.causal,hat.greedy,hat.emitted,hat.terminal⟩
      have hone' : ({ s₀ with marker := none } : SpecState M).emitted = [R.next row.prompt] := hone
      obtain ⟨u',hu'⟩ : ∃ u', R.speculate row.stopOnEos row.generationLength
          { s₀ with marker := none } = .ok u' := hfill.speculate rfl
      rw [rowYields_iff hp hs₀]
      constructor
      · rintro ⟨t',⟨n',hn'⟩,hout'⟩
        refine ⟨hvacuous,fun _ x hx => ?_⟩
        rw [hm'] at hx
        injection hx with hx
        subst hx
        obtain ⟨hgo',_,_⟩ | ⟨_,_,_,hr,_⟩ | ⟨_,v,j,hv,hj,_⟩ := hn'.cases
        · exact absurd (hgo'.symm.trans hgo) (by simp)
        · cases hr
        · rw [hu'] at hv
          injection hv with hv
          subst hv
          obtain ⟨⟨w,hw⟩,_⟩ := hat'.speculate hm hmask hp (fun t ht => by cases ht)
            (specRemains_eq_true.mp hgo).2 hu'
          have hsecond := halts_second (hw.second (first_iteration hone' hu')) hj
          have hforced := halts_second
            (forced_second hone hseed hmarker' (hmarked limit m hsetting) hu) hk
          have hhead (t : SpecState M) (h : s₀.emitted <+: t.emitted) :
              t.emitted[0]? = some (R.firstToken row.prompt) := by
            obtain ⟨rest,hrest⟩ := h
            rw [← hrest,hemitted]
            rfl
          have hleft := cutAtEos_second h2 (hhead t (visited_emitted_isPrefix hn.visited.1)) hforced
            hstop hout
          have hgrown : s₀.emitted <+: t'.emitted :=
            visited_emitted_isPrefix (s := { s₀ with marker := none }) hn'.visited.1
          have hright := cutAtEos_second h2 (hhead t' hgrown) hsecond hstop hout'
          rw [hleft] at hright
          injection hright with hright
          rw [hfirst]
          exact hright.symm
      · rintro ⟨_,hpredicted⟩
        have hpred := hpredicted ⟨h2,hstop⟩ m hm'
        rw [hfirst] at hpred
        have hmarked' := hmarked limit m hsetting
        obtain ⟨res,k',_,hk'⟩ := specLoop_halts R row.stopOnEos row.generationLength u'
        obtain ⟨x,hx,hne,hgreedy⟩ := specLoop_predicted hm hmask hfill hp hat hone hgo hlen
          hsetting hpred hmarked' (.inr hmarker') hu hk
        injection hx with hx
        subst hx
        obtain ⟨t',hx',hne',hgreedy'⟩ := specLoop_predicted hm hmask hfill hp hat' hone' hgo
          hlen hsetting hpred hmarked' (.inl rfl) hu' hk'
        subst hx'
        refine ⟨t',⟨_,hk'.cons hgo hu'⟩,?_⟩
        rw [R.cutAtEos_eq _ fun _ => take_ne_nil hne' h0,hgreedy',← hgreedy,
          ← R.cutAtEos_eq _ fun _ => take_ne_nil hne h0]
        exact hout
    · have hunforced : R.Unforced row := by
        intro hs
        have hnone := fun h => hspec ⟨hs,h⟩
        simpa using hnone
      constructor
      · intro _
        exact ⟨hvacuous,fun hs t ht => by rw [hunforced hs] at ht; cases ht⟩
      · intro _
        exact rowYields_of_unforced hp hdense hvacuous hunforced

end Exact

/-- A draft fills its block when no draft predicts the mask and every confidence reaches the
threshold. -/
theorem draftsFill_of_sure
    (hmask : ∀ past tokens, ∀ x ∈ M.forward true false past tokens, M.argmax x.2 ≠ R.maskId)
    (hsure : ∀ l, R.draftThreshold ≤ M.confidence l) : R.DraftsFill := by
  intro block prefixLength cache
  suffices hfull : R.draftDecoder.hasMasks
      (R.draftSteps prefixLength cache R.maxDenoiseSteps block) = false by
    rw [draftBlock_eq,hfull]
    exact ⟨_,rfl⟩
  obtain ⟨n,hn⟩ : ∃ n, R.maxDenoiseSteps = n+1 :=
    ⟨R.maxDenoiseSteps-1,by have := R.maxDenoiseSteps_pos; omega⟩
  rw [hn]
  have hstep : R.draftDecoder.hasMasks
      (R.draftStep (denoise true block prefixLength cache) block) = false := by
    apply decide_eq_false
    intro hmem
    obtain ⟨i,hi⟩ := List.mem_iff_getElem?.mp hmem
    have hlt : i < (denoise true block prefixLength cache).length := by
      have hlt := (List.getElem?_eq_some_iff.mp hi).1
      rw [draftStep,ThresholdDecoder.step_length] at hlt
      rw [denoise,List.length_map,M.forward_length]
      exact hlt
    simp only [draftStep,ThresholdDecoder.step,List.getElem?_mapIdx,
      List.getElem?_eq_getElem hlt] at hi
    obtain ⟨t,ht,hi⟩ := Option.map_eq_some_iff.mp hi
    by_cases hmasked : t = R.draftDecoder.maskId
    · have htransfer : R.draftDecoder.transfer M.confidence (denoise true block prefixLength cache)
          block i = true := by
        simp only [ThresholdDecoder.transfer,ThresholdDecoder.confidenceAt,
          List.getElem?_eq_getElem hlt,ht,if_pos hmasked,Bool.or_eq_true,decide_eq_true_eq]
        exact .inl (WithBot.coe_le_coe.mpr (hsure _))
      rw [if_pos ⟨hmasked,htransfer⟩] at hi
      obtain ⟨x,hx,hlogits⟩ := List.mem_map.mp (List.getElem_mem hlt)
      rw [← hlogits] at hi
      exact hmask _ _ x hx hi
    · rw [if_neg fun h => hmasked h.1] at hi
      exact hmasked hi
  cases hmasks : R.draftDecoder.hasMasks block with
  | false => rw [R.draftSteps_resolved _ hmasks,hmasks]
  | true =>
    rw [draftSteps,hmasks,if_pos rfl,R.draftSteps_resolved _ hstep]
    exact hstep

theorem DenseYields.within (h : R.DenseYields row out) (h0 : row.generationLength ≠ 0) :
    R.specLength row.prompt.length row.generationLength ≤ R.positionLimit := by
  obtain ⟨s₀,hs₀,_⟩ := (denseYields_iff h0).mp h
  exact (startSpec_eq_ok.mp hs₀).1

theorem specPositions_of_dense (hdense : List.Forall₂ R.DenseYields rows outs)
    (hfits : ∀ row ∈ rows, R.Fits row) : R.specPositions rows ≤ R.positionLimit := by
  have hwithin : List.Forall₂ (fun row out =>
      R.specLength row.prompt.length row.generationLength ≤ R.positionLimit ∧
        R.DenseYields row out) rows outs := by
    apply ((List.forall₂_and_left rows outs).mpr ⟨hfits,hdense⟩).imp
    intro row out ⟨hfit,hrow⟩
    refine ⟨?_,hrow⟩
    by_cases h0 : row.generationLength = 0
    · rw [h0]
      exact (hfit h0).2
    · exact hrow.within h0
  exact specPositions_le.mpr ((List.forall₂_and_left rows outs).mp hwithin).1

/-- A batch emits for each row what the dense runner emits for that row alone, when rows without a
token to generate fit and no marker is due after the token of a prefill. For a causal model whose
verifier never predicts the mask and whose drafts fill their blocks, exactly when those rows fit
and the verifier predicts a marker that is due so early. -/
theorem specGenerate_agrees (hne : ∀ row ∈ rows, row.prompt ≠ [])
    (hdense : List.Forall₂ R.DenseYields rows outs) :
    ((∀ row ∈ rows, R.Fits row ∧ R.Unforced row) →
      ∃ enough, ∀ fuel, enough ≤ fuel → R.specGenerate fuel rows = some (.ok outs)) ∧
    (M.Causal → R.NeverMasks → R.DraftsFill →
      (∀ limit m, R.thinkingBudget.setting = some (limit,m) → m ≠ R.maskId) →
      ((∃ fuel, R.specGenerate fuel rows = some (.ok outs)) ↔
        ∀ row ∈ rows, R.Fits row ∧ R.MarkerPredicted row)) := by
  have hrows := (List.forall₂_and_left rows outs).mpr ⟨hne,hdense⟩
  constructor
  · intro hall
    have hyields : List.Forall₂ R.RowYields rows outs := by
      apply ((List.forall₂_and_left rows outs).mpr ⟨hall,hrows⟩).imp
      intro row out ⟨⟨hfits,hunforced⟩,hp,hrow⟩
      exact rowYields_of_unforced hp hrow hfits hunforced
    obtain ⟨enough,hrun⟩ := specGenerate_iff.mpr
      ⟨specPositions_of_dense hdense fun row hrow => (hall row hrow).1,hyields⟩
    exact ⟨enough,fun fuel hle => specGenerate_mono hrun hle⟩
  · intro hm hmask hfill hmarked
    rw [specGenerate_iff]
    constructor
    · rintro ⟨hlimit,hyields⟩
      have hpositions := specPositions_le.mp hlimit
      have hgood : List.Forall₂ (fun row out =>
          (R.Fits row ∧ R.MarkerPredicted row) ∧ R.DenseYields row out) rows outs := by
        apply List.Forall₂.mp ?_ ((List.forall₂_and_left rows outs).mpr ⟨hpositions,hrows⟩) hyields
        intro row out ⟨hle,hp,hrow⟩ hyield
        refine ⟨(rowYields_iff_predicted hm hmask hfill hmarked hp hrow fun h0 => ?_).mp hyield,
          hrow⟩
        rwa [h0] at hle
      exact ((List.forall₂_and_left rows outs).mp hgood).1
    · intro hall
      refine ⟨specPositions_of_dense hdense fun row hrow => (hall row hrow).1,?_⟩
      apply ((List.forall₂_and_left rows outs).mpr ⟨hall,hrows⟩).imp
      intro row out ⟨hgood,hp,hrow⟩
      exact (rowYields_iff_predicted hm hmask hfill hmarked hp hrow
        fun h0 => (hgood.1 h0).2).mpr hgood

/-- A checkpoint whose drafts and whose verifier count on from each token. -/
def steppingModel : NemotronModel where
  Kv := Token
  Logits := Token
  Confidence := Nat
  linear := inferInstance
  zero := 0
  forward _ _ _ tokens := tokens.map fun t => (t,((t.natAbs+1 : Nat) : Int))
  forward_length _ _ _ _ := List.length_map _
  argmax t := t
  confidence _ := 0

/-- Blocks of four over the mask zero. -/
def steppingRunner (thinkingBudget : ThinkingBudget) : NemotronRunner steppingModel where
  blockLength := 4
  blockLength_pos := four_pos
  prefillChunkSize_pos := prefillChunk_pos
  decoder := ⟨(0 : Nat),0,[99]⟩
  draftThreshold := (0 : Nat)
  thinkingBudget
  positionLimit := 100

theorem steppingModel_causal : steppingModel.Causal := by
  intro ts tokens
  exact List.map_append

theorem steppingModel_argmax (adapter causal : Bool) (past : List Token) (tokens : List Token) :
    ∀ x ∈ steppingModel.forward adapter causal past tokens, steppingModel.argmax x.2 ≠ 0 := by
  intro x hx
  obtain ⟨t,_,rfl⟩ := List.mem_map.mp hx
  change ((t.natAbs+1 : Nat) : Int) ≠ 0
  omega

theorem steppingRunner_neverMasks (thinkingBudget : ThinkingBudget) :
    (steppingRunner thinkingBudget).NeverMasks := by
  intro ts hts
  obtain ⟨xs,x,rfl⟩ := List.eq_nil_or_concat ts |>.resolve_left hts
  rw [List.concat_eq_append]
  have hlast : (steppingRunner thinkingBudget).next (xs ++ [x]) = ((x.natAbs+1 : Nat) : Int) := by
    change List.getLastD (List.map (fun t => t) (List.map Prod.snd
      ((xs ++ [x]).map fun t => (t,((t.natAbs+1 : Nat) : Int))))) 0 = _
    simp
  rw [hlast]
  change ((x.natAbs+1 : Nat) : Int) ≠ 0
  omega

theorem steppingRunner_draftsFill (thinkingBudget : ThinkingBudget) :
    (steppingRunner thinkingBudget).DraftsFill :=
  draftsFill_of_sure (fun past tokens => steppingModel_argmax true false past tokens)
    fun _ => Nat.le_refl 0

/-- With a marker that is due at once and that the verifier predicts, the two runners agree. -/
theorem specGenerate_agrees_stepping :
    ∃ fuel, (steppingRunner ⟨some (0,7)⟩).specGenerate fuel [⟨[5],3,false⟩] =
      some (.ok [[6,7,8]]) := by
  have hdense : List.Forall₂ (steppingRunner ⟨some (0,7)⟩).DenseYields [⟨[5],3,false⟩] [[6,7,8]] :=
    .cons ⟨3,rfl⟩ .nil
  apply ((specGenerate_agrees (by decide) hdense).2 steppingModel_causal
    (steppingRunner_neverMasks _) (steppingRunner_draftsFill _) ?_).mpr
  · intro row hrow
    rw [List.mem_singleton] at hrow
    subst hrow
    refine ⟨fun h => absurd h (by decide),fun _ t ht => ?_⟩
    injection ht
  · intro limit m hset
    injection hset with hset
    injection hset with _ hm
    rw [← hm]
    decide

/-- A batch does not force the marker that is due after the token of the prefill. -/
theorem specGenerate_unforced :
    (steppingRunner ⟨some (0,50)⟩).DenseYields ⟨[5],3,false⟩ [6,50,51] ∧
    ∀ fuel, (steppingRunner ⟨some (0,50)⟩).specGenerate fuel [⟨[5],3,false⟩] ≠
      some (.ok [[6,50,51]]) := by
  refine ⟨⟨3,rfl⟩,fun fuel hrun => ?_⟩
  have hother : (steppingRunner ⟨some (0,50)⟩).specGenerate 9 [⟨[5],3,false⟩] =
      some (.ok [[6,7,50]]) := by rfl
  have hleft := specGenerate_mono hrun (Nat.le_max_left fuel 9)
  have hright := specGenerate_mono hother (Nat.le_max_right fuel 9)
  rw [hleft] at hright
  injection hright with hright
  injection hright with hright
  exact absurd hright (by decide)

end FluxServe.Engine.NemotronRunner
