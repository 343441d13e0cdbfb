import FluxServe.Engine.BatchProof

namespace FluxServe.Engine

/-- A token for each position, none of them a mask or a stop token. -/
def codeOf (c : RunnerConfig) (p : Nat) : Token :=
  (c.maskId.natAbs+(c.eosIds.map Int.natAbs).sum+1+p : Nat)

theorem codeOf_inj {c : RunnerConfig} {p q : Nat} (h : codeOf c p = codeOf c q) : p = q := by
  have hnat := Int.natCast_inj.mp h
  omega

theorem codeOf_ne_mask (c : RunnerConfig) (p : Nat) : codeOf c p ≠ c.maskId := by
  intro h
  have habs := congrArg Int.natAbs h
  rw [codeOf,Int.natAbs_natCast] at habs
  omega

theorem natAbs_le_sum {l : List Int} {x : Int} (h : x ∈ l) : x.natAbs ≤ (l.map Int.natAbs).sum :=
  List.single_le_sum (fun _ _ => Nat.zero_le _) _ (List.mem_map_of_mem h)

theorem codeOf_notMem_eos (c : RunnerConfig) (p : Nat) : codeOf c p ∉ c.eosIds := by
  intro h
  have hle := natAbs_le_sum h
  rw [codeOf,Int.natAbs_natCast] at hle
  omega

/-- What one iteration of the positional model writes into a block. -/
def codeBlock (c : RunnerConfig) (start : Nat) (block : List Token) : List Token :=
  block.mapIdx fun i t => if t = c.maskId then codeOf c (start+i) else t

theorem mask_notMem_codeBlock (c : RunnerConfig) (start : Nat) (block : List Token) :
    c.maskId ∉ codeBlock c start block := by
  intro h
  obtain ⟨i,hi,heq⟩ := List.mem_mapIdx.mp h
  split at heq
  · exact codeOf_ne_mask c _ heq
  · rename_i hne
    exact hne heq

theorem codeBlock_of_unmasked {c : RunnerConfig} {start : Nat} {block : List Token}
    (h : c.maskId ∉ block) : codeBlock c start block = block := by
  apply List.ext_getElem?
  intro i
  unfold codeBlock
  rw [List.getElem?_mapIdx]
  cases hi : block[i]? with
  | none => rfl
  | some t =>
    have hne : t ≠ c.maskId := fun heq => h (heq ▸ List.mem_of_getElem? hi)
    simp [hne]

/-- A model that writes at every position the token of the position. -/
def positional (c : RunnerConfig) : RowModel c.maskId where
  Row := Unit
  prefill _ := ()
  iterate _ start _ x := (codeBlock c start x.1,x.2)
  iterate_length window start promptLength x := by simp [codeBlock]
  settles window start promptLength x := by
    refine ⟨1,mask_notMem_codeBlock c start x.1,?_⟩
    change codeBlock c start (codeBlock c start x.1) = codeBlock c start x.1
    exact codeBlock_of_unmasked (mask_notMem_codeBlock c start x.1)

section Coded

variable {c : RunnerConfig} {es : Bool} {total window n g s₀ : Nat} {orig : List Token}
  {l : Lane (positional c).Row}

/-- A row the positional model decodes: masks have given way to the tokens of their positions,
everywhere before the row's start, and nowhere else has anything changed. -/
structure Coded (c : RunnerConfig) (total n g s₀ : Nat) (orig : List Token) {ρ : Type} (l : Lane ρ) :
    Prop where
  canvas : l.tokens.length = total
  limit : l.decodeLength = ceilTo c.blockLength (n+g)
  grid : c.blockLength ∣ l.start
  promptLength : l.promptLength = n
  content : ∀ p : Nat, l.tokens[p]? = orig[p]? ∨
    (orig[p]? = some c.maskId ∧ l.tokens[p]? = some (codeOf c p))
  decoded : ∀ p, s₀ ≤ p → p < l.start → l.tokens[p]? ≠ some c.maskId

theorem positional_getElem? (hfit : l.start+c.blockLength ≤ l.tokens.length) (p : Nat) :
    (l.advance c (positional c) es total window).tokens[p]? =
      if l.start ≤ p ∧ p < l.start+c.blockLength then
        (l.tokens[p]?).map fun t => if t = c.maskId then codeOf c p else t
      else l.tokens[p]? := by
  have hlen := block_length hfit
  rw [advance_tokens]
  change (l.tokens.take l.start ++ codeBlock c l.start (l.block c.blockLength) ++
    l.tokens.drop (l.start+c.blockLength))[p]? = _
  have hcode : (codeBlock c l.start (l.block c.blockLength)).length = c.blockLength := by
    simp [codeBlock,hlen]
  have htake : (l.tokens.take l.start).length = l.start := by
    rw [List.length_take]
    omega
  rcases Nat.lt_or_ge p l.start with hp | hp
  · rw [if_neg (by omega),List.append_assoc,List.getElem?_append_left (by omega),
      List.getElem?_take_of_lt hp]
  · rcases Nat.lt_or_ge p (l.start+c.blockLength) with hp' | hp'
    · rw [if_pos ⟨hp,hp'⟩,List.append_assoc,List.getElem?_append_right (by omega),htake,
        List.getElem?_append_left (by omega)]
      unfold codeBlock Lane.block
      rw [List.getElem?_mapIdx,List.getElem?_take_of_lt (by omega),List.getElem?_drop,
        show l.start+(p-l.start) = p by omega]
    · rw [if_neg (by omega),List.getElem?_append_right (by simp only [List.length_append]; omega),
        List.length_append,htake,hcode,List.getElem?_drop]
      congr 1
      omega

theorem Coded.advance (h : Coded c total n g s₀ orig l) (ha : l.active c = true)
    (hs₀ : s₀ ≤ n) (htotal : ceilTo c.blockLength (n+g) ≤ total) (hmask : ∀ p : Nat, n ≤ p → p < total → orig[p]? = some c.maskId) :
    Coded c total n g s₀ orig (l.advance c (positional c) es total window) := by
  have hfit : l.start+c.blockLength ≤ l.tokens.length := by
    rw [h.canvas]
    exact (active_iff.mp ha).trans (h.limit.trans_le htotal)
  have hget (p : Nat) : (l.advance c (positional c) es total window).tokens[p]? = _ :=
    positional_getElem? hfit p
  have hcontent : ∀ p : Nat,
      (l.advance c (positional c) es total window).tokens[p]? = orig[p]? ∨
        (orig[p]? = some c.maskId ∧
          (l.advance c (positional c) es total window).tokens[p]? = some (codeOf c p)) := by
    intro p
    rw [hget]
    split
    · rcases h.content p with hp | ⟨hp,hcode⟩
      · rw [hp]
        cases horig : orig[p]? with
        | none => exact .inl rfl
        | some t =>
          by_cases ht : t = c.maskId
          · refine .inr ⟨by rw [ht],?_⟩
            rw [Option.map_some,if_pos ht]
          · refine .inl ?_
            rw [Option.map_some,if_neg ht]
      · refine .inr ⟨hp,?_⟩
        rw [hcode,Option.map_some,if_neg (codeOf_ne_mask c p)]
    · exact h.content p
  have hunmasked (p : Nat) (hp : p < l.start+c.blockLength) (hp₀ : s₀ ≤ p) :
      (l.advance c (positional c) es total window).tokens[p]? ≠ some c.maskId := by
    rw [hget]
    split
    · cases l.tokens[p]? with
      | none => simp
      | some t =>
        rw [Option.map_some]
        split
        · intro heq
          exact codeOf_ne_mask c p (Option.some.inj heq)
        · rename_i ht
          intro heq
          exact ht (Option.some.inj heq)
    · rename_i hout
      exact h.decoded p hp₀ (by omega)
  -- what was generated so far holds no stop token
  have hnohit : generatedEosHit c (l.advance c (positional c) es total window).tokens
      l.promptLength (l.start+c.blockLength) = false := by
    unfold generatedEosHit
    rw [List.any_eq_false]
    intro t ht
    obtain ⟨i,hi⟩ := List.mem_iff_getElem?.mp ht
    rw [List.getElem?_drop,h.promptLength] at hi
    have hlt : n+i < l.start+c.blockLength := by
      by_contra hge
      rw [List.getElem?_eq_none] at hi
      · cases hi
      · rw [List.length_take]
        omega
    rw [List.getElem?_take_of_lt hlt] at hi
    have horig := hmask (n+i) (by omega) (by rw [← h.canvas]; omega)
    rcases hcontent (n+i) with heq | ⟨_,heq⟩
    · exact absurd (heq.trans horig) (hunmasked (n+i) hlt (by omega))
    · rw [heq] at hi
      have ht : codeOf c (n+i) = t := Option.some.inj hi
      rw [← ht]
      simpa using codeOf_notMem_eos c (n+i)
  have hlen : (l.advance c (positional c) es total window).tokens.length = total := by
    rw [advance_tokens_length hfit]
    exact h.canvas
  rcases advance_start c (positional c) es total window l with ⟨_,hs⟩ | ⟨_,_,hs⟩ | ⟨_,_,hhit,_⟩
  · refine ⟨hlen,h.limit,hs.symm ▸ h.grid,h.promptLength,hcontent,?_⟩
    intro p hp₀ hp
    rw [hs] at hp
    exact hunmasked p (by omega) hp₀
  · refine ⟨hlen,h.limit,?_,h.promptLength,hcontent,?_⟩
    · rw [hs]
      exact Nat.dvd_add h.grid (Nat.dvd_refl _)
    · intro p hp₀ hp
      rw [hs] at hp
      exact hunmasked p hp hp₀
  · rw [hnohit] at hhit
    cases hhit

/-- When the row has come to its end, the positions it had to generate hold their own tokens. -/
theorem Coded.generated (h : Coded c total n g s₀ orig l) (ha : l.active c = false) (hs₀ : s₀ ≤ n)
    (hmask : ∀ p : Nat, n ≤ p → p < total → orig[p]? = some c.maskId) (hg : 0 < g)
    (htotal : ceilTo c.blockLength (n+g) ≤ total) : l.tokens[n]? = some (codeOf c n) := by
  have hle := le_ceilTo c.blockLength_pos (n+g)
  have hend : l.decodeLength ≤ l.start := by
    have hdvd : c.blockLength ∣ l.decodeLength := h.limit ▸ dvd_ceilTo _ _
    have hlt : l.decodeLength < l.start+c.blockLength := by
      by_contra hge
      rw [active_iff.mpr (Nat.le_of_not_lt hge)] at ha
      cases ha
    exact le_of_dvd_of_lt hdvd h.grid hlt
  have hlim := h.limit
  rcases h.content n with heq | ⟨_,heq⟩
  · exact absurd (heq.trans (hmask n (Nat.le_refl n) (by omega))) (h.decoded n hs₀ (by omega))
  · exact heq

end Coded

section Divergence

variable {c : RunnerConfig} {requests : List RequestState} {r : RequestState} {i : Nat}

/-- The canvas of a request before decoding: its prompt, and masks. -/
def canvasOf (c : RunnerConfig) (requests : List RequestState) (r : RequestState) : List Token :=
  r.promptIds ++ List.replicate (batchTotal c requests-r.promptIds.length) c.maskId

theorem length_le_batchWidth (hr : r ∈ requests) : r.promptIds.length ≤ batchWidth requests :=
  length_le_promptWidth (List.mem_map_of_mem hr)

theorem maxNewTokens_le (hr : r ∈ requests) : r.maxNewTokens ≤ longestGeneration requests :=
  le_max?_getD (List.mem_map_of_mem hr)

theorem le_batchTotal (c : RunnerConfig) (requests : List RequestState) :
    batchWidth requests+longestGeneration requests ≤ batchTotal c requests :=
  le_ceilTo c.blockLength_pos _

theorem canvasOf_getElem? {p : Nat} (hp : r.promptIds.length ≤ p)
    (hlt : p < batchTotal c requests) : (canvasOf c requests r)[p]? = some c.maskId := by
  unfold canvasOf
  rw [List.getElem?_append_right hp,List.getElem?_replicate,if_pos (by omega)]

theorem coded_start (h : Servable c requests) (hr : r ∈ requests) :
    Coded c (batchTotal c requests) r.promptIds.length (longestGeneration requests)
      (decodingStart c r.promptIds.length) (canvasOf c requests r)
      (prepareLane c (positional c) (longestGeneration requests) (batchTotal c requests)
        (r.promptIds ++
          List.replicate (batchWidth requests-r.promptIds.length) c.maskId)) := by
  have hlen : ((r.promptIds ++ List.replicate (batchWidth requests-r.promptIds.length)
      c.maskId).filter fun t => t ≠ c.maskId).length = r.promptIds.length := by
    rw [List.filter_append,filter_ne_mask (h.unmasked r hr),List.filter_eq_nil_iff.mpr]
    · rw [List.append_nil]
    · intro t ht
      simp [List.eq_of_mem_replicate ht]
  have hwidth := length_le_batchWidth hr
  have hle := le_batchTotal c requests
  have htokens : (prepareLane c (positional c) (longestGeneration requests)
      (batchTotal c requests) (r.promptIds ++ List.replicate
        (batchWidth requests-r.promptIds.length) c.maskId)).tokens = canvasOf c requests r := by
    unfold prepareLane canvasOf
    dsimp only
    rw [List.length_append,List.length_replicate,List.append_assoc,
      List.replicate_append_replicate]
    congr 3
    omega
  have hpos : 0 < longestGeneration requests :=
    (h.positive r hr).trans_le (maxNewTokens_le hr)
  constructor
  · rw [htokens]
    unfold canvasOf
    rw [List.length_append,List.length_replicate]
    omega
  · unfold prepareLane
    dsimp only
    rw [hlen,if_pos hpos]
  · unfold prepareLane
    dsimp only
    rw [hlen]
    exact dvd_decodingStart h.grid _
  · exact hlen
  · intro p
    rw [htokens]
    exact .inl rfl
  · intro p hp₀ hp
    unfold prepareLane at hp
    dsimp only at hp
    rw [hlen] at hp
    omega

/-- What every turn of the batch keeps of its rows. -/
def AllCoded (c : RunnerConfig) (requests : List RequestState) {ρ : Type} (d : Decoding ρ) :
    Prop :=
  d.lanes.length = requests.length ∧ ∀ (i : Nat) r l, requests[i]? = some r →
    d.lanes[i]? = some l →
      Coded c (batchTotal c requests) r.promptIds.length (longestGeneration requests)
        (decodingStart c r.promptIds.length) (canvasOf c requests r) l

theorem ceilTo_le_batchTotal (hr : r ∈ requests) :
    ceilTo c.blockLength (r.promptIds.length+longestGeneration requests) ≤
      batchTotal c requests :=
  ceilTo_mono _ (Nat.add_le_add_right (length_le_batchWidth hr) _)

theorem allCoded_start (h : Servable c requests) :
    AllCoded c requests (batchStart c (positional c) requests) := by
  refine ⟨by simp [batchStart,paddedPrompts],?_⟩
  intro i r l hr hl
  unfold batchStart paddedPrompts at hl
  dsimp only at hl
  rw [List.getElem?_map,List.getElem?_map,List.getElem?_map,hr] at hl
  obtain rfl := Option.some.inj hl
  exact coded_start h (List.mem_of_getElem? hr)

theorem AllCoded.turn {d : Decoding (positional c).Row} (h : AllCoded c requests d) :
    AllCoded c requests (batchTurn c (positional c) requests d) := by
  unfold batchTurn
  refine ⟨(turn_length d).trans h.1,?_⟩
  intro i r l' hr hl'
  rw [turn_getElem?] at hl'
  obtain ⟨l,hl,rfl⟩ := Option.map_eq_some_iff.mp hl'
  have hcoded := h.2 i r l hr hl
  have hmem := List.mem_of_getElem? hr
  split
  · rename_i hsel
    obtain ⟨l₁,hl₁,hc⟩ := mem_selectDecodeSequences hsel
    obtain rfl : l₁ = l := Option.some.inj (hl₁.symm.trans hl)
    exact hcoded.advance (current_iff.mp hc).1 (decodingStart_le _) (ceilTo_le_batchTotal hmem)
      fun p hp hlt => canvasOf_getElem? hp hlt
  · exact hcoded

/-- A row of the output, as the positional model leaves it: the token of its position where the
request's generation begins, and nothing but later ones further on. -/
theorem output_getElem? {d : Decoding (positional c).Row} (h : AllCoded c requests d)
    (hdone : d.done c = true) (hserve : Servable c requests) {l : Lane (positional c).Row}
    (hr : requests[i]? = some r) (hl : d.lanes[i]? = some l) :
    (l.output c (longestGeneration requests))[r.promptIds.length]? =
        some (codeOf c r.promptIds.length) ∧
      ∀ p t, r.promptIds.length ≤ p →
        (l.output c (longestGeneration requests))[p]? = some t →
          t = c.maskId ∨ t = codeOf c p := by
  have hcoded := h.2 i r l hr hl
  have hmem := List.mem_of_getElem? hr
  have hpos : 0 < longestGeneration requests :=
    (hserve.positive r hmem).trans_le (maxNewTokens_le hmem)
  have hinactive : l.active c = false := by
    have hall : d.lanes.any (Lane.active c) = false := by simpa [Decoding.done] using hdone
    simpa using List.any_eq_false.mp hall l (List.mem_of_getElem? hl)
  have hfirst := hcoded.generated hinactive (decodingStart_le _)
    (fun p hp hlt => canvasOf_getElem? hp hlt) hpos (ceilTo_le_batchTotal hmem)
  unfold Lane.output
  dsimp only
  rw [hcoded.promptLength]
  constructor
  · rw [List.getElem?_append_left]
    · rw [List.getElem?_take_of_lt (by omega)]
      exact hfirst
    · have hlt := (List.getElem?_eq_some_iff.mp hfirst).1
      rw [List.length_take]
      omega
  · intro p t hp ht
    rcases Nat.lt_or_ge p ((l.tokens.take (r.promptIds.length+longestGeneration requests)).length)
      with hlt | hge
    · rw [List.getElem?_append_left hlt] at ht
      rw [List.length_take] at hlt
      rw [List.getElem?_take_of_lt (by omega)] at ht
      have hcanvas := hcoded.canvas
      rcases hcoded.content p with heq | ⟨_,heq⟩
      · rw [ht,canvasOf_getElem? hp (by omega)] at heq
        exact .inl (Option.some.inj heq)
      · rw [ht] at heq
        exact .inr (Option.some.inj heq)
    · rw [List.getElem?_append_right hge,List.getElem?_replicate] at ht
      split at ht
      · exact .inl (Option.some.inj ht).symm
      · cases ht

theorem mem_of_mem_resultOf {decode : List Token → String} {generated : List Token} {t : Token}
    (h : t ∈ (resultOf c decode r generated).tokenIds) : t ∈ generated ∧ t ≠ c.maskId := by
  unfold resultOf at h
  dsimp only at h
  obtain ⟨hmem,hne⟩ := List.mem_filter.mp h
  have ht : t ≠ c.maskId := by
    intro heq
    simp [heq] at hne
  split at hmem
  · exact ⟨List.mem_of_mem_take hmem,ht⟩
  · exact ⟨hmem,ht⟩

theorem mem_resultOf_head {decode : List Token → String} {generated : List Token} {t : Token}
    (h : generated[0]? = some t) (hmask : t ≠ c.maskId) (heos : t ∉ c.eosIds) :
    t ∈ (resultOf c decode r generated).tokenIds := by
  unfold resultOf
  dsimp only
  refine List.mem_filter.mpr ⟨?_,by simp [hmask,heos]⟩
  have hmem := List.mem_of_getElem? h
  split
  · rename_i hstops
    cases hfind : generated.findIdx? (fun t => t ∈ c.eosIds) with
    | none => simp [hfind] at hstops
    | some j =>
      obtain ⟨hj,hstop,_⟩ := List.findIdx?_eq_some_iff_getElem.mp hfind
      have hpos : 0 < j := by
        apply Nat.pos_of_ne_zero
        rintro rfl
        rw [List.getElem?_eq_getElem hj] at h
        rw [Option.some.inj h] at hstop
        exact heos (by simpa using hstop)
      apply List.mem_of_getElem?
      rw [Option.getD_some,List.getElem?_take_of_lt hpos]
      exact h
  · exact hmem

/-- A prompt shorter than the longest of its batch has its first generated token cut off. -/
theorem not_isolated (h : Servable c requests) (hr : r ∈ requests)
    (hlt : r.promptIds.length < batchWidth requests) (decode : List Token → String) :
    ¬Isolated c (positional c) decode requests := by
  intro hiso
  have hne : requests ≠ [] := List.ne_nil_of_mem hr
  obtain ⟨fuel,results,runner,hrun⟩ := hiso.returns
  have hloop := hrun
  rw [executeBatch_eq hne] at hloop
  obtain ⟨d,hd,heq⟩ := Option.map_eq_some_iff.mp hloop
  obtain ⟨hbatch,_⟩ := Prod.mk.inj heq
  obtain ⟨n,_,hends⟩ := ends_of_loop hd
  have hcoded : AllCoded c requests d :=
    hends.invariant (allCoded_start h) fun s hs _ => hs.turn
  have hgen : generate (batchConfig c requests) (positional c) fuel (paddedPrompts c requests) =
      some (d.lanes.map (Lane.output c (longestGeneration requests)),
        { batchConfig c requests with maxLength := batchMaxLength c requests }) := by
    rw [generate_eq hne,hd]
    rfl
  have hown := hiso.own fuel results runner hrun fuel _ _ hgen
  obtain ⟨i,hi⟩ := List.mem_iff_getElem?.mp hr
  have hil : i < d.lanes.length := hcoded.1 ▸ (List.getElem?_eq_some_iff.mp hi).1
  have hl := List.getElem?_eq_getElem hil
  obtain ⟨hfirst,hlater⟩ := output_getElem? hcoded hends.stopped h hi hl
  have hsame := congrArg (fun x => x[i]?) (hbatch.trans hown)
  rw [List.getElem?_zipWith,List.getElem?_zipWith,hi,List.getElem?_map,hl] at hsame
  have htokens := congrArg ExecutionResult.tokenIds (Option.some.inj hsame)
  have hpos := h.positive r hr
  have hmem : codeOf c r.promptIds.length ∈ (resultOf c decode r (generatedAt r.promptIds.length r
      (Lane.output c (longestGeneration requests) d.lanes[i]))).tokenIds := by
    apply mem_resultOf_head _ (codeOf_ne_mask c _) (codeOf_notMem_eos c _)
    unfold generatedAt
    rw [List.getElem?_take_of_lt hpos,List.getElem?_drop]
    exact hfirst
  rw [← htokens] at hmem
  obtain ⟨hmem,hnm⟩ := mem_of_mem_resultOf hmem
  obtain ⟨k,hk⟩ := List.mem_iff_getElem?.mp (List.mem_of_mem_take hmem)
  rw [List.getElem?_drop] at hk
  rcases hlater (batchWidth requests+k) _ (by omega) hk with heq | heq
  · exact hnm heq
  · have hpos := codeOf_inj heq
    omega

/-- Requests of one prompt length are isolated from each other, whatever the model; as soon as the
lengths differ some model shows it. -/
theorem batch_isolated_iff_samePromptLength (c : RunnerConfig) (requests : List RequestState) :
    (Servable c requests ∧ SamePromptLength requests →
      ∀ (model : RowModel c.maskId) decode, Isolated c model decode requests) ∧
    (Servable c requests ∧ ¬SamePromptLength requests →
      ∃ model : RowModel c.maskId, ∀ decode, ¬Isolated c model decode requests) := by
  constructor
  · rintro ⟨h,hsame⟩ model decode
    exact hsame.isolated h
  · rintro ⟨h,hdiff⟩
    unfold SamePromptLength at hdiff
    push Not at hdiff
    obtain ⟨r,hr,hne⟩ := hdiff
    have hlt : r.promptIds.length < batchWidth requests :=
      Nat.lt_of_le_of_ne (length_le_batchWidth hr) hne
    exact ⟨positional c,fun decode => not_isolated h hr hlt decode⟩

/-- Blocks of four tokens, two rows at a time. -/
def smallRunner : RunnerConfig where
  blockLength := 4
  blockLength_pos := four_pos
  miniBatchSize := 2
  miniBatchSize_pos := Nat.two_pos
  maskId := 99
  eosIds := [98]

/-- Two prompts of one length, with different limits. -/
def equalRequests : List RequestState :=
  [{ rid := [97], inputIds := [7,8], maxNewTokens := 4 },
    { rid := [98], inputIds := [8,9], maxNewTokens := 9, ignoreEos := true }]

theorem equal_prompts_isolated :
    Isolated smallRunner (positional smallRunner) (fun _ => "") equalRequests :=
  (batch_isolated_iff_samePromptLength smallRunner equalRequests).1
    ⟨⟨by decide,by decide,by decide,by decide⟩,by unfold SamePromptLength; decide⟩ _ _

/-- A prompt of one token and one of two. -/
def unequalRequests : List RequestState :=
  [{ rid := [97], inputIds := [7], maxNewTokens := 4 },
    { rid := [98], inputIds := [8,9], maxNewTokens := 4 }]

theorem unequal_prompts_not_isolated :
    ¬Isolated smallRunner (positional smallRunner) (fun _ => "") unequalRequests := by
  refine not_isolated (r := { rid := [97], inputIds := [7], maxNewTokens := 4 }) ⟨?_,?_,?_,?_⟩ ?_ ?_ _
    <;> decide

end Divergence

end FluxServe.Engine
