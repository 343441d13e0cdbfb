import FluxServe.Engine.Executor
import FluxServe.Engine.LaneRuns

namespace FluxServe.Engine

section Results

variable {c : RunnerConfig} {decode : List Token → String} {r : RequestState}

/-- Behind a stop token nothing counts for a request that heeds it. -/
theorem resultOf_append {before after : List Token} (hr : r.ignoreEos = false)
    (hstop : (before.any fun t => t ∈ c.eosIds) = true) :
    resultOf c decode r (before ++ after) = resultOf c decode r before := by
  obtain ⟨j,hj⟩ : ∃ j, before.findIdx? (fun t => t ∈ c.eosIds) = some j := by
    rw [← Option.isSome_iff_exists,List.findIdx?_isSome]
    exact hstop
  have hlt : j < before.length := (List.findIdx?_eq_some_iff_getElem.mp hj).1
  unfold resultOf
  simp only [List.findIdx?_append,hj,Option.some_or,Option.isSome_some,hr,Bool.not_false,
    Bool.and_self,if_true,Option.getD_some]
  rw [List.take_append_of_le_length hlt.le]

theorem drop_take_append {tokens : List Token} {n g k : Nat} (hk : k ≤ n+g)
    (hkn : n ≤ k) : (tokens.drop n).take g =
      (tokens.take k).drop n ++ ((tokens.drop k).take (n+g-k)) := by
  rw [List.drop_take]
  have hsplit : g = (k-n)+(n+g-k) := by omega
  conv_lhs => rw [hsplit,List.take_add,List.drop_drop]
  rw [show n+(k-n) = k by omega]

/-- Rows that agree up to a request's end, or to a stop token it heeds, give it the same result. -/
theorem resultOf_agrees {ρ : Type} {es : Bool} {f g : Lane ρ} (h : f.Agrees c es g)
    (hend : 0 < r.maxNewTokens → f.promptLength+r.maxNewTokens ≤ f.decodeLength)
    (hes : es = true → r.ignoreEos = false) :
    resultOf c decode r ((f.tokens.drop f.promptLength).take r.maxNewTokens) =
      resultOf c decode r ((g.tokens.drop f.promptLength).take r.maxNewTokens) := by
  obtain ⟨k,hk,hsame,hcase⟩ := h
  by_cases hshort : f.promptLength+r.maxNewTokens ≤ k
  · have hslice (tokens : List Token) : (tokens.drop f.promptLength).take r.maxNewTokens =
        ((tokens.take k).drop f.promptLength).take r.maxNewTokens := by
      rw [List.drop_take,List.take_take,Nat.min_eq_left (by omega)]
    rw [hslice f.tokens,hslice g.tokens,hsame]
  · rcases hcase with hle | ⟨hes₁,hhit⟩
    · cases hmax : r.maxNewTokens with
      | zero => simp
      | succ n =>
        have hlim := hend (by omega)
        omega
    · have hn : f.promptLength ≤ k := by
        by_contra hlt
        unfold generatedEosHit at hhit
        rw [List.drop_eq_nil_of_le (by rw [List.length_take]; omega)] at hhit
        cases hhit
      have hstop : (((g.tokens.take k).drop f.promptLength).any fun t => t ∈ c.eosIds) = true := by
        rw [← hsame]
        exact hhit
      rw [drop_take_append (k := k) (g := r.maxNewTokens) (by omega) hn,
        drop_take_append (k := k) (g := r.maxNewTokens) (by omega) hn,
        resultOf_append (hes hes₁) hhit,resultOf_append (hes hes₁) hstop,hsame]

end Results

section Rows

variable {c : RunnerConfig} {model : RowModel c.maskId} {g total total' : Nat}
  {prompt : List Token}

theorem decodingStart_le (n : Nat) : decodingStart c n ≤ n := by
  have h := Nat.div_mul_le_self n c.blockLength
  unfold decodingStart
  dsimp only
  split <;> omega

theorem dvd_decodingStart (h : c.flex = true ∨ c.blockLength ∣ c.prefillingLimit) (n : Nat) :
    c.blockLength ∣ decodingStart c n := by
  have hdvd : c.blockLength ∣ n/c.blockLength*c.blockLength := Nat.dvd_mul_left _ _
  unfold decodingStart
  dsimp only
  split
  · exact hdvd
  · rename_i hflex
    rcases Nat.le_total (n/c.blockLength*c.blockLength) c.prefillingLimit with hle | hle
    · rw [Nat.min_eq_left hle]
      exact hdvd
    · rw [Nat.min_eq_right hle]
      exact h.resolve_left hflex

theorem filter_ne_mask (h : c.maskId ∉ prompt) :
    (prompt.filter fun t => t ≠ c.maskId) = prompt := by
  rw [List.filter_eq_self]
  intro t ht
  have hne : t ≠ c.maskId := fun heq => h (heq ▸ ht)
  simpa using hne

theorem prepareLane_promptLength (model : RowModel c.maskId) (g total : Nat) (h : c.maskId ∉ prompt) :
    (prepareLane c model g total prompt).promptLength = prompt.length :=
  congrArg List.length (filter_ne_mask h)

theorem prepareLane_start (h : c.maskId ∉ prompt) :
    (prepareLane c model g total prompt).start = decodingStart c prompt.length := by
  rw [← prepareLane_promptLength model g total h]
  rfl

theorem prepareLane_decodeLength (h : c.maskId ∉ prompt) :
    (prepareLane c model g total prompt).decodeLength =
      if 0 < g then ceilTo c.blockLength (prompt.length+g)
      else decodingStart c prompt.length := by
  rw [← prepareLane_promptLength model g total h]
  rfl

/-- A prompt without masks is placed on a canvas that has room for what it may generate. -/
theorem prepareLane_placed (h : c.maskId ∉ prompt)
    (htotal : ceilTo c.blockLength (prompt.length+g) ≤ total) :
    (prepareLane c model g total prompt).Placed c total (decodingStart c prompt.length) 0 := by
  have hle := le_ceilTo c.blockLength_pos (prompt.length+g)
  constructor
  · simp only [prepareLane,List.length_append,List.length_replicate]
    omega
  · rw [prepareLane_decodeLength h]
    have hstart := decodingStart_le (c := c) prompt.length
    split <;> omega
  · intro _
    rw [prepareLane_start h]
    exact ⟨Nat.le_refl _,rfl,.inr (.inl rfl)⟩

theorem dvd_prepareLane_decodeLength (h : c.maskId ∉ prompt)
    (hgrid : c.flex = true ∨ c.blockLength ∣ c.prefillingLimit) :
    c.blockLength ∣ (prepareLane c model g total prompt).decodeLength := by
  rw [prepareLane_decodeLength h]
  split
  · exact dvd_ceilTo _ _
  · exact dvd_decodingStart hgrid _

theorem prepareLane_longer {g' : Nat} (h : c.maskId ∉ prompt) (hg : g ≤ g')
    (htotal : ceilTo c.blockLength (prompt.length+g) ≤ total) (hle : total ≤ total') :
    (prepareLane c model g total prompt).Longer
      (prepareLane c model g' total' prompt) := by
  have hceil := le_ceilTo c.blockLength_pos (prompt.length+g)
  have hpad : prompt ++ List.replicate (total-prompt.length) c.maskId <+:
      prompt ++ List.replicate (total'-prompt.length) c.maskId := by
    apply (List.prefix_append_right_inj prompt).mpr
    refine ⟨List.replicate (total'-total) c.maskId,?_⟩
    rw [List.replicate_append_replicate]
    congr 1
    omega
  have hstart := decodingStart_le (c := c) prompt.length
  have htake (k : Nat) (hk : k ≤ total) :
      (prompt ++ List.replicate (total'-prompt.length) c.maskId).take k =
        (prompt ++ List.replicate (total-prompt.length) c.maskId).take k := by
    apply (take_eq_take_of_isPrefix hpad _).symm
    rw [List.length_append,List.length_replicate]
    omega
  constructor
  · rfl
  · rfl
  · have hblocks : ceilTo c.blockLength prompt.length ≤ ceilTo c.blockLength (prompt.length+g) :=
      ceilTo_mono _ (Nat.le_add_right _ _)
    change model.prefill (if decodingStart c (prompt.filter fun t => t ≠ c.maskId).length = 0 then []
      else (prompt ++ List.replicate (total'-prompt.length) c.maskId).take
        (if c.flex then ceilTo c.blockLength (prompt.filter fun t => t ≠ c.maskId).length
          else decodingStart c (prompt.filter fun t => t ≠ c.maskId).length)) = model.prefill
      (if decodingStart c (prompt.filter fun t => t ≠ c.maskId).length = 0 then []
      else (prompt ++ List.replicate (total-prompt.length) c.maskId).take
        (if c.flex then ceilTo c.blockLength (prompt.filter fun t => t ≠ c.maskId).length
          else decodingStart c (prompt.filter fun t => t ≠ c.maskId).length))
    rw [filter_ne_mask h,htake]
    split <;> omega
  · exact hpad
  · rw [prepareLane_decodeLength h,prepareLane_decodeLength h]
    have hmono := ceilTo_mono c.blockLength (Nat.add_le_add_left hg prompt.length)
    have hup := le_ceilTo c.blockLength_pos (prompt.length+g')
    split <;> split <;> omega

/-- Up to a row's output limit the output is the canvas. -/
theorem output_slice {ρ : Type} {l : Lane ρ} {k : Nat} (hk : k ≤ g)
    (hfit : l.promptLength+k ≤ l.tokens.length) :
    ((l.output c g).drop l.promptLength).take k = (l.tokens.drop l.promptLength).take k := by
  have hsame : (l.output c g).take (l.promptLength+k) = l.tokens.take (l.promptLength+k) := by
    unfold Lane.output
    rw [List.take_append_of_le_length (by rw [List.length_take]; omega),List.take_take,
      Nat.min_eq_left (by omega)]
  rw [List.take_drop,hsame,List.take_drop]

end Rows

section Batches

variable {c : RunnerConfig} {model : RowModel c.maskId} {decode : List Token → String}
  {requests : List RequestState} {r : RequestState}

theorem promptWidth_eq {prompts : List (List Token)} {n : Nat} (hne : prompts ≠ [])
    (h : ∀ p ∈ prompts, p.length = n) : promptWidth prompts = n := by
  have hmax : (prompts.map List.length).max? = some n := by
    rw [List.max?_eq_some_iff]
    constructor
    · obtain ⟨p,hp⟩ := List.exists_mem_of_ne_nil prompts hne
      exact List.mem_map.mpr ⟨p,hp,h p hp⟩
    · intro k hk
      obtain ⟨p,hp,rfl⟩ := List.mem_map.mp hk
      exact (h p hp).le
  unfold promptWidth
  rw [hmax]
  rfl

theorem le_max?_getD {l : List Nat} {n : Nat} (h : n ∈ l) : n ≤ l.max?.getD 0 := by
  cases hm : l.max? with
  | none =>
    rw [List.max?_eq_none_iff] at hm
    rw [hm] at h
    cases h
  | some k => exact (List.max?_eq_some_iff.mp hm).2 n h

theorem length_le_promptWidth {prompts : List (List Token)} {p : List Token} (h : p ∈ prompts) :
    p.length ≤ promptWidth prompts :=
  le_max?_getD (List.mem_map_of_mem h)

/-- How many tokens the batch generates for each of its requests. -/
def longestGeneration (requests : List RequestState) : Nat :=
  (requests.map RequestState.maxNewTokens).max?.getD 0

def batchWidth (requests : List RequestState) : Nat :=
  promptWidth (requests.map RequestState.promptIds)

def batchTotal (c : RunnerConfig) (requests : List RequestState) : Nat :=
  ceilTo c.blockLength (batchWidth requests+longestGeneration requests)

def batchMaxLength (c : RunnerConfig) (requests : List RequestState) : Nat :=
  max c.maxLength (batchTotal c requests)

/-- The rows of a batch before they are decoded. -/
def batchStart (c : RunnerConfig) (model : RowModel c.maskId) (requests : List RequestState) :
    Decoding model.Row :=
  ⟨0,(paddedPrompts c requests).map
    (prepareLane c model (longestGeneration requests) (batchTotal c requests))⟩

def batchTurn (c : RunnerConfig) (model : RowModel c.maskId) (requests : List RequestState) :
    Decoding model.Row → Decoding model.Row :=
  Decoding.turn c model (batchConfig c requests).earlyStop (batchMaxLength c requests)
    (batchTotal c requests)

theorem length_paddedPrompts {p : List Token} (h : p ∈ paddedPrompts c requests) :
    p.length = batchWidth requests := by
  obtain ⟨q,hq,rfl⟩ := List.mem_map.mp h
  have hle := length_le_promptWidth hq
  rw [List.length_append,List.length_replicate]
  exact Nat.add_sub_cancel' hle

theorem promptWidth_paddedPrompts (hne : requests ≠ []) :
    promptWidth (paddedPrompts c requests) = batchWidth requests := by
  apply promptWidth_eq
  · simpa [paddedPrompts] using hne
  · intro p hp
    exact length_paddedPrompts hp

/-- The runner decodes a batch in one loop over its padded prompts. -/
theorem generate_eq (hne : requests ≠ []) (fuel : Nat) :
    generate (batchConfig c requests) model fuel (paddedPrompts c requests) =
      (loop (Decoding.done c) (batchTurn c model requests) fuel
        (batchStart c model requests)).map fun d =>
          (d.lanes.map (Lane.output c (longestGeneration requests)),
            { batchConfig c requests with maxLength := batchMaxLength c requests }) := by
  unfold generate
  have htotal : totalLength (batchConfig c requests) (paddedPrompts c requests) =
      batchTotal c requests := by
    unfold totalLength
    rw [promptWidth_paddedPrompts hne]
    rfl
  dsimp only
  rw [htotal]
  change (loop (Decoding.done c) (batchTurn c model requests) fuel
    (batchStart c model requests)).bind _ = _
  cases loop (Decoding.done c) (batchTurn c model requests) fuel (batchStart c model requests) <;>
    rfl

theorem executeBatch_eq (hne : requests ≠ []) (fuel : Nat) :
    executeBatch c model decode fuel requests =
      (loop (Decoding.done c) (batchTurn c model requests) fuel
        (batchStart c model requests)).map fun d =>
          (List.zipWith (fun r row => resultOf c decode r (generatedAt (batchWidth requests) r row))
            requests (d.lanes.map (Lane.output c (longestGeneration requests))),
            { c with maxLength := batchMaxLength c requests }) := by
  unfold executeBatch
  rw [if_neg (by simpa using hne),generate_eq hne]
  cases loop (Decoding.done c) (batchTurn c model requests) fuel (batchStart c model requests) <;>
    rfl

/-- Batches whose prompts contain no mask, whose canvas the runner has room for, and whose prefill
ends on a block. -/
structure Servable (c : RunnerConfig) (requests : List RequestState) : Prop where
  unmasked : ∀ r ∈ requests, c.maskId ∉ r.promptIds
  positive : ∀ r ∈ requests, 0 < r.maxNewTokens
  room : batchTotal c requests ≤ c.maxLength
  grid : c.flex = true ∨ c.blockLength ∣ c.prefillingLimit

def SamePromptLength (requests : List RequestState) : Prop :=
  ∀ r ∈ requests, r.promptIds.length = batchWidth requests

/-- `execute_batch` returns, each result is read from the request's own part of its own row, and it
is the result of the request executed alone. -/
structure Isolated (c : RunnerConfig) (model : RowModel c.maskId) (decode : List Token → String)
    (requests : List RequestState) : Prop where
  returns : ∃ fuel results runner,
    executeBatch c model decode fuel requests = some (results,runner)
  own : ∀ fuel results runner, executeBatch c model decode fuel requests = some (results,runner) →
    ∀ fuel' output runner',
      generate (batchConfig c requests) model fuel' (paddedPrompts c requests) =
        some (output,runner') →
      results = List.zipWith
        (fun r row => resultOf c decode r (generatedAt r.promptIds.length r row)) requests output
  alone : ∀ fuel results runner, executeBatch c model decode fuel requests = some (results,runner) →
    results.length = requests.length ∧ ∀ (i : Nat) r, requests[i]? = some r →
      ∃ result fuel' runner', results[i]? = some result ∧
        executeBatch c model decode fuel' [r] = some ([result],runner')

theorem batchWidth_single : batchWidth [r] = r.promptIds.length := by
  simp [batchWidth,promptWidth]

theorem longestGeneration_single : longestGeneration [r] = r.maxNewTokens := by
  simp [longestGeneration]

theorem batchTotal_single_le (h : r ∈ requests) : batchTotal c [r] ≤ batchTotal c requests := by
  have hwidth : r.promptIds.length ≤ batchWidth requests :=
    length_le_promptWidth (List.mem_map_of_mem h)
  have hgen : r.maxNewTokens ≤ longestGeneration requests := le_max?_getD (List.mem_map_of_mem h)
  unfold batchTotal
  rw [batchWidth_single,longestGeneration_single]
  exact ceilTo_mono _ (Nat.add_le_add hwidth hgen)

theorem Servable.single (h : Servable c requests) (hr : r ∈ requests) : Servable c [r] := by
  constructor
  · intro q hq
    rw [List.mem_singleton.mp hq]
    exact h.unmasked r hr
  · intro q hq
    rw [List.mem_singleton.mp hq]
    exact h.positive r hr
  · exact (batchTotal_single_le hr).trans h.room
  · exact h.grid

theorem Servable.batchMaxLength_eq (h : Servable c requests) :
    batchMaxLength c requests = c.maxLength :=
  Nat.max_eq_left h.room

theorem samePromptLength_single : SamePromptLength [r] := by
  intro q hq
  rw [List.mem_singleton.mp hq,batchWidth_single]

theorem paddedPrompts_of_same (h : SamePromptLength requests) :
    paddedPrompts c requests = requests.map RequestState.promptIds := by
  unfold paddedPrompts
  dsimp only
  rw [List.map_map]
  apply List.map_congr_left
  intro r hr
  have hlen := h r hr
  unfold batchWidth at hlen
  simp [hlen]

/-- The row of a request before a batch is decoded. -/
def batchLane (c : RunnerConfig) (model : RowModel c.maskId) (requests : List RequestState)
    (r : RequestState) : Lane model.Row :=
  prepareLane c model (longestGeneration requests) (batchTotal c requests) r.promptIds

/-- Where a request's row comes when it is decoded with the settings of the batch. -/
def BatchEnds (c : RunnerConfig) (model : RowModel c.maskId) (requests : List RequestState)
    (r : RequestState) (final : Lane model.Row) : Prop :=
  ∃ n, EndsAlone c model (batchConfig c requests).earlyStop c.maxLength (batchTotal c requests) 0
    (batchLane c model requests r) final n

theorem Servable.placed (h : Servable c requests) (hsame : SamePromptLength requests)
    (hr : r ∈ requests) : (batchLane c model requests r).Placed c (batchTotal c requests)
      (decodingStart c (batchWidth requests)) 0 := by
  rw [← hsame r hr]
  apply prepareLane_placed (h.unmasked r hr)
  rw [hsame r hr]
  exact Nat.le_refl _

/-- The loops end, and every row comes to where it comes alone. -/
theorem exists_batch_end (model : RowModel c.maskId) (h : Servable c requests) (hsame : SamePromptLength requests) :
    ∃ (final : Nat → Lane model.Row) (w n : Nat),
      (∀ (i : Nat) r, requests[i]? = some r → BatchEnds c model requests r (final i)) ∧
      Ends (Decoding.done c) (batchTurn c model requests) (batchStart c model requests)
        ⟨w,(List.range requests.length).map final⟩ n := by
  have halone : ∀ i : Nat, ∃ x : Lane model.Row × Nat, ∀ r, requests[i]? = some r →
      EndsAlone c model (batchConfig c requests).earlyStop c.maxLength (batchTotal c requests) 0
        (batchLane c model requests r) x.1 x.2 := by
    intro i
    cases hi : requests[i]? with
    | none => exact ⟨⟨prepareLane c model 0 0 [],0⟩,fun r hr => by cases hr⟩
    | some r =>
      obtain ⟨final,n,hends⟩ :=
        exists_endsAlone h.room _ 0 (h.placed hsame (List.mem_of_getElem? hi))
      refine ⟨(final,n),fun q hq => ?_⟩
      obtain rfl := Option.some.inj hq
      exact hends
  choose x hx using halone
  have hlanes (i : Nat) (l : Lane model.Row)
      (hl : (batchStart c model requests).lanes[i]? = some l) :
      ∃ r, requests[i]? = some r ∧ batchLane c model requests r = l := by
    unfold batchStart at hl
    rw [paddedPrompts_of_same hsame,List.map_map,List.getElem?_map] at hl
    exact Option.map_eq_some_iff.mp hl
  have hplaced : (batchStart c model requests).Placed c (batchTotal c requests)
      (decodingStart c (batchWidth requests)) := by
    intro l hl
    obtain ⟨i,hi⟩ := List.mem_iff_getElem?.mp hl
    obtain ⟨r,hr,rfl⟩ := hlanes i l hi
    exact h.placed hsame (List.mem_of_getElem? hr)
  obtain ⟨w,n,hends⟩ := batch_ends h.room (fun i => (x i).1) (fun i => (x i).2)
    (batchStart c model requests) hplaced (by
      intro i l hl
      obtain ⟨r,hr,rfl⟩ := hlanes i l hl
      exact hx i r hr)
  refine ⟨fun i => (x i).1,w,n,fun i r hr => ⟨_,hx i r hr⟩,?_⟩
  have hlength : (batchStart c model requests).lanes.length = requests.length := by
    simp [batchStart,paddedPrompts]
  rw [hlength] at hends
  unfold batchTurn
  rw [h.batchMaxLength_eq]
  exact hends

theorem executeBatch_of_ends (decode : List Token → String) (hne : requests ≠ []) {d : Decoding model.Row} {n : Nat}
    (h : Ends (Decoding.done c) (batchTurn c model requests) (batchStart c model requests) d n) :
    (∃ fuel runner, executeBatch c model decode fuel requests =
      some (List.zipWith
        (fun r row => resultOf c decode r (generatedAt (batchWidth requests) r row)) requests
        (d.lanes.map (Lane.output c (longestGeneration requests))),runner)) ∧
    ∀ fuel results runner, executeBatch c model decode fuel requests = some (results,runner) →
      results = List.zipWith
        (fun r row => resultOf c decode r (generatedAt (batchWidth requests) r row)) requests
        (d.lanes.map (Lane.output c (longestGeneration requests))) := by
  have hloop := h.loop_eq (Nat.le_refl n)
  constructor
  · refine ⟨n,{ c with maxLength := batchMaxLength c requests },?_⟩
    rw [executeBatch_eq hne,hloop]
    rfl
  · intro fuel results runner hrun
    rw [executeBatch_eq hne] at hrun
    obtain ⟨d',hd',heq⟩ := Option.map_eq_some_iff.mp hrun
    rw [loop_unique hd' hloop] at heq
    exact (congrArg Prod.fst heq).symm

theorem BatchEnds.same {f g : Lane model.Row} (h : BatchEnds c model requests r f)
    (h' : BatchEnds c model requests r g) : f = g := by
  obtain ⟨n,w,hf⟩ := h
  obtain ⟨n',w',hg⟩ := h'
  exact congrArg Prod.snd (hf.unique hg).1

theorem EndsAlone.fixed {es : Bool} {M total s₀ window n : Nat} {l f : Lane model.Row}
    (hM : total ≤ M) (h : EndsAlone c model es M total window l f n)
    (hp : l.Placed c total s₀ window) : f.promptLength = l.promptLength ∧
      f.decodeLength = l.decodeLength ∧ f.tokens.length = total := by
  induction n generalizing l window with
  | zero =>
    cases ha : l.active c with
    | false =>
      rw [h.inactive ha]
      exact ⟨rfl,rfl,hp.canvas⟩
    | true =>
      obtain ⟨_,hn,_⟩ := h.turn ha
      omega
  | succ n ih =>
    cases ha : l.active c with
    | false =>
      rw [h.inactive ha]
      exact ⟨rfl,rfl,hp.canvas⟩
    | true =>
      obtain ⟨n',hn,hrest⟩ := h.turn ha
      obtain ⟨hc,hwide⟩ := hp.solo hM ha
      obtain rfl : n = n' := by omega
      have hrec := ih hrest (hwide.advance hc)
      exact hrec

theorem earlyStop_single (hr : r ∈ requests) (h : (batchConfig c requests).earlyStop = true) :
    (batchConfig c [r]).earlyStop = true := by
  unfold batchConfig at h ⊢
  dsimp only at h ⊢
  split at h
  · cases h
  · rename_i hall
    have hone : r.ignoreEos = false := by
      simpa using List.any_eq_false.mp (Bool.eq_false_of_not_eq_true hall) r hr
    simpa [hone] using h

theorem earlyStop_heeded (h : (batchConfig c [r]).earlyStop = true) : r.ignoreEos = false := by
  unfold batchConfig at h
  dsimp only at h
  cases hr : r.ignoreEos with
  | false => rfl
  | true => simp [hr] at h

/-- Alone or in a batch of prompts as long as its own, a request gets the same result. -/
theorem result_alone_eq (h : Servable c requests) (hsame : SamePromptLength requests)
    (hr : r ∈ requests) {f g : Lane model.Row} (hf : BatchEnds c model [r] r f)
    (hg : BatchEnds c model requests r g) :
    resultOf c decode r (generatedAt (batchWidth [r]) r (f.output c (longestGeneration [r]))) =
      resultOf c decode r
        (generatedAt (batchWidth requests) r (g.output c (longestGeneration requests))) := by
  have h₁ := h.single hr
  have hmem : r ∈ [r] := List.mem_singleton.mpr rfl
  have hfree := h.unmasked r hr
  have hpf : (batchLane c model [r] r).Placed c (batchTotal c [r])
      (decodingStart c (batchWidth [r])) 0 := h₁.placed samePromptLength_single hmem
  have hpg : (batchLane c model requests r).Placed c (batchTotal c requests)
      (decodingStart c (batchWidth requests)) 0 := h.placed hsame hr
  obtain ⟨n,hf⟩ := hf
  obtain ⟨n',hg⟩ := hg
  obtain ⟨hfn,hfd,hft⟩ := hf.fixed h₁.room hpf
  obtain ⟨hgn,_,hgt⟩ := hg.fixed h.room hpg
  have hwidth : batchWidth requests = r.promptIds.length := (hsame r hr).symm
  have hgen : r.maxNewTokens ≤ longestGeneration requests := le_max?_getD (List.mem_map_of_mem hr)
  have hplen : (batchLane c model [r] r).promptLength = r.promptIds.length :=
    prepareLane_promptLength model _ _ hfree
  have hplen' : (batchLane c model requests r).promptLength = r.promptIds.length :=
    prepareLane_promptLength model _ _ hfree
  have htotal := le_ceilTo c.blockLength_pos (batchWidth [r]+longestGeneration [r])
  have htotal' := le_ceilTo c.blockLength_pos (batchWidth requests+longestGeneration requests)
  change _ ≤ batchTotal c [r] at htotal
  change _ ≤ batchTotal c requests at htotal'
  rw [batchWidth_single,longestGeneration_single] at htotal
  rw [hwidth] at htotal'
  have hlonger : (batchLane c model [r] r).Longer (batchLane c model requests r) := by
    apply prepareLane_longer hfree
    · rw [longestGeneration_single]
      exact hgen
    · unfold batchTotal
      rw [batchWidth_single]
    · exact batchTotal_single_le hr
  have hgrid : decodingStart c (batchWidth requests) = decodingStart c (batchWidth [r]) := by
    rw [hwidth,batchWidth_single]
  rw [hgrid] at hpg
  have hstart : c.blockLength ∣ (batchLane c model [r] r).start := by
    unfold batchLane
    rw [prepareLane_start hfree]
    exact dvd_decodingStart h.grid _
  have hagrees := agrees_of_longer h₁.room h.room (earlyStop_single hr) hf hg hlonger hpf hpg
    hstart (dvd_prepareLane_decodeLength hfree h.grid)
  have hfp : f.promptLength = r.promptIds.length := hfn.trans hplen
  have hgp : g.promptLength = r.promptIds.length := hgn.trans hplen'
  unfold generatedAt
  rw [batchWidth_single,hwidth,longestGeneration_single]
  have hslice : ((f.output c r.maxNewTokens).drop r.promptIds.length).take r.maxNewTokens =
      (f.tokens.drop r.promptIds.length).take r.maxNewTokens := by
    rw [← hfp]
    apply output_slice (Nat.le_refl _)
    rw [hft,hfp]
    exact htotal
  have hslice' : ((g.output c (longestGeneration requests)).drop r.promptIds.length).take
      r.maxNewTokens = (g.tokens.drop r.promptIds.length).take r.maxNewTokens := by
    rw [← hgp]
    apply output_slice hgen
    rw [hgt,hgp]
    omega
  rw [hslice,hslice',← hfp]
  refine resultOf_agrees hagrees ?_ earlyStop_heeded
  intro hpos
  rw [hfd,hfp]
  unfold batchLane
  rw [prepareLane_decodeLength hfree,longestGeneration_single,if_pos hpos]
  exact le_ceilTo c.blockLength_pos _

theorem zipWith_congr_left {α β γ : Type} {f g : α → β → γ} {as : List α} (bs : List β)
    (h : ∀ a ∈ as, f a = g a) : List.zipWith f as bs = List.zipWith g as bs := by
  induction as generalizing bs with
  | nil => rfl
  | cons a as ih =>
    cases bs with
    | nil => rfl
    | cons b bs =>
      rw [List.zipWith_cons_cons,List.zipWith_cons_cons,h a List.mem_cons_self,
        ih bs fun x hx => h x (List.mem_cons_of_mem a hx)]

theorem SamePromptLength.isolated (hsame : SamePromptLength requests) (h : Servable c requests) :
    Isolated c model decode requests := by
  by_cases hne : requests = []
  · subst hne
    have hrun (fuel : Nat) : executeBatch c model decode fuel [] = some ([],c) := rfl
    constructor
    · exact ⟨0,[],c,hrun 0⟩
    · intro fuel results runner hres fuel' output runner' _
      rw [hrun] at hres
      cases hres
      rfl
    · intro fuel results runner hres
      rw [hrun] at hres
      cases hres
      exact ⟨rfl,fun i r hr => by simp at hr⟩
  · obtain ⟨final,w,n,hfinal,hends⟩ := exists_batch_end model h hsame
    obtain ⟨hreturns,hresults⟩ := executeBatch_of_ends decode hne hends
    constructor
    · obtain ⟨fuel,runner,hrun⟩ := hreturns
      exact ⟨fuel,_,runner,hrun⟩
    · intro fuel results runner hrun fuel' output runner' hgen
      rw [generate_eq hne] at hgen
      obtain ⟨d,hd,heq⟩ := Option.map_eq_some_iff.mp hgen
      rw [loop_unique hd (hends.loop_eq (Nat.le_refl n))] at heq
      obtain ⟨rfl,_⟩ := Prod.mk.inj heq
      rw [hresults fuel results runner hrun]
      apply zipWith_congr_left
      intro r hr
      rw [hsame r hr]
    · intro fuel results runner hrun
      have hres := hresults fuel results runner hrun
      rw [List.map_map] at hres
      refine ⟨by simp [hres],fun i r hr => ?_⟩
      have hmem := List.mem_of_getElem? hr
      have hi : i < requests.length := (List.getElem?_eq_some_iff.mp hr).1
      obtain ⟨final₁,_,_,hfinal₁,hends₁⟩ :=
        exists_batch_end model (h.single hmem) samePromptLength_single
      obtain ⟨⟨fuel',runner',hrun'⟩,_⟩ :=
        executeBatch_of_ends decode (List.cons_ne_nil r []) hends₁
      refine ⟨_,fuel',runner',?_,hrun'⟩
      rw [hres,List.getElem?_zipWith,hr,List.getElem?_map,List.getElem?_range hi]
      exact congrArg some
        (result_alone_eq h hsame hmem (hfinal₁ 0 r rfl) (hfinal i r hr)).symm

end Batches

end FluxServe.Engine
