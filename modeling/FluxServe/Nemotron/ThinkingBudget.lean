import FluxServe.Framework.ClosedBy
import FluxServe.Nemotron.Sampling
import FluxServe.Nemotron.OnlineSpec

namespace FluxServe.Engine

open NemotronRunner (denoise commit acceptedTokens)

variable {M : NemotronModel} {S : NemotronSampling M} {R : NemotronRunner M}

section Budget

variable {b : ThinkingBudget} {limit : Nat} {marker : Token} {block produced : List Token}

/-- Where the marker stands once a block has passed the budget: before the block, at its seed, or
where the limit falls. -/
theorem ThinkingBudget.apply_cases (hset : b.setting = some (limit,marker))
    (block produced : List Token) :
    (marker ∈ produced ∧ b.apply block produced = block) ∨
    (marker ∈ block ∧ b.apply block produced = block) ∨
    (produced.length+block.length ≤ limit ∧ b.apply block produced = block) ∨
    (limit < produced.length+block.length ∧
      b.apply block produced = block.set (limit-produced.length) marker) := by
  unfold apply enabled satisfied blockInjectionOffset
  rw [hset]
  by_cases hproduced : marker ∈ produced
  · exact .inl ⟨hproduced,by simp [hproduced]⟩
  · by_cases hblock : marker ∈ block
    · exact .inr (.inl ⟨hblock,by simp [hblock]⟩)
    · by_cases hle : produced.length+block.length ≤ limit
      · exact .inr (.inr (.inl ⟨hle,by simp [hproduced,hblock,hle]⟩))
      · exact .inr (.inr (.inr ⟨by omega,by simp [hproduced,hblock,hle]⟩))

theorem ThinkingBudget.apply_disabled (hset : b.setting = none) (block produced : List Token) :
    b.apply block produced = block := by
  simp [apply,enabled,hset]

theorem ThinkingBudget.due_of_disabled (hset : b.setting = none) (generated : List Token) :
    b.due generated = none := by
  simp [due,forceNextToken,hset]

/-- Unless the marker is due, the limit is not passed or the marker is there. -/
theorem ThinkingBudget.due_cases (hset : b.setting = some (limit,marker)) (generated : List Token) :
    (limit < generated.length ∧ marker ∉ generated ∧ b.due generated = some marker) ∨
    ((generated.length ≤ limit ∨ marker ∈ generated) ∧ b.due generated = none) := by
  unfold due forceNextToken satisfied
  rw [hset]
  by_cases hlong : limit < generated.length
  · by_cases hmem : marker ∈ generated
    · exact .inr ⟨.inr hmem,by simp [hmem]⟩
    · exact .inl ⟨hlong,hmem,by simp [hlong,hmem]⟩
  · exact .inr ⟨.inl (by omega),by simp [hlong]⟩

end Budget

namespace NemotronSampling

/-- A token that sampling gives for some logits. -/
def Draws (S : NemotronSampling M) (t : Token) : Prop :=
  ∃ g logits, t ∈ (S.categorical g logits).1 ∨ t ∈ (S.diffusion g logits).1

/-- A position that was drawn, if it is decided. -/
def Sampled (S : NemotronSampling M) (R : NemotronRunner M) (t : Token) : Prop :=
  t ≠ R.maskId → S.Draws t

/-- What denoising may make of a block: what is decided stays, and what gets decided is drawn. -/
structure Resolves (S : NemotronSampling M) (R : NemotronRunner M) (block block' : List Token) :
    Prop where
  length : block'.length = block.length
  kept : ∀ (i : Nat) (t : Token), block[i]? = some t → t ≠ R.maskId → block'[i]? = some t
  drawn : ∀ t ∈ block', t ∈ block ∨ S.Draws t

variable {block block' block'' : List Token} {g : S.Generator} {logits : List M.Logits}

theorem Resolves.refl : S.Resolves R block block := ⟨rfl,fun _ _ h _ => h,fun _ h => .inl h⟩

theorem Resolves.trans (h : S.Resolves R block block') (h' : S.Resolves R block' block'') :
    S.Resolves R block block'' where
  length := h'.length.trans h.length
  kept i t hget ht := h'.kept i t (h.kept i t hget ht) ht
  drawn t ht := by
    obtain hold | hnew := h'.drawn t ht
    · exact h.drawn t hold
    · exact .inr hnew

theorem categorical_draws : ∀ t ∈ (S.categorical g logits).1, S.Draws t :=
  fun _ ht => ⟨g,logits,.inl ht⟩

/-- The tokens of a selection are drawn. -/
theorem select_draws {draft : Bool} {x : Token × M.Confidence}
    (h : x ∈ (S.select draft g logits).1) : S.Draws x.1 := by
  unfold select at h
  obtain ⟨i,hi,hget⟩ := List.mem_iff_getElem.mp h
  rw [List.getElem_zipWith] at hget
  rw [← hget]
  cases draft with
  | false => exact ⟨g,logits,.inr (List.getElem_mem _)⟩
  | true => exact ⟨g,logits,.inl (List.getElem_mem _)⟩

/-- A step of a decoder over the mask, on what is drawn. -/
theorem decoder_resolves {d : ThresholdDecoder M.Confidence} (hd : d.maskId = R.maskId)
    {drawn : List (Token × M.Confidence)} (hdrawn : ∀ x ∈ drawn, S.Draws x.1)
    (block : List Token) : S.Resolves R block (d.step Prod.fst Prod.snd drawn block) where
  length := d.step_length
  kept i t hget ht := d.step_decided hget (by rwa [hd])
  drawn t ht := by
    unfold ThresholdDecoder.step at ht
    obtain ⟨i,hi,hget⟩ := List.mem_iff_getElem.mp ht
    rw [List.getElem_mapIdx] at hget
    split at hget
    · next x hx =>
      split at hget
      · rw [← hget]
        exact .inr (hdrawn x (List.mem_of_getElem? hx))
      · rw [← hget]
        exact .inl (List.getElem_mem _)
    · rw [← hget]
      exact .inl (List.getElem_mem _)

theorem step_resolves (S : NemotronSampling M) (R : NemotronRunner M) (g : S.Generator)
    (logits : List M.Logits) (block : List Token) :
    S.Resolves R block (S.step R g logits block).1 :=
  decoder_resolves rfl (fun _ => select_draws) block

theorem draftStep_resolves (S : NemotronSampling M) (R : NemotronRunner M) (g : S.Generator)
    (logits : List M.Logits) (block : List Token) :
    S.Resolves R block (S.draftStep R g logits block).1 :=
  decoder_resolves (d := R.draftDecoder) rfl (fun _ => select_draws) block

theorem seedFrom_sampled (S : NemotronSampling M) (R : NemotronRunner M) (g : S.Generator)
    (logits : List M.Logits) : S.Sampled R (S.seedFrom R g logits).1 := by
  intro ht
  unfold seedFrom at ht ⊢
  cases hdrawn : (S.categorical g logits.getLast?.toList).1 with
  | nil =>
    dsimp only at ht
    rw [hdrawn] at ht
    exact absurd rfl ht
  | cons t ts =>
    dsimp only
    rw [hdrawn]
    refine ⟨g,logits.getLast?.toList,.inl ?_⟩
    rw [hdrawn]
    exact List.mem_cons_self

section Published

variable {out : List Token} {limit : Nat} {marker : Token}

/-- What block diffusion publishes: each block resolves the masked block of a sampled seed, with the
marker where it is due, and of its first part all but masks and ends is published. -/
inductive Diffused (S : NemotronSampling M) (R : NemotronRunner M) : List Token → Prop
  | nil : Diffused S R []
  | block {out block part : List Token} {seed : Token} {keep : Token → Bool}
      (before : Diffused S R out) (seeded : S.Sampled R seed)
      (resolves : S.Resolves R (R.thinkingBudget.apply (R.maskedBlock seed) out) block)
      (first : part <+: block)
      (keeps : ∀ t, t ≠ R.maskId → t ∉ R.decoder.eosIds → keep t = true) :
      Diffused S R (out ++ part.filter keep)

/-- What one verification adds: the marker first, if it is due, and else only drawn tokens. -/
structure Accepts (S : NemotronSampling M) (R : NemotronRunner M) (due : Option Token)
    (tokens : List Token) : Prop where
  length : tokens.length ≤ R.blockLength
  forced : ∀ t, due = some t → t ≠ R.maskId → ∀ u, tokens[0]? = some u → u = t
  drawn : due = none → ∀ t ∈ tokens, S.Draws t

theorem Accepts.nil {due : Option Token} : S.Accepts R due [] :=
  ⟨Nat.zero_le _,fun _ _ _ _ h => (nomatch h),fun _ _ h => (nomatch h)⟩

/-- What self-speculation publishes: the seed of the prefill, and what each verification adds. -/
inductive Speculated (S : NemotronSampling M) (R : NemotronRunner M) : List Token → Prop
  | first {tokens part : List Token} {seed : Token} {keep : Token → Bool}
      (seeded : R.thinkingBudget.setting = none → S.Sampled R seed)
      (accepts : S.Accepts R (R.thinkingBudget.due [seed]) tokens)
      (first : part <+: seed :: tokens)
      (keeps : ∀ t, t ≠ R.maskId → t ∉ R.decoder.eosIds → keep t = true) :
      Speculated S R (part.filter keep)
  | turn {out tokens part : List Token} {keep : Token → Bool} (before : Speculated S R out)
      (accepts : S.Accepts R (R.thinkingBudget.due out) tokens) (first : part <+: tokens)
      (keeps : ∀ t, t ≠ R.maskId → t ∉ R.decoder.eosIds → keep t = true) :
      Speculated S R (out ++ part.filter keep)

theorem mem_maskedBlock {seed t : Token} (h : t ∈ R.maskedBlock seed) (ht : t ≠ R.maskId) :
    t = seed ∧ (R.maskedBlock seed)[0]? = some seed := by
  have hpos := R.blockLength_pos
  unfold NemotronRunner.maskedBlock at h ⊢
  obtain hold | hseed := List.mem_or_eq_of_mem_set h
  · exact absurd (List.eq_of_mem_replicate hold) ht
  · refine ⟨hseed,?_⟩
    simp [hpos]

/-- A block may be published as a whole. -/
theorem Diffused.whole {seed : Token} (h : S.Diffused R out) (hseed : S.Sampled R seed)
    (hresolves : S.Resolves R (R.thinkingBudget.apply (R.maskedBlock seed) out) block) :
    S.Diffused R (out ++ block) := by
  have hnext : S.Diffused R (out ++ block.filter fun _ => true) :=
    .block h hseed hresolves (List.prefix_refl block) fun _ _ _ => rfl
  rw [List.filter_true] at hnext
  exact hnext

/-- Block diffusion ends the thinking within its budget. -/
theorem Diffused.closed (h : S.Diffused R out)
    (hset : R.thinkingBudget.setting = some (limit,marker)) (hmask : marker ≠ R.maskId)
    (heos : marker ∉ R.decoder.eosIds) : ClosedBy marker limit out := by
  induction h with
  | nil => exact closedBy_of_length (Nat.zero_le _)
  | @block out block part seed keep _ _ resolves first keeps ih =>
    by_cases hlong : limit < out.length
    · exact ih.append hlong _
    have hkeep := keeps marker hmask heos
    have hlen := resolves.length
    rw [ThinkingBudget.apply_length,R.maskedBlock_length] at hlen
    obtain ⟨hmem,_⟩ | ⟨hmem,happly⟩ | ⟨hshort,_⟩ | ⟨hpast,happly⟩ :=
      ThinkingBudget.apply_cases hset (R.maskedBlock seed) out
    · exact closedBy_of_mem hmem (by omega) _
    · obtain ⟨rfl,hget⟩ := mem_maskedBlock hmem hmask
      rw [← happly] at hget
      exact closedBy_filter first (resolves.kept 0 marker hget hmask) hkeep (by omega)
    · apply closedBy_of_length
      have hpart := first.length_le
      have hfilter := List.length_filter_le keep part
      rw [R.maskedBlock_length] at hshort
      rw [List.length_append]
      omega
    · rw [R.maskedBlock_length] at hpast
      have hget : (R.thinkingBudget.apply (R.maskedBlock seed) out)[limit-out.length]? =
          some marker := by
        rw [happly,List.getElem?_set_self]
        rw [R.maskedBlock_length]
        omega
      exact closedBy_filter first (resolves.kept _ marker hget hmask) hkeep (by omega)

/-- Without a budget, block diffusion publishes nothing but what is drawn. -/
theorem Diffused.sampled (h : S.Diffused R out) (hset : R.thinkingBudget.setting = none) :
    ∀ t ∈ out, S.Sampled R t := by
  induction h with
  | nil => intro t ht; cases ht
  | @block out block part seed keep _ seeded resolves first _ ih =>
    intro t ht
    obtain hold | hnew := List.mem_append.mp ht
    · exact ih t hold
    · rw [ThinkingBudget.apply_disabled hset] at resolves
      obtain hblock | hdraws := resolves.drawn t (first.subset (List.mem_of_mem_filter hnew))
      · intro hne
        obtain ⟨rfl,_⟩ := mem_maskedBlock hblock hne
        exact seeded hne
      · exact fun _ => hdraws

/-- Self-speculation ends the thinking at most a block after its budget. -/
theorem Speculated.closed (h : S.Speculated R out)
    (hset : R.thinkingBudget.setting = some (limit,marker)) (hmask : marker ≠ R.maskId)
    (heos : marker ∉ R.decoder.eosIds) : ClosedBy marker (limit+R.blockLength) out := by
  have hpos := R.blockLength_pos
  induction h with
  | @first tokens part seed keep _ accepts first keeps =>
    have hkeep := keeps marker hmask heos
    have hlen := accepts.length
    have hpart := first.length_le
    have hfilter := List.length_filter_le keep part
    rw [List.length_cons] at hpart
    rw [← List.nil_append (part.filter keep)]
    obtain ⟨_,_,hdue⟩ | ⟨hshort | hmem,_⟩ := ThinkingBudget.due_cases hset [seed]
    · cases htokens : tokens with
      | nil =>
        apply closedBy_of_length
        rw [htokens,List.length_nil] at hpart
        rw [List.nil_append]
        omega
      | cons t ts =>
        have ht : t = marker := accepts.forced marker hdue hmask t (by rw [htokens]; rfl)
        apply closedBy_filter first (k := 1) ?_ hkeep ?_
        · rw [htokens,ht]
          rfl
        · rw [List.length_nil]
          omega
    · apply closedBy_of_length
      rw [List.length_singleton] at hshort
      rw [List.nil_append]
      omega
    · rw [List.mem_singleton] at hmem
      apply closedBy_filter first (k := 0) ?_ hkeep (Nat.zero_le _)
      rw [hmem]
      rfl
  | @turn out tokens part keep _ accepts first keeps ih =>
    by_cases hlong : limit+R.blockLength < out.length
    · exact ih.append hlong _
    have hkeep := keeps marker hmask heos
    have hlen := accepts.length
    obtain ⟨_,_,hdue⟩ | ⟨hshort | hmem,_⟩ := ThinkingBudget.due_cases hset out
    · cases htokens : tokens with
      | nil =>
        rw [htokens,List.prefix_nil] at first
        rw [first,List.filter_nil,List.append_nil]
        exact ih
      | cons t ts =>
        have ht : t = marker := accepts.forced marker hdue hmask t (by rw [htokens]; rfl)
        apply closedBy_filter first (k := 0) ?_ hkeep (by omega)
        rw [htokens,ht]
        rfl
    · apply closedBy_of_length
      have hpart := first.length_le
      have hfilter := List.length_filter_le keep part
      rw [List.length_append]
      omega
    · exact closedBy_of_mem hmem (by omega) _

/-- Without a budget, self-speculation publishes nothing but what is drawn. -/
theorem Speculated.sampled (h : S.Speculated R out) (hset : R.thinkingBudget.setting = none) :
    ∀ t ∈ out, S.Sampled R t := by
  induction h with
  | @first tokens part seed keep seeded accepts first _ =>
    intro t ht
    obtain hseed | htokens := List.mem_cons.mp (first.subset (List.mem_of_mem_filter ht))
    · rw [hseed]
      exact seeded hset
    · exact fun _ => accepts.drawn (ThinkingBudget.due_of_disabled hset _) t htokens
  | @turn out tokens part keep _ accepts first _ ih =>
    intro t ht
    obtain hold | hnew := List.mem_append.mp ht
    · exact ih t hold
    · exact fun _ => accepts.drawn (ThinkingBudget.due_of_disabled hset _) t
        (first.subset (List.mem_of_mem_filter hnew))

end Published

section Dense

variable {stop : Bool} {prefixLength : Nat} {cache : List M.Kv}
  {x y : NemotronRunner.BlockState M × S.Generator}

theorem denoiseSteps_resolves (n : Nat) (block : List Token) (g : S.Generator) :
    S.Resolves R block (S.denoiseSteps R stop prefixLength cache n block g).1 := by
  induction n generalizing block g with
  | zero => exact .refl
  | succ n ih =>
    unfold denoiseSteps
    have hstep := step_resolves S R g (denoise false block prefixLength cache) block
    split
    · dsimp only
      split
      · exact hstep
      · exact hstep.trans (ih _ _)
    · exact .refl

theorem denoiseBlock_resolves {z : List Token × S.Generator}
    (h : S.denoiseBlock R stop block prefixLength cache g = .ok z) :
    S.Resolves R block z.1 := by
  unfold denoiseBlock at h
  dsimp only at h
  split at h
  · cases h
  · injection h with h
    rw [← h]
    exact denoiseSteps_resolves _ _ _

/-- A turn of the dense loop emits a block more. -/
theorem generateBlock_diffused (h : S.generateBlock R stop x = .ok y)
    (hx : S.Diffused R x.1.emitted.flatten ∧ S.Sampled R x.1.seed) :
    S.Diffused R y.1.emitted.flatten ∧ S.Sampled R y.1.seed := by
  obtain ⟨s,g⟩ := x
  obtain ⟨block,seed,hseed,hresolves,hemitted,hnew⟩ : ∃ block seed, S.Sampled R seed ∧
      S.Resolves R (R.thinkingBudget.apply (R.maskedBlock s.seed) s.emitted.flatten) block ∧
      y.1.emitted = s.emitted ++ [block] ∧ y.1.seed = seed := by
    unfold generateBlock at h
    dsimp only at h
    split at h
    · injection h with h
      exact ⟨_,_,seedFrom_sampled S R _ _,.refl,by rw [← h],by rw [← h]⟩
    · obtain ⟨z,hz,h⟩ := bind_eq_ok h
      injection h with h
      exact ⟨_,_,seedFrom_sampled S R _ _,denoiseBlock_resolves hz,by rw [← h],by rw [← h]⟩
  rw [hemitted,hnew,List.flatten_append,List.flatten_singleton]
  exact ⟨hx.1.whole hx.2 hresolves,hseed⟩

theorem cutAtEos_isPrefix {generated out : List Token}
    (h : R.cutAtEos stop generated = .ok out) : out <+: generated := by
  unfold NemotronRunner.cutAtEos at h
  split at h
  · obtain ⟨cut,_,h⟩ := bind_eq_ok h
    injection h with h
    rw [← h]
    exact List.take_prefix _ _
  · injection h with h
    subst h
    exact List.prefix_refl _

/-- What the dense runner returns is the beginning of what block diffusion publishes. -/
theorem diffusionGenerateOne_diffused {fuel generationLength : Nat} {prompt out : List Token}
    (h : S.diffusionGenerateOne R fuel stop prompt generationLength g = some (.ok out)) :
    ∃ whole, S.Diffused R whole ∧ out <+: whole := by
  unfold diffusionGenerateOne at h
  split at h
  · injection h with h
    injection h with h
    rw [← h]
    exact ⟨[],.nil,List.prefix_refl _⟩
  · split at h
    · cases h
    · next x hx =>
      obtain ⟨r,hr,h⟩ := Option.bind_eq_some_iff.mp h
      injection h with h
      obtain ⟨y,rfl,hcut⟩ := bind_eq_ok h
      have hstart : S.Diffused R x.1.emitted.flatten ∧ S.Sampled R x.1.seed := by
        unfold startBlocks at hx
        obtain ⟨_,_,hx⟩ := bind_eq_ok hx
        obtain ⟨_,_,hx⟩ := bind_eq_ok hx
        injection hx with hx
        rw [← hx]
        exact ⟨.nil,seedFrom_sampled S R _ _⟩
      obtain ⟨n,_,hn⟩ := halts_of_tryLoop hr
      have hy := hn.visited.1.invariant (P := fun y : NemotronRunner.BlockState M × S.Generator =>
        S.Diffused R y.1.emitted.flatten ∧ S.Sampled R y.1.seed) hstart
        fun _ _ hy _ hturn => generateBlock_diffused hturn hy
      exact ⟨_,hy.1,(cutAtEos_isPrefix hcut).trans (List.take_prefix _ _)⟩

end Dense

section SelfSpec

open NemotronRunner

variable {stop : Bool} {prefixLength generationLength forced : Nat} {cache : List M.Kv}
  {due : Option Token} {verified : List Token} {x y : SpecState M × S.Generator}

theorem matching_length_le (verified guesses : List Token) :
    (matching verified guesses).length ≤ guesses.length+1 := by
  induction verified generalizing guesses with
  | nil => exact Nat.zero_le _
  | cons v verified ih =>
    cases guesses with
    | nil => exact Nat.le_refl 1
    | cons g guesses =>
      unfold matching
      split
      · exact Nat.succ_le_succ (ih guesses)
      · exact Nat.le_add_left 1 _

/-- A block that is being drafted, with so many forced positions. -/
def Drafts (S : NemotronSampling M) (R : NemotronRunner M) (due : Option Token) (block : List Token)
    (forced : Nat) : Prop :=
  ∃ seed entered, R.speculativeBlock seed due = .ok (entered,forced) ∧ S.Resolves R entered block

theorem Drafts.trans (h : S.Drafts R due block forced) (h' : S.Resolves R block block') :
    S.Drafts R due block' forced := by
  obtain ⟨seed,entered,hentered,hresolves⟩ := h
  exact ⟨seed,entered,hentered,hresolves.trans h'⟩

/-- The tokens that a verification accepts of a drafted block. -/
theorem Drafts.accepts (h : S.Drafts R due block forced) (hverified : ∀ t ∈ verified, S.Draws t) :
    S.Accepts R due (acceptedTokens verified block forced) := by
  obtain ⟨seed,entered,hentered,hresolves⟩ := h
  have hpos := R.blockLength_pos
  have hmatching := matching_length_le (verified.drop forced) (block.drop (forced+1))
  have hsubset := matching_subset (verified.drop forced) (block.drop (forced+1))
  have hlen := hresolves.length.trans (R.speculativeBlock_spec hentered).1
  rw [List.length_drop] at hmatching
  unfold speculativeBlock at hentered
  unfold acceptedTokens
  cases due with
  | none =>
    cases hentered
    refine ⟨?_,fun t ht => ?_,fun _ t ht => ?_⟩
    · rw [List.take_zero,List.nil_append]
      omega
    · cases ht
    · rw [List.take_zero,List.nil_append] at ht
      exact hverified t (List.drop_subset _ _ (hsubset t ht))
  | some marker =>
    dsimp only at hentered
    split at hentered
    · next hlong =>
      cases hentered
      refine ⟨?_,fun t ht hne u hu => ?_,fun ht => ?_⟩
      · rw [List.length_append,List.length_take,List.length_drop]
        omega
      · injection ht with ht
        rw [← ht] at hne ⊢
        have hmarker : block[1]? = some marker := by
          apply hresolves.kept 1 marker ?_ hne
          rw [List.getElem?_set_self]
          rw [R.maskedBlock_length]
          exact hlong
        rw [List.getElem?_append_left (by rw [List.length_take,List.length_drop]; omega),
          List.getElem?_take_of_lt Nat.one_pos,List.getElem?_drop,hmarker] at hu
        exact (Option.some.inj hu).symm
      · cases ht
    · cases hentered

theorem draftSteps_resolves (n : Nat) (block : List Token) (g : S.Generator) :
    S.Resolves R block (S.draftSteps R prefixLength cache n block g).1 := by
  induction n generalizing block g with
  | zero => exact .refl
  | succ n ih =>
    unfold draftSteps
    split
    · exact (draftStep_resolves S R g _ block).trans (ih _ _)
    · exact .refl

theorem draftBlock_resolves {z : List Token × S.Generator}
    (h : S.draftBlock R block prefixLength cache g = .ok z) : S.Resolves R block z.1 := by
  unfold draftBlock at h
  dsimp only at h
  split at h
  · cases h
  · injection h with h
    rw [← h]
    exact draftSteps_resolves _ _ _

theorem emit_isPrefix (R : NemotronRunner M) (stop : Bool) (tokens : List Token) :
    (R.emit stop tokens).1 <+: tokens := by
  rw [R.emit_eq]
  exact upTo_isPrefix _ _

theorem Speculated.nil : S.Speculated R [] := by
  have hfirst : S.Speculated R ([].filter fun _ => true) :=
    .first (fun _ (hne : R.maskId ≠ R.maskId) => absurd rfl hne) .nil List.nil_prefix
      fun _ _ _ => rfl
  exact hfirst

theorem Speculated.seed {seed : Token} (h : S.Sampled R seed) : S.Speculated R [seed] := by
  have hfirst : S.Speculated R ([seed].filter fun _ => true) :=
    .first (fun _ => h) .nil (List.prefix_refl [seed]) fun _ _ _ => rfl
  rw [List.filter_true] at hfirst
  exact hfirst

theorem Speculated.emit {out tokens : List Token} (h : S.Speculated R out)
    (haccepts : S.Accepts R (R.thinkingBudget.due out) tokens) :
    S.Speculated R (out ++ (R.emit stop tokens).1) := by
  have hnext : S.Speculated R (out ++ (R.emit stop tokens).1.filter fun _ => true) :=
    .turn h haccepts (emit_isPrefix R stop tokens) fun _ _ _ => rfl
  rw [List.filter_true] at hnext
  exact hnext

/-- Where the dense loop tests its condition, its marker is what is due after what it emitted. -/
def Speculates (S : NemotronSampling M) (R : NemotronRunner M) (generationLength : Nat)
    (x : SpecState M × S.Generator) : Prop :=
  S.Speculated R x.1.emitted ∧
    (specRemains generationLength x.1 = true → x.1.marker = R.thinkingBudget.due x.1.emitted)

/-- A turn of the dense loop emits what its verification accepts, up to an end of sequence. -/
theorem speculate_speculates (h : S.speculate R stop generationLength x = .ok y)
    (hx : S.Speculates R generationLength x) (go : specRemains generationLength x.1 = true) :
    S.Speculates R generationLength y := by
  obtain ⟨s,g⟩ := x
  unfold speculate at h
  obtain ⟨⟨entered,forced⟩,hentered,h⟩ := bind_eq_ok h
  obtain ⟨⟨drafted,g'⟩,hdrafted,h⟩ := bind_eq_ok h
  injection h with h
  have hdrafts : S.Drafts R s.marker drafted forced :=
    ⟨s.nextToken,entered,hentered,draftBlock_resolves hdrafted⟩
  rw [hx.2 go] at hdrafts
  rw [← h]
  constructor
  · exact hx.1.emit (hdrafts.accepts categorical_draws)
  · intro hgo
    have hshort := (specRemains_eq_true.mp hgo).1
    dsimp only at hshort ⊢
    rw [if_neg (by omega)]

/-- What the dense runner returns is the beginning of what self-speculation publishes. -/
theorem specGenerateOne_speculated {fuel : Nat} {prompt out : List Token}
    (h : S.specGenerateOne R fuel stop prompt generationLength g = some (.ok out)) :
    ∃ whole, S.Speculated R whole ∧ out <+: whole := by
  unfold specGenerateOne at h
  split at h
  · injection h with h
    injection h with h
    rw [← h]
    exact ⟨[],.nil,List.nil_prefix⟩
  · split at h
    · cases h
    · next x hx =>
      obtain ⟨r,hr,h⟩ := Option.bind_eq_some_iff.mp h
      injection h with h
      obtain ⟨y,rfl,hcut⟩ := bind_eq_ok h
      have hstart : S.Speculates R generationLength x := by
        unfold startSpec at hx
        obtain ⟨_,_,hx⟩ := bind_eq_ok hx
        obtain ⟨_,_,hx⟩ := bind_eq_ok hx
        injection hx with hx
        rw [← hx]
        exact ⟨.seed (seedFrom_sampled S R _ _),fun _ => rfl⟩
      obtain ⟨n,_,hn⟩ := halts_of_tryLoop hr
      have hy := hn.visited.1.invariant hstart fun _ _ hy hgo hturn =>
        speculate_speculates hturn hy hgo
      exact ⟨_,hy.1,(cutAtEos_isPrefix hcut).trans (List.take_prefix _ _)⟩

end SelfSpec

end NemotronSampling

end FluxServe.Engine
