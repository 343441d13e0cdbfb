import FluxServe.Framework.Autoregression
import FluxServe.Nemotron.Dense

namespace FluxServe.Engine

namespace NemotronModel

variable (M : NemotronModel)

/-- The KV that a causal forward gives the tokens of a sequence. -/
def causalKv (ts : List Token) : List M.Kv := (M.forward false true [] ts).map Prod.fst

/-- A causal forward gives a token its KV and logits from the tokens up to it: over the KV of what
comes before, it continues the forward of the whole. -/
def Causal : Prop :=
  ∀ ts tokens, M.forward false true [] (ts ++ tokens) =
    M.forward false true [] ts ++ M.forward false true (M.causalKv ts) tokens

@[simp] theorem causalKv_length (ts : List Token) : (M.causalKv ts).length = ts.length := by
  simp [causalKv,M.forward_length]

variable {M}

theorem causalKv_append (hm : M.Causal) (ts tokens : List Token) :
    M.causalKv (ts ++ tokens) =
      M.causalKv ts ++ (M.forward false true (M.causalKv ts) tokens).map Prod.fst := by
  unfold causalKv
  rw [hm,List.map_append]
  rfl

theorem forward_append (hm : M.Causal) (ts a b : List Token) :
    M.forward false true (M.causalKv ts) (a ++ b) =
      M.forward false true (M.causalKv ts) a ++ M.forward false true (M.causalKv (ts ++ a)) b := by
  have h := hm ts (a ++ b)
  rw [← List.append_assoc,hm,hm,List.append_assoc] at h
  exact (List.append_cancel_left h).symm

theorem causalKv_take (hm : M.Causal) (ts : List Token) (n : Nat) :
    (M.causalKv ts).take n = M.causalKv (ts.take n) := by
  conv_lhs => rw [← List.take_append_drop n ts,causalKv_append hm]
  by_cases h : n ≤ ts.length
  · rw [List.take_append_of_le_length (by simp [h]),List.take_of_length_le (by simp)]
  · rw [List.take_of_length_le (by simp [M.forward_length]; omega),
      List.drop_eq_nil_of_le (by omega)]
    have hnil : M.forward false true (M.causalKv (ts.take n)) [] = [] :=
      List.eq_nil_of_length_eq_zero (M.forward_length ..)
    simp [hnil]

end NemotronModel

namespace NemotronRunner

variable {M : NemotronModel} (R : NemotronRunner M)

/-- The greedy next token of a sequence. -/
def next (ts : List Token) : Token := R.seedFrom ((M.forward false true [] ts).map Prod.snd)

theorem seedFrom_append (before after : List M.Logits) (h : after ≠ []) :
    R.seedFrom (before ++ after) = R.seedFrom after := by
  unfold seedFrom sampleTokens
  rw [List.map_append]
  obtain ⟨xs,x,rfl⟩ := List.eq_nil_or_concat after |>.resolve_left h
  simp

theorem next_append (hm : M.Causal) (ts : List Token) {tokens : List Token} (h : tokens ≠ []) :
    R.seedFrom ((M.forward false true (M.causalKv ts) tokens).map Prod.snd) =
      R.next (ts ++ tokens) := by
  unfold next
  rw [hm,List.map_append,R.seedFrom_append]
  intro hnil
  have hlen := M.forward_length false true (M.causalKv ts) tokens
  rw [List.map_eq_nil_iff.mp hnil] at hlen
  exact h (List.eq_nil_of_length_eq_zero hlen.symm)

theorem checkContext_bind_eq_ok {α : Type} {n : Nat} {x : Except NemotronFault α} {a : α} :
    (R.checkContext n >>= fun _ => x) = .ok a ↔ n ≤ R.positionLimit ∧ x = .ok a := by
  unfold checkContext
  split
  · rename_i h
    exact ⟨fun hx => ⟨h,hx⟩,fun hx => hx.2⟩
  · rename_i h
    exact ⟨fun hx => (nomatch hx),fun hx => absurd hx.1 h⟩

section Commit

variable {cache values : List M.Kv} {start : Nat}

theorem commitKv_take (h : start ≤ cache.length) (k : Nat) (hk : k ≤ values.length) :
    (commitKv cache values start).take (start+k) = cache.take start ++ values.take k := by
  have hlen : (cache.take start).length = start := by simp [h]
  unfold commitKv
  rw [List.append_assoc,List.take_append,List.take_of_length_le (by omega),hlen,
    Nat.add_sub_cancel_left,List.take_append_of_le_length hk]

theorem commitKv_length (h : start ≤ cache.length) :
    (commitKv cache values start).length = max cache.length (start+values.length) := by
  simp only [commitKv,List.length_append,List.length_take,List.length_drop]
  omega

variable {adapter causal : Bool} {tokens : List Token} {cache' : List M.Kv}

/-- A forward reads no more of the cache than its prefix. -/
theorem commit_congr (h : cache.take start = cache'.take start) :
    (commit adapter causal tokens start cache).1 = (commit adapter causal tokens start cache').1 := by
  simp only [commit,h]

theorem commit_take_congr (h : cache.take start = cache'.take start) (hle : start ≤ cache.length)
    (hle' : start ≤ cache'.length) {k : Nat} (hk : k ≤ tokens.length) :
    (commit adapter causal tokens start cache).2.take (start+k) =
      (commit adapter causal tokens start cache').2.take (start+k) := by
  simp only [commit,h]
  rw [commitKv_take hle _ (by simp [M.forward_length,hk]),
    commitKv_take hle' _ (by simp [M.forward_length,hk]),h]

@[simp] theorem commit_logits_length :
    (commit adapter causal tokens start cache).1.length = tokens.length := by
  simp [commit,M.forward_length]

theorem commit_length (h : start ≤ cache.length) :
    (commit adapter causal tokens start cache).2.length = max cache.length (start+tokens.length) := by
  simp [commit,commitKv_length h,M.forward_length]

/-- The slots before a write stay. -/
theorem commit_take_before (h : start ≤ cache.length) :
    (commit adapter causal tokens start cache).2.take start = cache.take start := by
  simpa [commit] using commitKv_take h 0 (Nat.zero_le
    ((M.forward adapter causal (cache.take start) tokens).map Prod.fst).length)

/-- What a commit after a causal prefix leaves is causal up to any of its tokens. -/
theorem commit_take (hm : M.Causal) {ts : List Token} (h : cache.take ts.length = M.causalKv ts)
    {k : Nat} (hk : k ≤ tokens.length) :
    (commit false true tokens ts.length cache).2.take (ts.length+k) =
      M.causalKv (ts ++ tokens.take k) := by
  have hle : ts.length ≤ cache.length := by
    have := congrArg List.length h
    simp at this
    omega
  have hkv : (commit false true tokens ts.length cache).2.take (ts.length+k) =
      M.causalKv ts ++ ((M.forward false true (M.causalKv ts) tokens).map Prod.fst).take k := by
    simp only [commit]
    rw [commitKv_take hle k (by simp [M.forward_length,hk]),h]
  have hcut := NemotronModel.causalKv_take hm (ts ++ tokens) (ts.length+k)
  have hlen : ts.length+k = (M.causalKv ts).length+k := by simp
  rw [List.take_length_add_append,NemotronModel.causalKv_append hm,hlen,
    List.take_length_add_append] at hcut
  rw [hkv,hcut]

/-- The tokens verified over a causal prefix are the greedy continuations of it and the block. -/
theorem commit_verified (hm : M.Causal) {ts : List Token} (h : cache.take ts.length = M.causalKv ts)
    {i : Nat} (hi : i < tokens.length) :
    (sampleTokens (commit false true tokens ts.length cache).1)[i]? =
      some (R.next (ts ++ tokens.take (i+1))) := by
  have hne : tokens.take (i+1) ≠ [] := by
    intro hnil
    have hlen := congrArg List.length hnil
    rw [List.length_take,List.length_nil] at hlen
    omega
  have hlen : (M.forward false true (M.causalKv ts) (tokens.take (i+1))).length = i+1 := by
    rw [M.forward_length,List.length_take]
    omega
  have hlast := R.next_append hm ts hne
  rw [← hlast]
  have hsplit := NemotronModel.forward_append hm ts (tokens.take (i+1)) (tokens.drop (i+1))
  rw [List.take_append_drop] at hsplit
  simp only [commit,h,hsplit,sampleTokens,seedFrom,List.map_append]
  rw [List.getElem?_append_left (by simp [hlen]),List.getLastD_eq_getLast?,
    List.getLast?_eq_getElem?]
  simp [hlen]

end Commit

section Prefill

variable {prompt : List Token} {cache : List M.Kv}

/-- The prefill after some of its chunks. -/
structure Prefilled (prompt : List Token) (cache : List M.Kv) (n : Nat)
    (done : List M.Logits × List M.Kv) : Prop where
  causal : done.2.take (min prompt.length n) = M.causalKv (prompt.take n)
  length : done.2.length = max cache.length (min prompt.length n)
  seed : 0 < n → R.seedFrom done.1 = R.next (prompt.take n)

theorem prefillChunk_prefilled (hm : M.Causal) {n : Nat} {done : List M.Logits × List M.Kv}
    (h : R.Prefilled prompt cache n done) (hn : n < prompt.length) :
    R.Prefilled prompt cache (n+R.prefillChunkSize) (R.prefillChunk prompt done n) := by
  have hts : (prompt.take n).length = n := by simp; omega
  have hmin : min prompt.length n = n := by omega
  have hcausal : done.2.take (prompt.take n).length = M.causalKv (prompt.take n) := by
    rw [hts,← h.causal,hmin]
  have hchunk : prompt.take n ++ (prompt.drop n).take R.prefillChunkSize =
      prompt.take (n+R.prefillChunkSize) := List.take_add.symm
  have hsize : n+((prompt.drop n).take R.prefillChunkSize).length =
      min prompt.length (n+R.prefillChunkSize) := by
    rw [List.length_take,List.length_drop]
    omega
  have hle : n ≤ done.2.length := by
    rw [h.length]
    omega
  have hne : (prompt.drop n).take R.prefillChunkSize ≠ [] := by
    have hpos := R.prefillChunkSize_pos
    intro hnil
    have hlen := congrArg List.length hnil
    rw [List.length_take,List.length_drop,List.length_nil] at hlen
    omega
  refine ⟨?_,?_,fun _ => ?_⟩
  · have htake := commit_take hm hcausal
      (Nat.le_refl ((prompt.drop n).take R.prefillChunkSize).length)
    rw [hts,List.take_length,hchunk,hsize] at htake
    exact htake
  · unfold prefillChunk
    rw [commit_length hle,hsize,h.length]
    omega
  · rw [hts] at hcausal
    unfold prefillChunk commit
    rw [hcausal,← hchunk]
    exact R.next_append hm _ hne

theorem prefill_prefilled (hm : M.Causal) (prompt : List Token) (cache : List M.Kv) {n : Nat}
    (hn : n ≤ (prompt.length+R.prefillChunkSize-1)/R.prefillChunkSize) :
    R.Prefilled prompt cache (n*R.prefillChunkSize)
      (((List.range n).map (· * R.prefillChunkSize)).foldl (R.prefillChunk prompt) ([],cache)) := by
  induction n with
  | zero =>
    refine ⟨?_,by simp,fun h => by simp at h⟩
    have hnil : M.causalKv [] = [] := List.eq_nil_of_length_eq_zero (by simp)
    simp [hnil]
  | succ n ih =>
    have hlt : n*R.prefillChunkSize < prompt.length := by
      have h := (Nat.le_div_iff_mul_le R.prefillChunkSize_pos).mp hn
      have hpos := R.prefillChunkSize_pos
      rw [Nat.add_mul] at h
      omega
    rw [List.range_succ,List.map_append,List.foldl_append,Nat.add_mul,Nat.one_mul]
    exact R.prefillChunk_prefilled hm (ih (by omega)) hlt

/-- The prefill leaves the causal KV of the prompt and predicts the token after it. -/
theorem prefill_spec (hm : M.Causal) (hp : prompt ≠ []) (cache : List M.Kv) :
    ∃ logits cache', R.prefill prompt cache = .ok (logits,cache') ∧
      R.seedFrom logits = R.next prompt ∧ cache'.take prompt.length = M.causalKv prompt ∧
      cache'.length = max cache.length prompt.length := by
  have hcover : prompt.length ≤
      (prompt.length+R.prefillChunkSize-1)/R.prefillChunkSize*R.prefillChunkSize := by
    have h := Nat.lt_div_mul_add R.prefillChunkSize_pos (a := prompt.length+R.prefillChunkSize-1)
    omega
  have hlen : 0 < prompt.length := List.length_pos_of_ne_nil hp
  have h := R.prefill_prefilled hm prompt cache (Nat.le_refl _)
  have hrun : R.prefill prompt cache =
      .ok ((R.chunkStarts prompt.length).foldl (R.prefillChunk prompt) ([],cache)) := by
    unfold prefill
    rw [if_neg (by simp [hp])]
    rfl
  refine ⟨_,_,hrun,?_,?_,?_⟩
  · rw [chunkStarts,h.seed (by omega),List.take_of_length_le hcover]
  · have hcausal := h.causal
    rw [Nat.min_eq_left hcover,List.take_of_length_le hcover] at hcausal
    exact hcausal
  · have hlength := h.length
    rw [Nat.min_eq_left hcover] at hlength
    exact hlength

/-- Two prefills of one prompt after some of its chunks. -/
structure Alike (n : Nat) (done done' : List M.Logits × List M.Kv) : Prop where
  logits : done.1 = done'.1
  cache : done.2.take n = done'.2.take n
  long : n ≤ done.2.length
  long' : n ≤ done'.2.length

theorem prefillChunk_alike {n : Nat} {done done' : List M.Logits × List M.Kv}
    (h : Alike n done done') (hn : n < prompt.length) :
    Alike (min prompt.length (n+R.prefillChunkSize)) (R.prefillChunk prompt done n)
      (R.prefillChunk prompt done' n) := by
  have hsize : min prompt.length (n+R.prefillChunkSize) =
      n+((prompt.drop n).take R.prefillChunkSize).length := by
    rw [List.length_take,List.length_drop]
    omega
  rw [hsize]
  unfold prefillChunk
  refine ⟨commit_congr h.cache,commit_take_congr h.cache h.long h.long' (Nat.le_refl _),?_,?_⟩
  · rw [commit_length h.long]
    exact Nat.le_max_right _ _
  · rw [commit_length h.long']
    exact Nat.le_max_right _ _

theorem prefill_alike (prompt : List Token) (cache cache' : List M.Kv) {n : Nat}
    (hn : n ≤ (prompt.length+R.prefillChunkSize-1)/R.prefillChunkSize) :
    Alike (min prompt.length (n*R.prefillChunkSize))
      (((List.range n).map (· * R.prefillChunkSize)).foldl (R.prefillChunk prompt) ([],cache))
      (((List.range n).map (· * R.prefillChunkSize)).foldl (R.prefillChunk prompt) ([],cache')) := by
  induction n with
  | zero =>
    have hzero : min prompt.length (0*R.prefillChunkSize) = 0 := by simp
    rw [hzero]
    exact ⟨rfl,rfl,Nat.zero_le _,Nat.zero_le _⟩
  | succ n ih =>
    have hlt : n*R.prefillChunkSize < prompt.length := by
      have h := (Nat.le_div_iff_mul_le R.prefillChunkSize_pos).mp hn
      have hpos := R.prefillChunkSize_pos
      rw [Nat.add_mul] at h
      omega
    have halike := ih (by omega)
    rw [Nat.min_eq_right hlt.le] at halike
    rw [List.range_succ,List.map_append,List.foldl_append,List.foldl_append,Nat.add_mul,Nat.one_mul]
    exact R.prefillChunk_alike halike hlt

/-- A prefill gives the same logits and prefix whatever the cache held. -/
theorem prefill_congr (hp : prompt ≠ []) (cache cache' : List M.Kv) :
    ∃ logits filled filled', R.prefill prompt cache = .ok (logits,filled) ∧
      R.prefill prompt cache' = .ok (logits,filled') ∧
      filled.take prompt.length = filled'.take prompt.length ∧
      prompt.length ≤ filled.length ∧ prompt.length ≤ filled'.length := by
  have hcover : prompt.length ≤
      (prompt.length+R.prefillChunkSize-1)/R.prefillChunkSize*R.prefillChunkSize := by
    have h := Nat.lt_div_mul_add R.prefillChunkSize_pos (a := prompt.length+R.prefillChunkSize-1)
    omega
  have hrun (cache : List M.Kv) : R.prefill prompt cache =
      .ok ((R.chunkStarts prompt.length).foldl (R.prefillChunk prompt) ([],cache)) := by
    unfold prefill
    rw [if_neg (by simp [hp])]
    rfl
  have h := R.prefill_alike prompt cache cache' (Nat.le_refl _)
  rw [Nat.min_eq_left hcover] at h
  refine ⟨_,_,_,hrun cache,?_,h.cache,h.long,h.long'⟩
  rw [hrun cache']
  exact congrArg (fun l => Except.ok (l,_)) h.logits.symm

end Prefill

end NemotronRunner

end FluxServe.Engine
