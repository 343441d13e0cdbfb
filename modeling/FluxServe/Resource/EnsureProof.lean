import FluxServe.Resource.Covers

namespace FluxServe

open KVPrefixCache

variable {t u : ResourceType} {i j d : NodeId} {n : TreeNode} {kv kv' kv'' : KVPrefixCache}
  {T : List Token} {m : MatchResult} {terminal : NodeId}
  {refs : ResourceType → Multiset NodeId} {owned : ResourceType → Multiset PageId}

/-- A match that goes as deep as its tokens are covered. -/
def Deepest (T : List Token) (kv : KVPrefixCache) (m : MatchResult) : Prop :=
  ∀ t P, P <+: T → kv.pageSize ∣ P.length → Covers t kv.tree P →
    P.length ≤ nodeDepth kv.tree (m.last t)

/-- `Match` finds all that is covered, unless the prefix cache is off. -/
theorem matchTokens_deepest (hinv : KVInv kv refs owned) (hdvd : kv.pageSize ∣ T.length)
    (intent : MatchIntent) :
    Returns (matchTokens T intent) kv (fun m kv' => KVInv kv' refs owned ∧ Change refs [] kv kv' ∧
      Ages kv kv' ∧ kv'.capacity .device = kv.capacity .device ∧
      (∃ terminal, Matched T kv'.tree m terminal) ∧
      ((kv.disablePrefixCache = true ∧ intent = .prefixReuse) ∧ m = ⟨0,0⟩ ∨
        ¬(kv.disablePrefixCache = true ∧ intent = .prefixReuse) ∧ Deepest T kv' m) ∧
      ∀ t P, Covers t kv'.tree P ↔ Covers t kv.tree P) := by
  refine (matchTokens_returns hinv hdvd intent).runs fun m kv' ⟨hk,⟨o,hg⟩,hm⟩ => ?_
  have hiff := hg.covers_iff hinv.inv.tree hinv.inv.sized (hg.pageSize ▸ hk.inv.tree)
  refine ⟨hk,Change.of_grows hg fun t r hr => hinv.live hr,Ages.of_grows hg hinv hk,
    hg.capacity_eq .device,?_⟩
  rcases hm with ⟨hoff,rfl⟩ | ⟨hon,kv₁,w,_,hw,rfl⟩
  · exact ⟨⟨0,matched_root hk.inv.tree T⟩,Or.inl ⟨hoff,rfl⟩,hiff⟩
  · exact ⟨⟨w.terminal,hw.matched⟩,Or.inr ⟨hon,fun t P hP hd hc => hw.covers_le hP hd hc⟩,hiff⟩

/-- A last node as deep as the tokens stands for all of them. -/
theorem Matched.pathTokens_eq (hm : Matched T kv.tree m terminal) (hT : TreeOK kv.pageSize kv.tree)
    (hdepth : T.length ≤ nodeDepth kv.tree (m.last t)) : pathTokens kv.tree (m.last t) = T := by
  obtain ⟨n,hn⟩ := (hm.stop t).live
  refine (hm.last_tokens hT t).eq_of_length_le ?_
  rw [hT.pathTokens_length hn]
  rwa [nodeDepth_of_read hn] at hdepth

/-- A match of what the device covers goes all the way. -/
theorem matchCovered_returns (hinv : KVInv kv refs owned) (hdvd : kv.pageSize ∣ T.length)
    (hcov : Covers .device kv.tree T) :
    Returns (matchTokens T .stateRecovery) kv (fun m kv' => KVInv kv' refs owned ∧
      Change refs [] kv kv' ∧ (∃ terminal, Matched T kv'.tree m terminal) ∧
      pathTokens kv'.tree m.device = T) := by
  refine (matchTokens_returns hinv hdvd .stateRecovery).runs fun m kv' ⟨hk,⟨o,hg⟩,hm⟩ => ?_
  refine ⟨hk,Change.of_grows hg fun t r hr => hinv.live hr,?_⟩
  rcases hm with ⟨⟨_,hoff⟩,_⟩ | ⟨_,kv₁,w,_,hw,rfl⟩
  · cases hoff
  refine ⟨⟨w.terminal,hw.matched⟩,hw.matched.pathTokens_eq (t := .device) hk.inv.tree ?_⟩
  have hcov' : Covers .device kv'.tree T :=
    (hg.covers_iff hinv.inv.tree hinv.inv.sized (hg.pageSize ▸ hk.inv.tree) .device T).mpr hcov
  exact hw.covers_le (List.prefix_refl T) (hg.pageSize.symm ▸ hdvd) hcov'

/-- What making room for `num` pages on tier `t` leaves of a match. -/
structure Ensured (t : ResourceType) (refs : ResourceType → Multiset NodeId)
    (owned : ResourceType → Multiset PageId) (T : List Token) (m : MatchResult) (num : Int)
    (kv : KVPrefixCache) (ensured : Bool) (kv' : KVPrefixCache) : Prop where
  kvInv : KVInv kv' refs owned
  change : Change refs [] kv kv'
  matched : ∃ x, Matched T kv'.tree m x
  missing : missing t kv'.tree m = missing t kv.tree m
  depth : ∀ u, nodeDepth kv'.tree (m.last u) = nodeDepth kv.tree (m.last u)
  available : ensured = true ↔ num ≤ kv'.availablePages t
  ages : t = .device → Ages kv kv'

theorem ensureMatched_returns (hinv : KVInv kv refs owned) (hm : Matched T kv.tree m terminal)
    (hd : m.last t ∈ refs t) (num : Int) :
    Returns (ensureCapacityByEvict t num) kv (fun ensured kv' =>
      Ensured t refs owned T m num kv ensured kv' ∧ Shrinks t kv kv' ∧
        kv'.capacity t = kv.capacity t ∧ (ensured = true ↔ num ≤ kv.capacity t)) := by
  refine (ensureCapacityByEvict_returns num hinv).runs
    fun ensured kv₁ ⟨hk,he,hs,hcap,hens,hav⟩ => ?_
  obtain ⟨hm₁,hmiss,hdepth⟩ := hm.shrinks hinv.inv.tree hs he.pageSize hk hd he.tokens
  refine ⟨⟨hk,Change.of_shrinks he hs hinv hk,⟨_,hm₁⟩,hmiss,hdepth,hav,?_⟩,hs,hcap,hens⟩
  rintro rfl
  exact Ages.of_shrinks hs he

theorem Ensured.calm {ensured : Bool} {num : Int} (h : Ensured t refs owned T m num kv ensured kv')
    (hc : Calm kv' kv'') {refs' : ResourceType → Multiset NodeId} (hr : ∀ t, refs' t ≤ refs t)
    (hk : KVInv kv'' refs' owned) : Ensured t refs' owned T m num kv ensured kv'' := by
  obtain ⟨x,hx⟩ := h.matched
  refine ⟨hk,(h.change.mono hr).calm_right hc,⟨x,hx.congr hc.agree⟩,?_,fun u => ?_,?_,
    fun ht => (h.ages ht).trans (Ages.of_calm hc)⟩
  · rw [missing_congr hc.agree,h.missing]
  · rw [(hc.agree u).nodeDepth_eq,h.depth]
  · unfold availablePages
    rw [hc.allocator]
    exact h.available

/-- The room is made while the match's node of the tier is locked. -/
theorem lockedEnsure_runs {α : Type} {f : Bool → KV α} {Q : α → KVPrefixCache → Prop}
    {E : Fault → KVPrefixCache → Prop} (hinv : KVInv kv refs owned)
    (hm : Matched T kv.tree m terminal) (num : Int)
    (hf : ∀ ensured kv' kvl, Ensured t refs owned T m num kv ensured kv' →
      KVInv kvl (pin t (m.last t) refs) owned → Calm kv kvl →
      (ensured = true ↔ num ≤ kvl.capacity t) → Runs (f ensured) kv' Q E) :
    Runs (do
      lock t (m.last t)
      let ensured ← ensureCapacityByEvict t num
      unlock t (m.last t)
      f ensured) kv Q E := by
  obtain ⟨n,hn⟩ := (hm.stop t).live
  refine (lock_returns hinv hn (hm.path hinv.inv.tree t)).bind fun _ kv₁ ⟨hk₁,hc₁,_⟩ => ?_
  refine (ensureMatched_returns hk₁ (hm.congr hc₁.agree) (by simp) num).bind
    fun ensured kv₂ ⟨h₂,_,_,hens⟩ => ?_
  refine (unlock_returns h₂.kvInv).bind fun _ kv₃ ⟨hk₃,hc₃⟩ => ?_
  refine hf ensured kv₃ kv₁ ?_ hk₁ hc₁ hens
  have h₃ := h₂.calm hc₃ (le_pin _ _ _) hk₃
  refine ⟨hk₃,(Change.of_calm hc₁ refs).trans h₃.change,h₃.matched,?_,fun u => ?_,h₃.available,
    fun ht => (Ages.of_calm hc₁).trans (h₃.ages ht)⟩
  · rw [h₃.missing,missing_congr hc₁.agree]
  · rw [h₃.depth,(hc₁.agree u).nodeDepth_eq]

end FluxServe
