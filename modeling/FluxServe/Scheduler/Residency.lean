import FluxServe.Scheduler.Conservation

namespace FluxServe

open KVPrefixCache

section Matched

variable {t : ResourceType} {T : List Token} {m : MatchResult} {ps : Nat} {tree : Heap TreeNode}
  {terminal : NodeId}

theorem filter_eq_takeWhile {α : Type} {p : α → Bool} {l : List α} (hnd : l.Nodup)
    (h : ∀ x ∈ l, p x = true → x ∈ l.takeWhile p) : l.filter p = l.takeWhile p := by
  have happ := List.takeWhile_append_dropWhile (p := p) (l := l)
  have hdisj := (List.nodup_append.mp (happ.symm ▸ hnd : (l.takeWhile p ++ l.dropWhile p).Nodup)).2.2
  have hdrop : (l.dropWhile p).filter p = [] := by
    refine List.filter_eq_nil_iff.mpr fun x hx hpx => ?_
    exact hdisj x (h x (List.dropWhile_subset _ hx) hpx) x hx rfl
  have htake : (l.takeWhile p).filter p = l.takeWhile p :=
    List.filter_eq_self.mpr fun x hx => List.mem_takeWhile_imp hx
  calc l.filter p = (l.takeWhile p ++ l.dropWhile p).filter p := by rw [happ]
    _ = l.takeWhile p := by rw [List.filter_append,htake,hdrop,List.append_nil]

/-- The nodes of the deeper path that lack a tier are those `NodesWithout` goes through. -/
theorem missing_eq_filter (h : Matched T tree m terminal) (hT : TreeOK ps tree) (t : ResourceType) :
    missing t tree m = (leafToRoot tree (m.deeper tree)).filter fun i => !hasResource t tree i := by
  have hb := between_of_matched h hT t
  obtain ⟨u,hu,hdeep⟩ := m.last_deeper tree
  rw [hu]
  by_cases hut : u = t
  · subst hut
    rw [hb.empty (hdeep u.other)]
    refine (List.filter_eq_nil_iff.mpr fun j hj => ?_).symm
    simp [h.path hT u j hj]
  · obtain rfl : u = t.other := by cases u <;> cases t <;> simp_all [ResourceType.other]
    obtain ⟨n,hn⟩ := (h.stop t.other).live
    refine (filter_eq_takeWhile (hT.leafToRoot_nodup hn) fun j hj hno => ?_).symm
    rcases hb.covered j hj with hm | hres
    · exact hm
    · rw [hres] at hno
      cases hno

/-- A node that lacks one tier on a matched path has the other one. -/
theorem missing_other (h : Matched T tree m terminal) (hT : TreeOK ps tree) {j : NodeId}
    (hj : j ∈ missing t tree m) : hasResource t.other tree j = true :=
  h.path hT t.other j ((between_of_matched h hT t).path hj)

end Matched

/-- `NodesWithout` of a match finds the nodes of the matched path without the tier, the deepest
first, and each of them is on the other tier. -/
def FindsMissing (m : MatchResult) (kv : KVPrefixCache) : Prop :=
  ∀ t, Returns (nodesWithout t m) kv fun nodes kv' => kv' = kv ∧
    nodes = (leafToRoot kv.tree (m.deeper kv.tree)).filter (fun i => !hasResource t kv.tree i) ∧
    ∀ j ∈ nodes, hasResource t.other kv.tree j = true

theorem findsMissing {kv : KVPrefixCache} {T : List Token} {m : MatchResult} {terminal : NodeId}
    (hT : TreeOK kv.pageSize kv.tree) (h : Matched T kv.tree m terminal) : FindsMissing m kv := by
  intro t
  unfold Returns
  rw [← bind_pure (nodesWithout t m)]
  refine nodesWithout_runs h ?_
  exact ⟨rfl,missing_eq_filter h hT t,fun j hj => missing_other h hT hj⟩

variable {config : SchedulerConfig} {clock : Nat → Timestamp} {history : List (Call × Reply)}
  {s : Scheduler}

/-- Residency is closed towards the root on each tier, in every reachable state; so `NodesWithout`
is exact for every match made there, and for every match at any point of an operation. -/
theorem residency_closed (h : Reaches config clock history s) :
    (∀ t i n p, s.kv.tree.read i = some n → hasResource t s.kv.tree i = true →
      n.parent = some p → p = 0 ∨ hasResource t s.kv.tree p = true) ∧
    (∀ T intent, config.pageSize ∣ T.length →
      Returns (matchTokens T intent) s.kv fun m kv' => FindsMissing m kv') ∧
    ∀ kv refs owned T m terminal, KVInv kv refs owned → Matched T kv.tree m terminal →
      FindsMissing m kv := by
  have hs := h.sound
  refine ⟨fun t i n p hi hres hp => ?_,fun T intent hdvd => ?_,?_⟩
  · by_cases h0 : p = 0
    · exact Or.inl h0
    · exact Or.inr (hs.kv.closed t i n p hi hp h0 hres)
  · rw [← h.config_eq,← hs.pageSize] at hdvd
    refine (matchTokens_matched hs.kv hdvd intent).runs ?_
    rintro m kv' ⟨hkv,_,terminal,hm⟩
    exact findsMissing hkv.inv.tree hm
  · exact fun kv refs owned T m terminal hkv hm => findsMissing hkv.inv.tree hm

theorem residency_closed_served :
    ∃ history s, Reaches (smallConfig 9 9) id history s ∧
      (∃ i, hasResource .host s.kv.tree i = true) ∧
      ∀ t i n p, s.kv.tree.read i = some n → hasResource t s.kv.tree i = true →
        n.parent = some p → p = 0 ∨ hasResource t s.kv.tree p = true := by
  obtain ⟨x,hx,_,hres,_⟩ := served_replay
  exact ⟨x.1,x.2,reaches_of_replay hx,⟨1,hres⟩,(residency_closed (reaches_of_replay hx)).1⟩

end FluxServe
