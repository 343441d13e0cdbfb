import FluxServe.Fsm.RefsProof

namespace FluxServe

open KVPrefixCache

variable {kv kv' : KVPrefixCache} {l : Option LocalKVAllocator} {T : List Token} {d : NodeId}
  {m : MatchResult} {terminal i : NodeId} {t : ResourceType} {prefixPages : List PageId}
  {refs : ResourceType → Multiset NodeId} {owned : ResourceType → Multiset PageId}

/-- Inserting a finished request's pages: the pages that stay local are still owned. -/
theorem insertFinished_runs
    (hinv : KVInv kv refs (own .device ((l.map LocalKVAllocator.pages).getD []) owned))
    (hd : d ∈ refs .device) (hdT : pathTokens kv.tree d <+: T)
    (hpre : prefixPages.length*kv.pageSize = (pathTokens kv.tree d).length)
    (hdvd : kv.pageSize ∣ T.length) :
    Runs (insertFinished T prefixPages l) kv
      (fun kept kv' => KVInv kv' refs (own .device kept owned) ∧ Change refs [] kv kv')
      (fun e kv' => e = .undefined .nullLocalAllocator ∨
        (∃ x, e = .exception x) ∧ KVInv kv' refs owned ∧ Change refs [] kv kv') := by
  have hps := hinv.inv.tree.pageSize_pos
  unfold insertFinished
  rw [runs_bind,runs_get]
  obtain ⟨k,hk⟩ := hdvd
  have hdiv : T.length/kv.pageSize = k := by rw [hk,Nat.mul_div_cancel_left k hps]
  rw [hdiv]
  cases l with
  | none =>
    dsimp only
    split
    · exact Or.inl rfl
    · exact ⟨by simpa using hinv,Change.refl _ _⟩
  | some l =>
    simp only [Option.map_some,Option.getD_some] at hinv
    dsimp only
    by_cases hpos : (0 : Int) < (k : Int)-prefixPages.length
    · rw [if_pos hpos,runs_bind,runs_unwinding]
      unfold takeFirst
      by_cases hout : (k : Int)-prefixPages.length < 0 ∨
          (l.pages.length : Int) < (k : Int)-prefixPages.length
      · rw [if_pos hout]
        rw [throwException,runs_throw]
        refine (deallocatePages_returns hinv.inv).runs fun _ kv₁ ⟨hi₁,he₁,hs₁,_⟩ => ?_
        exact Or.inr ⟨⟨_,rfl⟩,hs₁.kvInv hinv hi₁,Change.of_allocStep he₁ hs₁⟩
      · rw [if_neg hout,runs_pure]
        have hsplit : l.pages = l.pages.take ((k : Int)-prefixPages.length).toNat ++
            l.pages.drop ((k : Int)-prefixPages.length).toNat := (List.take_append_drop _ _).symm
        have hown : KVInv kv refs (own .device (l.pages.take ((k : Int)-prefixPages.length).toNat)
            (own .device (l.pages.drop ((k : Int)-prefixPages.length).toNat) owned)) := by
          rw [← own_append,← hsplit]
          exact hinv
        have hlen : (prefixPages.length+(l.pages.take ((k : Int)-prefixPages.length).toNat).length)*
            kv.pageSize = T.length := by
          rw [List.length_take,hk,mul_comm kv.pageSize]
          congr 1
          omega
        refine ((insert_returns hown hd hdT hpre ⟨k,hk⟩ hlen).unwinding _).bind
          fun r kv₁ ⟨hk₁,he₁,hins⟩ => ?_
        exact ⟨hk₁,Change.of_inserted he₁ hins hown⟩
    · rw [if_neg hpos]
      exact ⟨hinv,Change.refl _ _⟩

/-- The references of a finished or retracted path: both of its sides. -/
def bothSides (d : NodeId) : ResourceType → List NodeId := fun _ => [d]

/-- The copy of a path to the host: `nodes` got host pages and the path is pinned on both tiers. -/
structure WritesBack (refs : ResourceType → Multiset NodeId)
    (owned : ResourceType → Multiset PageId) (d : NodeId) (pairs : List TransferPair)
    (nodes : List NodeId) (kv kv' : KVPrefixCache) : Prop where
  kvInv : KVInv kv' (hold (bothSides d) refs) owned
  change : Change refs nodes kv kv'
  pairs : pairs = pairsOf .device kv'.tree nodes
  path : nodes ⊆ leafToRoot kv'.tree d

/-- A copy to the host with enough host pages, after which both sides of the path are locked. -/
theorem Copied.lockable
    (h : Copied .host refs owned m (missing .host kv.tree m) kv kv')
    (hm : Matched T kv.tree m terminal) (hT : TreeOK kv.pageSize kv.tree) :
    (∃ n, kv'.tree.read m.device = some n) ∧
      (∀ j ∈ leafToRoot kv'.tree m.device, hasResource .device kv'.tree j = true) ∧
      (∀ j ∈ leafToRoot kv'.tree m.device, hasResource .host kv'.tree j = true) ∧
      missing .host kv.tree m ⊆ leafToRoot kv'.tree m.device := by
  have hshape := h.attached.shape
  obtain ⟨n,hn⟩ := (hm.stop .device).live
  obtain ⟨n',hn',_⟩ := hshape.read hn
  have hb := between_of_matched hm hT .host
  refine ⟨⟨n',hn'⟩,fun j hj => ?_,h.resident,?_⟩
  · have ha := h.attached.agree .device (by decide)
    rw [ha.hasResource_eq]
    rw [ha.leafToRoot_eq] at hj
    exact hm.path hT .device j hj
  · rw [hshape.leafToRoot_eq]
    exact hb.path

/-- Equal match depths mean equally many pages to copy. -/
theorem pagesOf_missing_eq {refs' : ResourceType → Multiset NodeId}
    {owned' : ResourceType → Multiset PageId} {x y : NodeId} (hinv : KVInv kv refs owned)
    (hinv' : KVInv kv' refs' owned') (hm : Matched T kv.tree m x) (hm' : Matched T kv'.tree m y)
    (hps : kv'.pageSize = kv.pageSize)
    (hdepth : ∀ u, nodeDepth kv'.tree (m.last u) = nodeDepth kv.tree (m.last u)) :
    pagesOf t.other kv'.tree (missing t kv'.tree m) =
      pagesOf t.other kv.tree (missing t kv.tree m) := by
  have h := (between_of_matched hm hinv.inv.tree t).pagesOf_eq hm hinv
  have h' := (between_of_matched hm' hinv'.inv.tree t).pagesOf_eq hm' hinv'
  rw [hps,hdepth,hdepth,← h] at h'
  exact Nat.eq_of_mul_eq_mul_right hinv.inv.tree.pageSize_pos h'

theorem prepareWriteBack_returns (hinv : KVInv kv refs owned) (hm : Matched T kv.tree m terminal) :
    Returns (prepareWriteBack m) kv (fun pairs kv' =>
      ((∃ ps nodes, pairs = some ps ∧ WritesBack refs owned m.device ps nodes kv kv' ∧
        (nodeDepth kv.tree m.host < nodeDepth kv.tree m.device → ps ≠ [])) ∨
      (pairs = none ∧ KVInv kv' refs owned ∧ Change refs [] kv kv')) ∧
      ∀ P, Covers .device kv'.tree P ↔ Covers .device kv.tree P) := by
  have hT := hinv.inv.tree
  unfold Returns prepareWriteBack
  refine nodesWithout_runs hm ?_
  have hb := between_of_matched hm hT .host
  have hatt := hb.attachable hm hT
  refine (countPages_returns hatt.source).bind ?_
  rintro num kv ⟨rfl,rfl⟩
  obtain ⟨nh,hnh⟩ := (hm.stop .host).live
  refine (lock_returns hinv hnh (hm.path hT .host)).bind ?_
  rintro _ kv₁ ⟨hk₁,hc₁,_⟩
  refine (ensureMatched_returns (t := .host) hk₁ (hm.congr hc₁.agree) (by simp [MatchResult.last])
    _).bind ?_
  rintro ensured kv₂ ⟨h₂,hs₂,_,_⟩
  obtain ⟨x₂,hm₂⟩ := h₂.matched
  have h02 : Change refs [] kv kv₂ :=
    (Change.of_calm hc₁ refs).trans (h₂.change.mono (le_pin _ _ _))
  have hmiss : missing .host kv₂.tree m = missing .host kv.tree m := by
    rw [h₂.missing,missing_congr hc₁.agree]
  have hcov : ∀ P, Covers .device kv₂.tree P ↔ Covers .device kv.tree P := fun P =>
    (hs₂.covers h₂.change.evolves P).2.trans (covers_congr (hc₁.agree .device) P)
  cases ensured with
  | false =>
    simp only [Bool.false_eq_true,if_false]
    refine (unlock_returns h₂.kvInv).bind ?_
    rintro _ kv₃ ⟨hk₃,hc₃⟩
    exact ⟨Or.inr ⟨rfl,hk₃,h02.calm_right hc₃⟩,fun P =>
      (covers_congr (hc₃.agree .device) P).trans (hcov P)⟩
  | true =>
    simp only [if_true]
    have hT₂ := h₂.kvInv.inv.tree
    have hb₂ := between_of_matched hm₂ hT₂ .host
    rw [← hmiss]
    refine (allocateResourceOfType_returns h₂.kvInv hm₂ hb₂).bind fun ok kv₃ h => ?_
    have hpages : pagesOf .device kv₂.tree (missing .host kv₂.tree m) =
        pagesOf .device kv.tree (missing .host kv.tree m) :=
      pagesOf_missing_eq (t := .host) hinv h₂.kvInv hm hm₂ h02.evolves.pageSize
        fun u => (h₂.depth u).trans ((hc₁.agree u).nodeDepth_eq _)
    have hav := h₂.available.mp rfl
    rcases h with ⟨rfl,_,hcop⟩ | ⟨_,hfew,_⟩
    · obtain ⟨⟨n₃,hn₃⟩,hdev,hhost,hsub⟩ := hcop.lockable hm₂ hT₂
      refine (lock_returns hcop.kvInv hn₃ hdev).bind ?_
      rintro _ kv₄ ⟨hk₄,hc₄,_⟩
      obtain ⟨n₄,hn₄,_⟩ := (hc₄.agree .host).read hn₃
      have hhost₄ : ∀ j ∈ leafToRoot kv₄.tree m.device, hasResource .host kv₄.tree j = true := by
        intro j hj
        rw [(hc₄.agree .host).leafToRoot_eq] at hj
        rw [(hc₄.agree .host).hasResource_eq]
        exact hhost j hj
      refine (lock_returns hk₄ hn₄ hhost₄).bind ?_
      rintro _ kv₅ ⟨hk₅,hc₅,_⟩
      have hc₃₅ := hc₄.trans hc₅
      have hboth : ∀ j ∈ missing .host kv₂.tree m, ∀ t, hasResource t kv₅.tree j = true := by
        intro j hj t
        rw [(hc₃₅.agree t).hasResource_eq]
        cases t
        · exact hdev j (hsub hj)
        · exact hhost j (hsub hj)
      refine (transferPairs_returns hboth).bind ?_
      rintro pairs kv₅ ⟨rfl,rfl⟩
      have hpin : KVInv kv₅ (pin .host m.host (hold (bothSides m.device) refs)) owned := by
        refine hk₅.congr (fun t => ?_) (fun _ => rfl)
        cases t
        · simp [pin,hold,bothSides]
        · simp [pin,hold,bothSides,MatchResult.last,Multiset.cons_swap]
      refine (unlock_returns hpin).bind ?_
      rintro _ kv₆ ⟨hk₆,hc₆⟩
      have hagree : Agree .device kv₂.tree kv₆.tree :=
        (hcop.attached.agree .device (by decide)).trans ((hc₃₅.trans hc₆).agree .device)
      refine ⟨Or.inl ⟨_,missing .host kv₂.tree m,rfl,⟨hk₆,?_,?_,?_⟩,fun hlt hnil => ?_⟩,fun P =>
        (covers_congr hagree P).trans (hcov P)⟩
      · have h23 : Change refs (missing .host kv₂.tree m) kv₂ kv₃ :=
          ⟨hcop.evolves.mono (le_pin _ _ _),hcop.lineage_host _⟩
        exact ((h02.trans h23).calm_right hc₃₅).calm_right hc₆
      · unfold pairsOf
        simp only [(hc₆.agree _).nodePages_eq]
      · rw [((hc₃₅.trans hc₆).agree .host).leafToRoot_eq]
        exact hsub
      · have hempty := pairsOf_eq_nil hk₅ hboth hnil
        have hdepth := hb.depth_eq hlt.le
        rw [← hmiss,hempty] at hdepth
        simp only [ResourceType.other,MatchResult.last,List.map_nil,List.sum_nil] at hdepth
        omega
    · simp only [ResourceType.other] at hfew
      rw [hpages] at hfew
      simp only [ResourceType.other] at hav
      omega

/-- The host side of a path alone. -/
def hostSide (d : NodeId) : ResourceType → List NodeId
  | .device => []
  | .host => [d]

theorem depth_lt_iff {ps : Nat} {tree : Heap TreeNode} (h : Matched T tree m terminal)
    (hT : TreeOK ps tree) (t u : ResourceType) :
    nodeDepth tree (m.last t)/ps < nodeDepth tree (m.last u)/ps ↔
      nodeDepth tree (m.last t) < nodeDepth tree (m.last u) := by
  obtain ⟨n,hn⟩ := (h.stop t).live
  obtain ⟨k,hk⟩ := (h.stop u).live
  rw [nodeDepth_of_read hn,nodeDepth_of_read hk]
  obtain ⟨a,ha⟩ := hT.pageSize_dvd_depth hn
  obtain ⟨b,hb⟩ := hT.pageSize_dvd_depth hk
  rw [ha,hb,Nat.mul_div_cancel_left _ hT.pageSize_pos,Nat.mul_div_cancel_left _ hT.pageSize_pos,
    Nat.mul_lt_mul_left hT.pageSize_pos]

theorem prepareRetract_runs (hinv : KVInv kv refs owned) (hm : Matched T kv.tree m terminal) :
    Runs (prepareRetract m) kv
      (fun r kv' =>
        (∃ nodes, r.1 = some m.device ∧ WritesBack refs owned m.device r.2 nodes kv kv') ∨
        (r = (none,[]) ∧ KVInv kv' (hold (hostSide m.device) refs) owned ∧ Change refs [] kv kv'))
      (fun e kv' => e = .exception .retractAllocation ∧ KVInv kv' refs owned ∧
        Change refs [] kv kv' ∧
        kv.availablePages .host < pagesOf .device kv.tree (missing .host kv.tree m)) := by
  have hT := hinv.inv.tree
  obtain ⟨nd,hnd⟩ := (hm.stop .device).live
  obtain ⟨nh,hnh⟩ := (hm.stop .host).live
  unfold prepareRetract
  refine depthInPage_bind hnd (depthInPage_bind hnh ?_)
  by_cases hlt : nodeDepth kv.tree m.host/kv.pageSize < nodeDepth kv.tree m.device/kv.pageSize
  · rw [if_pos hlt]
    refine nodesWithout_runs hm ?_
    refine (lock_returns hinv hnd (hm.path hT .device)).bind ?_
    rintro _ kv₁ ⟨hk₁,hc₁,_⟩
    have hm₁ := hm.congr hc₁.agree
    have hmiss : missing .host kv₁.tree m = missing .host kv.tree m := missing_congr hc₁.agree _ _
    rw [← hmiss]
    refine (allocateResourceOfType_returns hk₁ hm₁
      (between_of_matched hm₁ hk₁.inv.tree .host)).bind fun ok kv₂ h => ?_
    rcases h with ⟨rfl,_,hcop⟩ | ⟨rfl,hfew,hk₂,he₂,hs₂,hret₂⟩
    · rw [if_neg (by decide)]
      obtain ⟨⟨n₂,hn₂⟩,hdev,hhost,hsub⟩ := hcop.lockable hm₁ hk₁.inv.tree
      have hboth : ∀ j ∈ missing .host kv₁.tree m, ∀ t, hasResource t kv₂.tree j = true := by
        intro j hj t
        cases t
        · exact hdev j (hsub hj)
        · exact hhost j (hsub hj)
      refine (transferPairs_returns hboth).bind ?_
      rintro pairs kv₂ ⟨rfl,rfl⟩
      refine (lock_returns hcop.kvInv hn₂ hhost).bind ?_
      rintro _ kv₃ ⟨hk₃,hc₃,_⟩
      refine Or.inl ⟨missing .host kv₁.tree m,rfl,hk₃.congr (fun t => ?_) (fun _ => rfl),?_,?_,?_⟩
      · cases t <;> simp [pin,hold,bothSides,MatchResult.last]
      · have h12 : Change refs (missing .host kv₁.tree m) kv₁ kv₂ :=
          ⟨hcop.evolves.mono (le_pin _ _ _),hcop.lineage_host _⟩
        exact ((Change.of_calm hc₁ refs).trans h12).calm_right hc₃
      · unfold pairsOf
        simp only [(hc₃.agree _).nodePages_eq]
      · rw [(hc₃.agree .host).leafToRoot_eq]
        exact hsub
    · rw [if_pos (by decide)]
      refine (unlock_returns hk₂).bind ?_
      rintro _ kv₃ ⟨hk₃,hc₃⟩
      have hfail : Change refs [] kv₁ kv₂ := by
        refine ⟨he₂.mono (le_pin _ _ _),lineage_of_agree ?_ (hret₂ .host) _⟩
        rw [hs₂.tree]
        exact Agree.refl _ _
      refine ⟨rfl,hk₃,((Change.of_calm hc₁ refs).trans hfail).calm_right hc₃,?_⟩
      simp only [ResourceType.other] at hfew
      rw [hmiss,pagesOf_congr (hc₁.agree .device),hc₁.availablePages_eq] at hfew
      rw [hmiss]
      exact hfew
  · rw [if_neg hlt]
    have hle : nodeDepth kv.tree m.device ≤ nodeDepth kv.tree m.host :=
      Nat.le_of_not_lt fun h => hlt ((depth_lt_iff hm hT .host .device).mpr h)
    have hres : ∀ j ∈ leafToRoot kv.tree m.device, hasResource .host kv.tree j = true := by
      intro j hj
      rcases hm.ancestor (t := .device) (u := .host) hT hle with h0 | hon
      · rw [show m.device = 0 from h0,hT.leafToRoot_zero] at hj
        cases hj
      · exact hm.path hT .host j (hT.mem_leafToRoot_trans hj hon)
    refine (lock_returns hinv hnd hres).bind ?_
    rintro _ kv₁ ⟨hk₁,hc₁,_⟩
    refine Or.inr ⟨rfl,hk₁.congr (fun t => ?_) (fun _ => rfl),Change.of_calm hc₁ refs⟩
    cases t <;> simp [pin,hold,hostSide,MatchResult.last]

/-- A written back path gives up its device reference and the device pages it can spare. -/
theorem demoteWrittenBackDevice_returns {o : Option NodeId}
    (hinv : KVInv kv (hold (fun t => if t = .device then o.toList else []) refs) owned) :
    Returns (demoteWrittenBackDevice o) kv
      (fun _ kv' => KVInv kv' refs owned ∧ Change refs [] kv kv') := by
  cases o with
  | none =>
    refine ⟨hinv.congr (fun t => ?_) (fun _ => rfl),Change.refl _ _⟩
    cases t <;> simp [hold]
  | some d =>
    have hpin : KVInv kv (pin .device d refs) owned := by
      refine hinv.congr (fun t => ?_) (fun _ => rfl)
      cases t <;> simp [hold,pin]
    obtain ⟨n,hn⟩ := hpin.live (t := .device) (r := d) (by simp)
    unfold Returns demoteWrittenBackDevice
    refine (unlock_returns hpin).bind ?_
    rintro _ kv₁ ⟨hk₁,hc₁⟩
    obtain ⟨n₁,hn₁,_⟩ := (hc₁.agree .device).read hn
    refine (releaseDeviceResourcesPresentOnHost_returns hk₁ hn₁).runs fun _ kv₂ h₂ => ?_
    exact ⟨h₂.kvInv,(Change.of_calm hc₁ refs).trans ⟨h₂.evolves,h₂.lineage _⟩⟩

end FluxServe
