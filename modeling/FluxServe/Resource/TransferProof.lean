import FluxServe.Resource.PruneProof
import FluxServe.Resource.InsertProof
import FluxServe.Resource.LoadedBack
import Mathlib.Data.List.TakeWhile

namespace FluxServe

open KVPrefixCache

variable {t u : ResourceType} {i j p d : NodeId} {n : TreeNode} {kv kv' kv₀ : KVPrefixCache}
  {nodes : List NodeId} {pages : List PageId} {T : List Token} {m : MatchResult}
  {refs : ResourceType → Multiset NodeId} {owned : ResourceType → Multiset PageId}

/-- A tier's last node of a match. -/
def MatchResult.last (m : MatchResult) : ResourceType → NodeId
  | .device => m.device
  | .host => m.host

/-- A match for `T`: both tiers stop on the way to one node whose tokens begin `T`. -/
structure Matched (T : List Token) (tree : Heap TreeNode) (m : MatchResult) (terminal : NodeId) :
    Prop where
  live : ∃ n, tree.read terminal = some n
  tokens : pathTokens tree terminal <+: T
  stop : ∀ t, TierStop t tree (m.last t) terminal

theorem Walked.matched {w : WalkResult} (h : Walked refs owned T kv₀ kv w) :
    Matched T kv.tree w.matchResult w.terminal := by
  refine ⟨h.live,?_,fun t => ?_⟩
  · rw [← h.tokens]
    exact List.prefix_append _ _
  · cases t
    · exact h.device
    · exact h.host

theorem matched_root (hT : TreeOK kv.pageSize kv.tree) (T : List Token) :
    Matched T kv.tree ⟨0,0⟩ 0 := by
  obtain ⟨n,hn,_⟩ := hT.root
  refine ⟨⟨n,hn⟩,by rw [hT.pathTokens_zero]; exact List.nil_prefix,fun t => ?_⟩
  refine ⟨by cases t <;> exact ⟨n,hn⟩,Or.inl (by cases t <;> rfl),fun j hj => ?_⟩
  rw [hT.leafToRoot_zero] at hj
  cases hj

/-- `Match` of whole pages only splits nodes. -/
theorem matchTokens_returns (hinv : KVInv kv refs owned) (hdvd : kv.pageSize ∣ T.length)
    (intent : MatchIntent) :
    Returns (matchTokens T intent) kv (fun m kv' => KVInv kv' refs owned ∧ (∃ o, Grows o kv kv') ∧
      ((kv.disablePrefixCache = true ∧ intent = .prefixReuse) ∧ m = ⟨0,0⟩ ∨
        ¬(kv.disablePrefixCache = true ∧ intent = .prefixReuse) ∧ ∃ kv₁ w, (∃ o, Grows o kv kv₁) ∧ Walked refs owned T kv₁ kv' w ∧ m = w.matchResult)) := by
  have hmod : T.length % kv.pageSize = 0 := Nat.mod_eq_zero_of_dvd hdvd
  unfold Returns matchTokens
  rw [runs_bind,runs_get]
  split
  · next hdis =>
    rw [if_neg (by simpa using hmod)]
    exact ⟨hinv,⟨id,Grows.refl kv⟩,Or.inl ⟨hdis,rfl⟩⟩
  · next hdis =>
    refine (readClock_returns hinv).bind ?_
    rintro now kv₁ ⟨hinv₁,hq₁,hm₁⟩
    have hg₁ := Grows.of_quiet hq₁ hm₁
    rw [if_neg (by simpa using hmod)]
    refine (walkDownUtilMismatch_returns hinv₁ T now).bind ?_
    intro w kv₂ hw
    obtain ⟨o,hg₂⟩ := hw.grows
    exact ⟨hw.kvInv,⟨_,hg₁.trans hg₂⟩,Or.inr ⟨hdis,kv₁,w,⟨_,hg₁⟩,hw,rfl⟩⟩

/-- Whatever the intent, a match is a match. -/
theorem matchTokens_matched (hinv : KVInv kv refs owned) (hdvd : kv.pageSize ∣ T.length)
    (intent : MatchIntent) :
    Returns (matchTokens T intent) kv (fun m kv' => KVInv kv' refs owned ∧ (∃ o, Grows o kv kv') ∧
      ∃ terminal, Matched T kv'.tree m terminal) := by
  refine (matchTokens_returns hinv hdvd intent).runs ?_
  rintro m kv' ⟨hinv',hg,hcase⟩
  refine ⟨hinv',hg,?_⟩
  rcases hcase with ⟨_,rfl⟩ | ⟨_,kv₁,w,_,hw,rfl⟩
  · exact ⟨0,matched_root hinv'.inv.tree T⟩
  · exact ⟨w.terminal,hw.matched⟩

section Nodes

variable {ps : Nat} {tree : Heap TreeNode} {terminal : NodeId}

theorem Matched.path (h : Matched T tree m terminal) (hT : TreeOK ps tree) (t : ResourceType) :
    ∀ k ∈ leafToRoot tree (m.last t), hasResource t tree k = true :=
  (h.stop t).path hT

theorem Matched.last_tokens (h : Matched T tree m terminal) (hT : TreeOK ps tree)
    (t : ResourceType) : pathTokens tree (m.last t) <+: T := by
  obtain ⟨n,hn⟩ := h.live
  exact (hT.pathTokens_prefix hn (h.stop t).onPath).trans h.tokens

/-- Of the two last nodes the deeper one lies below the other. -/
theorem Matched.ancestor (h : Matched T tree m terminal) (hT : TreeOK ps tree)
    (hle : nodeDepth tree (m.last t) ≤ nodeDepth tree (m.last u)) :
    m.last t = 0 ∨ m.last t ∈ leafToRoot tree (m.last u) := by
  obtain ⟨nt,hnt⟩ := (h.stop t).live
  obtain ⟨nu,hnu⟩ := (h.stop u).live
  refine hT.mem_leafToRoot_of_prefix hnt hnu ?_
  refine List.prefix_of_prefix_length_le (h.last_tokens hT t) (h.last_tokens hT u) ?_
  rw [hT.pathTokens_length hnt,hT.pathTokens_length hnu]
  rwa [nodeDepth_of_read hnt,nodeDepth_of_read hnu] at hle

/-- The nodes between the two last nodes of a match. -/
structure Between (t : ResourceType) (tree : Heap TreeNode) (m : MatchResult)
    (nodes : List NodeId) : Prop where
  path : nodes ⊆ leafToRoot tree (m.last t.other)
  missing : ∀ j ∈ nodes, hasResource t tree j = false
  nodup : nodes.Nodup
  covered : ∀ j ∈ leafToRoot tree (m.last t.other), j ∈ nodes ∨ hasResource t tree j = true
  depth_eq : nodeDepth tree (m.last t) ≤ nodeDepth tree (m.last t.other) →
    nodeDepth tree (m.last t.other) =
      nodeDepth tree (m.last t)+(nodes.map fun k => (nodeTokens tree k).length).sum
  empty : nodeDepth tree (m.last t.other) ≤ nodeDepth tree (m.last t) → nodes = []

/-- What `NodesWithout` finds. -/
def missing (t : ResourceType) (tree : Heap TreeNode) (m : MatchResult) : List NodeId :=
  (leafToRoot tree (m.last t.other)).takeWhile fun i => !hasResource t tree i

theorem between_of_matched (h : Matched T tree m terminal) (hT : TreeOK ps tree)
    (t : ResourceType) : Between t tree m (missing t tree m) := by
  unfold missing
  obtain ⟨ns,hns⟩ := (h.stop t.other).live
  obtain ⟨nd,hnd⟩ := (h.stop t).live
  have hres : ∀ j ∈ leafToRoot tree (m.last t.other),
      hasResource t tree j = true ↔ j ∈ leafToRoot tree (m.last t) := by
    intro j hj
    refine (h.stop t).resident j ?_
    rcases (h.stop t.other).onPath with h0 | hon
    · rw [h0,hT.leafToRoot_zero] at hj
      cases hj
    · exact hT.mem_leafToRoot_trans hj hon
  have hnodup := hT.leafToRoot_nodup hns
  have hsub : (leafToRoot tree (m.last t.other)).takeWhile (fun i => !hasResource t tree i) ⊆
      leafToRoot tree (m.last t.other) := List.takeWhile_subset _
  have hmiss : ∀ j ∈ (leafToRoot tree (m.last t.other)).takeWhile
      (fun i => !hasResource t tree i), hasResource t tree j = false := by
    intro j hj
    simpa using List.mem_takeWhile_imp hj
  have hnd' := hnodup.sublist (List.takeWhile_sublist fun i => !hasResource t tree i)
  rcases Nat.le_total (nodeDepth tree (m.last t)) (nodeDepth tree (m.last t.other)) with hle | hle
  · obtain ⟨seg,hseg⟩ := hT.leafToRoot_append hns (h.ancestor hT hle)
    have hall : (leafToRoot tree (m.last t.other)).takeWhile (fun i => !hasResource t tree i) =
        seg := by
      rw [hseg] at hnodup hres ⊢
      have hsegno : ∀ j ∈ seg, (!hasResource t tree j) = true := by
        intro j hj
        have hnot : j ∉ leafToRoot tree (m.last t) :=
          fun hm => (List.nodup_append.mp hnodup).2.2 j hj j hm rfl
        have := (hres j (List.mem_append_left _ hj)).not.mpr hnot
        simpa using this
      rw [List.takeWhile_append_of_pos hsegno]
      cases hl : leafToRoot tree (m.last t) with
      | nil => simp
      | cons k rest =>
        have hk : hasResource t tree k = true :=
          h.path hT t k (by rw [hl]; exact List.mem_cons_self)
        simp [hk]
    have hdepth := hT.depth_of_append hns ⟨nd,hnd⟩ hseg
    rw [hall] at hsub hmiss hnd' ⊢
    refine ⟨hsub,hmiss,hnd',fun j hj => ?_,fun _ => hdepth,fun hle' => ?_⟩
    · rw [hseg] at hj
      rcases List.mem_append.mp hj with hj | hj
      · exact Or.inl hj
      · exact Or.inr (h.path hT t j hj)
    · cases seg with
      | nil => rfl
      | cons k rest =>
        obtain ⟨x,q,hx,hq,_⟩ := hT.mem_leafToRoot (hsub List.mem_cons_self)
        obtain ⟨_,_,_,htok,_⟩ := hT.parent hx hq
        have := List.length_pos_of_ne_nil htok
        simp only [List.map_cons,List.sum_cons,nodeTokens,hx,Option.map_some,Option.getD_some]
          at hdepth
        omega
  · have hanc := h.ancestor hT hle
    have hin : ∀ j ∈ leafToRoot tree (m.last t.other), hasResource t tree j = true := by
      intro j hj
      rcases hanc with h0 | hon
      · rw [h0,hT.leafToRoot_zero] at hj
        cases hj
      · exact h.path hT t j (hT.mem_leafToRoot_trans hj hon)
    have hnil : (leafToRoot tree (m.last t.other)).takeWhile (fun i => !hasResource t tree i) =
        [] := by
      cases hl : leafToRoot tree (m.last t.other) with
      | nil => rfl
      | cons k rest =>
        have hk := hin k (by rw [hl]; exact List.mem_cons_self)
        simp [hk]
    rw [hnil]
    refine ⟨by simp,by simp,by simp,fun j hj => Or.inr (hin j hj),?_,fun _ => rfl⟩
    intro hle'
    simp
    omega

theorem nodesWithout_runs {α : Type} {f : List NodeId → KV α} {Q : α → KVPrefixCache → Prop}
    {E : Fault → KVPrefixCache → Prop} (h : Matched T kv.tree m terminal)
    (hf : Runs (f (missing t kv.tree m)) kv Q E) : Runs (nodesWithout t m >>= f) kv Q E := by
  obtain ⟨n,hn⟩ := (h.stop t.other).live
  unfold nodesWithout
  rw [bind_assoc]
  cases t
  · exact getLeafToRoot_bind hn hf
  · exact getLeafToRoot_bind hn hf

end Nodes

/-- How many pages the nodes hold on a tier. -/
def pagesOf (t : ResourceType) (tree : Heap TreeNode) (nodes : List NodeId) : Nat :=
  (nodes.map fun j => (nodePages t tree j).length).sum

/-- The pairs of a copy: source and destination pages of every node. -/
def pairsOf (src : ResourceType) (tree : Heap TreeNode) (nodes : List NodeId) :
    List TransferPair :=
  nodes.flatMap fun j =>
    List.zipWith TransferPair.mk (nodePages src tree j) (nodePages src.other tree j)

theorem nodePages_of_resource {tree : Heap TreeNode} {r : NodeResource}
    (hi : tree.read i = some n) (hr : n.resource t = some r) : nodePages t tree i = r.pages := by
  simp [nodePages,hi,TreeNode.pages,hr]

theorem countPages_returns (h : ∀ j ∈ nodes, hasResource t kv.tree j = true) :
    Returns (countPages t nodes) kv (fun k kv' => k = pagesOf t kv.tree nodes ∧ kv' = kv) := by
  induction nodes with
  | nil => exact ⟨rfl,rfl⟩
  | cons i nodes ih =>
    obtain ⟨n,r,hn,hr⟩ := exists_resource_of_hasResource (h i List.mem_cons_self)
    unfold Returns countPages
    apply getResource_bind hn hr
    refine (ih fun j hj => h j (List.mem_cons_of_mem _ hj)).bind ?_
    rintro _ _ ⟨rfl,rfl⟩
    exact ⟨by simp [pagesOf,nodePages_of_resource hn hr],rfl⟩

theorem transferPairs_returns {src : ResourceType}
    (h : ∀ j ∈ nodes, ∀ t, hasResource t kv.tree j = true) :
    Returns (transferPairs src nodes) kv
      (fun pairs kv' => pairs = pairsOf src kv.tree nodes ∧ kv' = kv) := by
  induction nodes with
  | nil => exact ⟨rfl,rfl⟩
  | cons i nodes ih =>
    obtain ⟨n,r,hn,hr⟩ := exists_resource_of_hasResource (h i List.mem_cons_self src)
    obtain ⟨n',r',hn',hr'⟩ := exists_resource_of_hasResource (h i List.mem_cons_self src.other)
    unfold Returns transferPairs
    apply getResource_bind hn hr
    apply getResource_bind hn' hr'
    refine (ih fun j hj => h j (List.mem_cons_of_mem _ hj)).bind ?_
    rintro _ _ ⟨rfl,rfl⟩
    refine ⟨?_,rfl⟩
    simp [pairsOf,nodePages_of_resource hn hr,nodePages_of_resource hn' hr']

theorem KVPrefixCache.KVInv.nodePages_ne_nil (hinv : KVInv kv refs owned)
    (h : hasResource t kv.tree j = true) : nodePages t kv.tree j ≠ [] := by
  intro he
  obtain ⟨h0,hsize⟩ := (hinv.inv.tier t).size h
  obtain ⟨n,_,hn,_⟩ := exists_resource_of_hasResource h
  obtain ⟨_,_,_,_,_,htok,_⟩ := hinv.inv.tree.node hn h0
  rw [he] at hsize
  simp only [List.length_nil,Nat.zero_mul,nodeTokens,hn,Option.map_some,Option.getD_some] at hsize
  exact htok (List.eq_nil_of_length_eq_zero hsize.symm)

/-- A node that has pages on both tiers gives pairs to copy. -/
theorem pairsOf_eq_nil {src : ResourceType} (hinv : KVInv kv refs owned)
    (hres : ∀ j ∈ nodes, ∀ t, hasResource t kv.tree j = true)
    (h : pairsOf src kv.tree nodes = []) : nodes = [] := by
  refine List.eq_nil_iff_forall_not_mem.mpr fun j hj => ?_
  have hnil := List.flatMap_eq_nil_iff.mp h j hj
  rw [List.zipWith_eq_nil_iff] at hnil
  exact hnil.elim (hinv.nodePages_ne_nil (hres j hj _)) (hinv.nodePages_ne_nil (hres j hj _))

/-- Nodes that can be given pages of tier `t` for copies of what they hold on the other tier. -/
structure Attachable (t : ResourceType) (tree : Heap TreeNode) (nodes : List NodeId) : Prop where
  nodup : nodes.Nodup
  missing : ∀ j ∈ nodes, hasResource t tree j = false
  source : ∀ j ∈ nodes, hasResource t.other tree j = true

theorem quiet_loadedBack (l : List TransferPair) : Quiet kv { kv with loadedBack := l } :=
  ⟨⟨rfl,rfl,rfl,fun u => Agree.refl u _,fun u => by cases u <;> rfl⟩,fun _ _ => rfl⟩

/-- The record is invisible to the invariant. -/
theorem recordLoadBack_returns (kv : KVPrefixCache) (src dst : List PageId) :
    Returns (recordLoadBack t src dst) kv (fun _ kv' => Quiet kv kv' ∧
      (∀ u, kv'.manager u = kv.manager u) ∧
      kv'.loadedBack = (if t = .device then List.zipWith TransferPair.mk src dst else []) ++
        kv.loadedBack) := by
  unfold Returns recordLoadBack
  by_cases ht : t = .device
  · rw [if_pos ht]
    refine ⟨quiet_loadedBack _,fun u => by cases u <;> rfl,?_⟩
    rw [if_pos ht]
  · rw [if_neg ht]
    refine ⟨Quiet.refl kv,fun _ => rfl,?_⟩
    rw [if_neg ht]
    rfl

/-- Every node gets as many pages as it holds on the other tier. What is loaded back into the
device pool is recorded pair by pair. -/
theorem attachAll_returns (hinv : Inv kv refs (own t pages owned)) (hl : ∀ u, Leaves u kv [])
    (h : Attachable t kv.tree nodes) (hlen : pages.length = pagesOf t.other kv.tree nodes) :
    Returns (attachAll t nodes pages) kv (fun rest kv' => rest = [] ∧ Inv kv' refs owned ∧
      Evolves refs kv kv' ∧ Attached t nodes kv kv' ∧ (∀ u, Leaves u kv' []) ∧
      (∀ u, (kv'.manager u).allocator = (kv.manager u).allocator) ∧
      kv'.loadedBack.Perm
        ((if t = .device then pairsOf .host kv'.tree nodes else []) ++ kv.loadedBack)) := by
  induction nodes generalizing kv pages with
  | nil =>
    obtain rfl : pages = [] := List.length_eq_zero_iff.mp hlen
    rw [own_nil] at hinv
    refine ⟨rfl,hinv,Evolves.refl _ _,Attached.refl t kv,hl,fun _ => rfl,?_⟩
    split <;> simp [pairsOf]
  | cons i nodes ih =>
    obtain ⟨hni,hnodup⟩ := List.nodup_cons.mp h.nodup
    have hno := h.missing i List.mem_cons_self
    obtain ⟨n,r,hn,hr⟩ := exists_resource_of_hasResource (h.source i List.mem_cons_self)
    have hnone : n.resource t = none := by simpa [hasResource,hn] using hno
    have hpg := nodePages_of_resource hn hr
    obtain ⟨h0,hsz⟩ := (hinv.tier t.other).size (h.source i List.mem_cons_self)
    obtain ⟨p,np,hp,_⟩ := hinv.tree.node hn h0
    have hsum : pagesOf t.other kv.tree (i :: nodes) =
        r.pages.length+pagesOf t.other kv.tree nodes := by
      simp [pagesOf,hpg]
    rw [hsum] at hlen
    unfold Returns attachAll
    apply getResource_bind hn hr
    apply takeFirst_bind (by omega) (by omega)
    dsimp only
    rw [Int.toNat_natCast]
    have hsplit := hinv
    rw [← List.take_append_drop r.pages.length pages,own_append] at hsplit
    refine ((attachResource_returns hsplit hn hp hnone ?_).keeps
      (keepsRecord_attachResource i _)).bind ?_
    · rw [List.length_take,Nat.min_eq_left (by omega),← hpg,hsz]
      simp [nodeTokens,hn]
    rintro _ kv₁ ⟨⟨hinv₁,hev₁,hatt₁,hav₁,hpg₁,hl₁,hlo₁⟩,hb₁⟩
    let fresh := if t = .device then
      List.zipWith TransferPair.mk r.pages (pages.take r.pages.length) else []
    refine (recordLoadBack_returns kv₁ r.pages (pages.take r.pages.length)).bind ?_
    rintro _ kv₂ ⟨hq₂,hm₂,hb₂⟩
    have hinv₂ := hinv₁.quiet hq₂
    have hatt₂ := hatt₁.trans (Attached.of_quiet hq₂ t)
    obtain ⟨n₂,hn₂,hv₂⟩ := hatt₂.shape.read hn
    have hn₂p : n₂.parent = n.parent := congrArg (fun v => v.1.1) hv₂
    refine ((updateLeaves_returns hinv₂.tree hn₂).keeps (keepsRecord_updateLeaves i)).bind ?_
    rintro _ kv₃ ⟨⟨hs₃,hl₃⟩,hb₃⟩
    have hinv₃ := hinv₂.quiet hs₃.quiet
    have hatt₃ : Attached t [i] kv kv₃ := hatt₂.trans (Attached.of_quiet hs₃.quiet t)
    have hleaves : ∀ u, Leaves u kv₃ [] := by
      intro u
      have hcong : ∀ {x}, Leaves u kv₁ x → Leaves u kv₂ x :=
        fun hx => hx.congr (hq₂.agree u) (by rw [hm₂]) (by rw [hm₂])
      by_cases hu : u=t
      · subst hu
        refine hl₃ [] ?_
        rw [hn₂p]
        exact hcong (hl₁ [] (hl u))
      · exact hs₃.leaves hu (hcong (hlo₁ u hu [] (hl u)))
    have hother := hatt₃.shape
    have hrest : Attachable t kv₃.tree nodes := by
      refine ⟨hnodup,fun j hj => ?_,fun j hj => ?_⟩
      · have hji : j ≠ i := by
          rintro rfl
          exact hni hj
        by_contra hyes
        rw [Bool.not_eq_false,hatt₃.resident,h.missing j (List.mem_cons_of_mem _ hj)] at hyes
        simp [hji] at hyes
      · rw [hother.hasResource_eq]
        exact h.source j (List.mem_cons_of_mem _ hj)
    refine (ih hinv₃ hleaves hrest ?_).runs ?_
    · rw [List.length_drop,hlen]
      have : pagesOf t.other kv₃.tree nodes = pagesOf t.other kv.tree nodes := by
        unfold pagesOf
        rw [funext hother.nodePages_eq]
      omega
    rintro rest kv₄ ⟨hrest₄,hinv₄,hev₄,hatt₄,hl₄,hav₄,hb₄⟩
    refine ⟨hrest₄,hinv₄,((hev₁.trans (hq₂.evolves refs)).trans (hs₃.quiet.evolves refs)).trans hev₄,
      hatt₃.trans hatt₄,hl₄,fun u => ?_,?_⟩
    · rw [hav₄,hs₃.quiet.allocator,hm₂,hav₁]
    · have hres₃ : hasResource t kv₃.tree i = true :=
        (hatt₃.resident i).mpr (Or.inr List.mem_cons_self)
      have hpg₄ : nodePages t kv₄.tree i = pages.take r.pages.length := by
        rw [hatt₄.kept i hres₃,(hs₃.quiet.agree t).nodePages_eq,(hq₂.agree t).nodePages_eq,hpg₁]
      have hpo₄ : nodePages t.other kv₄.tree i = r.pages := by
        rw [hatt₄.shape.nodePages_eq,hother.nodePages_eq,hpg]
      refine hb₄.trans ?_
      rw [hb₃,hb₂,hb₁]
      change (_ ++ (fresh ++ kv.loadedBack)).Perm _
      by_cases ht : t = .device
      · subst ht
        have hcons : pairsOf .host kv₄.tree (i :: nodes) =
            fresh ++ pairsOf .host kv₄.tree nodes := by
          simp only [pairsOf,List.flatMap_cons,fresh,if_true]
          congr 1
          exact congrArg₂ (List.zipWith TransferPair.mk) hpo₄ hpg₄
        simp only [if_true]
        rw [hcons,← List.append_assoc]
        exact List.Perm.append_right _ List.perm_append_comm
      · simp only [fresh,if_neg ht]
        exact List.Perm.refl _

section Allocate

variable {terminal : NodeId}

theorem Between.attachable (hb : Between t kv.tree m nodes) (hm : Matched T kv.tree m terminal)
    (hT : TreeOK kv.pageSize kv.tree) : Attachable t kv.tree nodes :=
  ⟨hb.nodup,hb.missing,fun j hj => hm.path hT t.other j (hb.path hj)⟩

/-- The pages a copy takes are the difference of the match depths. -/
theorem Between.pagesOf_eq (hb : Between t kv.tree m nodes) (hm : Matched T kv.tree m terminal)
    (hinv : KVInv kv refs owned) :
    pagesOf t.other kv.tree nodes*kv.pageSize =
      nodeDepth kv.tree (m.last t.other)-nodeDepth kv.tree (m.last t) := by
  have hsum : pagesOf t.other kv.tree nodes*kv.pageSize =
      (nodes.map fun k => (nodeTokens kv.tree k).length).sum := by
    have hsrc := (hb.attachable hm hinv.inv.tree).source
    clear hb
    induction nodes with
    | nil => simp [pagesOf]
    | cons i nodes ih =>
      have ih := ih fun j hj => hsrc j (List.mem_cons_of_mem _ hj)
      have hi := ((hinv.inv.tier t.other).size (hsrc i List.mem_cons_self)).2
      simp only [pagesOf,List.map_cons,List.sum_cons,Nat.add_mul] at ih ⊢
      omega
  rcases Nat.le_total (nodeDepth kv.tree (m.last t)) (nodeDepth kv.tree (m.last t.other)) with
    hle | hle
  · have := hb.depth_eq hle
    omega
  · have hnil := hb.empty hle
    subst hnil
    simp only [pagesOf,List.map_nil,List.sum_nil,Nat.zero_mul]
    omega

/-- The pages a tier lacks of a match, as its callers count them. -/
theorem pagesOf_missing (hm : Matched T kv.tree m terminal) (hinv : KVInv kv refs owned)
    (t : ResourceType) :
    pagesOf t.other kv.tree (missing t kv.tree m) =
      nodeDepth kv.tree (m.last t.other)/kv.pageSize-nodeDepth kv.tree (m.last t)/kv.pageSize := by
  have hT := hinv.inv.tree
  have hpos := hT.pageSize_pos
  have hpages := (between_of_matched hm hT t).pagesOf_eq hm hinv
  obtain ⟨n,hn⟩ := (hm.stop t).live
  obtain ⟨k,hk⟩ := (hm.stop t.other).live
  obtain ⟨a,ha⟩ := hT.pageSize_dvd_depth hn
  obtain ⟨b,hb⟩ := hT.pageSize_dvd_depth hk
  rw [nodeDepth_of_read hn,nodeDepth_of_read hk,ha,hb] at hpages ⊢
  rw [Nat.mul_div_cancel_left _ hpos,Nat.mul_div_cancel_left _ hpos]
  rw [← Nat.mul_sub,mul_comm] at hpages
  exact Nat.eq_of_mul_eq_mul_left hpos hpages

/-- What `AllocateResourceOfType` has done when it returns true. -/
structure Copied (t : ResourceType) (refs : ResourceType → Multiset NodeId)
    (owned : ResourceType → Multiset PageId) (m : MatchResult) (nodes : List NodeId)
    (kv kv' : KVPrefixCache) : Prop where
  kvInv : KVInv kv' refs owned
  evolves : Evolves refs kv kv'
  attached : Attached t nodes kv kv'
  resident : ∀ j ∈ leafToRoot kv'.tree (m.last t.other), hasResource t kv'.tree j = true
  available : kv.availablePages t = kv'.availablePages t+pagesOf t.other kv.tree nodes
  returned : ∀ u, (kv'.manager u).allocator.returned = (kv.manager u).allocator.returned
  loadedBack : kv'.loadedBack.Perm
    ((if t = .device then pairsOf .host kv'.tree nodes else []) ++ kv.loadedBack)

/-- All of the copy's pages or none. -/
theorem allocateResourceOfType_returns (hinv : KVInv kv refs owned)
    (hm : Matched T kv.tree m terminal) (hb : Between t kv.tree m nodes) :
    Returns (allocateResourceOfType t nodes) kv (fun ok kv' =>
      (ok = true ∧ pagesOf t.other kv.tree nodes ≤ kv.availablePages t ∧
        Copied t refs owned m nodes kv kv') ∨
      (ok = false ∧ kv.availablePages t < pagesOf t.other kv.tree nodes ∧
        KVInv kv' refs owned ∧ Evolves refs kv kv' ∧ AllocStep t kv kv' ∧
        ∀ u, (kv'.manager u).allocator.returned = (kv.manager u).allocator.returned)) := by
  have hT := hinv.inv.tree
  have hatt := hb.attachable hm hT
  unfold Returns allocateResourceOfType
  refine (countPages_returns hatt.source).bind ?_
  rintro total kv ⟨rfl,rfl⟩
  refine ((allocatePages_returns hinv.inv _).keeps (keepsRecord_allocatePages _)).bind ?_
  rintro pages kv₁ ⟨⟨hinv₁,hev₁,hstep₁,hav₁,hall,hnone,hret₁⟩,hb₁⟩
  split
  · next hlt =>
    have hless : kv.availablePages t < pagesOf t.other kv.tree nodes := by
      by_contra hge
      have := hall (by omega)
      omega
    have hnil : pages = [] := hnone (by exact_mod_cast hless)
    subst hnil
    rw [own_nil] at hinv₁
    exact Or.inr ⟨rfl,hless,hstep₁.kvInv hinv hinv₁,hev₁,hstep₁,hret₁⟩
  · next hge =>
    have hlen : pages.length = pagesOf t.other kv.tree nodes := by
      by_cases hless : (kv.availablePages t : Int) < pagesOf t.other kv.tree nodes
      · have := hnone hless
        subst this
        simp at hge
        omega
      · have := hall (by omega)
        omega
    have hle : pagesOf t.other kv.tree nodes ≤ kv.availablePages t := by omega
    have hcongr : pagesOf t.other kv₁.tree nodes = pagesOf t.other kv.tree nodes := by
      rw [hstep₁.tree]
    refine (attachAll_returns hinv₁ (fun u => hstep₁.leaves (hinv.leaves u))
      (by rw [hstep₁.tree]; exact hatt) (by rw [hcongr,hlen])).bind ?_
    rintro rest kv₂ ⟨rfl,hinv₂,hev₂,hatt₂,hl₂,hav₂,hb₂⟩
    refine (returns_of_ok (deallocatePages_nil kv₂) rfl :
      Returns _ kv₂ fun _ kv' => kv' = kv₂).bind ?_
    rintro _ kv₃ rfl
    have hatt₃ := Attached.alloc_left hstep₁ hatt₂
    have hresident : ∀ j ∈ leafToRoot kv.tree (m.last t.other), hasResource t kv₃.tree j = true := by
      intro j hj
      rw [hatt₃.resident]
      exact (hb.covered j hj).symm
    refine Or.inl ⟨rfl,hle,⟨hinv₂,hl₂,hatt₃.closed hT hinv.closed hb.path hresident⟩,
      hev₁.trans hev₂,hatt₃,?_,?_,fun u => ?_,?_⟩
    · rw [hatt₃.shape.leafToRoot_eq]
      exact hresident
    · rw [hav₁,hlen]
      unfold availablePages
      rw [hav₂]
    · rw [hav₂,hret₁]
    · rw [hb₁] at hb₂
      exact hb₂

end Allocate

end FluxServe
