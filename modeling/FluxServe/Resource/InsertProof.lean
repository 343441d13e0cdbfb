import FluxServe.Resource.AttachProof
import Mathlib.Algebra.Order.Ring.Int
import Mathlib.Tactic.Ring

namespace FluxServe

open KVPrefixCache

variable {t u : ResourceType} {i j p d x : NodeId} {n : TreeNode} {kv kv' kv₀ kv₂ : KVPrefixCache}
  {alloc prefixPages : List PageId} {s : Insertion} {T : List Token} {start : Nat} {last : NodeId}
  {refs : ResourceType → Multiset NodeId} {owned : ResourceType → Multiset PageId}

/-- What the way up of `Insert` is given: the walk has reached `last`, and the pages in `alloc`
continue the path of the pinned node `d`. -/
structure Insertable (t : ResourceType)
    (kv : KVPrefixCache) (last d : NodeId) (start : Nat) (alloc : List PageId) : Prop where
  live : ∃ n, kv.tree.read last = some n
  onPath : d = 0 ∨ d ∈ leafToRoot kv.tree last
  pinned : ∀ j ∈ leafToRoot kv.tree d, hasResource t kv.tree j = true
  depth : start*kv.pageSize = nodeDepth kv.tree d
  length : (start+alloc.length)*kv.pageSize = nodeDepth kv.tree last

/-- The nodes of the way up that got pages hold those of their positions. -/
def Filled (t : ResourceType) (start : Nat) (alloc : List PageId) (kv₂ kv : KVPrefixCache)
    (last : NodeId) : Prop :=
  ∀ j n p, kv₂.tree.read j = some n → n.parent = some p → j ∈ leafToRoot kv₂.tree last →
    hasResource t kv₂.tree j = false → hasResource t kv.tree j = true →
    ∃ k : Nat, (start+k)*kv₂.pageSize = nodeDepth kv₂.tree p ∧
      nodePages t kv.tree j = (alloc.drop k).take (n.tokens.length/kv₂.pageSize)

/-- Between two nodes of the way up; `x` is the next node to be visited. -/
structure Inserting (t : ResourceType) (refs : ResourceType → Multiset NodeId)
    (owned : ResourceType → Multiset PageId) (start : Nat) (alloc : List PageId)
    (kv₂ : KVPrefixCache) (last x : NodeId) (kv : KVPrefixCache) (s : Insertion) : Prop where
  inv : Inv kv refs (own t (s.unconsumed ++ s.allocatorPages) owned)
  evolves : Evolves refs kv₂ kv
  leaves : ∀ u, Leaves u kv []
  attached : ∃ nodes, nodes ⊆ leafToRoot kv₂.tree last ∧ Attached t nodes kv₂ kv ∧
    ∀ j ∈ leafToRoot kv₂.tree last,
      j ∈ nodes ∨ hasResource t kv₂.tree j = true ∨ j ∈ leafToRoot kv₂.tree x
  live : ∃ n, kv₂.tree.read x = some n
  onPath : x = 0 ∨ x ∈ leafToRoot kv₂.tree last
  remaining : s.remainingPages*kv₂.pageSize = nodeDepth kv₂.tree x
  pages : s.allocatorPages = alloc.take (s.remainingPages-start).toNat
  filled : Filled t start alloc kv₂ kv last

theorem nodeDepth_of_read {tree : Heap TreeNode} (hi : tree.read i = some n) :
    nodeDepth tree i = n.depthInTokens := by
  simp [nodeDepth,hi]

/-- Where the path of `d` is resident, a node without pages lies below `d`. -/
theorem Insertable.below (h : Insertable t kv last d start alloc)
    (hT : TreeOK kv.pageSize kv.tree) (hx : x ∈ leafToRoot kv.tree last)
    (hi : kv.tree.read x = some n) (hp : n.parent = some p)
    (hno : hasResource t kv.tree x = false) :
    nodeDepth kv.tree d ≤ nodeDepth kv.tree p := by
  obtain ⟨nl,hnl⟩ := h.live
  obtain ⟨np,hnp,_⟩ := hT.parent hi hp
  have hon : d = 0 ∨ d ∈ leafToRoot kv.tree p := by
    by_cases hd0 : d=0
    · exact Or.inl hd0
    · have hd := h.onPath.resolve_left hd0
      obtain ⟨nd,qd,hnd,hqd,_⟩ := hT.mem_leafToRoot hd
      have hdpre := hT.pathTokens_prefix hnl (Or.inr hd)
      have hxpre := hT.pathTokens_prefix hnl (Or.inr hx)
      rcases Nat.le_total (pathTokens kv.tree x).length (pathTokens kv.tree d).length with hle | hle
      · have hmem := hT.mem_leafToRoot_of_prefix hi hnd
          (List.prefix_of_prefix_length_le hxpre hdpre hle)
        rcases hmem with rfl | hmem
        · exact absurd rfl (hT.ne_zero hi hp)
        · rw [h.pinned x hmem] at hno
          cases hno
      · have hmem := hT.mem_leafToRoot_of_prefix hnd hi
          (List.prefix_of_prefix_length_le hdpre hxpre hle)
        rw [hT.leafToRoot_cons hi hp,List.mem_cons] at hmem
        rcases hmem with h0 | rfl | hmem
        · exact Or.inl h0
        · rw [h.pinned d (hT.self_mem_leafToRoot hnd hqd)] at hno
          cases hno
        · exact Or.inr hmem
  have hlen := (hT.pathTokens_prefix hnp hon).length_le
  rcases hon with rfl | hon
  · obtain ⟨n0,hn0,_,_,hd0⟩ := hT.root
    rw [nodeDepth_of_read hn0,hd0]
    exact Nat.zero_le _
  · have := hT.depth_le_of_mem hnp hon
    rwa [nodeDepth_of_read hnp]

/-- One node of the way up. -/
theorem insertNode_returns (hz : Insertable t kv₂ last d start alloc)
    (hT : TreeOK kv₂.pageSize kv₂.tree) (h : Inserting t refs owned start alloc kv₂ last x kv s)
    (hn : kv₂.tree.read x = some n) (hp : n.parent = some p) :
    Returns (insertNode t start x s) kv (fun r kv' => r.1 = true ∧
      Inserting t refs owned start alloc kv₂ last p kv' r.2) := by
  obtain ⟨nodes,hsub,hatt,hvis⟩ := h.attached
  obtain ⟨np,hnp,hdep,htok,hdvd⟩ := hT.parent hn hp
  have hx : x ∈ leafToRoot kv₂.tree last := h.onPath.resolve_left (hT.ne_zero hn hp)
  have hps := hT.pageSize_pos
  obtain ⟨k,hk⟩ := hdvd
  have hkpos : 0 < k := by
    rcases Nat.eq_zero_or_pos k with rfl | hpos
    · exact absurd (List.length_eq_zero_iff.mp (by rw [hk,Nat.mul_zero])) htok
    · exact hpos
  have hpsz : kv.pageSize = kv₂.pageSize := h.evolves.pageSize
  -- positions, in pages
  have hrem := h.remaining
  rw [nodeDepth_of_read hn] at hrem
  have hremp : (s.remainingPages-k)*kv₂.pageSize = nodeDepth kv₂.tree p := by
    rw [nodeDepth_of_read hnp,sub_mul,hrem,hdep,hk]
    push_cast
    ring
  have hnonneg : 0 ≤ s.remainingPages-k := by
    by_contra hneg
    have : (s.remainingPages-k)*(kv₂.pageSize : Int) < 0 :=
      mul_neg_of_neg_of_pos (by omega) (by exact_mod_cast hps)
    rw [hremp] at this
    omega
  have hlast : s.remainingPages ≤ start+alloc.length := by
    obtain ⟨nl,hnl⟩ := hz.live
    have hle := hT.depth_le_of_mem hnl hx
    have hl := hz.length
    rw [nodeDepth_of_read hnl] at hl
    rw [nodeDepth_of_read hn] at hle
    have hmul : s.remainingPages*(kv₂.pageSize : Int) ≤ (start+alloc.length : Nat)*kv₂.pageSize := by
      rw [hrem]
      exact_mod_cast hle.trans hl.ge
    have := le_of_mul_le_mul_right hmul (by exact_mod_cast hps)
    push_cast at this
    exact this
  have hlen : (s.allocatorPages.length : Int) = max 0 (s.remainingPages-start) := by
    rw [h.pages,List.length_take]
    omega
  -- the node in the state the way up has reached
  obtain ⟨m,hm,hv⟩ := hatt.shape.read hn
  have hmp : m.parent = some p := (congrArg (fun v => v.1.1) hv).trans hp
  have hmt : m.tokens = n.tokens := congrArg (fun v => v.1.2.1) hv
  have hnum : (m.tokens.length : Int)/(kv.pageSize : Int) = k := by
    rw [hmt,hk,hpsz]
    push_cast
    exact Int.mul_ediv_cancel_left _ (by omega)
  have hxp : ∀ j ∈ leafToRoot kv₂.tree x, j = x ∨ j ∈ leafToRoot kv₂.tree p := by
    intro j hj
    rw [hT.leafToRoot_cons hn hp] at hj
    exact List.mem_cons.mp hj
  have hpon : p = 0 ∨ p ∈ leafToRoot kv₂.tree last := by
    by_cases hp0 : p=0
    · exact Or.inl hp0
    · obtain ⟨q,_,hq,_⟩ := hT.node hnp hp0
      refine Or.inr (hT.mem_leafToRoot_trans ?_ hx)
      rw [hT.leafToRoot_cons hn hp]
      exact List.mem_cons_of_mem _ (hT.self_mem_leafToRoot hnp hq)
  have hdrop : ∀ q : Nat, (q : Int) = s.allocatorPages.length-max 0 (s.remainingPages-k-start) →
      s.allocatorPages.take (s.allocatorPages.length-q) =
        alloc.take (s.remainingPages-k-start).toNat := by
    intro q hq
    rw [h.pages] at hq ⊢
    rw [List.take_take]
    congr 1
    rw [← h.pages] at hq ⊢
    omega
  unfold Returns insertNode
  apply getNode_bind hm
  rw [runs_bind,runs_get]
  dsimp only
  rw [hnum,if_neg (by omega)]
  by_cases hres : (m.resource t).isSome = true
  · -- the node has pages already: the overlap is not consumed
    have hres₂ : hasResource t kv₂.tree x = true ∨ x ∈ nodes := by
      rw [← hatt.resident]
      simpa [hasResource,hm] using hres
    have hvis' : ∀ j ∈ leafToRoot kv₂.tree last,
        j ∈ nodes ∨ hasResource t kv₂.tree j = true ∨ j ∈ leafToRoot kv₂.tree p := by
      intro j hj
      rcases hvis j hj with hj | hj | hj
      · exact Or.inl hj
      · exact Or.inr (Or.inl hj)
      · rcases hxp j hj with rfl | hj
        · exact hres₂.elim (fun h => Or.inr (Or.inl h)) Or.inl
        · exact Or.inr (Or.inr hj)
    rw [if_pos hres]
    unfold allocOverlap
    split
    · next hover =>
      apply takeLast_bind (by omega) (by omega)
      refine ⟨rfl,⟨?_,h.evolves,h.leaves,⟨nodes,hsub,hatt,hvis'⟩,⟨np,hnp⟩,hpon,hremp,?_,h.filled⟩⟩
      · refine (own_perm ?_) ▸ h.inv
        rw [List.append_assoc]
        refine List.Perm.append_left _ ?_
        exact (List.Perm.of_eq (List.take_append_drop _ s.allocatorPages).symm).trans
          List.perm_append_comm
      · exact hdrop _ (by omega)
    · next hover =>
      refine ⟨rfl,⟨h.inv,h.evolves,h.leaves,⟨nodes,hsub,hatt,hvis'⟩,⟨np,hnp⟩,hpon,hremp,?_,
        h.filled⟩⟩
      have := hdrop 0 (by push_cast; omega)
      simpa using this
  · -- the node gets the last of the pages
    rw [if_neg hres]
    have hnone : m.resource t = none := by simpa using hres
    have hno₂ : hasResource t kv₂.tree x = false := by
      by_contra hyes
      rw [Bool.not_eq_false] at hyes
      have := (hatt.resident x).mpr (Or.inl hyes)
      simp [hasResource,hm,hnone] at this
    have hbelow := hz.below hT hx hn hp hno₂
    have hstart : (start : Int) ≤ s.remainingPages-k := by
      have h1 := hz.depth
      have hmul : (start : Int)*kv₂.pageSize ≤ (s.remainingPages-k)*kv₂.pageSize := by
        rw [hremp]
        exact_mod_cast h1.le.trans hbelow
      exact le_of_mul_le_mul_right hmul (by exact_mod_cast hps)
    apply takeLast_bind (by omega) (by omega)
    have hsplit : s.unconsumed ++ s.allocatorPages =
        (s.unconsumed ++ s.allocatorPages.take (s.allocatorPages.length-(k : Int).toNat)) ++
          s.allocatorPages.drop (s.allocatorPages.length-(k : Int).toNat) := by
      rw [List.append_assoc,List.take_append_drop]
    have hinv := h.inv
    rw [hsplit,own_perm List.perm_append_comm,own_append] at hinv
    refine (attachResource_returns hinv hm hmp hnone ?_).bind ?_
    · rw [List.length_drop,hmt,hk,hpsz,Nat.mul_comm]
      congr 1
      omega
    · rintro _ kv₃ ⟨hinv₃,hev₃,hatt₃,_,hpages₃,hl₃,hlo₃⟩
      obtain ⟨m₃,hm₃,hv₃⟩ := hatt₃.shape.read hm
      have hm₃p : m₃.parent = some p := (congrArg (fun v => v.1.1) hv₃).trans hmp
      refine (updateLeaves_returns hinv₃.tree hm₃).bind ?_
      rintro _ kv₄ ⟨hs₄,hl₄⟩
      refine ⟨rfl,⟨hinv₃.quiet hs₄.quiet,(h.evolves.trans hev₃).trans (hs₄.quiet.evolves refs),
        fun u => ?_,⟨nodes ++ [x] ++ [],?_,(hatt.trans hatt₃).trans (Attached.of_quiet hs₄.quiet t),
        fun j hj => ?_⟩,⟨np,hnp⟩,hpon,hremp,hdrop _ (by omega),fun j nj pj hj hpj hlj hno hyes => ?_⟩⟩
      · by_cases hu : u=t
        · subst hu
          refine hl₄ [] ?_
          have := hl₃ [] (h.leaves u)
          rw [hmp] at this
          rw [hm₃p]
          exact this
        · exact hs₄.leaves hu (hlo₃ u hu [] (h.leaves u))
      · intro j hj
        simp only [List.append_nil,List.mem_append,List.mem_singleton] at hj
        rcases hj with hj | rfl
        · exact hsub hj
        · exact hx
      · simp only [List.append_nil,List.mem_append,List.mem_singleton]
        rcases hvis j hj with hj | hj | hj
        · exact Or.inl (Or.inl hj)
        · exact Or.inr (Or.inl hj)
        · rcases hxp j hj with rfl | hj
          · exact Or.inl (Or.inr rfl)
          · exact Or.inr (Or.inr hj)
      · rw [(hs₄.quiet.agree t).hasResource_eq,hatt₃.resident,List.mem_singleton] at hyes
        rw [(hs₄.quiet.agree t).nodePages_eq]
        rcases hyes with hyes | rfl
        · rw [hatt₃.kept j hyes]
          exact h.filled j nj pj hj hpj hlj hno hyes
        · -- the last `k` of the pages up to this position
          obtain rfl : n = nj := Option.some.inj (hn.symm.trans hj)
          obtain rfl : p = pj := Option.some.inj (hp.symm.trans hpj)
          refine ⟨(s.remainingPages-k-start).toNat,?_,?_⟩
          · have hcast : ((start+(s.remainingPages-k-start).toNat : Nat) : Int) =
                s.remainingPages-k := by
              push_cast
              omega
            have hmul : ((start+(s.remainingPages-k-start).toNat : Nat) : Int)*kv₂.pageSize =
                nodeDepth kv₂.tree p := by
              rw [hcast,hremp]
            exact_mod_cast hmul
          · have hidx : s.allocatorPages.length-(k : Int).toNat =
                (s.remainingPages-k-start).toNat := by
              omega
            rw [hpages₃,hk,Nat.mul_div_cancel_left _ hps,hidx,h.pages,List.drop_take]
            congr 1
            omega

theorem insertLoop_returns (hz : Insertable t kv₂ last d start alloc)
    (hT : TreeOK kv₂.pageSize kv₂.tree) (h : Inserting t refs owned start alloc kv₂ last x kv s) :
    Returns (insertLoop t start (leafToRoot kv₂.tree x) s) kv
      (fun s' kv' => Inserting t refs owned start alloc kv₂ last 0 kv' s') := by
  obtain ⟨n,hn⟩ := h.live
  revert kv s
  refine hT.induction (P := fun x => ∀ {kv s}, Inserting t refs owned start alloc kv₂ last x kv s →
    Returns (insertLoop t start (leafToRoot kv₂.tree x) s) kv
      (fun s' kv' => Inserting t refs owned start alloc kv₂ last 0 kv' s')) ?_ ?_ x n hn
  · intro kv s h
    rw [hT.leafToRoot_zero]
    exact h
  · intro x n p hn hp ih kv s h
    rw [hT.leafToRoot_cons hn hp]
    unfold Returns insertLoop
    refine ((insertNode_returns hz hT h hn hp).unwinding _).bind ?_
    rintro ⟨b,s'⟩ kv' ⟨rfl,h'⟩
    exact ih h'

/-- What `Insert` for `T` achieves on tier `t`: the path of `last` stands for `T` and is resident;
pages were attached to nodes of that path only. -/
structure InsertedAt (t : ResourceType) (T : List Token) (kv kv' : KVPrefixCache) (last : NodeId) :
    Prop where
  change : ∃ o kv₂ nodes, Grows o kv kv₂ ∧ Attached t nodes kv₂ kv' ∧
    nodes ⊆ leafToRoot kv'.tree last
  live : ∃ n, kv'.tree.read last = some n
  tokens : pathTokens kv'.tree last = T
  resident : ∀ j ∈ leafToRoot kv'.tree last, hasResource t kv'.tree j = true

/-- Residency stays closed when the whole path of a node gets pages. -/
theorem Attached.closed {nodes : List NodeId} (h : Attached t nodes kv kv')
    (hT : TreeOK kv.pageSize kv.tree) (hc : ∀ u, Closed u kv.tree)
    (hsub : nodes ⊆ leafToRoot kv.tree last)
    (hall : ∀ j ∈ leafToRoot kv.tree last, hasResource t kv'.tree j = true) (u : ResourceType) :
    Closed u kv'.tree := by
  by_cases hu : u=t
  · subst hu
    intro i n' p hi hp hp0 hr
    obtain ⟨n,hn,hv⟩ := h.shape.symm.read hi
    have hnp : n.parent = some p := (congrArg (fun v => v.1.1) hv).trans hp
    rcases (h.resident i).mp hr with hr | hm
    · exact (h.resident p).mpr (Or.inl (hc u i n p hn hnp hp0 hr))
    · obtain ⟨np,hrp,_⟩ := hT.parent hn hnp
      obtain ⟨q,_,hq,_⟩ := hT.node hrp hp0
      refine hall p (hT.mem_leafToRoot_trans ?_ (hsub hm))
      rw [hT.leafToRoot_cons hn hnp]
      exact List.mem_cons_of_mem _ (hT.self_mem_leafToRoot hrp hq)
  · exact (hc u).congr (h.agree u hu)

/-- `Insert` once the walk is done. -/
theorem insertPath_returns (hz : Insertable t kv₂ last d start alloc)
    (hinv : KVInv kv₂ refs (own t alloc owned)) :
    Returns (do
      let s ← insertLoop t start (leafToRoot kv₂.tree last)
        { remainingPages := start+alloc.length, allocatorPages := alloc }
      releaseInsertion t s
      return (⟨last,s.insertedNumPages⟩ : InsertResult)) kv₂ (fun r kv' => r.lastNode = last ∧
        KVInv kv' refs owned ∧ Evolves refs kv₂ kv' ∧
        (∀ j ∈ leafToRoot kv₂.tree last, hasResource t kv'.tree j = true) ∧
        ∃ nodes, Attached t nodes kv₂ kv' ∧ nodes ⊆ leafToRoot kv₂.tree last ∧
          Filled t start alloc kv₂ kv' last) := by
  have hT := hinv.inv.tree
  obtain ⟨nl,hnl⟩ := hz.live
  have h₀ : Inserting t refs owned start alloc kv₂ last last kv₂
      { remainingPages := start+alloc.length, allocatorPages := alloc } := by
    refine ⟨by simpa using hinv.inv,Evolves.refl _ _,hinv.leaves,
      ⟨[],by simp,Attached.refl t kv₂,fun j hj => Or.inr (Or.inr hj)⟩,⟨nl,hnl⟩,?_,?_,?_,
      fun j n p _ _ _ hno hyes => by rw [hyes] at hno; cases hno⟩
    · by_cases h0 : last=0
      · exact Or.inl h0
      · obtain ⟨q,_,hq,_⟩ := hT.node hnl h0
        exact Or.inr (hT.self_mem_leafToRoot hnl hq)
    · dsimp only
      exact_mod_cast hz.length
    · dsimp only
      rw [List.take_of_length_le (by omega)]
  unfold Returns
  refine (insertLoop_returns hz hT h₀).bind ?_
  intro s kv₃ h₃
  obtain ⟨nodes,hsub,hatt,hvis⟩ := h₃.attached
  have hrem : s.remainingPages = 0 := by
    obtain ⟨r,hr,_,_,hd⟩ := hT.root
    have := h₃.remaining
    rw [nodeDepth_of_read hr,hd] at this
    have hps := hT.pageSize_pos
    rcases Int.mul_eq_zero.mp this with h | h
    · exact h
    · omega
  have hnil : s.allocatorPages = [] := by
    rw [h₃.pages,hrem]
    have : (0-(start : Int)).toNat = 0 := by omega
    rw [this,List.take_zero]
  have hinv₃ := h₃.inv
  rw [hnil,List.append_nil] at hinv₃
  unfold releaseInsertion
  rw [hnil,bind_assoc]
  refine (deallocatePages_returns hinv₃).bind ?_
  rintro _ kv₅ ⟨hinv₅,hev₅,hstep₅,_⟩
  refine (returns_of_ok (deallocatePages_nil kv₅) rfl : Returns _ kv₅ fun _ kv' => kv' = kv₅).bind ?_
  rintro _ kv₅ rfl
  have hatt₅ := hatt.alloc_right hstep₅
  have hall : ∀ j ∈ leafToRoot kv₂.tree last, hasResource t kv₅.tree j = true := by
    intro j hj
    rw [hatt₅.resident]
    rcases hvis j hj with hj | hj | hj
    · exact Or.inr hj
    · exact Or.inl hj
    · rw [hT.leafToRoot_zero] at hj
      cases hj
  exact ⟨rfl,⟨hinv₅,fun u => hstep₅.leaves (h₃.leaves u),
    hatt₅.closed hT hinv.closed hsub hall⟩,h₃.evolves.trans hev₅,hall,
    nodes,hatt₅,hsub,by
      unfold Filled
      rw [hstep₅.tree]
      exact h₃.filled⟩

theorem readClock_returns (hinv : KVInv kv refs owned) :
    Returns readClock kv (fun _ kv' => KVInv kv' refs owned ∧ Quiet kv kv' ∧
      ∀ u, kv'.manager u = kv.manager u) := by
  have hq : Quiet kv { kv with readings := kv.readings+1 } :=
    ⟨⟨rfl,rfl,rfl,fun u => Agree.refl u _,fun u => by cases u <;> rfl⟩,fun _ _ => rfl⟩
  have hm : ∀ u, ({ kv with readings := kv.readings+1 } : KVPrefixCache).manager u =
      kv.manager u := by
    intro u
    cases u <;> rfl
  exact ⟨kvInv_of_quiet hq hm hinv,hq,hm⟩

theorem KVPrefixCache.KVInv.live {r : NodeId} (hinv : KVInv kv refs owned) (hr : r ∈ refs t) :
    ∃ n, kv.tree.read r = some n :=
  ((hinv.inv.tier t).pinned hr).1

/-- The tokens left when a walk for whole pages ends are whole pages. -/
theorem Walked.dvd_remaining {w : WalkResult} (h : Walked refs owned T kv kv' w)
    (hT : kv'.pageSize ∣ T.length) : kv'.pageSize ∣ w.remainingTokens.length := by
  obtain ⟨n,hn⟩ := h.live
  have hlen := congrArg List.length h.tokens
  rw [List.length_append,h.kvInv.inv.tree.pathTokens_length hn] at hlen
  have hd := h.kvInv.inv.tree.pageSize_dvd_depth hn
  rw [← hlen] at hT
  exact (Nat.dvd_add_right hd).mp hT

/-- What `Insert` puts where: the tree grows, then the nodes without pages on the way get theirs. -/
structure InsertedPages (t : ResourceType) (refs : ResourceType → Multiset NodeId)
    (owned : ResourceType → Multiset PageId) (T : List Token) (start : Nat) (alloc : List PageId)
    (kv kv₂ kv' : KVPrefixCache) (last : NodeId) : Prop where
  grows : ∃ o, Grows o kv kv₂
  kvInv : KVInv kv₂ refs (own t alloc owned)
  live : ∃ n, kv₂.tree.read last = some n
  tokens : pathTokens kv₂.tree last = T
  attached : ∃ nodes, Attached t nodes kv₂ kv' ∧ nodes ⊆ leafToRoot kv₂.tree last
  resident : ∀ j ∈ leafToRoot kv₂.tree last, hasResource t kv'.tree j = true
  filled : Filled t start alloc kv₂ kv' last

theorem InsertedPages.insertedAt {kv₂ : KVPrefixCache}
    (h : InsertedPages t refs owned T start alloc kv kv₂ kv' last) : InsertedAt t T kv kv' last := by
  obtain ⟨o,hg⟩ := h.grows
  obtain ⟨nodes,hatt,hsub⟩ := h.attached
  obtain ⟨n,hn⟩ := h.live
  obtain ⟨n',hn',_⟩ := hatt.shape.read hn
  refine ⟨⟨o,kv₂,nodes,hg,hatt,?_⟩,⟨n',hn'⟩,?_,?_⟩
  · rw [hatt.shape.leafToRoot_eq]
    exact hsub
  · rw [hatt.shape.pathTokens_eq,h.tokens]
  · rw [hatt.shape.leafToRoot_eq]
    exact h.resident

/-- `Insert` of pages that continue the path of a pinned node neither throws nor loses a page. -/
theorem insert_pages (hinv : KVInv kv refs (own t alloc owned)) (hd : d ∈ refs t)
    (hdT : pathTokens kv.tree d <+: T) (hpre : prefixPages.length*kv.pageSize =
      (pathTokens kv.tree d).length) (hdvd : kv.pageSize ∣ T.length)
    (hlen : (prefixPages.length+alloc.length)*kv.pageSize = T.length) :
    Returns (insert t T prefixPages alloc) kv (fun r kv' => KVInv kv' refs owned ∧
      Evolves refs kv kv' ∧
      ∃ kv₂, InsertedPages t refs owned T prefixPages.length alloc kv kv₂ kv' r.lastNode) := by
  have hps := hinv.inv.tree.pageSize_pos
  have hmod : T.length % kv.pageSize = 0 := Nat.mod_eq_zero_of_dvd hdvd
  have htotal : T.length/kv.pageSize = prefixPages.length+alloc.length := by
    rw [← hlen,Nat.mul_div_cancel _ hps]
  unfold Returns insert
  rw [runs_bind,runs_get]
  dsimp only
  rw [if_neg (by simpa using hmod),htotal]
  split
  · next hzero =>
    have hnil : T = [] := List.length_eq_zero_iff.mp (by rw [← hlen,hzero,Nat.zero_mul])
    refine (deallocatePages_returns hinv.inv).bind ?_
    rintro _ kv' ⟨hinv',hev,hstep,_⟩
    obtain ⟨r,hr,_⟩ := hinv.inv.tree.root
    have h0 := hinv.inv.tree.leafToRoot_zero
    refine ⟨hstep.kvInv hinv hinv',hev,kv,⟨id,Grows.refl kv⟩,hinv,⟨r,hr⟩,?_,
      ⟨[],(Attached.refl t kv).alloc_right hstep,by simp⟩,by rw [h0]; simp,?_⟩
    · rw [hinv.inv.tree.pathTokens_zero,hnil]
    · intro j n p _ _ hj
      rw [h0] at hj
      cases hj
  · refine (readClock_returns hinv).bind ?_
    rintro now kv₁ ⟨hinv₁,hq₁,hm₁⟩
    have hg₁ := Grows.of_quiet hq₁ hm₁
    refine ((walkDownUtilMismatch_returns hinv₁ T now).unwinding _).bind ?_
    intro w kv₂ hw
    obtain ⟨o₂,hg₂⟩ := hw.grows
    obtain ⟨nt,hnt⟩ := hw.live
    have hps₂ : kv₂.pageSize = kv.pageSize := hg₂.pageSize.trans hg₁.pageSize
    have hT₂ := hw.kvInv.inv.tree
    obtain ⟨nd,hnd⟩ := hinv.live hd
    -- the rest of `Insert` from the node whose path stands for `T`
    have finish : ∀ o kv₃ k, Grows o kv₂ kv₃ → KVInv kv₃ refs (own t alloc owned) →
        (∃ nk, kv₃.tree.read k = some nk) → pathTokens kv₃.tree k = T →
        Runs (do
          let path ← getLeafToRoot k
          let s ← insertLoop t prefixPages.length path
            { remainingPages := ((prefixPages.length+alloc.length : Nat) : Int),
              allocatorPages := alloc }
          releaseInsertion t s
          return (⟨k,s.insertedNumPages⟩ : InsertResult)) kv₃ (fun r kv' =>
            KVInv kv' refs owned ∧ Evolves refs kv kv' ∧
            ∃ kv₂, InsertedPages t refs owned T prefixPages.length alloc kv kv₂ kv' r.lastNode)
            (fun _ _ => False) := by
      rintro o₃ kv₃ k hg₃ hinv₃ ⟨nk,hnk⟩ htk
      have hg := (hg₁.trans hg₂).trans hg₃
      have hT₃ := hinv₃.inv.tree
      have hps₃ : kv₃.pageSize = kv.pageSize := hg.pageSize
      obtain ⟨nd₃,hnd₃,_⟩ := hg.live hnd
      have hz : Insertable t kv₃ k d prefixPages.length alloc := by
        refine ⟨⟨nk,hnk⟩,?_,((hinv₃.inv.tier t).pinned hd).2,?_,?_⟩
        · refine hT₃.mem_leafToRoot_of_prefix hnd₃ hnk ?_
          rw [hg.pathTokens hnd,htk]
          exact hdT
        · rw [hps₃,hpre,nodeDepth_of_read hnd₃,← hT₃.pathTokens_length hnd₃,hg.pathTokens hnd]
        · rw [hps₃,hlen,nodeDepth_of_read hnk,← hT₃.pathTokens_length hnk,htk]
      apply getLeafToRoot_bind hnk
      rw [Nat.cast_add]
      refine (insertPath_returns hz hinv₃).runs ?_
      rintro r kv' ⟨rfl,hinv',hev',hall,nodes,hatt,hsub,hfill⟩
      exact ⟨hinv',(hg.evolves fun u i hi => hinv.live hi).trans hev',
        kv₃,⟨_,hg⟩,hinv₃,⟨nk,hnk⟩,htk,⟨nodes,hatt,hsub⟩,hall,hfill⟩
    by_cases hempty : w.remainingTokens = []
    · rw [if_pos (by simp [hempty])]
      refine finish id kv₂ w.terminal (Grows.refl kv₂) hw.kvInv hw.live ?_
      have := hw.tokens
      rwa [hempty,List.append_nil] at this
    · rw [if_neg (by simpa using hempty)]
      have hdvdr : kv₂.pageSize ∣ w.remainingTokens.length :=
        hw.dvd_remaining (by rw [hps₂]; exact hdvd)
      have hle := Nat.le_of_dvd (List.length_pos_of_ne_nil hempty) hdvdr
      have hvac : Vacant kv₂.pageSize kv₂.tree w.terminal nt w.remainingTokens :=
        ⟨hT₂,hnt,hempty,hdvdr,fun c n hn hp => hw.noChild c n hn hp hle⟩
      refine (addChild_returns hvac now).bind ?_
      rintro _ _ ⟨rfl,rfl⟩
      refine finish _ _ _ (hvac.grows now) (hvac.kvInv now hw.kvInv)
        ⟨_,Heap.read_alloc_self _ _⟩ ?_
      rw [show (growCache kv₂ w.terminal nt w.remainingTokens now).tree =
        kv₂.tree.alloc (leafNode w.terminal nt w.remainingTokens now) from rfl,
        hvac.pathTokens_new now]
      exact hw.tokens

theorem insert_returns (hinv : KVInv kv refs (own t alloc owned)) (hd : d ∈ refs t)
    (hdT : pathTokens kv.tree d <+: T) (hpre : prefixPages.length*kv.pageSize =
      (pathTokens kv.tree d).length) (hdvd : kv.pageSize ∣ T.length)
    (hlen : (prefixPages.length+alloc.length)*kv.pageSize = T.length) :
    Returns (insert t T prefixPages alloc) kv (fun r kv' => KVInv kv' refs owned ∧
      Evolves refs kv kv' ∧ InsertedAt t T kv kv' r.lastNode) := by
  refine (insert_pages hinv hd hdT hpre hdvd hlen).runs ?_
  rintro r kv' ⟨hinv',hev,kv₂,h⟩
  exact ⟨hinv',hev,h.insertedAt⟩

end FluxServe
