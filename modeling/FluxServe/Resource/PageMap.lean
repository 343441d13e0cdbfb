import FluxServe.Framework.PrefixMap
import FluxServe.Resource.EnsureProof

namespace FluxServe

open KVPrefixCache

variable {ps : Nat} {t u : ResourceType} {tree tree' : Heap TreeNode} {i j p q : NodeId}
  {n m : TreeNode} {kv kv' : KVPrefixCache} {P T : List Token} {x : PageId}
  {refs : ResourceType → Multiset NodeId} {owned : ResourceType → Multiset PageId}

/-- Where the tokens of a node begin. -/
def nodeStart (tree : Heap TreeNode) (i : NodeId) : Nat :=
  nodeDepth tree i-(nodeTokens tree i).length

/-- The node in which `P` ends. -/
def holds (tree : Heap TreeNode) (P : List Token) (i : NodeId) : Bool :=
  P.isPrefixOf (pathTokens tree i) && decide (nodeStart tree i < P.length)

/-- What the tree is for: the page of tier `t` that stands for the last page of `P`. -/
def pageFor (t : ResourceType) (ps : Nat) (tree : Heap TreeNode) : PrefixMap Token PageId := fun P =>
  if P.length % ps = 0 then
    ((List.range tree.length).find? (holds tree P)).bind fun i =>
      (nodePages t tree i)[(P.length-nodeStart tree i)/ps-1]?
  else none

/-- The tree as a map from whole pages of tokens to a device page and a host page. -/
def pageMap (ps : Nat) (tree : Heap TreeNode) (P : List Token) : Option PageId × Option PageId :=
  (pageFor .device ps tree P,pageFor .host ps tree P)

namespace KVPrefixCache.TreeOK

variable (hT : TreeOK ps tree)

include hT

theorem nodeStart_eq (hi : tree.read i = some n) (hp : n.parent = some p) :
    nodeStart tree i = (pathTokens tree p).length := by
  obtain ⟨np,hnp,hdep,-⟩ := hT.parent hi hp
  have hdep' := nodeDepth_of_read hi
  have htok : nodeTokens tree i = n.tokens := by simp [nodeTokens,hi]
  unfold nodeStart
  rw [hdep',htok,hT.pathTokens_length hnp]
  omega

/-- Every node that goes on from `P` goes on from the node in which `P` ends. -/
theorem mem_leafToRoot_of_ends (hi : tree.read i = some n) (hp : n.parent = some p)
    (hP : P <+: pathTokens tree i) (hlt : (pathTokens tree p).length < P.length)
    (hdvd : ps ∣ P.length) (hj : tree.read j = some m) (hPj : P <+: pathTokens tree j) :
    i ∈ leafToRoot tree j := by
  obtain ⟨np,hnp,-,hne,hnd⟩ := hT.parent hi hp
  have hpi : pathTokens tree p <+: pathTokens tree i := by
    rw [hT.pathTokens_cons hi hp]
    exact List.prefix_append _ _
  have hpP : pathTokens tree p <+: P := List.prefix_of_prefix_length_le hpi hP hlt.le
  have hpj : p ≠ j := by
    rintro rfl
    exact absurd hPj.length_le (by omega)
  have hon := hT.mem_leafToRoot_of_prefix hnp hj (hpP.trans hPj)
  obtain ⟨c,nc,hc,hnc,hcp⟩ := hT.child_on_path hj hon hpj
  have hcj := hT.pathTokens_prefix hj (Or.inr hc)
  obtain ⟨R,hR⟩ := hpP
  have hRdvd : ps ∣ R.length := by
    have hpd := hT.pageSize_dvd_depth hnp
    rw [← hT.pathTokens_length hnp] at hpd
    rw [← hR,List.length_append] at hdvd
    exact (Nat.dvd_add_right hpd).mp hdvd
  have hRlen : ps ≤ R.length := by
    refine Nat.le_of_dvd ?_ hRdvd
    rw [← hR,List.length_append] at hlt
    omega
  -- both children begin with the page after the tokens of `p`
  have hkey : ∀ {y : NodeId} {ny : TreeNode}, tree.read y = some ny → ny.parent = some p →
      ∀ {z : List Token}, P <+: z → pathTokens tree y <+: z → ny.tokens.take ps = R.take ps := by
    intro y ny hy hyp z hPz hyz
    obtain ⟨_,_,_,hyne,hyd⟩ := hT.parent hy hyp
    obtain ⟨Z,rfl⟩ : ∃ Z, z = pathTokens tree p ++ Z := by
      obtain ⟨Z,hZ⟩ := hPz
      exact ⟨R ++ Z,by rw [← List.append_assoc,hR,hZ]⟩
    rw [hT.pathTokens_cons hy hyp,List.prefix_append_right_inj] at hyz
    rw [← hR,List.prefix_append_right_inj] at hPz
    exact take_eq_of_isPrefix hyz hPz
      (Nat.le_of_dvd (List.length_pos_of_ne_nil hyne) hyd) hRlen
  have h := hT.sibling hnc hi hcp hp ((hkey hnc hcp hPj hcj).trans
    (hkey hi hp hP (List.prefix_refl _)).symm)
  rw [← h]
  exact hc

/-- `P` ends in one node. -/
theorem ends_unique (hi : tree.read i = some n) (hp : n.parent = some p)
    (hP : P <+: pathTokens tree i) (hlt : (pathTokens tree p).length < P.length)
    (hdvd : ps ∣ P.length) (hj : tree.read j = some m) (hq : m.parent = some q)
    (hPj : P <+: pathTokens tree j) (hlt' : (pathTokens tree q).length < P.length) : i = j := by
  have hij := hT.mem_leafToRoot_of_ends hi hp hP hlt hdvd hj hPj
  rw [hT.leafToRoot_cons hj hq,List.mem_cons] at hij
  rcases hij with hij | hij
  · exact hij
  · obtain ⟨nq,hnq,-⟩ := hT.parent hj hq
    have h := (hP.trans (hT.pathTokens_prefix hnq (Or.inr hij))).length_le
    omega

theorem holds_iff :
    holds tree P i = true ↔ ∃ n p, tree.read i = some n ∧ n.parent = some p ∧
      P <+: pathTokens tree i ∧ (pathTokens tree p).length < P.length := by
  unfold holds
  rw [Bool.and_eq_true,List.isPrefixOf_iff_prefix,decide_eq_true_eq]
  constructor
  · rintro ⟨hP,hlt⟩
    cases hi : tree.read i with
    | none =>
      have h : pathTokens tree i = [] := by
        unfold pathTokens rootToLeaf
        rw [leafToRoot_of_read_none hi]
        rfl
      rw [h,List.prefix_nil] at hP
      rw [hP] at hlt
      exact absurd hlt (Nat.not_lt_zero _)
    | some n =>
      rcases Option.eq_none_or_eq_some n.parent with hp | ⟨p,hp⟩
      · rw [hT.root_of_parent_none hi hp,hT.pathTokens_zero,List.prefix_nil] at hP
        rw [hP] at hlt
        exact absurd hlt (Nat.not_lt_zero _)
      · rw [hT.nodeStart_eq hi hp] at hlt
        exact ⟨n,p,rfl,hp,hP,hlt⟩
  · rintro ⟨n,p,hi,hp,hP,hlt⟩
    rw [hT.nodeStart_eq hi hp]
    exact ⟨hP,hlt⟩

/-- The map reads the page off the node in which `P` ends. -/
theorem pageFor_eq (t : ResourceType) (hi : tree.read i = some n) (hp : n.parent = some p)
    (hP : P <+: pathTokens tree i) (hlt : (pathTokens tree p).length < P.length)
    (hdvd : ps ∣ P.length) :
    pageFor t ps tree P = (nodePages t tree i)[(P.length-(pathTokens tree p).length)/ps-1]? := by
  have hfind : (List.range tree.length).find? (holds tree P) = some i := by
    have hself := hT.holds_iff.mpr ⟨n,p,hi,hp,hP,hlt⟩
    cases hf : (List.range tree.length).find? (holds tree P) with
    | none =>
      rw [List.find?_eq_none] at hf
      exact absurd hself (hf i (List.mem_range.mpr (Heap.lt_of_read hi)))
    | some j =>
      obtain ⟨m,q,hj,hq,hPj,hlt'⟩ := hT.holds_iff.mp (List.find?_some hf)
      rw [hT.ends_unique hi hp hP hlt hdvd hj hq hPj hlt']
  unfold pageFor
  rw [if_pos (Nat.mod_eq_zero_of_dvd hdvd),hfind,Option.bind_some,hT.nodeStart_eq hi hp]

/-- The pages of an ancestor come first. -/
theorem pathPages_prefix (t : ResourceType) (hi : tree.read i = some n)
    (hj : j ∈ leafToRoot tree i) : pathPages t tree j <+: pathPages t tree i := by
  revert hj
  refine hT.induction (P := fun i => j ∈ leafToRoot tree i →
    pathPages t tree j <+: pathPages t tree i) ?_ ?_ i n hi
  · rw [hT.leafToRoot_zero]
    intro hj
    cases hj
  · intro i n p hi hp ih hj
    rw [hT.leafToRoot_cons hi hp,List.mem_cons] at hj
    rcases hj with rfl | hj
    · exact List.prefix_refl _
    · rw [hT.pathPages_cons t hi hp]
      exact (ih hj).trans (List.prefix_append _ _)

end KVPrefixCache.TreeOK

theorem pageFor_congr (h : Agree t tree tree') (ps : Nat) : pageFor t ps tree' = pageFor t ps tree := by
  funext P
  have hh : holds tree' P = holds tree P := by
    funext i
    unfold holds nodeStart
    rw [h.pathTokens_eq,h.nodeDepth_eq,h.nodeTokens_eq]
  unfold pageFor nodeStart
  rw [h.length,hh]
  simp only [h.nodePages_eq,h.nodeDepth_eq,h.nodeTokens_eq]

namespace KVPrefixCache.KVInv

variable (hinv : KVInv kv refs owned)

include hinv

/-- Below a resident node the map is the list of pages of its path. -/
theorem pageFor_resident (hi : hasResource t kv.tree i = true) (hP : P <+: pathTokens kv.tree i)
    (hne : P ≠ []) (hdvd : kv.pageSize ∣ P.length) :
    pageFor t kv.pageSize kv.tree P = (pathPages t kv.tree i)[P.length/kv.pageSize-1]? ∧
      P.length/kv.pageSize-1 < (pathPages t kv.tree i).length := by
  have hT := hinv.inv.tree
  have hps := hT.pageSize_pos
  obtain ⟨n,_,hn,_⟩ := exists_resource_of_hasResource hi
  obtain ⟨y,ny,z,hy,hny,hyz,hPy,hz⟩ := exists_reaching hT hn hP hne
  have hres : ∀ j ∈ leafToRoot kv.tree i, hasResource t kv.tree j = true :=
    fun j hj => (hinv.closed t).path hT hi hj
  obtain ⟨nz,hnz,-⟩ := hT.parent hny hyz
  have hresz : ∀ j ∈ leafToRoot kv.tree z, hasResource t kv.tree j = true := by
    intro j hj
    refine hres j (hT.mem_leafToRoot_trans ?_ hy)
    rw [hT.leafToRoot_cons hny hyz]
    exact List.mem_cons_of_mem _ hj
  have hlenz := FluxServe.pathPages_length hT (hinv.inv.tier t) hnz hresz
  have hleny := FluxServe.pathPages_length hT (hinv.inv.tier t) hny
    (fun j hj => hres j (hT.mem_leafToRoot_trans hj hy))
  obtain ⟨a,ha⟩ := hdvd
  rw [hT.pageFor_eq t hny hyz hPy hz ⟨a,ha⟩]
  have hPle := hPy.length_le
  rw [← hlenz,ha,Nat.mul_comm] at hz
  have hlt : (pathPages t kv.tree z).length < a := Nat.lt_of_mul_lt_mul_left (by rwa [Nat.mul_comm] at hz)
  have hle : a ≤ (pathPages t kv.tree y).length := by
    rw [← hleny,ha,Nat.mul_comm] at hPle
    exact Nat.le_of_mul_le_mul_right hPle hps
  obtain ⟨rest,hrest⟩ := hT.pathPages_prefix t hn hy
  have hidx : P.length/kv.pageSize-1 = a-1 := by rw [ha,Nat.mul_div_cancel_left _ hps]
  have hoff : (P.length-(pathTokens kv.tree z).length)/kv.pageSize-1 =
      a-1-(pathPages t kv.tree z).length := by
    rw [ha,← hlenz,Nat.mul_comm,← Nat.sub_mul,Nat.mul_div_cancel _ hps]
    omega
  have hnode : nodePages t kv.tree y = ny.pages t := by simp [nodePages,hny]
  rw [hidx,hoff,← hrest,List.getElem?_append_left (by omega),hT.pathPages_cons t hny hyz,
    List.getElem?_append_right (by omega),hnode]
  refine ⟨rfl,?_⟩
  rw [hT.pathPages_cons t hny hyz] at hle
  simp only [List.length_append] at hle ⊢
  omega

theorem pageFor_eq_some_iff : pageFor t kv.pageSize kv.tree P = some x ↔
    P ≠ [] ∧ kv.pageSize ∣ P.length ∧ ∃ i, hasResource t kv.tree i = true ∧
      P <+: pathTokens kv.tree i ∧ (pathPages t kv.tree i)[P.length/kv.pageSize-1]? = some x := by
  have hT := hinv.inv.tree
  constructor
  · intro h
    by_cases hmod : P.length % kv.pageSize = 0
    · have hdvd := Nat.dvd_of_mod_eq_zero hmod
      have h' := h
      unfold pageFor at h'
      rw [if_pos hmod,Option.bind_eq_some_iff] at h'
      obtain ⟨i,hi,hx⟩ := h'
      obtain ⟨n,p,hn,hp,hP,hlt⟩ := hT.holds_iff.mp (List.find?_some hi)
      have hres : hasResource t kv.tree i = true := by
        rw [List.getElem?_eq_some_iff] at hx
        obtain ⟨hlt,-⟩ := hx
        by_contra hno
        have hnil : nodePages t kv.tree i = [] := by
          simp only [hasResource,hn,Option.bind_some,Bool.not_eq_true,Option.isSome_eq_false_iff,
            Option.isNone_iff_eq_none] at hno
          simp [nodePages,hn,TreeNode.pages,hno]
        rw [hnil] at hlt
        exact absurd hlt (Nat.not_lt_zero _)
      have hne : P ≠ [] := by
        rintro rfl
        exact absurd hlt (Nat.not_lt_zero _)
      refine ⟨hne,hdvd,i,hres,hP,?_⟩
      rw [← (hinv.pageFor_resident hres hP hne hdvd).1]
      exact h
    · unfold pageFor at h
      rw [if_neg hmod] at h
      cases h
  · rintro ⟨hne,hdvd,i,hi,hP,hx⟩
    rw [(hinv.pageFor_resident hi hP hne hdvd).1]
    exact hx

theorem isSome_pageFor_iff : (pageFor t kv.pageSize kv.tree P).isSome = true ↔
    P ≠ [] ∧ kv.pageSize ∣ P.length ∧ Covers t kv.tree P := by
  constructor
  · intro h
    obtain ⟨x,hx⟩ := Option.isSome_iff_exists.mp h
    obtain ⟨hne,hdvd,i,hi,hP,-⟩ := hinv.pageFor_eq_some_iff.mp hx
    exact ⟨hne,hdvd,Or.inr ⟨i,hi,hP⟩⟩
  · rintro ⟨hne,hdvd,hcov⟩
    obtain ⟨i,hi,hP⟩ := hcov.resolve_left hne
    obtain ⟨heq,hlt⟩ := hinv.pageFor_resident hi hP hne hdvd
    rw [heq,List.getElem?_eq_getElem hlt]
    rfl

end KVPrefixCache.KVInv

/-- Splits and new leaves leave the map alone. -/
theorem Grows.pageFor_eq {o : NodeId → NodeId} {owned' : ResourceType → Multiset PageId}
    (h : Grows o kv kv') (hinv : KVInv kv refs owned) (hinv' : KVInv kv' refs owned')
    (t : ResourceType) : pageFor t kv'.pageSize kv'.tree = pageFor t kv.pageSize kv.tree := by
  have hT := hinv.inv.tree
  have hT' := hinv'.inv.tree
  funext P
  ext x
  rw [hinv'.pageFor_eq_some_iff,hinv.pageFor_eq_some_iff,h.pageSize]
  refine and_congr_right fun _ => and_congr_right fun _ => ?_
  constructor
  · rintro ⟨i,hi,hP,hx⟩
    -- the node it comes from has the same path, up to a new node above its end
    rw [h.resident] at hi
    obtain ⟨n,_,hn,_⟩ := exists_resource_of_hasResource hi
    obtain ⟨n',hn',_⟩ := h.live hn
    obtain ⟨p,_,hp,_⟩ := hT.node hn (hinv.inv.sized t _ hi).1
    have hself := (h.path hn i).mpr (hT.self_mem_leafToRoot hn hp)
    refine ⟨o i,hi,?_,?_⟩
    · rw [← h.pathTokens hn]
      exact hP.trans (hT'.pathTokens_prefix hn' (Or.inr hself))
    · rw [← h.pathPages t hn]
      obtain ⟨rest,hrest⟩ := hT'.pathPages_prefix t hn' hself
      rw [List.getElem?_eq_some_iff] at hx
      obtain ⟨hlt,hx⟩ := hx
      rw [← hrest,List.getElem?_append_left hlt,List.getElem?_eq_getElem hlt,hx]
  · rintro ⟨i,hi,hP,hx⟩
    obtain ⟨n,_,hn,_⟩ := exists_resource_of_hasResource hi
    refine ⟨i,?_,?_,?_⟩
    · rw [h.resident,h.old (Heap.lt_of_read hn)]
      exact hi
    · rw [h.pathTokens hn]
      exact hP
    · rw [h.pathPages t hn]
      exact hx

end FluxServe
