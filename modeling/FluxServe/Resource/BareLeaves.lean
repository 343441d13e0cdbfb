import FluxServe.Resource.EvictionTurns
import FluxServe.Resource.Skeleton

namespace FluxServe

open KVPrefixCache

variable {kv kv₀ kv₁ kv' : KVPrefixCache} {t u : ResourceType} {i j p : NodeId} {n : TreeNode}
  {tree tree' : Heap TreeNode} {refs : ResourceType → Multiset NodeId}
  {owned : ResourceType → Multiset PageId} {evicted rest : List NodeId} {num : Int}

/-- Every childless node other than the root has pages on some tier. -/
def NoBareLeaves (tree : Heap TreeNode) : Prop :=
  ∀ i n p, tree.read i = some n → n.parent = some p → children tree i = [] →
    ∃ u, hasResource u tree i = true

theorem hasResource_removes {gone : NodeId → Prop} (h : Removes gone tree tree') {n' : TreeNode}
    (hj : tree'.read j = some n') : hasResource u tree' j = hasResource u tree j := by
  obtain ⟨n,hn,_,hc⟩ := h.live hj
  rw [hasResource_eq_of_coreOf hj,hasResource_eq_of_coreOf hn,hc]

/-- A node keeps its children if none of them goes. -/
theorem children_removes {gone : NodeId → Prop} (h : Removes gone tree tree')
    (hstay : ∀ j n, tree.read j = some n → n.parent = some i → ¬gone j) :
    children tree' i = children tree i := by
  unfold children
  rw [h.length]
  apply List.filter_congr
  intro j _
  rw [decide_eq_decide]
  cases hj' : tree'.read j with
  | some n' =>
    obtain ⟨n,hn,hs,_⟩ := h.live hj'
    have hparent : n'.parent = n.parent := congrArg Prod.fst hs
    simp [hn,hparent]
  | none =>
    obtain hnone | hgone := (h.none j).mp hj'
    · rw [hnone]
    · cases hj : tree.read j with
      | none => rfl
      | some n =>
        have hparent : n.parent ≠ some i := fun hp => hstay j n hj hp hgone
        simp [hparent]

/-- The nodes that the prune has removed when some of the evicted ones are still to be visited. -/
def Pruned (evicted rest : List NodeId) (tree : Heap TreeNode) (j : NodeId) : Prop :=
  j ∈ evicted ∧ j ∉ rest ∧ Prunable evicted tree j

/-- No child of an evicted node is removed. -/
theorem not_pruned_child (hi : i ∈ evicted) (hj : tree.read j = some n)
    (hp : n.parent = some i) : ¬Pruned evicted rest tree j := by
  rintro ⟨_,_,m,q,hb,hq⟩
  have hmn : m = n := by
    have := hb.read
    rw [hj] at this
    exact (Option.some.inj this).symm
  subst hmn
  rw [hb.parent] at hp
  cases hp
  exact hq hi

/-- What is removed of the nodes still to be visited does not depend on those before. -/
theorem prunable_removes (h : Removes (Pruned evicted rest tree) tree tree') (hi : i ∈ evicted)
    {n' : TreeNode} (hi' : tree'.read i = some n') :
    Prunable evicted tree' i ↔ Prunable evicted tree i := by
  obtain ⟨n,hn,hs,hc⟩ := h.live hi'
  have hchildren : children tree' i = children tree i :=
    children_removes h fun j m hj hp => not_pruned_child hi hj hp
  have hparent : n'.parent = n.parent := congrArg Prod.fst hs
  have hres (u : ResourceType) : n'.resource u = none ↔ n.resource u = none := by
    have := hc u
    unfold coreOf at this
    rw [← Option.map_eq_none_iff (f := fun r => (r.pages,r.refCount)),this,
      Option.map_eq_none_iff]
  constructor
  · rintro ⟨m,p,hb,hp⟩
    obtain rfl : m = n' := Option.some.inj (hb.read.symm.trans hi')
    exact ⟨n,p,⟨hn,hparent.symm.trans hb.parent,hchildren.symm.trans hb.children,
      fun u => (hres u).mp (hb.resource u)⟩,hp⟩
  · rintro ⟨m,p,hb,hp⟩
    obtain rfl : m = n := Option.some.inj (hb.read.symm.trans hn)
    exact ⟨n',p,⟨hi',hparent.trans hb.parent,hchildren.trans hb.children,
      fun u => (hres u).mpr (hb.resource u)⟩,hp⟩

theorem Removes.trans {gone gone' : NodeId → Prop} {tree'' : Heap TreeNode}
    (h : Removes gone tree tree') (h' : Removes gone' tree' tree'') :
    Removes (fun j => gone j ∨ gone' j) tree tree'' where
  length := h'.length.trans h.length
  none j := by rw [h'.none,h.none,or_assoc]
  live {j n''} hj := by
    obtain ⟨n',hn',hs',hc'⟩ := h'.live hj
    obtain ⟨n,hn,hs,hc⟩ := h.live hn'
    exact ⟨n,hn,hs'.trans hs,fun u => (hc' u).trans (hc u)⟩

/-- The prune removes the bare ones of the evicted nodes, those below another one excepted. -/
theorem pruneEvicted_removes (hinv : KVInv kv₀ refs owned)
    (h : EvictedFrom t refs owned kv₀ kv evicted) :
    Returns (pruneEvicted t evicted) kv (fun _ kv' =>
      Removes (fun j => j ∈ evicted ∧ Prunable evicted kv.tree j) kv.tree kv'.tree) := by
  unfold Returns pruneEvicted
  let I : List NodeId → KVPrefixCache → Prop := fun rest kv' =>
    Pruning t refs owned kv kv' evicted rest ∧
      Removes (Pruned evicted rest kv.tree) kv.tree kv'.tree
  have hstart : I evicted kv := by
    constructor
    · exact ⟨h.inv,Evolves.refl _ _,Shrinks.refl t kv,rfl,rfl,h.nodup,fun _ hj => hj,
        fun j hj => (h.nodes j hj).1,fun _ => rfl⟩
    · apply removes_quiet (Quiet.refl kv)
      rintro j ⟨hj,hj',_⟩
      exact hj' hj
  apply Runs.imp (runs_forM _ I ?_ evicted hstart) ?_ (fun _ _ hf => hf)
  · rintro i rest kv₁ ⟨hp,hr⟩
    apply (pruneTurn_returns hinv h hp).runs
    rintro _ kv₂ ⟨hp₂,hr₂⟩
    apply And.intro hp₂
    obtain ⟨n,hn⟩ := hp.live i List.mem_cons_self
    have hie : i ∈ evicted := hp.subset List.mem_cons_self
    have hnotin : i ∉ rest := (List.nodup_cons.mp hp.nodup).1
    apply (hr.trans hr₂).congr
    intro j
    rw [prunable_removes hr hie hn]
    unfold Pruned
    rw [List.mem_cons]
    by_cases hji : j = i
    · subst hji
      simp [hie,hnotin]
    · simp [hji]
  · rintro _ kv' ⟨_,hr⟩
    apply hr.congr
    intro j
    simp [Pruned]

section Bound

/-- Cells that hold something, the first one apart, are as many as what they hold. -/
theorem countP_le_collect {α β : Type} (f g : α → List β) (h : Heap α)
    (hpos : ∀ i a, h.read i = some a → i ≠ 0 → 1 ≤ (f a).length+(g a).length) :
    h.countP Option.isSome ≤ 1+(h.collect f).length+(h.collect g).length := by
  have htail (l : List (Option α)) (hl : ∀ a, some a ∈ l → 1 ≤ (f a).length+(g a).length) :
      l.countP Option.isSome ≤ (Heap.collect f l).length+(Heap.collect g l).length := by
    induction l with
    | nil => simp
    | cons c l ih =>
      have hrest := ih fun a ha => hl a (List.mem_cons_of_mem _ ha)
      unfold Heap.collect at hrest ⊢
      rw [List.countP_cons,List.flatMap_cons,List.flatMap_cons,List.length_append,
        List.length_append]
      cases c with
      | none => simpa using hrest
      | some a =>
        have := hl a List.mem_cons_self
        simp only [Option.isSome_some,if_true,Option.map_some,Option.getD_some]
        omega
  cases h with
  | nil => simp
  | cons c l =>
    have hl := htail l (by
      intro a ha
      obtain ⟨i,hi,hia⟩ := List.mem_iff_getElem.mp ha
      apply hpos (i+1) a ?_ (by omega)
      simp [Heap.read,hi,hia])
    unfold Heap.collect at hl ⊢
    rw [List.countP_cons,List.flatMap_cons,List.flatMap_cons,List.length_append,List.length_append]
    split <;> omega

/-- Where no childless node is bare, no node is. -/
theorem resident_of_noBareLeaves (hT : TreeOK kv.pageSize kv.tree) (hc : ∀ u, Closed u kv.tree)
    (hleaves : NoBareLeaves kv.tree) (hi : kv.tree.read i = some n) (hp : n.parent = some p) :
    ∃ u, hasResource u kv.tree i = true := by
  -- induction on the distance to the greatest depth
  obtain ⟨B,hB⟩ : ∃ B, ∀ j n, kv.tree.read j = some n → n.depthInTokens ≤ B := by
    refine ⟨(Finset.range kv.tree.length).sup (nodeDepth kv.tree),fun j n hj => ?_⟩
    have hle := Finset.le_sup (f := nodeDepth kv.tree) (Finset.mem_range.mpr (Heap.lt_of_read hj))
    simpa [nodeDepth,hj] using hle
  induction hd : B-n.depthInTokens using Nat.strong_induction_on generalizing i n p with
  | _ d ih =>
    cases hchildren : children kv.tree i with
    | nil => exact hleaves i n p hi hp hchildren
    | cons k ks =>
      have hk : k ∈ children kv.tree i := by
        rw [hchildren]
        exact List.mem_cons_self
      obtain ⟨m,hm,hmp⟩ := mem_children.mp hk
      have hlt := hT.depth_lt hm hmp hi
      have hle := hB k m hm
      obtain ⟨u,hu⟩ := ih (B-m.depthInTokens) (by omega) hm hmp rfl
      exact ⟨u,hc u k m i hm hmp (hT.ne_zero hi hp) hu⟩

/-- There are no more nodes than pages in the tree, the root apart. -/
theorem countP_le_pages (hinv : KVInv kv refs owned) (hleaves : NoBareLeaves kv.tree) :
    kv.tree.countP Option.isSome ≤
      1+(collectAllPages .device kv).length+(collectAllPages .host kv).length := by
  apply countP_le_collect
  intro i n hi h0
  obtain ⟨p,_,hp,_⟩ := hinv.inv.tree.node hi h0
  obtain ⟨u,hu⟩ := resident_of_noBareLeaves hinv.inv.tree hinv.closed hleaves hi hp
  have hpages := List.length_pos_of_ne_nil (nodePages_ne_nil hinv.inv.tree (hinv.inv.tier u) hu)
  simp only [nodePages,hi,Option.map_some,Option.getD_some] at hpages
  cases u <;> omega

end Bound

/-- The nodes that an eviction empties on its tier. -/
def emptied (t : ResourceType) (num : Int) (kv : KVPrefixCache) : List NodeId :=
  (detaching t (ensureTurns t num kv)).map Prod.snd

/-- The list of the evicted nodes is that of the emptied, but for the order. -/
theorem mem_evicted (h : EvictedFrom t refs owned kv kv₁ evicted)
    (hturns : ∀ x ∈ ensureTurns t num kv, TurnOf t refs owned kv x)
    (hlost : ∀ j, hasResource t kv₁.tree j = true ↔ hasResource t kv.tree j = true ∧
      ∀ x ∈ detaching t (ensureTurns t num kv), j ≠ x.2) :
    i ∈ evicted ↔ i ∈ emptied t num kv := by
  unfold emptied
  rw [List.mem_map]
  constructor
  · intro hi
    obtain ⟨_,hno,hres⟩ := h.nodes i hi
    by_contra hnot
    have hkept := (hlost i).mpr ⟨hres,fun x hx hxi => hnot ⟨x,hx,hxi.symm⟩⟩
    rw [hno] at hkept
    cases hkept
  · rintro ⟨x,hx,rfl⟩
    obtain ⟨e,ts,rest,he,hlru⟩ := hturns x (List.mem_filter.mp hx).1
    have hres := he.resident (isLeaf_iff.mp (he.oldest hlru).1).1
    obtain hkept | hin := h.kept x.2 hres
    · exact absurd rfl (((hlost x.2).mp hkept).2 x hx)
    · exact hin

/-- Below a node that is emptied, no childless one is left without pages on either tier. -/
def Unchained (t : ResourceType) (emptied : List NodeId) (tree : Heap TreeNode) : Prop :=
  ∀ i n p, tree.read i = some n → n.parent = some p → i ∈ emptied → p ∈ emptied →
    children tree i ≠ [] ∨ hasResource t.other tree i = true

section Prune

variable (hs : SameSkeleton kv kv₁) (h : EvictedFrom t refs owned kv kv₁ evicted)
  (hr : Removes (fun j => j ∈ evicted ∧ Prunable evicted kv₁.tree j) kv₁.tree kv'.tree)

include hs h in
/-- The prune reaches the evicted nodes that have neither children nor pages, but for those below
another evicted one. -/
theorem prunable_iff (hi : kv.tree.read i = some n) (hp : n.parent = some p) (hie : i ∈ evicted) :
    Prunable evicted kv₁.tree i ↔
      children kv.tree i = [] ∧ hasResource t.other kv.tree i = false ∧ p ∉ evicted := by
  obtain ⟨n₁,hn₁,hshape,_⟩ := hs.read hi
  have hparent : n₁.parent = some p := (congrArg Prod.fst hshape).trans hp
  have hother := h.shrinks.resident_other (u := t.other) (by cases t <;> decide) i
  have hread (u : ResourceType) : n₁.resource u = none ↔ hasResource u kv₁.tree i = false := by
    simp [hasResource,hn₁]
  constructor
  · rintro ⟨m,q,hb,hq⟩
    obtain rfl : m = n₁ := Option.some.inj (hb.read.symm.trans hn₁)
    obtain rfl : q = p := Option.some.inj (hb.parent.symm.trans hparent)
    rw [← hs.children_eq,← hother]
    exact ⟨hb.children,(hread _).mp (hb.resource _),hq⟩
  · rintro ⟨hchildren,hres,hpe⟩
    rw [← hother] at hres
    have hgone := (h.nodes i hie).2.1
    refine ⟨n₁,p,⟨hn₁,hparent,(hs.children_eq i).trans hchildren,fun u => ?_⟩,hpe⟩
    rw [hread]
    cases t <;> cases u <;> assumption

include hs h hr in
/-- A bare leaf below another emptied node stays. -/
theorem unchained_of_noBareLeaves (hleaves : NoBareLeaves kv'.tree) :
    Unchained t evicted kv.tree := by
  intro i n p hi hp hie hpe
  by_contra hbare
  rw [not_or,not_not,Bool.not_eq_true] at hbare
  obtain ⟨hchildren,hother⟩ := hbare
  obtain ⟨n₁,hn₁,hshape,_⟩ := hs.read hi
  have hlive : ¬(kv₁.tree.read i = none ∨ i ∈ evicted ∧ Prunable evicted kv₁.tree i) := by
    rintro (hnone | ⟨_,hprunable⟩)
    · rw [hn₁] at hnone
      cases hnone
    · exact ((prunable_iff hs h hi hp hie).mp hprunable).2.2 hpe
  rw [← hr.none] at hlive
  obtain ⟨n',hn'⟩ := Option.ne_none_iff_exists'.mp hlive
  obtain ⟨m,hm,hshape',_⟩ := hr.live hn'
  obtain rfl : m = n₁ := Option.some.inj (hm.symm.trans hn₁)
  have hparent : n'.parent = some p := (congrArg Prod.fst (hshape'.trans hshape)).trans hp
  have hchildren' : children kv'.tree i = [] := by
    rw [children_removes hr,hs.children_eq,hchildren]
    rintro j k hj hk ⟨hje,hprunable⟩
    have hpruned : Pruned evicted [] kv₁.tree j := ⟨hje,by simp,hprunable⟩
    exact not_pruned_child hie hj hk hpruned
  obtain ⟨u,hu⟩ := hleaves i n' p hn' hparent hchildren'
  rw [hasResource_removes hr hn'] at hu
  by_cases hut : u = t
  · subst hut
    rw [(h.nodes i hie).2.1] at hu
    cases hu
  · rw [h.shrinks.resident_other hut] at hu
    have : u = t.other := by cases t <;> cases u <;> first | rfl | exact absurd rfl hut
    rw [this,hother] at hu
    cases hu

include hs h hr in
/-- A leaf that is bare after the prune is an evicted one that the prune passed over. -/
theorem noBareLeaves_of_unchained (hc : Closed t kv.tree) (hT : TreeOK kv.pageSize kv.tree)
    (hbefore : NoBareLeaves kv.tree) (hun : Unchained t evicted kv.tree) :
    NoBareLeaves kv'.tree := by
  intro i n' p hi' hp' hchildren'
  obtain ⟨n₁,hn₁,hshape',_⟩ := hr.live hi'
  obtain ⟨n,hn,hshape,_⟩ := hs.symm.read hn₁
  have hp : n.parent = some p := (congrArg Prod.fst (hshape.trans hshape'.symm)).trans hp'
  by_contra hbare
  rw [not_exists] at hbare
  have hbare₁ (u : ResourceType) : hasResource u kv₁.tree i = false := by
    rw [← hasResource_removes hr hi',← Bool.not_eq_true]
    exact hbare u
  have hother : hasResource t.other kv.tree i = false := by
    rw [← h.shrinks.resident_other (u := t.other) (by cases t <;> decide)]
    exact hbare₁ _
  by_cases hie : i ∈ evicted
  · have hchildren : children kv.tree i = [] := by
      rw [← hs.children_eq,← hchildren',children_removes hr]
      rintro j k hj hk ⟨hje,hprunable⟩
      have hpruned : Pruned evicted [] kv₁.tree j := ⟨hje,by simp,hprunable⟩
      exact not_pruned_child hie hj hk hpruned
    have hpe : p ∉ evicted := by
      intro hpe
      obtain hne | hres := hun i n p hn hp hie hpe
      · exact hne hchildren
      · rw [hother] at hres
        cases hres
    have hnone := (hr.none i).mpr
      (.inr ⟨hie,(prunable_iff hs h hn hp hie).mpr ⟨hchildren,hother,hpe⟩⟩)
    rw [hi'] at hnone
    cases hnone
  · -- The node was bare before, so it had a child, which only its pages can have kept.
    have hres : hasResource t kv.tree i = false := by
      rw [← Bool.not_eq_true]
      intro hres
      obtain hres₁ | hin := h.kept i hres
      · rw [hbare₁] at hres₁
        cases hres₁
      · exact hie hin
    have hall (u : ResourceType) : hasResource u kv.tree i = false := by
      cases t <;> cases u <;> assumption
    have hkept : children kv'.tree i = children kv₁.tree i := by
      apply children_removes hr
      rintro j k hj hk ⟨hje,_⟩
      obtain ⟨m,hm,hmshape,_⟩ := hs.symm.read hj
      have hmp : m.parent = some i := (congrArg Prod.fst hmshape).trans hk
      have hup := hc j m i hm hmp (hT.ne_zero hn hp) (h.nodes j hje).2.2
      rw [hres] at hup
      cases hup
    rw [hchildren',hs.children_eq] at hkept
    obtain ⟨u,hu⟩ := hbefore i n p hn hp hkept.symm
    rw [hall u] at hu
    cases hu

end Prune

/-- What an eviction with its prune keeps of the leaves. -/
theorem ensureCapacityByEvict_leaves (num : Int) (hinv : KVInv kv refs owned)
    (hbefore : NoBareLeaves kv.tree) :
    Returns (ensureCapacityByEvict t num) kv (fun _ kv' => KVInv kv' refs owned ∧
      (NoBareLeaves kv'.tree ↔ Unchained t (emptied t num kv) kv.tree)) := by
  unfold Returns ensureCapacityByEvict
  apply (ensureCapacity_returns num hinv).and_eq.bind
  rintro evicted kv₁ ⟨⟨h,_⟩,hok⟩
  obtain ⟨hturns,hlost⟩ := Runs.of_ok (ensureCapacity_turns hinv) hok
  have hs := Runs.of_ok (skeleton_ensureCapacity num kv) hok
  have hmem (i : NodeId) : i ∈ evicted ↔ i ∈ emptied t num kv := mem_evicted h hturns hlost
  have hun : Unchained t (emptied t num kv) kv.tree ↔ Unchained t evicted kv.tree := by
    simp only [Unchained,hmem]
  rw [hun]
  apply (pruneEvicted_removes hinv h).and_eq.bind
  rintro _ kv₂ ⟨hr,hok₂⟩
  have hp := Runs.of_ok (pruneEvicted_returns hinv h) hok₂
  rw [runs_bind,runs_get]
  exact ⟨hp.inv,unchained_of_noBareLeaves hs h hr,
    noBareLeaves_of_unchained hs h hr (hinv.closed t) hinv.inv.tree hbefore⟩

end FluxServe
