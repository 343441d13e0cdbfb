import FluxServe.Resource.PageMap

namespace FluxServe

open KVPrefixCache

variable {t u : ResourceType} {i j d : NodeId} {n : TreeNode} {kv kv' kv₂ : KVPrefixCache}
  {P T : List Token} {x : PageId} {alloc prefixPages : List PageId} {start : Nat} {last : NodeId}
  {m : MatchResult} {refs : ResourceType → Multiset NodeId} {owned : ResourceType → Multiset PageId}

theorem mem_collectAllPages_of_mem_nodePages (h : x ∈ nodePages t kv.tree i) :
    x ∈ collectAllPages t kv := by
  unfold nodePages at h
  cases hr : kv.tree.read i with
  | none => simp [hr] at h
  | some n => exact Heap.mem_collect.mpr ⟨i,n,hr,by simpa [hr] using h⟩

namespace InsertedPages

variable (h : InsertedPages t refs owned T start alloc kv kv₂ kv' last)

include h

/-- A node that got pages is on the way to the last node and had none. -/
theorem resident_inv (hj : hasResource t kv'.tree j = true) :
    hasResource t kv₂.tree j = true ∧ nodePages t kv'.tree j = nodePages t kv₂.tree j ∨
      hasResource t kv₂.tree j = false ∧ j ∈ leafToRoot kv₂.tree last := by
  obtain ⟨nodes,hatt,hsub⟩ := h.attached
  by_cases hyes : hasResource t kv₂.tree j = true
  · exact Or.inl ⟨hyes,hatt.kept j hyes⟩
  · exact Or.inr ⟨by simpa using hyes,hsub (((hatt.resident j).mp hj).resolve_left hyes)⟩

/-- The pages of a node that got some, by position. -/
theorem page_of_new (hj : kv₂.tree.read j = some n) {p : NodeId} (hp : n.parent = some p)
    (hon : j ∈ leafToRoot kv₂.tree last) (hno : hasResource t kv₂.tree j = false) {a : Nat}
    (hlt : (pathTokens kv₂.tree p).length < a*kv₂.pageSize)
    (hle : a*kv₂.pageSize ≤ (pathTokens kv₂.tree j).length) :
    (nodePages t kv'.tree j)[(a*kv₂.pageSize-(pathTokens kv₂.tree p).length)/kv₂.pageSize-1]? =
      alloc[a-1-start]? ∧ start < a := by
  have hT := h.kvInv.inv.tree
  have hps := hT.pageSize_pos
  obtain ⟨np,hnp,hdep,hne,c,hc⟩ := hT.parent hj hp
  obtain ⟨k,hk,hpages⟩ := h.filled j n p hj hp hon hno (h.resident j hon)
  rw [nodeDepth_of_read hnp,← hT.pathTokens_length hnp] at hk
  rw [hT.pathTokens_length hj,hdep,← hT.pathTokens_length hnp,hc] at hle
  rw [← hk] at hlt hle ⊢
  have hka : start+k < a := Nat.lt_of_mul_lt_mul_right hlt
  have hac : a ≤ start+k+c := by
    rw [Nat.mul_comm kv₂.pageSize c,← Nat.add_mul] at hle
    exact Nat.le_of_mul_le_mul_right hle hps
  rw [hpages,hc,Nat.mul_div_cancel_left _ hps,← Nat.sub_mul,Nat.mul_div_cancel _ hps,
    List.getElem?_take_of_lt (by omega),List.getElem?_drop]
  exact ⟨congrArg (alloc[·]?) (by omega),by omega⟩

variable (hev : Evolves refs kv kv')

include hev

theorem pageSize_eq : kv'.pageSize = kv₂.pageSize := by
  obtain ⟨o,hg⟩ := h.grows
  rw [hev.pageSize,hg.pageSize]

/-- What the map had it keeps. -/
theorem pageFor_kept (hinv' : KVInv kv' refs owned)
    (hP : pageFor t kv₂.pageSize kv₂.tree P = some x) :
    pageFor t kv₂.pageSize kv'.tree P = some x := by
  obtain ⟨nodes,hatt,-⟩ := h.attached
  have hpsz := h.pageSize_eq hev
  have hT₂ := h.kvInv.inv.tree
  obtain ⟨hne,hdvd,i,hi,hPi,hx⟩ := h.kvInv.pageFor_eq_some_iff.mp hP
  rw [← hpsz,hinv'.pageFor_eq_some_iff,hpsz]
  refine ⟨hne,hdvd,i,(hatt.resident i).mpr (Or.inl hi),?_,?_⟩
  · rw [hatt.shape.pathTokens_eq]
    exact hPi
  · have hpages : pathPages t kv'.tree i = pathPages t kv₂.tree i := by
      unfold pathPages rootToLeaf
      rw [hatt.shape.leafToRoot_eq]
      refine List.flatMap_congr fun j hj => hatt.kept j ?_
      exact (h.kvInv.closed t).path hT₂ hi (List.mem_reverse.mp hj)
    rw [hpages]
    exact hx

/-- What the map lacked of `T` it has now, at the pages of the caller. -/
theorem pageFor_new (hinv' : KVInv kv' refs owned)
    (hP : pageFor t kv₂.pageSize kv₂.tree P = none) (hne : P ≠ []) (hdvd : kv₂.pageSize ∣ P.length) (hPT : P <+: T) :
    pageFor t kv₂.pageSize kv'.tree P = alloc[P.length/kv₂.pageSize-1-start]? ∧
      start < P.length/kv₂.pageSize := by
  obtain ⟨nodes,hatt,-⟩ := h.attached
  obtain ⟨nl,hnl⟩ := h.live
  have hT₂ := h.kvInv.inv.tree
  have hT' := hinv'.inv.tree
  rw [h.pageSize_eq hev] at hT'
  have hPl : P <+: pathTokens kv₂.tree last := by
    rw [h.tokens]
    exact hPT
  obtain ⟨y,ny,z,hy,hny,hyz,hPy,hz⟩ := exists_reaching hT₂ hnl hPl hne
  have hno : hasResource t kv₂.tree y = false := by
    by_contra hyes
    have hsome := h.kvInv.isSome_pageFor_iff.mpr
      ⟨hne,hdvd,Or.inr ⟨y,by simpa using hyes,hPy⟩⟩
    rw [hP] at hsome
    cases hsome
  obtain ⟨ny',hny',hv⟩ := hatt.shape.read hny
  have hyz' : ny'.parent = some z := (congrArg (fun v => v.1.1) hv).trans hyz
  have htok := hatt.shape.pathTokens_eq
  rw [hT'.pageFor_eq t hny' hyz' (by rw [htok]; exact hPy) (by rw [htok]; exact hz) hdvd,htok]
  obtain ⟨a,ha⟩ := hdvd
  have hle := hPy.length_le
  rw [Nat.mul_comm] at ha
  rw [ha] at hz hle ⊢
  rw [Nat.mul_div_cancel _ hT₂.pageSize_pos]
  exact h.page_of_new hny hyz hy hno hz hle

/-- Nothing else enters the map. -/
theorem pageFor_other (hinv' : KVInv kv' refs owned)
    (hP : pageFor t kv₂.pageSize kv₂.tree P = none) (hPT : ¬P <+: T) :
    pageFor t kv₂.pageSize kv'.tree P = none := by
  obtain ⟨nodes,hatt,-⟩ := h.attached
  obtain ⟨nl,hnl⟩ := h.live
  have hpsz := h.pageSize_eq hev
  rw [Option.eq_none_iff_forall_ne_some]
  intro x hx
  rw [← hpsz,hinv'.pageFor_eq_some_iff,hpsz] at hx
  obtain ⟨hne,hdvd,i,hi,hPi,-⟩ := hx
  rw [hatt.shape.pathTokens_eq] at hPi
  rcases h.resident_inv hi with ⟨hyes,-⟩ | ⟨-,hon⟩
  · have hsome := h.kvInv.isSome_pageFor_iff.mpr ⟨hne,hdvd,Or.inr ⟨i,hyes,hPi⟩⟩
    rw [hP] at hsome
    cases hsome
  · refine hPT (hPi.trans ?_)
    rw [← h.tokens]
    exact h.kvInv.inv.tree.pathTokens_prefix hnl (Or.inr hon)

/-- `Insert` fills the map. -/
theorem pageFor_fill (hinv : KVInv kv refs (own t alloc owned)) (hinv' : KVInv kv' refs owned)
    (hlen : prefixPages.length = start) :
    pageFor t kv'.pageSize kv'.tree =
      (pageFor t kv.pageSize kv.tree).fill kv.pageSize T (prefixPages ++ alloc) := by
  obtain ⟨o,hg⟩ := h.grows
  rw [← hg.pageFor_eq hinv h.kvInv t,← hg.pageSize,h.pageSize_eq hev]
  funext P
  unfold PrefixMap.fill
  cases hP : pageFor t kv₂.pageSize kv₂.tree P with
  | some x =>
    rw [Option.some_or]
    exact h.pageFor_kept hev hinv' hP
  | none =>
    rw [Option.none_or]
    by_cases hPT : P <+: T
    · by_cases hwhole : P ≠ [] ∧ P.length % kv₂.pageSize = 0
      · obtain ⟨hval,hlt⟩ := h.pageFor_new hev hinv' hP hwhole.1
          (Nat.dvd_of_mod_eq_zero hwhole.2) hPT
        rw [if_pos ⟨hwhole.1,hwhole.2,hPT⟩,hval,List.getElem?_append_right (by omega),hlen]
      · rw [if_neg (fun hc => hwhole ⟨hc.1,hc.2.1⟩),Option.eq_none_iff_forall_ne_some]
        intro x hx
        rw [← h.pageSize_eq hev,hinv'.pageFor_eq_some_iff,
          h.pageSize_eq hev] at hx
        exact hwhole ⟨hx.1,Nat.mod_eq_zero_of_dvd hx.2.1⟩
    · rw [if_neg (fun hc => hPT hc.2.2)]
      exact h.pageFor_other hev hinv' hP hPT

/-- The other tier is left alone. -/
theorem pageFor_of_ne (hinv : KVInv kv refs (own t alloc owned)) (hu : u ≠ t) :
    pageFor u kv'.pageSize kv'.tree = pageFor u kv.pageSize kv.tree := by
  obtain ⟨o,hg⟩ := h.grows
  obtain ⟨nodes,hatt,-⟩ := h.attached
  rw [← hg.pageFor_eq hinv h.kvInv u,h.pageSize_eq hev]
  exact pageFor_congr (hatt.agree u hu) _

omit hev in
/-- A page of the caller that a node got stands for a position of that node. -/
theorem position_of_new (hj : kv₂.tree.read j = some n) {p : NodeId} (hp : n.parent = some p)
    (hon : j ∈ leafToRoot kv₂.tree last) (hno : hasResource t kv₂.tree j = false)
    (hx : x ∈ nodePages t kv'.tree j) (hnd : alloc.Nodup) {k : Nat} (hk : alloc[k]? = some x) :
    (pathTokens kv₂.tree p).length < (start+k+1)*kv₂.pageSize ∧
      (start+k+1)*kv₂.pageSize ≤ (pathTokens kv₂.tree j).length := by
  have hT := h.kvInv.inv.tree
  have hps := hT.pageSize_pos
  obtain ⟨np,hnp,hdep,hne,c,hc⟩ := hT.parent hj hp
  obtain ⟨k',hk',hfill⟩ := h.filled j n p hj hp hon hno (h.resident j hon)
  obtain ⟨hklt,hxk⟩ := List.getElem?_eq_some_iff.mp hk
  rw [hfill,hc,Nat.mul_div_cancel_left _ hps] at hx
  obtain ⟨e,he,hxe⟩ := List.mem_iff_getElem.mp hx
  rw [List.getElem_take,List.getElem_drop] at hxe
  simp only [List.length_take,List.length_drop] at he
  have hke : k = k'+e := hnd.getElem_inj_iff.mp (hxk.trans hxe.symm)
  rw [nodeDepth_of_read hnp,← hT.pathTokens_length hnp] at hk'
  rw [hT.pathTokens_length hj,hdep,← hT.pathTokens_length hnp,← hk',hc,
    Nat.mul_comm kv₂.pageSize c,← Nat.add_mul]
  exact ⟨Nat.mul_lt_mul_of_pos_right (by omega) hps,Nat.mul_le_mul_right _ (by omega)⟩

/-- A page of the caller whose position was taken goes back to the allocator. -/
theorem surplus_free (hinv : KVInv kv refs (own t alloc owned)) (hinv' : KVInv kv' refs owned)
    (hlen : (start+alloc.length)*kv.pageSize = T.length) {k : Nat} (hk : alloc[k]? = some x)
    (htaken : (pageFor t kv.pageSize kv.tree (T.take ((start+k+1)*kv.pageSize))).isSome = true) :
    x ∈ (kv'.manager t).allocator.freePages := by
  obtain ⟨o,hg⟩ := h.grows
  obtain ⟨nodes,hatt,hsub⟩ := h.attached
  obtain ⟨nl,hnl⟩ := h.live
  have hT₂ := h.kvInv.inv.tree
  rw [← hg.pageFor_eq hinv h.kvInv t,← hg.pageSize] at htaken
  rw [← hg.pageSize] at hlen
  have hmem : x ∈ alloc := List.mem_of_getElem? hk
  have hklt : k < alloc.length := (List.getElem?_eq_some_iff.mp hk).1
  have hpages := h.kvInv.inv.pages t
  have hpages' := hinv'.inv.pages t
  unfold PagesOK at hpages hpages'
  rw [own_same] at hpages
  have hnd : (PageAllocator.allPages (kv₂.manager t).allocator.totalPages : Multiset PageId).Nodup :=
    Multiset.coe_nodup.mpr List.nodup_range'
  rw [← hpages] at hnd
  obtain ⟨-,hheld,hdisj⟩ := Multiset.nodup_add.mp hnd
  obtain ⟨halloc,-,hown⟩ := Multiset.nodup_add.mp hheld
  have hx : x ∈ (PageAllocator.allPages (kv'.manager t).allocator.totalPages : Multiset PageId) := by
    rw [hev.totalPages t,← hg.manager,← hpages]
    exact Multiset.mem_add.mpr (Or.inr (Multiset.mem_add.mpr (Or.inl hmem)))
  rw [← hpages',Multiset.mem_add,Multiset.mem_add] at hx
  rcases hx with (hx | hx) | hx
  · exact hx
  · -- a page of the tree is an old one or stands at its own position, which was free
    exfalso
    obtain ⟨j,nj',hj',hxj⟩ := Heap.mem_collect.mp hx
    obtain ⟨nj,hnj,hv⟩ := hatt.shape.symm.read hj'
    have hxj' : x ∈ nodePages t kv'.tree j := by simpa [nodePages,hj'] using hxj
    have hresj : hasResource t kv'.tree j = true := by
      by_contra hno
      simp only [hasResource,hj',Option.bind_some,Bool.not_eq_true,Option.isSome_eq_false_iff,
        Option.isNone_iff_eq_none] at hno
      simp [TreeNode.pages,hno] at hxj
    rcases h.resident_inv hresj with ⟨hyes,hkept⟩ | ⟨hno,hon⟩
    · refine Multiset.disjoint_left.mp hdisj ?_ (Multiset.mem_add.mpr (Or.inl hmem))
      refine Multiset.mem_add.mpr (Or.inr (mem_collectAllPages_of_mem_nodePages (i := j) ?_))
      rw [← hkept]
      exact hxj'
    · obtain ⟨_,p,hnj',hp,-⟩ := hT₂.mem_leafToRoot hon
      obtain rfl := Option.some.inj (hnj.symm.trans hnj')
      obtain ⟨hlt,hle⟩ := h.position_of_new hnj hp hon hno hxj' (Multiset.coe_nodup.mp halloc) hk
      have hTle : (start+k+1)*kv₂.pageSize ≤ T.length := by
        rw [← hlen]
        exact Nat.mul_le_mul_right _ (by omega)
      have hPlen : (T.take ((start+k+1)*kv₂.pageSize)).length = (start+k+1)*kv₂.pageSize := by
        rw [List.length_take,Nat.min_eq_left hTle]
      have hPj : T.take ((start+k+1)*kv₂.pageSize) <+: pathTokens kv₂.tree j := by
        refine List.prefix_of_prefix_length_le (List.take_prefix _ _) ?_ (by rw [hPlen]; exact hle)
        rw [← h.tokens]
        exact hT₂.pathTokens_prefix hnl (Or.inr hon)
      have hnil : nodePages t kv₂.tree j = [] := by
        simp only [hasResource,hnj,Option.bind_some,Option.isSome_eq_false_iff,
          Option.isNone_iff_eq_none] at hno
        simp [nodePages,hnj,TreeNode.pages,hno]
      rw [hT₂.pageFor_eq t hnj hp hPj (by rw [hPlen]; exact hlt)
        (by rw [hPlen]; exact Nat.dvd_mul_left _ _),hnil] at htaken
      cases htaken
  · exact absurd hx (Multiset.disjoint_left.mp hown hmem)

end InsertedPages

/-- A match ends, on each tier, where the map has its first gap. -/
theorem Matched.depth_eq {o : NodeId → NodeId} {terminal : NodeId} (hm : Matched T kv'.tree m terminal)
    (hdeep : Deepest T kv' m) (hg : Grows o kv kv') (hinv : KVInv kv refs owned)
    (hinv' : KVInv kv' refs owned) (t : ResourceType) :
    nodeDepth kv'.tree (m.last t) =
      (pageFor t kv.pageSize kv.tree).longest kv.pageSize T*kv.pageSize := by
  have hT' := hinv'.inv.tree
  have hps := hT'.pageSize_pos
  obtain ⟨n,hn⟩ := (hm.stop t).live
  obtain ⟨k,hk⟩ := hT'.pageSize_dvd_depth hn
  have hpre := hm.last_tokens hT' t
  have hlen := hT'.pathTokens_length hn
  have hle := hpre.length_le
  rw [hlen,hk,Nat.mul_comm] at hle
  have hcov := hm.covers hT' t
  rw [← hg.pageFor_eq hinv hinv' t,← hg.pageSize,nodeDepth_of_read hn,hk,Nat.mul_comm]
  congr 1
  refine (PrefixMap.longest_eq ((Nat.le_div_iff_mul_le hps).mpr hle) (fun j hj => ?_)
    (fun hlt => ?_)).symm
  · have hjle : (j+1)*kv'.pageSize ≤ k*kv'.pageSize := Nat.mul_le_mul_right _ hj
    have hPlen : (T.take ((j+1)*kv'.pageSize)).length = (j+1)*kv'.pageSize := by
      rw [List.length_take,Nat.min_eq_left (hjle.trans hle)]
    refine hinv'.isSome_pageFor_iff.mpr ⟨?_,?_,hcov.mono ?_⟩
    · rw [← List.length_pos_iff,hPlen]
      exact Nat.mul_pos (Nat.succ_pos j) hps
    · rw [hPlen]
      exact Nat.dvd_mul_left _ _
    · refine List.prefix_of_prefix_length_le (List.take_prefix _ _) hpre ?_
      rw [hPlen,hlen,hk,Nat.mul_comm kv'.pageSize k]
      exact hjle
  · have hle' : (k+1)*kv'.pageSize ≤ T.length := (Nat.le_div_iff_mul_le hps).mp hlt
    have hPlen : (T.take ((k+1)*kv'.pageSize)).length = (k+1)*kv'.pageSize := by
      rw [List.length_take,Nat.min_eq_left hle']
    rw [← Option.not_isSome_iff_eq_none,hinv'.isSome_pageFor_iff]
    rintro ⟨-,hdvd,hc⟩
    have hd := hdeep t _ (List.take_prefix _ _) hdvd hc
    rw [hPlen,nodeDepth_of_read hn,hk,Nat.mul_comm kv'.pageSize k] at hd
    exact absurd (Nat.le_of_mul_le_mul_right hd hps) (by omega)

section SplitAt

theorem splitAtLoop_returns (hinv : KVInv kv refs owned) {depth : Int}
    (hdvd : (kv.pageSize : Int) ∣ depth) (is : List NodeId)
    (his : ∀ j ∈ is, ∃ n p, kv.tree.read j = some n ∧ n.parent = some p) :
    Returns (splitAtLoop depth is) kv (fun _ kv' => KVInv kv' refs owned ∧ ∃ o, Grows o kv kv') := by
  have hT := hinv.inv.tree
  induction is with
  | nil => exact ⟨hinv,id,Grows.refl kv⟩
  | cons i is ih =>
    obtain ⟨n,p,hn,hp⟩ := his i List.mem_cons_self
    obtain ⟨np,hnp,hdep,hne,hnd⟩ := hT.parent hn hp
    unfold Returns splitAtLoop
    apply getNode_bind hn
    dsimp only
    split
    · exact ⟨hinv,id,Grows.refl kv⟩
    · split
      · next hbetween =>
        have hplain := hinv.inv.plain hn
        rw [if_neg (by simp [TreeNode.hasPagedCacheSnapshot,hplain]),hp]
        -- the cut is a whole number of pages into the node
        have hps : (0 : Int) < kv.pageSize := by exact_mod_cast hT.pageSize_pos
        have hoff : (kv.pageSize : Int) ∣ depth-((n.depthInTokens : Int)-n.tokens.length) := by
          refine Int.dvd_sub hdvd ?_
          have : ((n.depthInTokens : Int)-n.tokens.length) = np.depthInTokens := by omega
          rw [this]
          exact_mod_cast hT.pageSize_dvd_depth hnp
        obtain ⟨c,hc⟩ := hoff
        have hcpos : 0 < c := by
          by_contra hneg
          have := Int.mul_nonpos_of_nonneg_of_nonpos hps.le (by omega : c ≤ 0)
          omega
        have hdiv : ((depth-((n.depthInTokens : Int)-n.tokens.length))/kv.pageSize).toNat = c.toNat := by
          rw [hc,Int.mul_ediv_cancel_left _ hps.ne']
        have hcut : Cut kv.pageSize c.toNat kv.tree p i np n := by
          refine ⟨hT,hn,hp,hnp,by omega,?_⟩
          have : ((c.toNat*kv.pageSize : Nat) : Int) < n.tokens.length := by
            push_cast
            rw [Int.toNat_of_nonneg hcpos.le,Int.mul_comm,← hc]
            omega
          exact_mod_cast this
        rw [runs_bind,runs_get,hdiv]
        refine (splitChild_returns hcut hinv.inv.sized hplain).bind ?_
        rintro _ _ ⟨rfl,rfl⟩
        exact ⟨hcut.kvInv hinv,_,hcut.grows⟩
      · exact ih fun j hj => his j (List.mem_cons_of_mem _ hj)

theorem splitAt_returns (hinv : KVInv kv refs owned) {descendant : Option NodeId}
    (hlive : ∀ i, descendant = some i → ∃ n, kv.tree.read i = some n) (depth : Int) :
    Returns (splitAt descendant depth) kv
      (fun _ kv' => KVInv kv' refs owned ∧ ∃ o, Grows o kv kv') := by
  unfold Returns splitAt
  cases descendant with
  | none => exact ⟨hinv,id,Grows.refl kv⟩
  | some i =>
    obtain ⟨n,hn⟩ := hlive i rfl
    dsimp only
    rw [runs_bind,runs_get]
    split
    · exact ⟨hinv,id,Grows.refl kv⟩
    · next hdepth =>
      apply getNode_bind hn
      split
      · exact ⟨hinv,id,Grows.refl kv⟩
      · apply getLeafToRoot_bind hn
        refine splitAtLoop_returns hinv (Int.dvd_of_emod_eq_zero (by tauto)) _ fun j hj => ?_
        obtain ⟨m,q,hm,hq,-⟩ := hinv.inv.tree.mem_leafToRoot hj
        exact ⟨m,q,hm,hq⟩

end SplitAt

end FluxServe
