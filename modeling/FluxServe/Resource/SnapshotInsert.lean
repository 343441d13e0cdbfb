import FluxServe.Resource.InsertIntact

namespace FluxServe

open KVPrefixCache

variable {t : ResourceType} {i j c p start : NodeId} {n np : TreeNode}
  {kv kv' kv₀ : KVPrefixCache} {w w' : WalkResult} {T : List Token}

/-- `TreeNode::AttachPagedCacheSnapshot`. -/
def attachPagedCacheSnapshot (i : NodeId) (snapshot : PagedCacheSnapshot) : KV Unit := do
  let n ← getNode i
  setNode i { n with pagedCacheSnapshot := some snapshot }

/-- A sequence that enters a node with a snapshot and leaves it before its end. -/
def LeavesSnapshot (kv : KVPrefixCache) (T : List Token) : Prop :=
  ∃ c n p, kv.tree.read c = some n ∧ n.parent = some p ∧ n.pagedCacheSnapshot ≠ none ∧
    pathTokens kv.tree p ++ n.tokens.take kv.pageSize <+: T ∧ ¬pathTokens kv.tree c <+: T

/-- Splits and new leaves leave a node with a snapshot where it is. -/
theorem LeavesSnapshot.of_same {tree tree' : Heap TreeNode} {ps : Nat} {n' : TreeNode} {p' : NodeId}
    (hT : TreeOK ps tree) (hT' : TreeOK ps tree') (hn : tree.read c = some n)
    (hn' : tree'.read c = some n') (hp : n.parent = some p) (hp' : n'.parent = some p')
    (htok : n'.tokens = n.tokens) (hpath : pathTokens tree' c = pathTokens tree c) :
    pathTokens tree' p' = pathTokens tree p := by
  rw [hT.pathTokens_cons hn hp,hT'.pathTokens_cons hn' hp',htok] at hpath
  exact List.append_cancel_right hpath

theorem leavesSnapshot_iff {o : NodeId → NodeId} (h : Grows o kv kv')
    (hT : TreeOK kv.pageSize kv.tree) (hT' : TreeOK kv'.pageSize kv'.tree)
    (hsame : SameSnapshots kv.tree kv'.tree) (T : List Token) :
    LeavesSnapshot kv' T ↔ LeavesSnapshot kv T := by
  rw [h.pageSize] at hT'
  constructor
  · rintro ⟨c,n',p',hn',hp',hsnap,hpre,hleave⟩
    obtain ⟨n,hn,htok,hs⟩ := hsame c n' hn' hsnap
    obtain ⟨p,_,hp,_⟩ := hT.node hn (hT'.ne_zero hn' hp')
    have hpath := h.pathTokens hn
    have hparent := LeavesSnapshot.of_same hT hT' hn hn' hp hp' htok hpath
    rw [h.pageSize,htok,hparent] at hpre
    rw [hpath] at hleave
    exact ⟨c,n,p,hn,hp,hs ▸ hsnap,hpre,hleave⟩
  · rintro ⟨c,n,p,hn,hp,hsnap,hpre,hleave⟩
    obtain ⟨n',hn',hs⟩ := h.live hn
    obtain ⟨m,hm,htok,_⟩ := hsame c n' hn' (hs ▸ hsnap)
    obtain rfl : n = m := by
      rw [hn] at hm
      exact Option.some.inj hm
    obtain ⟨p',_,hp',_⟩ := hT'.node hn' (hT.ne_zero hn hp)
    have hpath := h.pathTokens hn
    refine ⟨c,n',p',hn',hp',hs ▸ hsnap,?_,hpath ▸ hleave⟩
    rw [h.pageSize,htok,LeavesSnapshot.of_same hT hT' hn hn' hp hp' htok hpath]
    exact hpre

section Ends

variable (hT : TreeOK kv.pageSize kv.tree) (hw : ∃ nt, kv.tree.read w.terminal = some nt)
  (htok : pathTokens kv.tree w.terminal ++ w.remainingTokens = T)

include hT hw htok

/-- A walk that finds no child has passed every node with a snapshot that it entered. -/
theorem not_leavesSnapshot (hno : NoChild kv w) : ¬LeavesSnapshot kv T := by
  rintro ⟨c,n,p,hn,hp,-,hpre,hleave⟩
  obtain ⟨nt,hnt⟩ := hw
  obtain ⟨np,hnp,-,hne,hdvd⟩ := hT.parent hn hp
  have hlen := Nat.le_of_dvd (List.length_pos_of_ne_nil hne) hdvd
  have hterm : pathTokens kv.tree w.terminal <+: T := htok ▸ List.prefix_append _ _
  have hpT : pathTokens kv.tree p <+: T := (List.prefix_append _ _).trans hpre
  -- the children of `p` on the way to `T` have one key
  have hkey : ∀ {d nd}, kv.tree.read d = some nd → nd.parent = some p →
      pathTokens kv.tree d <+: T → nd.tokens.take kv.pageSize = n.tokens.take kv.pageSize := by
    intro d nd hd hdp hdT
    obtain ⟨_,_,_,hdne,hddvd⟩ := hT.parent hd hdp
    have hdlen := Nat.le_of_dvd (List.length_pos_of_ne_nil hdne) hddvd
    obtain ⟨R,rfl⟩ := hpT
    rw [hT.pathTokens_cons hd hdp,List.prefix_append_right_inj] at hdT
    rw [List.prefix_append_right_inj] at hpre
    have h := take_eq_of_isPrefix hdT hpre hdlen (by rw [List.length_take]; omega)
    rwa [List.take_take,Nat.min_self] at h
  by_cases hpt : p = w.terminal
  · subst hpt
    rw [← htok,List.prefix_append_right_inj] at hpre
    have hrem : kv.pageSize ≤ w.remainingTokens.length := by
      have h := hpre.length_le
      rw [List.length_take] at h
      omega
    refine hno c n hn hp hrem ?_
    have h := take_eq_of_isPrefix hpre (List.prefix_refl _) (k := kv.pageSize)
      (by rw [List.length_take]; omega) hrem
    rwa [List.take_take,Nat.min_self] at h
  · rcases Nat.le_total (pathTokens kv.tree p).length (pathTokens kv.tree w.terminal).length with
      hle | hle
    · have hon := hT.mem_leafToRoot_of_prefix hnp hnt
        (List.prefix_of_prefix_length_le hpT hterm hle)
      obtain ⟨d,nd,hd,hnd,hdp⟩ := hT.child_on_path hnt hon hpt
      have hdT := (hT.pathTokens_prefix hnt (Or.inr hd)).trans hterm
      obtain rfl := hT.sibling hnd hn hdp hp (hkey hnd hdp hdT)
      exact hleave hdT
    · -- the walk would have gone on towards `p`
      have hon := hT.mem_leafToRoot_of_prefix hnt hnp
        (List.prefix_of_prefix_length_le hterm hpT hle)
      obtain ⟨d,nd,hd,hnd,hdp⟩ := hT.child_on_path hnp hon (Ne.symm hpt)
      have hdT := (hT.pathTokens_prefix hnp (Or.inr hd)).trans hpT
      rw [hT.pathTokens_cons hnd hdp,← htok,List.prefix_append_right_inj] at hdT
      obtain ⟨_,_,_,hdne,hddvd⟩ := hT.parent hnd hdp
      have hdlen := Nat.le_of_dvd (List.length_pos_of_ne_nil hdne) hddvd
      have hrem := hdlen.trans hdT.length_le
      exact hno d nd hnd hdp hrem (take_eq_of_isPrefix hdT (List.prefix_refl _) hdlen hrem)

omit hw in
/-- A walk that is refused stands above the node it would have to split. -/
theorem leavesSnapshot_of_refuses (hn : kv.tree.read c = some n) (hp : n.parent = some w.terminal)
    (hkey : n.tokens.take kv.pageSize = w.remainingTokens.take kv.pageSize)
    (href : Refuses kv.pageSize n w.remainingTokens) : LeavesSnapshot kv T := by
  refine ⟨c,n,w.terminal,hn,hp,href.2,?_,fun hpre => href.1 ?_⟩
  · rw [hkey,← htok,List.prefix_append_right_inj]
    exact List.take_prefix _ _
  · rw [hT.pathTokens_cons hn hp,← htok,List.prefix_append_right_inj] at hpre
    unfold calcMatchedPages
    have hle := le_matchedTokens (Nat.le_refl _) hpre.length_le
      (take_eq_of_isPrefix hpre (List.prefix_refl _) (Nat.le_refl _) hpre.length_le)
    rw [Nat.le_antisymm (matchedTokens_le _ _).1 hle]

end Ends

/-- What the walk of an insertion keeps. -/
structure Walking (T : List Token) (kv₀ kv : KVPrefixCache) (w : WalkResult) : Prop where
  grows : ∃ o, Grows o kv₀ kv
  live : ∃ n, kv.tree.read w.terminal = some n
  tokens : pathTokens kv.tree w.terminal ++ w.remainingTokens = T
  snapshots : SameSnapshots kv₀.tree kv.tree

theorem Walking.step {o : NodeId → NodeId} (h : Walking T kv₀ kv w)
    (hw : WalkStep o kv kv' w w') : Walking T kv₀ kv' w' := by
  obtain ⟨o₀,hg⟩ := h.grows
  obtain ⟨n,hn,_⟩ := hw.next
  exact ⟨⟨_,hg.trans hw.grows⟩,⟨n,hn⟩,hw.tokens.trans h.tokens,h.snapshots.trans hw.snapshots⟩

/-- The walk of an insertion ends above a free place, or it is refused. -/
theorem walkDownUtilMismatch_ends (hT : TreeOK kv.pageSize kv.tree) (hs : Sized kv.pageSize kv.tree)
    (hstart : ∃ n, kv.tree.read start = some n) (T : List Token) (now : Timestamp) :
    Returns (walkDownUtilMismatch T now start) kv (fun w kv' =>
      Walking (pathTokens kv.tree start ++ T) kv kv' w ∧ TreeOK kv'.pageSize kv'.tree ∧
        (NoChild kv' w ∨ Refused kv' w)) := by
  refine walkLoop_runs (Walking (pathTokens kv.tree start ++ T) kv) now _ (fun h _ hw => h.step hw)
    (fun h hT _ hends => ⟨h,hT,hends⟩) hT hs (Nat.le_refl _) ?_
  exact ⟨⟨id,Grows.refl kv⟩,hstart,rfl,fun _ n h _ => ⟨n,h,rfl,rfl⟩⟩

section Destroy

/-- A node that is gone stays gone. -/
theorem Fills.read_none (h : Fills t kv kv') (hc : kv.tree.read c = none) :
    kv'.tree.read c = none := h.agree.read_none hc

theorem read_release_none {tree : Heap TreeNode} (h : tree.read c = none) (j : NodeId) :
    (tree.release j).read c = none := by
  unfold Heap.read Heap.release at *
  rw [List.getElem?_set]
  split
  · split <;> rfl
  · exact h

theorem read_release_self (tree : Heap TreeNode) (c : NodeId) : (tree.release c).read c = none := by
  unfold Heap.read Heap.release
  rw [List.getElem?_set]
  split
  · split <;> rfl
  · contradiction

/-- The subtree of a node that is replaced as a child is gone, with the node itself. -/
theorem destroySubtree_gone (hn : kv.tree.read c = some n) (hp : n.parent = some p)
    (hd : n.depthInTokens ≠ 0) :
    Returns (destroySubtree c) kv (fun _ kv' => kv'.tree.read c = none) := by
  have hself : c ∈ subtree kv.tree c := by
    unfold subtree leafToRoot
    rw [List.mem_filter,List.mem_range]
    refine ⟨Heap.lt_of_read hn,?_⟩
    obtain ⟨k,hk⟩ := Nat.exists_eq_succ_of_ne_zero hd
    simp [hn,hk,leafToRootAux,hp]
  refine (runs_bind _).mpr ?_
  refine (runs_forM _ (fun rest kv' => c ∈ rest ∨ kv'.tree.read c = none) ?_ _
    (Or.inl hself)).imp (fun _ _ h => ?_) (fun _ _ h => h)
  · intro j rest kv' h
    rw [runs_bind]
    refine (runs_modify _).mpr ?_
    rw [runs_bind]
    refine (runs_modify _).mpr ((runs_modify _).mpr ?_)
    rcases h with h | h
    · rcases List.mem_cons.mp h with rfl | h
      · right
        simpa using read_release_self kv'.tree c
      · exact Or.inl h
    · right
      simpa using read_release_none h j
  · simpa using h

/-- `AddChild` over a child with the same first page destroys that child. -/
theorem addChild_gone (hT : TreeOK kv.pageSize kv.tree) (hn : kv.tree.read c = some n)
    (hp : n.parent = some p) {tokens : List Token}
    (hkey : n.tokens.take kv.pageSize = tokens.take kv.pageSize) (now : Timestamp) :
    Returns (addChild p tokens now) kv (fun _ kv' => kv'.tree.read c = none) := by
  obtain ⟨np,hnp,hdepth,hne,-⟩ := hT.parent hn hp
  have hfind : findChild kv.pageSize kv.tree p (tokens.take kv.pageSize) = some c := by
    cases hf : findChild kv.pageSize kv.tree p (tokens.take kv.pageSize) with
    | none => exact absurd hkey (findChild_none hf hn hp)
    | some d =>
      obtain ⟨nd,hnd,hdp,hdkey⟩ := findChild_some hf
      rw [hT.sibling hnd hn hdp hp (hdkey.trans hkey.symm)]
  unfold addChild
  apply getNode_bind hnp
  rw [runs_bind,runs_get,hfind,runs_bind]
  refine (runs_modify _).mpr ((runs_bind _).mpr ?_)
  have hd : n.depthInTokens ≠ 0 := by
    have := List.length_pos_of_ne_nil hne
    omega
  have hn' := Heap.read_alloc_of_read (a := leafNode p np tokens now) hn
  exact (destroySubtree_gone hn' hp hd).imp (fun _ _ h => h) (fun _ _ h => h)

end Destroy

/-- What follows the choice of the last node adds pages only. -/
theorem insertRest_fills (last : NodeId) (allocStart : Int) (s : Insertion) :
    Follows (Fills t) (do
      let path ← getLeafToRoot last
      let s ← insertLoop t allocStart path s
      releaseInsertion t s
      return (⟨last,s.insertedNumPages⟩ : InsertResult)) := by
  have hpath : Follows (Fills t) (getLeafToRoot last) :=
    follows_getNode (Fills.refl t) fun kv _ _ => Fills.refl t kv
  refine follows_bind (R := Fills t) Fills.trans hpath fun path => ?_
  refine follows_bind (R := Fills t) Fills.trans (insertLoop_fills allocStart path s) fun s' => ?_
  exact follows_bind (R := Fills t) Fills.trans (follows_releaseInsertion s') fun _ =>
    follows_pure (Fills.refl t) _

theorem readClock_grows (kv : KVPrefixCache) :
    Returns readClock kv (fun _ kv' => kv'.tree = kv.tree ∧ Grows id kv kv') := by
  have hq : Quiet kv { kv with readings := kv.readings+1 } :=
    ⟨⟨rfl,rfl,rfl,fun u => Agree.refl u _,fun u => by cases u <;> rfl⟩,fun _ _ => rfl⟩
  exact ⟨rfl,Grows.of_quiet hq fun u => by cases u <;> rfl⟩

section Insert

variable {prefixPages alloc : List PageId} (hT : TreeOK kv.pageSize kv.tree)
  (hs : Sized kv.pageSize kv.tree) (hstart : ∃ n, kv.tree.read start = some n)
  (hdvd : kv.pageSize ∣ T.length)

include hT hs hstart hdvd

/-- The rule of `Insert`: what holds once the place of the last node is made and is kept when pages
are added holds at the end, whether `Insert` returns or throws. -/
theorem insert_runs {R : KVPrefixCache → Prop} (hfill : ∀ {kv kv'}, R kv → Fills t kv kv' → R kv')
    (hempty : T = [] → R kv)
    (hend : ∀ w kv', Walking (pathTokens kv.tree start ++ T) kv kv' w → TreeOK kv'.pageSize kv'.tree →
      NoChild kv' w ∨ Refused kv' w → (w.remainingTokens = [] → R kv') ∧
        (w.remainingTokens ≠ [] → ∀ now,
          Returns (addChild w.terminal w.remainingTokens now) kv' (fun _ => R))) :
    Runs (insert t T prefixPages alloc start) kv (fun _ => R) (fun _ => R) := by
  have hdrop : ∀ {kv}, R kv → Runs (deallocatePages t alloc) kv (fun _ => R) (fun _ => R) := by
    intro kv hR
    have h : Follows (Fills t) (deallocatePages t alloc) := follows_deallocatePages alloc
    exact (h kv).imp (fun _ _ h => hfill hR h) (fun _ _ h => hfill hR h)
  unfold insert
  rw [runs_bind,runs_get,if_neg (by rw [Nat.mod_eq_zero_of_dvd hdvd]; exact fun h => h rfl)]
  by_cases hnil : T = []
  · rw [hnil,if_pos (by simp)]
    exact (hdrop (hempty hnil)).bind fun _ _ h => h
  · have hpages : T.length/kv.pageSize ≠ 0 := by
      have := Nat.div_pos (Nat.le_of_dvd (List.length_pos_of_ne_nil hnil) hdvd) hT.pageSize_pos
      omega
    rw [if_neg hpages]
    refine (readClock_grows kv).bind fun now kv₁ ⟨htree,hg⟩ => ?_
    have hT₁ : TreeOK kv₁.pageSize kv₁.tree := by
      rw [htree,hg.pageSize]
      exact hT
    have hs₁ : Sized kv₁.pageSize kv₁.tree := by
      rw [htree,hg.pageSize]
      exact hs
    have hwalk := walkDownUtilMismatch_ends hT₁ hs₁ (htree ▸ hstart) T now
    rw [htree] at hwalk
    refine (hwalk.unwinding _).bind fun w kv₂ ⟨hw,hT₂,hends⟩ => ?_
    obtain ⟨o,hgrows⟩ := hw.grows
    have hw' : Walking (pathTokens kv.tree start ++ T) kv kv₂ w :=
      ⟨⟨_,hg.trans hgrows⟩,hw.live,hw.tokens,htree ▸ hw.snapshots⟩
    obtain ⟨hdone,hadd⟩ := hend w kv₂ hw' hT₂ hends
    have hrest : ∀ last kv, R kv → Runs (do
        let path ← getLeafToRoot last
        let s ← insertLoop t prefixPages.length path
          { remainingPages := (T.length/kv₁.pageSize : Nat), allocatorPages := alloc }
        releaseInsertion t s
        return (⟨last,s.insertedNumPages⟩ : InsertResult)) kv (fun _ => R) (fun _ => R) :=
      fun last kv hR => (insertRest_fills last _ _ kv).imp (fun _ _ h => hfill hR h)
        (fun _ _ h => hfill hR h)
    rw [← hg.pageSize]
    cases hrem : w.remainingTokens with
    | nil => exact hrest _ _ (hdone hrem)
    | cons a as =>
      have hadd' := hadd (by simp [hrem]) now
      rw [hrem] at hadd'
      exact hadd'.bind fun last kv₃ hR => hrest last kv₃ hR

/-- `Insert` leaves every node intact exactly if its tokens leave no node with a snapshot before
the end of the node: there `AddChild` would destroy the node with everything below it. -/
theorem insert_intact_iff :
    Runs (insert t T prefixPages alloc start) kv (fun _ => Intact kv) (fun _ => Intact kv) ↔
      ¬LeavesSnapshot kv (pathTokens kv.tree start ++ T) := by
  constructor
  · intro hintact hleave
    have hgone : Runs (insert t T prefixPages alloc start) kv
        (fun _ kv' => ∃ c n, kv.tree.read c = some n ∧ kv'.tree.read c = none)
        (fun _ kv' => ∃ c n, kv.tree.read c = some n ∧ kv'.tree.read c = none) := by
      refine insert_runs hT hs hstart hdvd (fun ⟨c,n,hn,hc⟩ h => ⟨c,n,hn,h.read_none hc⟩)
        (fun hnil => ?_) (fun w kv' hw hT' hends => ?_)
      · exact absurd hleave (not_leavesSnapshot (w := ⟨start,T,start,start,true,true⟩) hT hstart rfl
          fun c n _ _ hlen => by
            rw [hnil] at hlen
            exact absurd hT.pageSize_pos (by simpa using hlen))
      · obtain ⟨o,hg⟩ := hw.grows
        rw [← leavesSnapshot_iff hg hT hT' hw.snapshots] at hleave
        rcases hends with hno | ⟨c,n,hn,hp,hlen,hkey,href⟩
        · exact absurd hleave (not_leavesSnapshot hT' hw.live hw.tokens hno)
        · obtain ⟨n₀,hn₀,-⟩ := hw.snapshots c n hn href.2
          refine ⟨fun hnil => ?_,fun _ now => ?_⟩
          · rw [hnil] at hlen
            exact absurd hT'.pageSize_pos (by simpa using hlen)
          · exact (addChild_gone hT' hn hp hkey now).imp (fun _ _ h => ⟨c,n₀,hn₀,h⟩)
              (fun _ _ h => h)
    unfold Runs at hintact hgone
    cases hrun : insert t T prefixPages alloc start kv with
    | ok _ kv' =>
      rw [hrun] at hintact hgone
      obtain ⟨c,n,hn,hc⟩ := hgone
      obtain ⟨n',hn',-⟩ := hintact.node hn
      rw [hc] at hn'
      cases hn'
    | error _ kv' =>
      rw [hrun] at hintact hgone
      obtain ⟨c,n,hn,hc⟩ := hgone
      obtain ⟨n',hn',-⟩ := hintact.node hn
      rw [hc] at hn'
      cases hn'
  · intro hstay
    refine insert_runs hT hs hstart hdvd Intact.fills
      (fun _ => Intact.of_grows (Grows.refl kv) hT) (fun w kv' hw hT' hends => ?_)
    obtain ⟨o,hg⟩ := hw.grows
    have hno : NoChild kv' w := by
      rcases hends with hno | ⟨c,n,hn,hp,hlen,hkey,href⟩
      · exact hno
      · rw [← leavesSnapshot_iff hg hT hT' hw.snapshots] at hstay
        exact absurd (leavesSnapshot_of_refuses hT' hw.tokens hn hp hkey href) hstay
    refine ⟨fun _ => Intact.of_grows hg hT',fun hne now => ?_⟩
    obtain ⟨nt,hnt⟩ := hw.live
    obtain ⟨ns,hns⟩ := hstart
    have hrem : kv'.pageSize ∣ w.remainingTokens.length := by
      have hlen := congrArg List.length hw.tokens
      rw [List.length_append,List.length_append,hT'.pathTokens_length hnt,
        hT.pathTokens_length hns] at hlen
      have h₁ := hT'.pageSize_dvd_depth hnt
      have h₂ := hT.pageSize_dvd_depth hns
      rw [hg.pageSize] at h₁ ⊢
      exact (Nat.dvd_add_right h₁).mp (hlen ▸ Nat.dvd_add h₂ hdvd)
    have hvac : Vacant kv'.pageSize kv'.tree w.terminal nt w.remainingTokens :=
      ⟨hT',hnt,hne,hrem,fun c n hn hp => hno c n hn hp
        (Nat.le_of_dvd (List.length_pos_of_ne_nil hne) hrem)⟩
    refine (addChild_returns hvac now).imp (fun k kv'' ⟨_,hk⟩ => ?_) (fun _ _ h => h)
    subst hk
    exact Intact.of_grows (hg.trans (hvac.grows now)) (hvac.treeOK now)

end Insert

/-- A new cache with pages of one token and five device pages. -/
def unitCache : KVPrefixCache :=
  { pageSize := 1, disablePrefixCache := false, tree := [some { parent := none }],
    device := { allocator := PageAllocator.new 6 }, host := { allocator := PageAllocator.new 1 },
    nextOpId := 1, clock := id, readings := 0, loadedBack := [] }

/-- `[1,2]` is inserted; its node is locked and gets a snapshot. -/
def insertSnapshot : KV InsertResult := do
  let r ← insert .device [1,2] [] (← allocatePages .device 2)
  lock .device r.lastNode
  attachPagedCacheSnapshot r.lastNode {}
  return r

/-- Inserting `[1,3]` next destroys the locked node. -/
theorem insert_destroys_node :
    Returns insertSnapshot unitCache (fun r kv => refCountOf .device kv.tree r.lastNode = 1 ∧
      Returns (allocatePages .device 2) kv (fun pages kv =>
        ¬Runs (insert .device [1,3] [] pages) kv (fun _ => Intact kv) (fun _ => Intact kv))) := by
  have hrun : Returns insertSnapshot unitCache (fun r kv =>
      refCountOf .device kv.tree r.lastNode = 1 ∧
      Returns (allocatePages .device 2) kv (fun pages kv =>
        (kv.tree.read r.lastNode).isSome = true ∧
        Returns (insert .device [1,3] [] pages) kv (fun _ kv' =>
          kv'.tree.read r.lastNode = none))) := by
    decide +kernel
  refine hrun.imp (fun r kv ⟨hcount,h⟩ => ⟨hcount,?_⟩) (fun _ _ h => h)
  refine h.imp (fun pages kv ⟨hlive,hgone⟩ hintact => ?_) (fun _ _ h => h)
  obtain ⟨n,hn⟩ := Option.isSome_iff_exists.mp hlive
  obtain ⟨a,kv',hok,hnone⟩ := hgone.exists
  obtain ⟨n',hn',-⟩ := (hintact.of_ok hok).node hn
  rw [hnone] at hn'
  cases hn'

/-- The node of `[1,2]`, with a snapshot, below the root. -/
def snapshotTree : Heap TreeNode :=
  [some { parent := none },
    some { parent := some 0, tokens := [1,2], depthInTokens := 2, pagedCacheSnapshot := some {},
           deviceResource := some { pages := [5,4] } }]

theorem read_snapshotTree (h : snapshotTree.read i = some n) :
    (i = 0 ∧ n = { parent := none }) ∨
      (i = 1 ∧ n = { parent := some 0, tokens := [1,2], depthInTokens := 2,
                     pagedCacheSnapshot := some {}, deviceResource := some { pages := [5,4] } }) := by
  match i with
  | 0 => exact Or.inl ⟨rfl,(Option.some.inj h).symm⟩
  | 1 => exact Or.inr ⟨rfl,(Option.some.inj h).symm⟩
  | k+2 => simp [snapshotTree,Heap.read] at h

theorem treeOK_snapshotTree : TreeOK 1 snapshotTree := by
  refine ⟨by decide,⟨_,rfl,rfl,rfl,rfl⟩,fun hi h0 => ?_,fun hi hj hpi hpj _ => ?_⟩
  · rcases read_snapshotTree hi with ⟨rfl,-⟩ | ⟨rfl,rfl⟩
    · exact absurd rfl h0
    · exact ⟨0,{ parent := none },rfl,rfl,rfl,by simp,by simp⟩
  · rcases read_snapshotTree hi with ⟨rfl,rfl⟩ | ⟨rfl,rfl⟩
    · cases hpi
    · rcases read_snapshotTree hj with ⟨rfl,rfl⟩ | ⟨rfl,rfl⟩
      · cases hpj
      · rfl

theorem sized_snapshotTree : Sized 1 snapshotTree := by
  intro t i hi
  obtain ⟨n,r,hn,hr⟩ := exists_resource_of_hasResource hi
  rcases read_snapshotTree hn with ⟨rfl,rfl⟩ | ⟨rfl,rfl⟩
  · cases t <;> cases hr
  · cases t with
    | device => decide
    | host => cases hr

def snapshotCache : KVPrefixCache := { unitCache with tree := snapshotTree }

/-- A longer sequence passes the node with the snapshot, and everything stays. -/
theorem insert_intact_past_snapshot :
    Runs (insert .device [1,2,3] [5,4] [3]) snapshotCache (fun _ => Intact snapshotCache)
      (fun _ => Intact snapshotCache) := by
  have hT : TreeOK snapshotCache.pageSize snapshotCache.tree := treeOK_snapshotTree
  have hs : Sized snapshotCache.pageSize snapshotCache.tree := sized_snapshotTree
  refine (insert_intact_iff hT hs ⟨_,rfl⟩ (Nat.one_dvd _)).mpr ?_
  rintro ⟨c,n,p,hn,hp,hsnap,-,hleave⟩
  rcases read_snapshotTree hn with ⟨rfl,rfl⟩ | ⟨rfl,rfl⟩
  · cases hp
  · exact hleave (by decide)

end FluxServe
