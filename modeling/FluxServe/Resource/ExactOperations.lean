import FluxServe.Resource.ExactLeaves

namespace FluxServe

open KVPrefixCache

variable {kv kv' : KVPrefixCache} {t u : ResourceType} {i j p : NodeId} {n np : TreeNode}
  {w : WalkResult} {tree : Heap TreeNode} {pages : List PageId}

section Walk

theorem KVPrefixCache.TreeOK.dvd_pathTokens {ps : Nat} (h : TreeOK ps tree) (i : NodeId) :
    ps ∣ (pathTokens tree i).length := by
  cases hi : tree.read i with
  | some n =>
    rw [h.pathTokens_length hi]
    exact h.pageSize_dvd_depth hi
  | none =>
    have hnil : pathTokens tree i = [] := by
      simp [pathTokens,rootToLeaf,leafToRoot_of_read_none hi]
    simp [hnil]

/-- Where a walk for whole pages ends, the next page starts no child. -/
structure Halted (kv : KVPrefixCache) (w : WalkResult) : Prop where
  exact : ExactLeaves kv
  dvd : kv.pageSize ∣ w.remainingTokens.length
  noChild : NoChild kv w

theorem walk_halts (h : ExactLeaves kv) {tokens : List Token}
    (hdvd : kv.pageSize ∣ tokens.length) (now : Timestamp) (start : NodeId) :
    Returns (walkDownUtilMismatch tokens now start) kv (fun w kv' => Halted kv' w) := by
  refine walkLoop_keeps ExactLeaves.walkable (fun kv w => kv.pageSize ∣ w.remainingTokens.length)
    now _ ?_ ?_ h.tree h.sized (Nat.le_refl _) h hdvd
  · intro o kv kv' w w' hw hT hstep
    have hlen := congrArg List.length hstep.tokens
    rw [List.length_append,List.length_append] at hlen
    have hnext := hstep.tree.dvd_pathTokens w'.terminal
    have hlast := hT.dvd_pathTokens w.terminal
    rw [hstep.grows.pageSize] at hnext ⊢
    exact (Nat.dvd_add_right hnext).mp (hlen ▸ Nat.dvd_add hlast hw)
  · intro kv w h hw _ _ hend
    refine ⟨h,hw,hend.resolve_right ?_⟩
    rintro ⟨c,n,hn,_,_,_,_,hsnap⟩
    exact hsnap (h.plain hn)

theorem keepsLeaves_walk (tokens : List Token) (now : Timestamp) (start : NodeId) :
    KeepsLeaves (walkDownUtilMismatch tokens now start) := by
  apply keepsLeaves_of_runs
  intro kv h
  exact walkLoop_keeps ExactLeaves.walkable (fun _ _ => True) now _ (fun _ _ _ => trivial)
    (fun h _ _ _ _ => h) h.tree h.sized (Nat.le_refl _) h trivial

theorem keepsLeaves_matchTokens (tokens : List Token) (intent : MatchIntent) :
    KeepsLeaves (matchTokens tokens intent) := by
  have hwalk (now : Timestamp) : KeepsLeaves (do
      return (← walkDownUtilMismatch tokens now).matchResult) :=
    leaves_rule.bind (keepsLeaves_walk tokens now 0) fun _ => leaves_rule.pure _
  refine leaves_rule.bind leaves_rule.get fun kv => follows_ite ?_ ?_
  · exact follows_ite
      (leaves_rule.bind (leaves_rule.follows_throwException _) fun _ => leaves_rule.pure _)
      (leaves_rule.pure _)
  · refine leaves_rule.bind keepsLeaves_readClock fun now => follows_ite ?_ (hwalk now)
    exact leaves_rule.bind (leaves_rule.follows_throwException _) fun _ => hwalk now

/-- The node `AddChild` makes has no pages. -/
theorem addChild_keeps (hw : Halted kv w) (hne : w.remainingTokens ≠ []) (now : Timestamp) :
    Runs (addChild w.terminal w.remainingTokens now) kv (fun _ => ExactLeaves)
      (fun _ => ExactLeaves) := by
  cases ht : kv.tree.read w.terminal with
  | some nt =>
    have hle := Nat.le_of_dvd (List.length_pos_of_ne_nil hne) hw.dvd
    have hvac : Vacant kv.pageSize kv.tree w.terminal nt w.remainingTokens :=
      ⟨hw.exact.tree,ht,hne,hw.dvd,fun c n hn hp => hw.noChild c n hn hp hle⟩
    refine (addChild_returns hvac now).runs ?_
    rintro _ _ ⟨_,rfl⟩
    exact hw.exact.grow hvac now
  | none =>
    apply getNode_runs fun _ => hw.exact
    intro n hn
    rw [ht] at hn
    cases hn

end Walk

section Attach

/-- Which nodes hang below which is left alone. -/
def SameParents (kv kv' : KVPrefixCache) : Prop :=
  ∀ j, (kv'.tree.read j).bind TreeNode.parent = (kv.tree.read j).bind TreeNode.parent

theorem LeafStep.sameParents (h : LeafStep t kv kv') : SameParents kv kv' :=
  (h.quiet.agree t).parent_eq

/-- Attaching as many pages as a node has pages of tokens, whatever it held before. -/
theorem attachResource_unsettles (h : ExactLeaves kv) (hi : kv.tree.read i = some n)
    (hp : n.parent = some p) (hsize : pages.length*kv.pageSize = n.tokens.length) :
    Returns (attachResource t i pages) kv (fun _ kv' => Unsettled t [i,p] kv' ∧
      SameParents kv kv' ∧ ∃ n', kv'.tree.read i = some n' ∧ n'.parent = some p) := by
  unfold Returns attachResource
  apply getNode_bind hi
  unfold setNode
  rw [runs_bind,runs_modify]
  change Runs _ (withResource kv t i n (some { pages })) _ _
  have hun : Unsettled t [i,p] (withResource kv t i n (some { pages })) := by
    apply (h.unsettled t).withResource hi hp
    rintro r ⟨rfl⟩
    exact hsize
  refine (hun.deallocatePages t (n.pages t)).runs ?_
  rintro _ kv' ⟨hun',htree⟩
  refine ⟨hun',?_,?_⟩
  · intro j
    rw [htree]
    exact (agree_setResource _ hi (ResourceType.other_ne t)).parent_eq j
  · rw [htree]
    exact ⟨_,Heap.read_write_self _ _ (Heap.lt_of_read hi),by simpa using hp⟩

/-- One node of the way up of `Insert`; its pages are counted by its tokens. -/
theorem insertNode_keeps (h : ExactLeaves kv)
    (hi : ((kv.tree.read i).bind TreeNode.parent).isSome = true) (start : Int) (s : Insertion) :
    Runs (insertNode t start i s) kv (fun _ kv' => ExactLeaves kv' ∧ SameParents kv kv')
      (fun _ => ExactLeaves) := by
  have stay : ExactLeaves kv ∧ SameParents kv kv := ⟨h,fun _ => rfl⟩
  unfold insertNode
  apply getNode_runs fun _ => h
  intro n hn
  obtain ⟨p,hp⟩ : ∃ p, n.parent = some p := by
    simpa [hn,Option.isSome_iff_exists] using hi
  obtain ⟨np,_,_,_,hdvd⟩ := h.tree.parent hn hp
  rw [runs_bind,runs_get]
  dsimp only
  split
  · split
    · exact takeFirst_runs (fun _ => h) fun _ _ _ => stay
    · exact stay
  · split
    · split
      · exact takeLast_runs (fun _ => h) fun _ _ _ => stay
      · exact stay
    · apply takeLast_runs fun _ => h
      intro taken kept hlen
      dsimp only
      have hsize : taken.length*kv.pageSize = n.tokens.length := by
        have hpages : taken.length = n.tokens.length/kv.pageSize := by exact_mod_cast hlen
        rw [hpages,Nat.div_mul_cancel hdvd]
      refine (attachResource_unsettles h hn hp hsize).bind ?_
      rintro _ kv₁ ⟨hun,hsame,n',hn',hp'⟩
      refine (hun.updateLeaves hn' (by simp [hp'])).bind ?_
      rintro _ kv₂ ⟨hex,hs⟩
      exact ⟨hex,fun j => (hs.sameParents j).trans (hsame j)⟩

theorem keepsLeaves_releaseInsertion (s : Insertion) : KeepsLeaves (releaseInsertion t s) :=
  leaves_rule.bind (keepsLeaves_deallocatePages _) fun _ => keepsLeaves_deallocatePages _

theorem insertLoop_keeps (h : ExactLeaves kv) (start : Int) (path : List NodeId)
    (hpath : ∀ j ∈ path, ((kv.tree.read j).bind TreeNode.parent).isSome = true) (s : Insertion) :
    Runs (insertLoop t start path s) kv (fun _ => ExactLeaves) (fun _ => ExactLeaves) := by
  induction path generalizing kv s with
  | nil => exact h
  | cons i is ih =>
    unfold insertLoop
    rw [runs_bind,runs_unwinding]
    refine (insertNode_keeps h (hpath i List.mem_cons_self) start s).imp ?_ ?_
    · rintro ⟨b,s'⟩ kv₁ ⟨h₁,hsame⟩
      cases b with
      | false => exact h₁
      | true =>
        apply ih h₁
        intro j hj
        rw [hsame j]
        exact hpath j (List.mem_cons_of_mem _ hj)
    · intro e kv₁ h₁
      exact keepsLeaves_apply (keepsLeaves_releaseInsertion s) h₁

/-- The way up of `Insert` from the last node of its path. -/
theorem keepsLeaves_insertPath (last : NodeId) (start : Int) (s : Insertion) :
    KeepsLeaves (do
      let path ← getLeafToRoot last
      let s ← insertLoop t start path s
      releaseInsertion t s
      return (⟨last,s.insertedNumPages⟩ : InsertResult)) := by
  apply keepsLeaves_of_runs
  intro kv h
  unfold getLeafToRoot
  rw [bind_assoc]
  apply getNode_runs fun _ => h
  intro n hn
  rw [runs_bind,runs_bind,runs_get]
  refine (insertLoop_keeps h start (leafToRoot kv.tree last) ?_ s).bind ?_
  · intro j hj
    obtain ⟨m,q,hm,hq,_⟩ := h.tree.mem_leafToRoot hj
    simp [hm,hq]
  · intro s' kv' h'
    exact keepsLeaves_apply
      (leaves_rule.bind (keepsLeaves_releaseInsertion s') fun _ => leaves_rule.pure _) h'

theorem keepsLeaves_insert (tokens : List Token) (prefixPages pages : List PageId)
    (start : NodeId) : KeepsLeaves (insert t tokens prefixPages pages start) := by
  apply keepsLeaves_of_runs
  intro kv h
  have hgive := keepsLeaves_deallocatePages (t := t) pages
  unfold insert
  rw [runs_bind,runs_get]
  dsimp only
  split
  · refine Runs.bind (keepsLeaves_apply hgive h) ?_
    exact fun _ _ h' => h'
  · next hdvd =>
    split
    · exact keepsLeaves_apply (leaves_rule.bind hgive fun _ => leaves_rule.pure _) h
    · have h₁ : ExactLeaves { kv with readings := kv.readings+1 } :=
        h.unseen rfl rfl (fun u => by cases u <;> rfl) fun u => by cases u <;> rfl
      rw [runs_bind]
      change Runs _ { kv with readings := kv.readings+1 } _ _
      have hpages : kv.pageSize ∣ tokens.length := by
        simpa [Nat.dvd_iff_mod_eq_zero] using hdvd
      refine ((walk_halts h₁ hpages _ _).unwinding _).bind ?_
      intro w kv₂ hw
      split
      · exact keepsLeaves_apply (keepsLeaves_insertPath _ _ _) hw.exact
      · next hne =>
        refine Runs.bind (addChild_keeps hw (by simpa using hne) _) ?_
        exact fun last kv₃ h₃ => keepsLeaves_apply (keepsLeaves_insertPath _ _ _) h₃

end Attach

end FluxServe
