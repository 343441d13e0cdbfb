import FluxServe.Resource.SplitProof

namespace FluxServe

open KVPrefixCache

variable {ps : Nat} {t u : ResourceType} {tree : Heap TreeNode} {i j c p : NodeId}
  {n np : TreeNode} {kv kv' kv₀ : KVPrefixCache} {w w' : WalkResult} {T : List Token}
  {refs : ResourceType → Multiset NodeId} {owned : ResourceType → Multiset PageId}

theorem take_matchedTokens (a b : List Token) :
    a.take (matchedTokens a b) = b.take (matchedTokens a b) := by
  fun_induction matchedTokens a b with
  | case1 a as bs ih => simp [ih]
  | case2 a as b bs h => simp
  | case3 as bs h => simp

theorem matchedTokens_le (a b : List Token) :
    matchedTokens a b ≤ a.length ∧ matchedTokens a b ≤ b.length := by
  fun_induction matchedTokens a b with
  | case1 a as bs ih => simpa using ih
  | case2 a as b bs h => simp
  | case3 as bs h => simp

theorem le_matchedTokens {a b : List Token} {k : Nat} (ha : k ≤ a.length) (hb : k ≤ b.length)
    (h : a.take k = b.take k) : k ≤ matchedTokens a b := by
  induction k generalizing a b with
  | zero => exact Nat.zero_le _
  | succ k ih =>
    cases a with
    | nil => simp at ha
    | cons x as =>
      cases b with
      | nil => simp at hb
      | cons y bs =>
        simp only [List.take_succ_cons,List.cons.injEq] at h
        simp only [matchedTokens,h.1,if_true]
        have := ih (by simpa using ha) (by simpa using hb) h.2
        omega

theorem take_calcMatchedPages (a b : List Token) (ps : Nat) :
    a.take (calcMatchedPages a b ps*ps) = b.take (calcMatchedPages a b ps*ps) := by
  have hle : calcMatchedPages a b ps*ps ≤ matchedTokens a b := Nat.div_mul_le_self _ _
  have h := congrArg (List.take (calcMatchedPages a b ps*ps)) (take_matchedTokens a b)
  rwa [List.take_take,List.take_take,Nat.min_eq_left hle] at h

theorem calcMatchedPages_le (a b : List Token) (ps : Nat) :
    calcMatchedPages a b ps*ps ≤ b.length :=
  (Nat.div_mul_le_self _ _).trans (matchedTokens_le a b).2

theorem findChild_some {key : List Token} (h : findChild ps tree i key = some c) :
    ∃ n, tree.read c = some n ∧ n.parent = some i ∧ n.tokens.take ps = key := by
  unfold findChild at h
  have hk := List.find?_some h
  obtain ⟨n,hn,hp⟩ := mem_children.mp (List.mem_of_find?_eq_some h)
  refine ⟨n,hn,hp,?_⟩
  simpa [nodeTokens,hn] using hk

theorem findChild_none {key : List Token} (h : findChild ps tree i key = none)
    (hn : tree.read c = some n) (hp : n.parent = some i) : n.tokens.take ps ≠ key := by
  unfold findChild at h
  have := List.find?_eq_none.mp h c (mem_children.mpr ⟨n,hn,hp⟩)
  simpa [nodeTokens,hn] using this

/-- The nodes with a snapshot are old ones, with the tokens they had. -/
def SameSnapshots (tree tree' : Heap TreeNode) : Prop :=
  ∀ i n', tree'.read i = some n' → n'.pagedCacheSnapshot ≠ none →
    ∃ n, tree.read i = some n ∧ n'.tokens = n.tokens ∧ n'.pagedCacheSnapshot = n.pagedCacheSnapshot

theorem SameSnapshots.trans {tree' tree'' : Heap TreeNode} (h : SameSnapshots tree tree')
    (h' : SameSnapshots tree' tree'') : SameSnapshots tree tree'' := by
  intro i n'' hi hsnap
  obtain ⟨n',hn',htok',hsnap'⟩ := h' i n'' hi hsnap
  obtain ⟨n,hn,htok,hsnap''⟩ := h i n' hn' (hsnap' ▸ hsnap)
  exact ⟨n,hn,htok'.trans htok,hsnap'.trans hsnap''⟩

theorem SameSnapshots.of_agree {tree' : Heap TreeNode} (h : Agree t tree tree') :
    SameSnapshots tree tree' := by
  intro i n' hi _
  obtain ⟨n,hn,hv⟩ := h.symm.read hi
  exact ⟨n,hn,(congrArg (fun v => v.1.2.1) hv).symm,(congrArg (fun v => v.1.2.2.2) hv).symm⟩

/-- Only a node without a snapshot is split. -/
theorem Cut.sameSnapshots {m : Nat} (h : Cut ps m tree p c np n)
    (hsnap : n.pagedCacheSnapshot = none) : SameSnapshots tree (splitTree ps m tree p c np n) := by
  intro i n' hi hs
  rcases h.read_inv hi with ⟨_,rfl⟩ | ⟨_,rfl⟩ | ⟨_,_,hi⟩
  · exact (hs hsnap).elim
  · exact (hs rfl).elim
  · exact ⟨n',hi,rfl,rfl⟩

/-- What one turn of the walk does; the walk goes from `w.terminal` to its child. -/
structure WalkStep (o : NodeId → NodeId) (kv kv' : KVPrefixCache) (w w' : WalkResult) : Prop where
  grows : Grows o kv kv'
  tree : TreeOK kv'.pageSize kv'.tree
  sized : Sized kv'.pageSize kv'.tree
  kvInv : ∀ {refs owned}, KVInv kv refs owned → KVInv kv' refs owned
  next : ∃ n, kv'.tree.read w'.terminal = some n ∧ n.parent = some w.terminal
  tokens : pathTokens kv'.tree w'.terminal ++ w'.remainingTokens =
    pathTokens kv.tree w.terminal ++ w.remainingTokens
  progress : w'.remainingTokens.length < w.remainingTokens.length
  device : (w'.deviceAlive,w'.device) = updateTier w.deviceAlive w.device w'.terminal
    (hasResource .device kv'.tree w'.terminal)
  host : (w'.hostAlive,w'.host) = updateTier w.hostAlive w.host w'.terminal
    (hasResource .host kv'.tree w'.terminal)
  snapshots : SameSnapshots kv.tree kv'.tree

/-- The child the walk refuses to split: it carries a snapshot and is matched in part. -/
def Refuses (ps : Nat) (n : TreeNode) (remaining : List Token) : Prop :=
  calcMatchedPages n.tokens remaining ps ≠ n.tokens.length/ps ∧ n.pagedCacheSnapshot ≠ none

theorem kvInv_of_quiet (hq : Quiet kv kv') (hm : ∀ u, kv'.manager u = kv.manager u)
    (hinv : KVInv kv refs owned) : KVInv kv' refs owned :=
  ⟨hinv.inv.quiet hq,fun u => (hinv.leaves u).congr (hq.agree u) (by rw [hm]) (by rw [hm]),
    fun u => (hinv.closed u).congr (hq.agree u)⟩

theorem sized_of_agree {tree' : Heap TreeNode} (h : ∀ u, Agree u tree tree') (hs : Sized ps tree) :
    Sized ps tree' := by
  intro u i hi
  rw [(h u).hasResource_eq] at hi
  rw [(h u).nodePages_eq,(h u).nodeTokens_eq]
  exact hs u i hi

theorem touch_grows (hi : kv.tree.read i = some n) (now : Timestamp) :
    Returns (touch i now) kv (fun _ kv' => Quiet kv kv' ∧ Grows id kv kv' ∧
      ∀ u, kv'.manager u = kv.manager u) := by
  refine (touch_returns hi now).runs ?_
  rintro _ kv' ⟨hq,hm⟩
  exact ⟨hq,Grows.of_quiet hq hm,hm⟩

/-- What outlives a walk: splits and new times of nodes keep it. -/
structure Walkable (P : KVPrefixCache → Prop) : Prop where
  split {kv : KVPrefixCache} {m : Nat} {p c : NodeId} {np n : TreeNode}
    (cut : Cut kv.pageSize m kv.tree p c np n) (plain : n.pagedCacheSnapshot = none) (h : P kv) :
    P (splitCache kv m p c np n)
  quiet {kv kv' : KVPrefixCache} (quiet : Quiet kv kv')
    (managers : ∀ u, kv'.manager u = kv.manager u) (h : P kv) : P kv'

theorem walkable_true : Walkable fun _ => True := ⟨fun _ _ _ => trivial,fun _ _ _ => trivial⟩

theorem walkInto_runs {Q : Option WalkResult → KVPrefixCache → Prop}
    {E : Fault → KVPrefixCache → Prop} {P : KVPrefixCache → Prop} (hP : Walkable P) (h : P kv)
    (now : Timestamp) (hT : TreeOK kv.pageSize kv.tree)
    (hs : Sized kv.pageSize kv.tree) (hn : kv.tree.read c = some n)
    (hp : n.parent = some w.terminal) (hlen : kv.pageSize ≤ w.remainingTokens.length)
    (hkey : n.tokens.take kv.pageSize = w.remainingTokens.take kv.pageSize)
    (refused : Refuses kv.pageSize n w.remainingTokens → Q none kv)
    (went : ∀ o kv' w', WalkStep o kv kv' w w' → P kv' → Q (some w') kv') :
    Runs (walkInto w c now) kv Q E := by
  obtain ⟨np,hnp,hd,htok,hdvd⟩ := hT.parent hn hp
  have hps := hT.pageSize_pos
  let m := calcMatchedPages n.tokens w.remainingTokens kv.pageSize
  have hfirst : kv.pageSize ≤ matchedTokens n.tokens w.remainingTokens := by
    refine le_matchedTokens ?_ hlen hkey
    exact Nat.le_of_dvd (List.length_pos_of_ne_nil htok) hdvd
  have hm : 0 < m := Nat.div_pos hfirst hps
  have hle : m*kv.pageSize ≤ w.remainingTokens.length := calcMatchedPages_le _ _ _
  have htake := take_calcMatchedPages n.tokens w.remainingTokens kv.pageSize
  -- both halves of the step end by touching the node the walk goes to
  have finish : ∀ o kv₁ k x, Grows o kv kv₁ → TreeOK kv₁.pageSize kv₁.tree →
      Sized kv₁.pageSize kv₁.tree →
      (∀ {refs owned}, KVInv kv refs owned → KVInv kv₁ refs owned) → P kv₁ →
      kv₁.tree.read k = some x → x.parent = some w.terminal →
      pathTokens kv₁.tree k = pathTokens kv.tree w.terminal ++ n.tokens.take (m*kv.pageSize) →
      SameSnapshots kv.tree kv₁.tree →
      Runs (do
        touch k now
        let tree := (← get).tree
        let d := updateTier w.deviceAlive w.device k (hasResource .device tree k)
        let h := updateTier w.hostAlive w.host k (hasResource .host tree k)
        return some
          { terminal := k, remainingTokens := w.remainingTokens.drop (m*kv.pageSize),
            device := d.2, host := h.2, deviceAlive := d.1, hostAlive := h.1 }) kv₁ Q E := by
    intro o kv₁ k x hs₁ hT₁ hz₁ hi₁ hP₁ hx hxp hpt hsnaps
    refine (touch_grows hx now).bind ?_
    rintro _ kv₂ ⟨hq,hs₂,hm₂⟩
    obtain ⟨x',hx',hv⟩ := (hq.agree .device).read hx
    refine went _ _ _ ⟨hs₁.trans hs₂,?_,?_,?_,⟨x',hx',?_⟩,?_,?_,rfl,rfl,
      hsnaps.trans (.of_agree (hq.agree .device))⟩ (hP.quiet hq hm₂ hP₁)
    · rw [hq.pageSize]
      exact (hq.agree .device).treeOK hT₁
    · rw [hq.pageSize]
      exact sized_of_agree hq.agree hz₁
    · exact fun hinv => kvInv_of_quiet hq hm₂ (hi₁ hinv)
    · exact (congrArg (fun v => v.1.1) hv).trans hxp
    · dsimp only
      rw [(hq.agree .device).pathTokens_eq,hpt,htake,List.append_assoc,List.take_append_drop]
    · have hpos := Nat.mul_pos hm hps
      dsimp only
      rw [List.length_drop]
      omega
  unfold walkInto
  rw [runs_bind,runs_get]
  apply getNode_bind hn
  rw [if_neg (Nat.ne_of_gt hm)]
  by_cases hwhole : m = n.tokens.length/kv.pageSize
  · rw [if_neg (by simp [m] at hwhole; simp [hwhole])]
    rw [if_pos hwhole]
    refine finish id kv c n (Grows.refl kv) hT hs (fun h => h) h hn hp ?_
      (.of_agree (Agree.refl .device _))
    rw [hT.pathTokens_cons hn hp,hwhole,Nat.div_mul_cancel hdvd,List.take_length]
  · by_cases hsnap : n.pagedCacheSnapshot = none
    · rw [if_neg (by simp [TreeNode.hasPagedCacheSnapshot,hsnap])]
      rw [if_neg hwhole]
      have hlt : m*kv.pageSize < n.tokens.length := by
        have h1 : m ≤ n.tokens.length/kv.pageSize :=
          Nat.div_le_div_right (matchedTokens_le n.tokens w.remainingTokens).1
        have h2 := Nat.div_mul_cancel hdvd
        calc m*kv.pageSize < n.tokens.length/kv.pageSize*kv.pageSize :=
              Nat.mul_lt_mul_of_pos_right (by omega) hps
          _ = n.tokens.length := h2
      have hcut : Cut kv.pageSize m kv.tree w.terminal c np n := ⟨hT,hn,hp,hnp,hm,hlt⟩
      refine (splitChild_returns hcut hs hsnap).bind ?_
      rintro _ _ ⟨rfl,rfl⟩
      exact finish _ _ _ _ hcut.grows hcut.treeOK (hcut.sized hs) (fun h => hcut.kvInv h)
        (hP.split hcut hsnap h) hcut.read_new rfl hcut.pathTokens_new (hcut.sameSnapshots hsnap)
    · rw [if_pos (by simp [m] at hwhole; simp [hwhole,TreeNode.hasPagedCacheSnapshot,
        Option.isSome_iff_ne_none,hsnap])]
      exact refused ⟨hwhole,hsnap⟩

/-- Why a walk ends: no child starts with the next page, or that child is not to be split. -/
def NoChild (kv : KVPrefixCache) (w : WalkResult) : Prop :=
  ∀ c n, kv.tree.read c = some n → n.parent = some w.terminal →
    kv.pageSize ≤ w.remainingTokens.length →
    n.tokens.take kv.pageSize ≠ w.remainingTokens.take kv.pageSize

def Refused (kv : KVPrefixCache) (w : WalkResult) : Prop :=
  ∃ c n, kv.tree.read c = some n ∧ n.parent = some w.terminal ∧
    kv.pageSize ≤ w.remainingTokens.length ∧
    n.tokens.take kv.pageSize = w.remainingTokens.take kv.pageSize ∧
    Refuses kv.pageSize n w.remainingTokens

/-- The rule of the walk: what every step keeps holds where the walk ends. -/
theorem walkLoop_keeps {Q : WalkResult → KVPrefixCache → Prop} {E : Fault → KVPrefixCache → Prop}
    {P : KVPrefixCache → Prop} (hP : Walkable P) (J : KVPrefixCache → WalkResult → Prop)
    (now : Timestamp) (fuel : Nat)
    (step : ∀ {o kv kv' w w'}, J kv w → TreeOK kv.pageSize kv.tree → WalkStep o kv kv' w w' →
      J kv' w')
    (ends : ∀ {kv w}, P kv → J kv w → TreeOK kv.pageSize kv.tree → Sized kv.pageSize kv.tree →
      NoChild kv w ∨ Refused kv w → Q w kv)
    (hT : TreeOK kv.pageSize kv.tree) (hs : Sized kv.pageSize kv.tree)
    (hf : w.remainingTokens.length ≤ fuel) (h : P kv) (hJ : J kv w) :
    Runs (walkLoop now fuel w) kv Q E := by
  induction fuel generalizing kv w with
  | zero =>
    refine ends h hJ hT hs (Or.inl fun c n _ _ hlen => ?_)
    have := hT.pageSize_pos
    omega
  | succ fuel ih =>
    unfold walkLoop
    rw [runs_bind,runs_get]
    split
    · next hlt => exact ends h hJ hT hs (Or.inl fun c n _ _ hlen => absurd hlt (by omega))
    · next hlen =>
      cases hfind : findChild kv.pageSize kv.tree w.terminal
          (w.remainingTokens.take kv.pageSize) with
      | none =>
        exact ends h hJ hT hs (Or.inl fun c n hn hp _ => findChild_none hfind hn hp)
      | some c =>
        obtain ⟨n,hn,hp,hkey⟩ := findChild_some hfind
        dsimp only
        rw [runs_bind]
        refine walkInto_runs hP h now hT hs hn hp (by omega) hkey (fun hr => ?_)
          fun o kv' w' hw h' => ?_
        · exact ends h hJ hT hs (Or.inr ⟨c,n,hn,hp,by omega,hkey,hr⟩)
        · have hprog := hw.progress
          exact ih hw.tree hw.sized (by omega) h' (step hJ hT hw)

theorem walkLoop_runs {Q : WalkResult → KVPrefixCache → Prop} {E : Fault → KVPrefixCache → Prop}
    (J : KVPrefixCache → WalkResult → Prop) (now : Timestamp) (fuel : Nat)
    (step : ∀ {o kv kv' w w'}, J kv w → TreeOK kv.pageSize kv.tree → WalkStep o kv kv' w w' →
      J kv' w')
    (ends : ∀ {kv w}, J kv w → TreeOK kv.pageSize kv.tree → Sized kv.pageSize kv.tree →
      NoChild kv w ∨ Refused kv w → Q w kv)
    (hT : TreeOK kv.pageSize kv.tree) (hs : Sized kv.pageSize kv.tree)
    (hf : w.remainingTokens.length ≤ fuel) (hJ : J kv w) :
    Runs (walkLoop now fuel w) kv Q E :=
  walkLoop_keeps walkable_true J now fuel step (fun _ => ends) hT hs hf trivial hJ

/-- A tier's last node on the way to `terminal`: exactly its path is resident. -/
structure TierStop (t : ResourceType) (tree : Heap TreeNode) (last terminal : NodeId) : Prop where
  live : ∃ n, tree.read last = some n
  onPath : last = 0 ∨ last ∈ leafToRoot tree terminal
  resident : ∀ j ∈ leafToRoot tree terminal,
    hasResource t tree j = true ↔ j ∈ leafToRoot tree last

theorem TierStop.path (h : TierStop t tree i j) (hT : TreeOK ps tree) :
    ∀ k ∈ leafToRoot tree i, hasResource t tree k = true := by
  intro k hk
  rcases h.onPath with rfl | hi
  · rw [hT.leafToRoot_zero] at hk
    cases hk
  · exact (h.resident k (hT.mem_leafToRoot_trans hk hi)).mpr hk

theorem TierStop.grows {o : NodeId → NodeId} (h : TierStop t kv.tree i j) (hs : Grows o kv kv')
    (hi : kv.tree.read i = some n) (hj : kv.tree.read j = some np) :
    TierStop t kv'.tree i j := by
  refine ⟨?_,h.onPath.imp id fun hm => ?_,fun k hk => ?_⟩
  · obtain ⟨n',hn',_⟩ := hs.live hi
    exact ⟨n',hn'⟩
  · rw [hs.path hj,hs.old (Heap.lt_of_read hi)]
    exact hm
  · rw [hs.path hj] at hk
    rw [hs.resident,hs.path hi]
    exact h.resident (o k) hk

/-- `updateTier` follows the walk one node down. -/
theorem TierStop.step {alive alive' : Bool} {last last' : NodeId} (hT : TreeOK ps tree)
    (hc : Closed t tree) (hn : tree.read c = some n) (hp : n.parent = some p)
    (h : TierStop t tree last p) (ha : alive = true → last = p)
    (hd : alive = false → p ≠ 0 ∧ hasResource t tree p = false)
    (hu : (alive',last') = updateTier alive last c (hasResource t tree c)) :
    TierStop t tree last' c ∧ (alive' = true → last' = c) ∧
      (alive' = false → c ≠ 0 ∧ hasResource t tree c = false) := by
  have hpath := hT.leafToRoot_cons hn hp
  have hc0 := hT.ne_zero hn hp
  have hcp : c ∉ leafToRoot tree p := by
    have hnd := hT.leafToRoot_nodup hn
    rw [hpath] at hnd
    exact (List.nodup_cons.mp hnd).1
  have hcl : c ∉ leafToRoot tree last := by
    rcases h.onPath with rfl | hm
    · rw [hT.leafToRoot_zero]
      simp
    · exact fun hcm => hcp (hT.mem_leafToRoot_trans hcm hm)
  unfold updateTier at hu
  -- a node below the stop is resident on no account
  have stays : hasResource t tree c = false → TierStop t tree last c := by
    intro hno
    refine ⟨h.live,h.onPath.imp id fun hm => by rw [hpath]; exact List.mem_cons_of_mem _ hm,?_⟩
    intro j hj
    rw [hpath] at hj
    rcases List.mem_cons.mp hj with rfl | hj
    · simp [hno,hcl]
    · exact h.resident j hj
  cases hal : alive with
  | true =>
    obtain rfl := ha hal
    cases hres : hasResource t tree c with
    | true =>
      simp only [hal,hres,if_true,Prod.mk.injEq] at hu
      obtain ⟨rfl,rfl⟩ := hu
      refine ⟨⟨⟨n,hn⟩,Or.inr (by rw [hpath]; exact List.mem_cons_self),?_⟩,fun _ => rfl,
        fun h => by cases h⟩
      intro j hj
      rw [hpath] at hj
      rcases List.mem_cons.mp hj with rfl | hj
      · simp [hres,hpath]
      · rw [h.resident j hj,hpath]
        exact iff_of_true hj (List.mem_cons_of_mem _ hj)
    | false =>
      simp only [hal,hres,if_true,Bool.false_eq_true,if_false,Prod.mk.injEq] at hu
      obtain ⟨rfl,rfl⟩ := hu
      exact ⟨stays hres,fun h => (by cases h),fun _ => ⟨hc0,rfl⟩⟩
  | false =>
    obtain ⟨hp0,hpr⟩ := hd hal
    have hno : hasResource t tree c = false := by
      by_contra hyes
      rw [Bool.not_eq_false] at hyes
      rw [hc c n p hn hp hp0 hyes] at hpr
      cases hpr
    simp only [hal,Bool.false_eq_true,if_false,Prod.mk.injEq] at hu
    obtain ⟨rfl,rfl⟩ := hu
    exact ⟨stays hno,fun h => (by cases h),fun _ => ⟨hc0,hno⟩⟩

/-- What a walk for `T` from the root leaves behind in a tree without snapshots. -/
structure Walked (refs : ResourceType → Multiset NodeId) (owned : ResourceType → Multiset PageId)
    (T : List Token) (kv₀ kv : KVPrefixCache) (w : WalkResult) : Prop where
  grows : ∃ o, Grows o kv₀ kv
  kvInv : KVInv kv refs owned
  live : ∃ n, kv.tree.read w.terminal = some n
  tokens : pathTokens kv.tree w.terminal ++ w.remainingTokens = T
  device : TierStop .device kv.tree w.device w.terminal
  host : TierStop .host kv.tree w.host w.terminal
  noChild : NoChild kv w

/-- The part of `Walked` that the loop maintains. -/
structure WalkInv (refs : ResourceType → Multiset NodeId) (owned : ResourceType → Multiset PageId)
    (T : List Token) (kv₀ kv : KVPrefixCache) (w : WalkResult) : Prop where
  grows : ∃ o, Grows o kv₀ kv
  kvInv : KVInv kv refs owned
  live : ∃ n, kv.tree.read w.terminal = some n
  tokens : pathTokens kv.tree w.terminal ++ w.remainingTokens = T
  device : TierStop .device kv.tree w.device w.terminal
  host : TierStop .host kv.tree w.host w.terminal
  deviceAlive : w.deviceAlive = true → w.device = w.terminal
  hostAlive : w.hostAlive = true → w.host = w.terminal
  deviceDead : w.deviceAlive = false → w.terminal ≠ 0 ∧
    hasResource .device kv.tree w.terminal = false
  hostDead : w.hostAlive = false → w.terminal ≠ 0 ∧ hasResource .host kv.tree w.terminal = false

theorem WalkInv.step {o : NodeId → NodeId} (h : WalkInv refs owned T kv₀ kv w)
    (hw : WalkStep o kv kv' w w') : WalkInv refs owned T kv₀ kv' w' := by
  obtain ⟨o₀,hs₀⟩ := h.grows
  obtain ⟨nt,hnt⟩ := h.live
  obtain ⟨n,hn,hp⟩ := hw.next
  have hinv := hw.kvInv h.kvInv
  have hold : o w.terminal = w.terminal := hw.grows.old (Heap.lt_of_read hnt)
  have hres : ∀ t, hasResource t kv'.tree w.terminal = hasResource t kv.tree w.terminal := by
    intro t
    rw [hw.grows.resident,hold]
  obtain ⟨nd,hnd⟩ := h.device.live
  obtain ⟨nh,hnh⟩ := h.host.live
  obtain ⟨hd,hda,hdd⟩ := TierStop.step hw.tree (hinv.closed .device) hn hp
    (h.device.grows hw.grows hnd hnt) h.deviceAlive
    (fun ha => by rw [hres]; exact h.deviceDead ha) hw.device
  obtain ⟨hh,hha,hhd⟩ := TierStop.step hw.tree (hinv.closed .host) hn hp
    (h.host.grows hw.grows hnh hnt) h.hostAlive
    (fun ha => by rw [hres]; exact h.hostDead ha) hw.host
  exact ⟨⟨_,hs₀.trans hw.grows⟩,hinv,⟨n,hn⟩,hw.tokens.trans h.tokens,hd,hh,hda,hha,hdd,hhd⟩

theorem walkInv_start (hinv : KVInv kv refs owned) (T : List Token) :
    WalkInv refs owned T kv kv { terminal := 0, remainingTokens := T, device := 0, host := 0 } := by
  have hT := hinv.inv.tree
  obtain ⟨n,hn,_⟩ := hT.root
  have hstop : ∀ t, TierStop t kv.tree 0 0 := by
    intro t
    refine ⟨⟨n,hn⟩,Or.inl rfl,fun j hj => ?_⟩
    rw [hT.leafToRoot_zero] at hj
    cases hj
  exact ⟨⟨id,Grows.refl kv⟩,hinv,⟨n,hn⟩,by simp [hT.pathTokens_zero],hstop _,hstop _,
    fun _ => rfl,fun _ => rfl,fun h => (by cases h),fun h => (by cases h)⟩

/-- Without snapshots no walk is refused. -/
theorem not_refused (hinv : KVInv kv refs owned) : ¬Refused kv w := by
  rintro ⟨c,n,hn,_,_,_,_,hsnap⟩
  exact hsnap (hinv.inv.plain hn)

theorem walkDownUtilMismatch_returns (hinv : KVInv kv refs owned) (T : List Token)
    (now : Timestamp) :
    Returns (walkDownUtilMismatch T now) kv (fun w kv' => Walked refs owned T kv kv' w) := by
  unfold Returns walkDownUtilMismatch
  refine walkLoop_runs (fun kv' w => WalkInv refs owned T kv kv' w) now T.length ?_ ?_
    hinv.inv.tree hinv.inv.sized (Nat.le_refl _) (walkInv_start hinv T)
  · intro o kv₁ kv₂ w₁ w₂ h _ hw
    exact h.step hw
  · intro kv₁ w₁ h _ _ hend
    exact ⟨h.grows,h.kvInv,h.live,h.tokens,h.device,h.host,
      hend.resolve_right (not_refused h.kvInv)⟩

end FluxServe
