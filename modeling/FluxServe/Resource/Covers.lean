import FluxServe.Resource.MatchProof

namespace FluxServe

open KVPrefixCache

variable {t u : ResourceType} {i j d : NodeId} {n : TreeNode} {kv kv' kv'' kv₀ : KVPrefixCache}
  {T P : List Token} {m : MatchResult} {ps : Nat} {tree tree' : Heap TreeNode} {w : WalkResult}
  {refs : ResourceType → Multiset NodeId} {owned : ResourceType → Multiset PageId}

/-- What the tree is for: a tier covers a token sequence if the path of a resident node begins
with it. -/
def Covers (t : ResourceType) (tree : Heap TreeNode) (P : List Token) : Prop :=
  P = [] ∨ ∃ i, hasResource t tree i = true ∧ P <+: pathTokens tree i

theorem Covers.mono {P' : List Token} (h : Covers t tree P) (hp : P' <+: P) : Covers t tree P' := by
  rcases h with rfl | ⟨i,hi,hP⟩
  · exact Or.inl (List.prefix_nil.mp hp)
  · exact Or.inr ⟨i,hi,hp.trans hP⟩

theorem covers_congr (h : Agree t tree tree') (P : List Token) :
    Covers t tree' P ↔ Covers t tree P := by
  unfold Covers
  simp only [h.hasResource_eq,h.pathTokens_eq]

/-- A node of which the whole path is resident covers its tokens. -/
theorem covers_of_resident (hT : TreeOK ps tree) (hi : tree.read i = some n)
    (hres : ∀ j ∈ leafToRoot tree i, hasResource t tree j = true) :
    Covers t tree (pathTokens tree i) := by
  rcases Option.eq_none_or_eq_some n.parent with hp | ⟨p,hp⟩
  · rw [hT.root_of_parent_none hi hp,hT.pathTokens_zero]
    exact Or.inl rfl
  · exact Or.inr ⟨i,hres i (hT.self_mem_leafToRoot hi hp),List.prefix_refl _⟩

/-- Residency is closed towards the root along the whole path. -/
theorem KVPrefixCache.Closed.path (hc : Closed t tree) (hT : TreeOK ps tree)
    (hi : hasResource t tree i = true) (hj : j ∈ leafToRoot tree i) : hasResource t tree j = true := by
  obtain ⟨n,_,hn,_⟩ := exists_resource_of_hasResource hi
  refine hT.induction (P := fun i => hasResource t tree i = true → ∀ j ∈ leafToRoot tree i,
    hasResource t tree j = true) ?_ ?_ i n hn hi j hj
  · intro _ j hj
    rw [hT.leafToRoot_zero] at hj
    cases hj
  · intro i n p hi hp ih hres j hj
    rw [hT.leafToRoot_cons hi hp] at hj
    rcases List.mem_cons.mp hj with rfl | hj
    · exact hres
    · by_cases hp0 : p = 0
      · rw [hp0,hT.leafToRoot_zero] at hj
        cases hj
      · exact ih (hc i n p hi hp hp0 hres) j hj

/-- A walk stops only where nothing of the next page is in the tree. -/
theorem Walked.length_le (h : Walked refs owned T kv₀ kv w) (hi : kv.tree.read i = some n)
    (hP : P <+: T) (hdvd : kv.pageSize ∣ P.length) (hpre : P <+: pathTokens kv.tree i) :
    P.length ≤ (pathTokens kv.tree w.terminal).length := by
  have hT := h.kvInv.inv.tree
  by_contra hlt
  obtain ⟨nt,hnt⟩ := h.live
  have hterm : pathTokens kv.tree w.terminal <+: T := ⟨_,h.tokens⟩
  have htp : pathTokens kv.tree w.terminal <+: P :=
    List.prefix_of_prefix_length_le hterm hP (by omega)
  have hanc := hT.mem_leafToRoot_of_prefix hnt hi (htp.trans hpre)
  have hne : w.terminal ≠ i := by
    rintro rfl
    exact hlt hpre.length_le
  obtain ⟨c,nc,hcon,hc,hcp⟩ := hT.child_on_path hi hanc hne
  have hcpre : pathTokens kv.tree c <+: pathTokens kv.tree i := hT.pathTokens_prefix hi (Or.inr hcon)
  rw [hT.pathTokens_cons hc hcp] at hcpre
  obtain ⟨_,_,hdep,hcne,hcdvd⟩ := hT.parent hc hcp
  have hcps : kv.pageSize ≤ nc.tokens.length :=
    Nat.le_of_dvd (List.length_pos_of_ne_nil hcne) hcdvd
  -- The next page of the walk is the first page of that child.
  obtain ⟨R,hR⟩ := htp
  have hRlen : kv.pageSize ≤ R.length := by
    have hd : kv.pageSize ∣ R.length := by
      have hnd := hT.pageSize_dvd_depth hnt
      rw [← hT.pathTokens_length hnt] at hnd
      rw [← hR,List.length_append] at hdvd
      exact (Nat.dvd_add_right hnd).mp hdvd
    refine Nat.le_of_dvd ?_ hd
    rw [← hR,List.length_append] at hlt
    omega
  have hRrem : R <+: w.remainingTokens := by
    rw [← h.tokens,← hR] at hP
    exact (List.prefix_append_right_inj _).mp hP
  have hRc : R.take kv.pageSize = nc.tokens.take kv.pageSize := by
    obtain ⟨X,hX⟩ := hcpre
    obtain ⟨Y,hY⟩ := hpre
    rw [← hR,List.append_assoc,← hX,List.append_assoc] at hY
    have hRY : R ++ Y = nc.tokens ++ X := List.append_cancel_left hY
    have htake := congrArg (List.take kv.pageSize) hRY
    rwa [List.take_append_of_le_length hRlen,List.take_append_of_le_length hcps] at htake
  have hlen := hRlen.trans hRrem.length_le
  refine h.noChild c nc hc hcp hlen ?_
  rw [← hRc]
  exact take_eq_of_isPrefix hRrem (List.prefix_refl _) hRlen hlen

/-- The first node on the way down to `i` whose tokens reach as far as `P`. -/
theorem exists_reaching (hT : TreeOK ps tree) (hi : tree.read i = some n)
    (hP : P <+: pathTokens tree i) (hne : P ≠ []) :
    ∃ y ny z, y ∈ leafToRoot tree i ∧ tree.read y = some ny ∧ ny.parent = some z ∧
      P <+: pathTokens tree y ∧ (pathTokens tree z).length < P.length := by
  refine hT.induction (P := fun i => P <+: pathTokens tree i →
    ∃ y ny z, y ∈ leafToRoot tree i ∧ tree.read y = some ny ∧ ny.parent = some z ∧
      P <+: pathTokens tree y ∧ (pathTokens tree z).length < P.length) ?_ ?_ i n hi hP
  · intro h0
    rw [hT.pathTokens_zero] at h0
    exact absurd (List.prefix_nil.mp h0) hne
  · intro i n p hi hp ih hPi
    rw [hT.leafToRoot_cons hi hp]
    by_cases hlt : (pathTokens tree p).length < P.length
    · exact ⟨i,n,p,List.mem_cons_self,hi,hp,hPi,hlt⟩
    · have hpp : P <+: pathTokens tree p := by
        refine List.prefix_of_prefix_length_le hPi ?_ (by omega)
        rw [hT.pathTokens_cons hi hp]
        exact List.prefix_append _ _
      obtain ⟨y,ny,z,hy,hrest⟩ := ih hpp
      exact ⟨y,ny,z,List.mem_cons_of_mem _ hy,hrest⟩

/-- The last node a walk finds on a tier is as deep as the tier covers. -/
theorem Walked.covers_le (h : Walked refs owned T kv₀ kv w) (hP : P <+: T)
    (hdvd : kv.pageSize ∣ P.length) (hc : Covers t kv.tree P) :
    P.length ≤ nodeDepth kv.tree (w.matchResult.last t) := by
  have hT := h.kvInv.inv.tree
  by_cases hne : P = []
  · simp [hne]
  obtain ⟨i,hres,hPi⟩ := hc.resolve_left hne
  obtain ⟨ni,_,hni,_⟩ := exists_resource_of_hasResource hres
  obtain ⟨nt,hnt⟩ := h.live
  have hstop := h.matched.stop t
  have hle := h.length_le hni hP hdvd hPi
  have hPt : P <+: pathTokens kv.tree w.terminal :=
    List.prefix_of_prefix_length_le hP ⟨_,h.tokens⟩ hle
  obtain ⟨y,ny,z,hy,hny,hyz,hPy,hz⟩ := exists_reaching hT hnt hPt hne
  -- The node above reaches less far, so the paths to `i` and to the terminal part below it.
  obtain ⟨nz,hnz,hdep,hyne,hydvd⟩ := hT.parent hny hyz
  have hzy : pathTokens kv.tree z <+: pathTokens kv.tree y := by
    rw [hT.pathTokens_cons hny hyz]
    exact List.prefix_append _ _
  have hzP : pathTokens kv.tree z <+: P :=
    List.prefix_of_prefix_length_le hzy hPy (by omega)
  have hanc := hT.mem_leafToRoot_of_prefix hnz hni (hzP.trans hPi)
  have hzi : z ≠ i := by
    rintro rfl
    exact absurd hPi.length_le (by omega)
  obtain ⟨c,nc,hcon,hncr,hcz⟩ := hT.child_on_path hni hanc hzi
  have hcy : c = y := by
    have hci : pathTokens kv.tree c <+: pathTokens kv.tree i :=
      hT.pathTokens_prefix hni (Or.inr hcon)
    obtain ⟨R,hR⟩ := hzP
    have hd : kv.pageSize ∣ R.length := by
      have hnd := hT.pageSize_dvd_depth hnz
      rw [← hT.pathTokens_length hnz] at hnd
      rw [← hR,List.length_append] at hdvd
      exact (Nat.dvd_add_right hnd).mp hdvd
    have hRlen : kv.pageSize ≤ R.length := by
      refine Nat.le_of_dvd ?_ hd
      rw [← hR,List.length_append] at hz
      omega
    obtain ⟨_,_,_,hcne,hcdvd⟩ := hT.parent hncr hcz
    refine hT.sibling hncr hny hcz hyz ?_
    have hcps := Nat.le_of_dvd (List.length_pos_of_ne_nil hcne) hcdvd
    have hyps := Nat.le_of_dvd (List.length_pos_of_ne_nil hyne) hydvd
    rw [hT.pathTokens_cons hncr hcz] at hci
    rw [hT.pathTokens_cons hny hyz] at hPy
    have hsplit : ∀ {a b : List Token}, pathTokens kv.tree z ++ a <+: pathTokens kv.tree z ++ b →
        a <+: b := fun h => (List.prefix_append_right_inj _).mp h
    obtain ⟨X,hX⟩ := hPi
    rw [← hR,List.append_assoc] at hX
    rw [← hX] at hci
    rw [← hR] at hPy
    have h1 : nc.tokens.take kv.pageSize = (R ++ X).take kv.pageSize :=
      take_eq_of_isPrefix (hsplit hci) (List.prefix_refl _) hcps (by simp; omega)
    have h2 : R.take kv.pageSize = ny.tokens.take kv.pageSize :=
      take_eq_of_isPrefix (hsplit hPy) (List.prefix_refl _) hRlen hyps
    rw [h1,List.take_append_of_le_length hRlen,h2]
  subst hcy
  have hresc := (h.kvInv.closed t).path hT hres hcon
  have hon := (hstop.resident c hy).mp hresc
  obtain ⟨nl,hnl⟩ := hstop.live
  have hdle := hT.depth_le_of_mem hnl hon
  rw [nodeDepth_of_read hnl]
  rw [nodeDepth_of_read hny,← hT.pathTokens_length hny] at hdle
  exact hPy.length_le.trans hdle

/-- The tokens a match finds on a tier are covered. -/
theorem Matched.covers {terminal : NodeId} (h : Matched T tree m terminal) (hT : TreeOK ps tree)
    (t : ResourceType) : Covers t tree (pathTokens tree (m.last t)) := by
  obtain ⟨n,hn⟩ := (h.stop t).live
  exact covers_of_resident hT hn (h.path hT t)

/-- How scheduling changes what is covered: the host side stays, the device side may lose and
gains from the host side only. -/
structure Ages (kv kv' : KVPrefixCache) : Prop where
  allocator : (kv'.manager .host).allocator = (kv.manager .host).allocator
  host : ∀ P, Covers .host kv'.tree P ↔ Covers .host kv.tree P
  device : ∀ P, Covers .device kv'.tree P → Covers .device kv.tree P ∨ Covers .host kv.tree P

namespace Ages

theorem of_calm (h : Calm kv kv') : Ages kv kv' :=
  ⟨h.allocator .host,covers_congr (h.agree .host),
    fun P hP => Or.inl ((covers_congr (h.agree .device) P).mp hP)⟩

theorem refl (kv : KVPrefixCache) : Ages kv kv := of_calm (Calm.refl kv)

theorem trans (h : Ages kv kv') (h' : Ages kv' kv'') : Ages kv kv'' := by
  refine ⟨h'.allocator.trans h.allocator,fun P => (h'.host P).trans (h.host P),fun P hP => ?_⟩
  rcases h'.device P hP with hP | hP
  · exact h.device P hP
  · exact Or.inr ((h.host P).mp hP)

theorem of_allocStep (h : AllocStep .device kv kv') : Ages kv kv' := by
  refine ⟨by rw [h.other .host (by decide)],fun P => by rw [h.tree],fun P hP => Or.inl ?_⟩
  rwa [h.tree] at hP

end Ages

/-- Splits and new leaves do not change what is covered. -/
theorem Grows.covers_iff {o : NodeId → NodeId} (h : Grows o kv kv') (hT : TreeOK kv.pageSize kv.tree)
    (hs : Sized kv.pageSize kv.tree) (hT' : TreeOK kv.pageSize kv'.tree) (t : ResourceType)
    (P : List Token) :
    Covers t kv'.tree P ↔ Covers t kv.tree P := by
  constructor
  · rintro (rfl | ⟨i,hi,hP⟩)
    · exact Or.inl rfl
    · refine Or.inr ⟨o i,by rw [← h.resident]; exact hi,hP.trans ?_⟩
      -- The node it comes from has the same path, up to a new node above its end.
      have hi' := hi
      rw [h.resident] at hi'
      obtain ⟨n,_,hn,hr⟩ := exists_resource_of_hasResource hi'
      obtain ⟨n',hn',_⟩ := h.live hn
      rw [← h.pathTokens hn]
      rcases Option.eq_none_or_eq_some n.parent with hp | ⟨p,hp⟩
      · exact absurd (hT.root_of_parent_none hn hp) (hs t _ hi').1
      · have hself := (h.path hn i).mpr (hT.self_mem_leafToRoot hn hp)
        exact hT'.pathTokens_prefix hn' (Or.inr hself)
  · rintro (rfl | ⟨i,hi,hP⟩)
    · exact Or.inl rfl
    · obtain ⟨n,_,hn,_⟩ := exists_resource_of_hasResource hi
      refine Or.inr ⟨i,?_,by rw [h.pathTokens hn]; exact hP⟩
      rw [h.resident,h.old (Heap.lt_of_read hn)]
      exact hi

theorem Ages.of_grows {o : NodeId → NodeId} (h : Grows o kv kv') (hinv : KVInv kv refs owned)
    (hinv' : KVInv kv' refs owned) : Ages kv kv' := by
  have hiff := h.covers_iff hinv.inv.tree hinv.inv.sized (h.pageSize ▸ hinv'.inv.tree)
  exact ⟨by rw [h.manager],hiff .host,fun P hP => Or.inl ((hiff .device P).mp hP)⟩

/-- An eviction on tier `t` uncovers nothing of the other tier. -/
theorem Shrinks.covers (h : Shrinks t kv kv') (he : Evolves refs kv kv') (P : List Token) :
    (Covers t kv'.tree P → Covers t kv.tree P) ∧
      (Covers t.other kv'.tree P ↔ Covers t.other kv.tree P) := by
  have hback : ∀ u, Covers u kv'.tree P → Covers u kv.tree P := by
    intro u
    rintro (rfl | ⟨i,hi,hP⟩)
    · exact Or.inl rfl
    · obtain ⟨n',r',hn',hr'⟩ := exists_resource_of_hasResource hi
      obtain ⟨n,hn,_,hother,hcore⟩ := h.live hn'
      refine Or.inr ⟨i,?_,by rw [← he.tokens hn hn']; exact hP⟩
      by_cases hu : u = t
      · subst hu
        rcases hcore with hcore | ⟨hcore,_⟩
        · rw [← hasResource_of_coreOf hn hn' hcore]
          exact hi
        · simp [coreOf,hr'] at hcore
      · have hu' : u = t.other := by
          cases u <;> cases t <;> simp_all [ResourceType.other]
        subst hu'
        rw [← hasResource_of_coreOf hn hn' hother]
        exact hi
  refine ⟨hback t,hback t.other,?_⟩
  rintro (rfl | ⟨i,hi,hP⟩)
  · exact Or.inl rfl
  · obtain ⟨n,r,hn,hr⟩ := exists_resource_of_hasResource hi
    cases hn' : kv'.tree.read i with
    | none =>
      have := (h.gone hn hn').1
      simp [coreOf,hr] at this
    | some n' =>
      obtain ⟨k,hk,_,hother,_⟩ := h.live hn'
      rw [hn] at hk
      cases hk
      refine Or.inr ⟨i,?_,by rw [he.tokens hn hn']; exact hP⟩
      rw [hasResource_of_coreOf hn hn' hother]
      exact hi

theorem Ages.of_shrinks (h : Shrinks .device kv kv') (he : Evolves refs kv kv') : Ages kv kv' :=
  ⟨h.frees.other .host (by decide),fun P => (h.covers he P).2,
    fun P hP => Or.inl ((h.covers he P).1 hP)⟩

theorem Ages.of_copied {nodes : List NodeId} {terminal : NodeId}
    (h : Copied .device refs owned m nodes kv kv') (hb : Between .device kv.tree m nodes)
    (hm : Matched T kv.tree m terminal) (hT : TreeOK kv.pageSize kv.tree) : Ages kv kv' := by
  have ha := h.attached.agree .host (by decide)
  refine ⟨h.attached.others .host (by decide),covers_congr ha,fun P => ?_⟩
  rintro (rfl | ⟨i,hi,hP⟩)
  · exact Or.inr (Or.inl rfl)
  · rw [ha.pathTokens_eq] at hP
    rcases (h.attached.resident i).mp hi with hi | hi
    · exact Or.inl (Or.inr ⟨i,hi,hP⟩)
    · exact Or.inr (Or.inr ⟨i,hm.path hT .host i (hb.path hi),hP⟩)

end FluxServe
