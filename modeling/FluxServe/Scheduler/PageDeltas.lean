import FluxServe.Scheduler.TilingRuns

namespace FluxServe

open KVPrefixCache

variable {s s₁ s₂ s' : Scheduler} {r x y : Request} {a a' : Forwarding} {id : RequestId}
  {f : ForwardState} {l : LocalKVAllocator} {op : ForwardOperation} {ops : List ForwardOperation}
  {pages pages' : List PageId} {nodes : List NodeId}

section Deltas

/-- Only the operation of a recovery carries a history. -/
def ForwardOperation.isRecovery : ForwardOperation → Bool
  | prefill _ _ _ _ => false
  | decode _ _ histTokenLen => histTokenLen ≠ -1

/-- The newly allocated slice of the occupied pages. -/
def ForwardOperation.newPages (op : ForwardOperation) : List PageId :=
  (op.base.occupiedPages.drop op.base.start.toNat).take op.base.size.toNat

/-- The new pages of an operation go behind those before it; a recovery starts anew. -/
def ForwardOperation.accumulate (pages : List PageId) (op : ForwardOperation) : List PageId :=
  if op.isRecovery then op.newPages else pages ++ op.newPages

def accumulated (ops : List ForwardOperation) : List PageId :=
  ops.foldl ForwardOperation.accumulate []

theorem accumulated_snoc : accumulated (ops ++ [op]) = op.accumulate (accumulated ops) :=
  List.foldl_concat _ _ _ _

/-- After every operation the accumulated pages are those it occupies. -/
def Accumulates (ops : List ForwardOperation) : Prop :=
  ∀ earlier op, earlier ++ [op] <+: ops → accumulated (earlier ++ [op]) = op.base.occupiedPages

theorem accumulates_nil : Accumulates [] := by
  intro earlier op h
  simp at h

theorem Accumulates.snoc (h : Accumulates ops)
    (hop : op.accumulate (accumulated ops) = op.base.occupiedPages) :
    Accumulates (ops ++ [op]) := by
  intro earlier op' hprefix
  obtain heq | hprefix := List.prefix_concat_iff.mp hprefix
  · obtain ⟨rfl,rfl⟩ := List.append_singleton_inj.mp heq
    rw [accumulated_snoc,hop]
  · exact h earlier op' hprefix

end Deltas

section Visited

/-- The pages a request in a forward state occupies. -/
def Occupies (s : Scheduler) (x : Request) (pages : List PageId) : Prop :=
  ∃ f l, x.state.forward? = some f ∧ f.localKVAllocator = some l ∧ pages = rowPages s.kv f l

theorem Occupies.unique (h : Occupies s x pages) (h' : Occupies s x pages') : pages = pages' := by
  obtain ⟨f,l,hf,hl,rfl⟩ := h
  obtain ⟨f',l',hf',hl',rfl⟩ := h'
  obtain rfl : f = f' := Option.some.inj (hf.symm.trans hf')
  obtain rfl : l = l' := Option.some.inj (hl.symm.trans hl')
  rfl

theorem Occupies.congr (h : Occupies s x pages) (htree : s'.kv.tree = s.kv.tree) :
    Occupies s' x pages := by
  obtain ⟨f,l,hf,hl,rfl⟩ := h
  exact ⟨f,l,hf,hl,by rw [rowPages,rowPages,htree]⟩

theorem KeepsPaths.occupies_iff (h : KeepsPaths x s.kv s'.kv) :
    Occupies s' x pages ↔ Occupies s x pages := by
  have heq : ∀ f l, x.state.forward? = some f → rowPages s'.kv f l = rowPages s.kv f l :=
    fun f l hf => (h.samePath hf).rowPages_eq
  constructor
  · rintro ⟨f,l,hf,hl,rfl⟩
    exact ⟨f,l,hf,hl,heq f l hf⟩
  · rintro ⟨f,l,hf,hl,rfl⟩
    exact ⟨f,l,hf,hl,(heq f l hf).symm⟩

/-- What the new pages of a row are, by the state of its request before. -/
inductive Delta (s : Scheduler) (y : Request) (op : ForwardOperation) : Prop
  | first (before : y.state = .submitted) (kind : op.isRecovery = false)
      (new : op.newPages = op.base.occupiedPages)
  | next {pages : List PageId} (before : Occupies s y pages) (kind : op.isRecovery = false)
      (new : pages ++ op.newPages = op.base.occupiedPages)
  | recovered {h : NodeId} {l : LocalKVAllocator} (before : y.state = .retracted h l)
      (kind : y.tokens ≠ [] → op.isRecovery = true) (new : op.newPages = op.base.occupiedPages)

/-- What a visit makes of its request and its pages. A prompt that is all cached loses the row of
its first chunk. -/
inductive Delivers (s : Scheduler) (a : Forwarding) (y : Request) (a' : Forwarding)
    (s' : Scheduler) : Prop
  | nothing (rests : Rests s s') (ops : a'.ops = a.ops)
  | dropped {x : Request} {rows : List ForwardOperation} (becomes : Becomes y x s s')
      (before : y.state = .submitted) (matched : MatchedPrefix s y y.prefillSize)
      (changed : a'.ops ≠ a.ops ∨ s'.requests ≠ s.requests) (ops : a'.ops = a.ops ++ rows)
      (own : ∀ op ∈ rows, op.requestId = y.id)
  | row {x : Request} {op : ForwardOperation} (becomes : Becomes y x s s')
      (ops : a'.ops = a.ops ++ [op]) (own : op.requestId = y.id)
      (occupies : Occupies s' x op.base.occupiedPages) (delta : Delta s y op)

theorem LoadsBack.tree_eq (h : LoadsBack a nodes s a' s') : s'.kv.tree = s.kv.tree := by
  cases h <;> rfl

theorem newPages_prefillRow {w : Window} {start : Nat} :
    (prefillRow s r f l w start).newPages = (rowPages s.kv f l).drop start := by
  simp [ForwardOperation.newPages,prefillRow,ForwardOperation.base,List.take_of_length_le]

theorem newPages_decodeRow {start : Nat} :
    (decodeRow s r f l start).newPages = (rowPages s.kv f l).drop start := by
  simp [ForwardOperation.newPages,decodeRow,ForwardOperation.base,List.take_of_length_le]

theorem newPages_recoverRow {last : Token} :
    (recoverRow s r f l last).newPages = rowPages s.kv f l := by
  simp [ForwardOperation.newPages,recoverRow,ForwardOperation.base]

/-- The pages acquired go behind those held before. -/
theorem Acquired.rowPages_eq {l' : LocalKVAllocator} {num : Int} {ps : Nat} {new : List PageId}
    (h : Acquired l num ps new l') (hpath : SamePath f s s') :
    rowPages s'.kv { f with localKVAllocator := some l' } l' = rowPages s.kv f l ++ new := by
  rw [rowPages,rowPages,h.pages,← List.append_assoc]
  exact congrArg (fun p => p ++ l.pages ++ new) hpath.1

theorem Decodes.delta {reserve : Int} {l' : LocalKVAllocator} (h : Decodes s y f l reserve s₁ l' s')
    (hs : Sound s) (hy : y ∈ s.requests) (hf : y.state.forward? = some f)
    (hl : f.localKVAllocator = some l) :
    Delta s y (decodeRow s' y { f with localKVAllocator := some l' } l'
      (rowPages s₁.kv f l).length) := by
  have hpath := ((h.room.rests hs).paths y hy).samePath hf
  obtain ⟨new,hnew,_⟩ := h.extended.acquired
  have hpages := hnew.rowPages_eq (hpath.trans h.extended.samePath)
  refine .next ⟨f,l,hf,hl,rfl⟩ rfl ?_
  rw [newPages_decodeRow,hpages,hpath.rowPages_eq,List.drop_left']
  · exact hpages.symm
  · rfl

theorem Chunks.delta {w : Window} {num : Int} {l' : LocalKVAllocator}
    (h : Chunks s y f w num l s₁ l' s') (hs : Sound s) (hy : y ∈ s.requests) :
    Delta s y (prefillRow s' y { f with localKVAllocator := some l' } l' ⟨w.start+w.size,num⟩
      (rowPages s₁.kv f l).length) := by
  have hf : y.state.forward? = some f := by
    rw [h.before]
    rfl
  have hpath := ((h.room.rests hs).paths y hy).samePath hf
  obtain ⟨new,hnew,_⟩ := h.extended.acquired
  have hpages := hnew.rowPages_eq (hpath.trans h.extended.samePath)
  refine .next ⟨f,l,hf,h.localAllocator,rfl⟩ rfl ?_
  rw [newPages_prefillRow,hpages,hpath.rowPages_eq,List.drop_left']
  · exact hpages.symm
  · rfl

theorem Begins.occupies {budget : Int} {ev : FirstChunkEvent} {w : Window}
    (h : Begins s y budget s₁ ev f w l s₂) (htree : s'.kv.tree = s₂.kv.tree) :
    Occupies s' { y with state := firstChunkState s.config y f w } (rowPages s₂.kv f l) :=
  Occupies.congr ⟨f,l,firstChunkState_forward _ _ _ _,h.localAllocator,rfl⟩ htree

/-- The visit of a submitted request. -/
theorem FirstVisit.delivers (h : FirstVisit s a y a' s') (hs : Sound s) (hy : y ∈ s.requests)
    (hb : 0 < a.tokenBudget) : Delivers s a y a' s' := by
  cases h with
  | short room => exact .nothing (room.rests hs) rfl
  | @row s₁ s₂ _ ev f w l _ begins pos loads =>
    have hbec := begins.becomes hs
    refine .row (hbec.rests (loads.rests hbec.sound)) loads.fields.1 rfl
      (begins.occupies loads.tree_eq) (.first begins.before rfl ?_)
    rw [newPages_prefillRow]
    rfl
  | @decoded s₁ s₂ s₃ s₄ _ ev f w l l' _ begins zero state decodes loads =>
    have hsize := (begins.begun hs hy hb).size
    have hmatched := begins.matchedPrefix hs
    rw [show w.start = y.prefillSize by omega] at hmatched
    have hbec := (begins.becomes hs).trans (decodes.becomes (begins.becomes hs).sound)
    have hops : a'.ops = a.ops ++ [_] := loads.fields.1
    refine .dropped (hbec.rests (loads.rests hbec.sound)) begins.before hmatched (.inl ?_) hops ?_
    · rw [hops]
      simp
    · intro op hop
      rw [List.mem_singleton.mp hop]
      rfl
  | @stuck s₁ s₂ s₃ _ ev f w l _ begins zero room loads =>
    have hsize := (begins.begun hs hy hb).size
    have hmatched := begins.matchedPrefix hs
    rw [show w.start = y.prefillSize by omega] at hmatched
    have hbec := begins.becomes hs
    have hrests : Rests s₂ s₃ := by
      obtain rfl | room := room
      · exact .refl hbec.sound
      · exact room.rests hbec.sound
    have hops : a'.ops = a.ops ++ [] := loads.fields.1.trans (List.append_nil _).symm
    refine .dropped ((hbec.rests hrests).rests (loads.rests hrests.sound)) begins.before hmatched
      (.inr fun heq => ?_) hops (by simp)
    have hmem : y ∈ s₂.requests := by
      rw [← heq,loads.fields.2.2] at hy
      obtain rfl | room := room
      · exact hy
      · rwa [room.move.requests] at hy
    have hsame := List.inj_on_of_nodup_map hbec.sound.ids hmem hbec.mem hbec.id.symm
    have hst := congrArg Request.state hsame
    rw [begins.before] at hst
    obtain hnot | ⟨n,hnot⟩ := firstChunkState_window s.config y f w
    · rw [hnot] at hst
      cases hst
    · rw [hnot] at hst
      cases hst

theorem RecoverVisit.delivers {h : NodeId} (hv : RecoverVisit s a y h l a' s') (hs : Sound s)
    (hst : y.state = .retracted h l) : Delivers s a y a' s' := by
  cases hv with
  | short room => exact .nothing (room.rests hs) rfl
  | @row s₁ s₂ _ ev f l' last _ recovers loads =>
    have hbec := recovers.becomes hs
    refine .row (hbec.rests (loads.rests hbec.sound)) loads.fields.1 rfl
      (Occupies.congr ⟨f,l',rfl,recovers.localAllocator,rfl⟩ loads.tree_eq) (.recovered hst ?_ ?_)
    · intro hne
      have hpos := List.length_pos_iff.mpr hne
      simp only [recoverRow,ForwardOperation.isRecovery,ne_eq,decide_eq_true_eq]
      omega
    · exact newPages_recoverRow

/-- What any visit makes of its request and its pages. -/
theorem Visit.delivers (h : Visit s a y (some a') s') (hs : Sound s) (hy : y ∈ s.requests)
    (hb : 0 < a.tokenBudget) : Delivers s a y a' s' := by
  cases h with
  | idle => exact .nothing (.refl hs) rfl
  | first before visit => exact visit.delivers hs hy hb
  | noChunk before room => exact .nothing (room.rests hs) rfl
  | @chunk f w l l' s₁ _ chunks =>
    have hforward := firstChunkState_forward s.config y { f with localKVAllocator := some l' }
      ⟨w.start+w.size,min a.tokenBudget (y.unscheduledPrefillSize w)⟩
    exact .row (chunks.becomes hs) rfl rfl ⟨_,l',hforward,rfl,rfl⟩ (chunks.delta hs hy)
  | noDecode before localAllocator room => exact .nothing (room.rests hs) rfl
  | @decode f reserve l l' s₁ _ before goes localAllocator decodes =>
    have hf : y.state.forward? = some f := by
      obtain ⟨w,hst⟩ | hst := before <;> rw [hst] <;> rfl
    exact .row (decodes.becomes hs) rfl rfl ⟨_,l',rfl,rfl,rfl⟩
      (decodes.delta hs hy hf localAllocator)
  | recover before goes visit => exact visit.delivers hs before

end Visited

end FluxServe
