import FluxServe.Scheduler.PlanProof
import FluxServe.Scheduler.Answers

namespace FluxServe

open KVPrefixCache

variable {s s₁ s₂ s' : Scheduler} {r x : Request} {f : ForwardState} {w : Window}
  {l l' : LocalKVAllocator} {rows rows' : List ForwardOperation} {num budget : Int}
  {a a' : Forwarding} {nodes : List NodeId} {ensured : Bool}

/-- Whole pages of a prompt that the cache can hand out. -/
def Cached (s : Scheduler) (r : Request) (T : List Token) : Prop :=
  T = [] ∨ s.config.disablePrefixCache = false ∧ T <+: r.fullPagedTokens s.config.pageSize true ∧
    ∃ t, Covers t s.kv.tree T

/-- The device path of a forward state stays. -/
def SamePath (f : ForwardState) (s s' : Scheduler) : Prop :=
  pathPages .device s'.kv.tree f.deviceNodeRef = pathPages .device s.kv.tree f.deviceNodeRef ∧
    pathTokens s'.kv.tree f.deviceNodeRef = pathTokens s.kv.tree f.deviceNodeRef

theorem SamePath.trans (h : SamePath f s s₁) (h' : SamePath f s₁ s') : SamePath f s s' :=
  ⟨h'.1.trans h.1,h'.2.trans h.2⟩

theorem KeepsPaths.samePath (h : KeepsPaths r s.kv s'.kv) (hf : r.state.forward? = some f) :
    SamePath f s s' := h .device _ (deviceNodeRef_mem hf)

theorem SamePath.rowPages_eq (h : SamePath f s s') : rowPages s'.kv f l = rowPages s.kv f l := by
  unfold rowPages
  rw [h.1]

/-- A first chunk: its window begins where the cached pages end. -/
structure Begun (s : Scheduler) (r : Request) (budget : Int) (f : ForwardState) (w : Window)
    (l : LocalKVAllocator) (s' : Scheduler) : Prop where
  found : r ∈ s.requests
  before : r.state = .submitted
  positive : 0 < budget
  localAllocator : f.localKVAllocator = some l
  acquired : ∃ l₁ new₁ new₂, Acquired {} w.size s.config.pageSize new₁ l₁ ∧
    Acquired l₁ s.config.decodeInputTokens s.config.pageSize new₂ l
  start : w.start = (pathTokens s'.kv.tree f.deviceNodeRef).length
  cached : Cached s r (pathTokens s'.kv.tree f.deviceNodeRef)
  size : w.size = min budget (r.prefillSize-w.start)

theorem MatchResult.nodeDepth_deeper (m : MatchResult) (tree : Heap TreeNode) :
    nodeDepth tree (m.deeper tree) = max (nodeDepth tree m.device) (nodeDepth tree m.host) := by
  unfold MatchResult.deeper
  split <;> omega

/-- The locked node of a first chunk is one of the two the match found. -/
theorem FirstChunk.last {ev : FirstChunkEvent} (h : FirstChunk s r ev f w s') :
    ∃ u, f.deviceNodeRef = ev.matchResult.last u ∧
      matchedPages s.config s.kv.tree ev.matchResult =
        nodeDepth s.kv.tree (ev.matchResult.last u)/s.config.pageSize := by
  unfold matchedPages
  rcases h.deeper with ⟨hl2,hd⟩ | ⟨hl2,hd⟩
  · obtain ⟨u,hu,_⟩ := ev.matchResult.last_deeper s.kv.tree
    refine ⟨u,hd.trans hu,?_⟩
    rw [hl2,if_neg (by decide),← hu,MatchResult.nodeDepth_deeper]
    rcases Nat.le_total (nodeDepth s.kv.tree ev.matchResult.device)
      (nodeDepth s.kv.tree ev.matchResult.host) with hle | hle
    · rw [max_eq_right hle,max_eq_right (Nat.div_le_div_right hle)]
    · rw [max_eq_left hle,max_eq_left (Nat.div_le_div_right hle)]
  · exact ⟨.device,hd,by rw [hl2,if_pos rfl]; rfl⟩

theorem Begins.begun {ev : FirstChunkEvent} (hs : Sound s) (hr : r ∈ s.requests)
    (hb : 0 < budget) (h : Begins s r budget s₁ ev f w l s₂) : Begun s r budget f w l s₂ := by
  have hconf := h.room.config
  have hT := h.room.sound.kv.inv.tree
  obtain ⟨x,hm⟩ := h.offer.matched
  obtain ⟨u,hu,hpages⟩ := h.chunk.last
  obtain ⟨n,hn⟩ := (hm.stop u).live
  have hfwd := firstChunkState_forward s₁.config r f w
  have hpin : f.deviceNodeRef ∈ refsOf s₂.requests .device :=
    mem_refsOf.mpr ⟨_,h.chunk.move.found',deviceNodeRef_mem hfwd⟩
  have hlen := h.chunk.move.sound.kv.pathPages_length hpin
  have htok : pathTokens s₂.kv.tree f.deviceNodeRef = pathTokens s₁.kv.tree f.deviceNodeRef :=
    h.chunk.shape.pathTokens_eq _
  have hdepth : nodeDepth s₁.kv.tree (ev.matchResult.last u) =
      (pathTokens s₂.kv.tree f.deviceNodeRef).length := by
    rw [htok,hu,hT.pathTokens_length hn,nodeDepth_of_read hn]
  rw [h.chunk.move.sound.pageSize,h.chunk.move.config,hconf] at hlen
  have hstart : w.start = (pathTokens s₂.kv.tree f.deviceNodeRef).length := by
    rw [h.chunk.window]
    dsimp only
    rw [hpages,hdepth,hconf,← hlen,Nat.mul_div_cancel _ s.config.pageSize_pos]
    push_cast
    rfl
  obtain ⟨l',l₁,new₁,new₂,hl',hacq₁,hacq₂,_⟩ := h.chunk.localAllocator
  obtain rfl : l' = l := Option.some.inj (hl'.symm.trans h.localAllocator)
  refine ⟨hr,h.before,hb,hl',⟨l₁,new₁,new₂,?_,?_⟩,hstart,?_,?_⟩
  · rw [h.chunk.window,← hconf]
    exact hacq₁
  · rw [← hconf]
    exact hacq₂
  · rw [htok,hu]
    obtain ⟨kv₁,kvl,hw,_⟩ := h.weighed
    have hcov := hm.covers hT u
    have hpre := hm.last_tokens hT u
    rw [hconf] at hpre
    rcases hw.deepest with ⟨_,hzero⟩ | ⟨hon,_⟩
    · left
      rw [hzero]
      cases u <;> exact hT.pathTokens_zero
    · refine Or.inr ⟨?_,hpre,?_⟩
      · rw [← hs.disablePrefixCache]
        simpa using hon
      · cases u with
        | device => exact (h.ages.device _ hcov).elim (fun hc => ⟨.device,hc⟩) fun hc => ⟨.host,hc⟩
        | host => exact ⟨.host,(h.ages.host _).mp hcov⟩
  · rw [h.chunk.window]
    exact h.offer.tokens

/-- A recovery: the path locked is the longest the cache has of the request. -/
structure Recovery (s : Scheduler) (r : Request) (h : NodeId) (l : LocalKVAllocator)
    (f : ForwardState) (l' : LocalKVAllocator) (s' : Scheduler) : Prop where
  found : r ∈ s.requests
  before : r.state = .retracted h l
  localAllocator : f.localKVAllocator = some l'
  acquired : ∃ new, Acquired l s.config.decodeInputTokens s.config.pageSize new l'
  path : pathTokens s'.kv.tree f.deviceNodeRef <+: r.fullPagedTokens s.config.pageSize true
  cached : ∃ t, Covers t s.kv.tree (pathTokens s'.kv.tree f.deviceNodeRef)
  deepest : ∀ P, P <+: r.fullPagedTokens s.config.pageSize true → s.config.pageSize ∣ P.length →
    Covers .host s.kv.tree P → P.length ≤ (pathTokens s'.kv.tree f.deviceNodeRef).length

theorem Recovers.recovery {h : NodeId} {ev : RecoverEvent} (hs : Sound s) (hr : r ∈ s.requests)
    (hrec : Recovers s r h l s₁ ev f l' s₂) : Recovery s r h l f l' s₂ := by
  have hconf := hrec.room.config
  have hT := hrec.room.sound.kv.inv.tree
  obtain ⟨x,hm⟩ := hrec.offer.matched
  obtain ⟨u,hu,hdeep⟩ := ev.matchResult.last_deeper s₁.kv.tree
  have hf := hrec.recovered.deeper
  obtain ⟨n,hn⟩ := (hm.stop u).live
  have htok : pathTokens s₂.kv.tree f.deviceNodeRef = pathTokens s₁.kv.tree f.deviceNodeRef :=
    hrec.recovered.shape.pathTokens_eq _
  have hdepth : nodeDepth s₁.kv.tree (ev.matchResult.last u) =
      (pathTokens s₂.kv.tree f.deviceNodeRef).length := by
    rw [htok,hf,hu,hT.pathTokens_length hn,nodeDepth_of_read hn]
  obtain ⟨l'',new,hl'',hacq⟩ := hrec.recovered.localAllocator
  obtain rfl : l'' = l' := Option.some.inj (hl''.symm.trans hrec.localAllocator)
  rw [hconf] at hacq
  refine ⟨hr,hrec.before,hl'',⟨new,hacq⟩,?_,?_,?_⟩
  · rw [htok,hf,hu,← hconf]
    exact hm.last_tokens hT u
  · rw [htok,hf,hu]
    have hcov := hm.covers hT u
    cases u with
    | device => exact (hrec.ages.device _ hcov).elim (fun hc => ⟨.device,hc⟩) fun hc => ⟨.host,hc⟩
    | host => exact ⟨.host,(hrec.ages.host _).mp hcov⟩
  · intro P hP hdvd hcov
    obtain ⟨kv₁,kvl,hw,_,hsame⟩ := hrec.weighed
    rcases hw.deepest with ⟨⟨_,hno⟩,_⟩ | ⟨_,hlong⟩
    · cases hno
    · have hle := hlong .host P hP (by rw [hw.change.evolves.pageSize,hs.pageSize]; exact hdvd)
        ((hw.ages.host P).mpr hcov)
      rw [← hsame .host] at hle
      rw [← hdepth]
      exact hle.trans (hdeep .host)

/-- How a turn of a plan leads to a request of the state after it; `rows` is what the turn has for
the plan. -/
inductive TurnsTo (s s' : Scheduler) (rows : List ForwardOperation) (x : Request) : Prop
  | same (found : x ∈ s.requests) (paths : KeepsPaths x s.kv s'.kv)
      (none : ∀ op ∈ rows, op.base.requestId ≠ x.id)
  | left (done : x.state.inService = false) (none : rows = [])
  | began {r : Request} {budget : Int} {f : ForwardState} {w : Window} {l : LocalKVAllocator}
      (begun : Begun s r budget f w l s')
      (after : x = { r with state := firstChunkState s.config r f w })
      (row : w.size = 0 ∧ rows = [] ∨ 0 < w.size ∧ rows = [prefillRow s' r f l w 0])
  | chunked {r : Request} {budget num : Int} {f : ForwardState} {w : Window} {l l' : LocalKVAllocator}
      (found : r ∈ s.requests) (before : r.state = .prefilling f w)
      (localAllocator : f.localKVAllocator = some l)
      (positive : 0 < budget) (size : num = min budget (r.unscheduledPrefillSize w))
      (nonneg : 0 ≤ num)
      (acquired : ∃ new, Acquired l num s.config.pageSize new l') (path : SamePath f s s')
      (after : x = { r with state := (firstChunkState s.config r
        { f with localKVAllocator := some l' } ⟨w.start+w.size,num⟩) })
      (row : rows = [prefillRow s' r { f with localKVAllocator := some l' } l' ⟨w.start+w.size,num⟩
        (rowPages s.kv f l).length])
  | decoded {r : Request} {reserve : Int} {f : ForwardState} {l l' : LocalKVAllocator}
      (found : r ∈ s.requests)
      (before : (∃ w, r.state = .prefillDone f w reserve) ∨ r.state = .decoding f reserve)
      (localAllocator : f.localKVAllocator = some l)
      (acquired : ∃ new, Acquired l reserve s.config.pageSize new l') (path : SamePath f s s')
      (after : x = { r with state := (.decoding
        { f with localKVAllocator := some l' } s.config.decodeInputTokens) })
      (row : rows = [decodeRow s' r { f with localKVAllocator := some l' } l'
        (rowPages s.kv f l).length])
  | recovered {r : Request} {h : NodeId} {f : ForwardState} {l l' : LocalKVAllocator} {last : Token}
      (recovery : Recovery s r h l f l' s')
      (after : x = { r with state := .decoding f s.config.decodeInputTokens })
      (row : rows = [recoverRow s' r f l' last])
  | retracted {r : Request} {f : ForwardState} {l₀ l : LocalKVAllocator} {h : NodeId}
      (found : r ∈ s.requests) (before : r.state.forward? = some f)
      (decodable : r.state.isDecodable = true)
      (localAllocator : f.localKVAllocator = some l₀) (tokens : x.tokens = r.tokens)
      (id : x.id = r.id) (prefillSize : x.prefillSize = r.prefillSize)
      (after : x.state = .retracted h l ∨ ∃ d pairs, x.state = .retracting d h l pairs)
      (retained : Retained s'.kv s'.retractions r h l)
      (recorded : s'.retractions.lookup r.id = some (rowPages s.kv f l₀))
      (tail : l.tailPageAvailableTokens = l₀.tailPageAvailableTokens) (none : rows = [])

/-- A turn of a plan: one request goes on, or nothing does. -/
structure Turn (s : Scheduler) (rows : List ForwardOperation) (s' : Scheduler) : Prop where
  sound : Sound s'
  config : s'.config = s.config
  follows : ∀ x ∈ s'.requests, TurnsTo s s' rows x

/-- Turns one after the other, with all they have for the plan. -/
inductive Turns : Scheduler → List ForwardOperation → Scheduler → Prop
  | nil {s : Scheduler} : Turns s [] s
  | cons {s s₁ s' : Scheduler} {rows rows' : List ForwardOperation} (turn : Turn s rows s₁)
      (turns : Turns s₁ rows' s') : Turns s (rows ++ rows') s'

theorem Turns.single (h : Turn s rows s') : Turns s rows s' := by
  have hone := Turns.cons h .nil
  rwa [List.append_nil] at hone

theorem Turns.append (h : Turns s rows s₁) (h' : Turns s₁ rows' s') :
    Turns s (rows ++ rows') s' := by
  induction h with
  | nil => exact h'
  | cons turn _ ih =>
    rw [List.append_assoc]
    exact .cons turn (ih h')

theorem Turns.sound (h : Turns s rows s') (hs : Sound s) : Sound s' := by
  induction h with
  | nil => exact hs
  | cons turn _ ih => exact ih turn.sound

theorem Turns.config_eq (h : Turns s rows s') : s'.config = s.config := by
  induction h with
  | nil => rfl
  | cons turn _ ih => exact ih.trans turn.config

theorem Rests.turn (h : Rests s s') : Turn s [] s' := by
  refine ⟨h.sound,h.config,fun x hx => ?_⟩
  have hold : x ∈ s.requests := h.requests ▸ hx
  exact .same hold (h.paths x hold) (by simp)

theorem Becomes.turn (h : Becomes r x s s') (hx : TurnsTo s s' rows x)
    (hrows : ∀ op ∈ rows, op.base.requestId = r.id) : Turn s rows s' := by
  refine ⟨h.sound,h.config,fun y hy => ?_⟩
  rcases h.cases hy with rfl | ⟨hold,hne,hpaths⟩
  · exact hx
  · exact .same hold hpaths fun op hop heq => hne (heq.symm.trans (hrows op hop))

theorem MakesRoom.rests (h : MakesRoom s num ensured s') (hs : Sound s) : Rests s s' :=
  h.move.rests hs

theorem LoadsBack.rests (h : LoadsBack a nodes s a' s') (hs : Sound s) : Rests s s' := by
  cases h with
  | nothing => exact .refl hs
  | operation => exact ⟨hs.bump,rfl,rfl,fun x _ => keepsPaths_of_tree x rfl⟩

theorem Extended.samePath (h : Extended s r f l num l' s'.kv) : SamePath f s s' := by
  unfold SamePath
  rw [h.step.tree]
  exact ⟨rfl,rfl⟩

theorem Decodes.turn {reserve : Int} (h : Decodes s r f l reserve s₁ l' s') (hs : Sound s)
    (hr : r ∈ s.requests) (hl : f.localKVAllocator = some l)
    (hst : (∃ w, r.state = .prefillDone f w reserve) ∨ r.state = .decoding f reserve) :
    Turn s [decodeRow s' r { f with localKVAllocator := some l' } l' (rowPages s₁.kv f l).length]
      s' := by
  have hf : r.state.forward? = some f := by
    rcases hst with ⟨w,hst⟩ | hst <;> rw [hst] <;> rfl
  have hroom := h.room.rests hs
  have hpath := (hroom.paths r hr).samePath hf
  refine (hroom.becomes (h.move.becomes hroom.sound)).turn (.decoded hr hst hl ?_
    (hpath.trans h.extended.samePath) rfl ?_) (by simp [decodeRow,ForwardOperation.base])
  · obtain ⟨new,hnew,_⟩ := h.extended.acquired
    rw [← h.room.move.config]
    exact ⟨new,hnew⟩
  · rw [hpath.rowPages_eq]

theorem Chunks.turn (h : Chunks s r f w num l s₁ l' s') (hs : Sound s) (hr : r ∈ s.requests)
    (hb : 0 < budget) (hnum : num = min budget (r.unscheduledPrefillSize w)) :
    Turn s [prefillRow s' r { f with localKVAllocator := some l' } l' ⟨w.start+w.size,num⟩
      (rowPages s₁.kv f l).length] s' := by
  have hroom := h.room.rests hs
  have hpath := (hroom.paths r hr).samePath (f := f) (by rw [h.before]; rfl)
  refine (hroom.becomes (h.move.becomes hroom.sound)).turn (.chunked hr h.before h.localAllocator hb
    hnum h.nonneg ?_ (hpath.trans h.extended.samePath) rfl ?_) (by simp [prefillRow,ForwardOperation.base])
  · obtain ⟨new,hnew,_⟩ := h.extended.acquired
    rw [← h.room.move.config]
    exact ⟨new,hnew⟩
  · rw [hpath.rowPages_eq]

theorem Begins.becomes {ev : FirstChunkEvent} (h : Begins s r budget s₁ ev f w l s₂) (hs : Sound s) :
    Becomes r { r with state := firstChunkState s.config r f w } s s₂ := by
  have hmove := h.chunk.move
  rw [h.room.config] at hmove
  have hroom := h.room.rests hs
  exact hroom.becomes (hmove.becomes hroom.sound)

theorem Recovers.turn {h : NodeId} {ev : RecoverEvent} (hs : Sound s)
    (hr : r ∈ s.requests) (last : Token) (hrec : Recovers s r h l s₁ ev f l' s₂) :
    Turn s [recoverRow s₂ r f l' last] s₂ := by
  have hmove := hrec.recovered.move
  rw [hrec.room.config] at hmove
  have hroom := hrec.room.rests hs
  refine (hroom.becomes (hmove.becomes hroom.sound)).turn (.recovered (hrec.recovery hs hr) rfl rfl) ?_
  simp [recoverRow,ForwardOperation.base]

/-- The visit of a submitted request is at most two turns. -/
theorem FirstVisit.turns (h : FirstVisit s a r a' s') (hs : Sound s) (hr : r ∈ s.requests)
    (hb : 0 < a.tokenBudget) :
    ∃ rows, Turns s rows s' ∧ a'.ops = a.ops ++ rows := by
  cases h with
  | short room => exact ⟨[],.single (room.rests hs).turn,(List.append_nil _).symm⟩
  | row begins pos loads =>
    rename_i s₁ s₂ ev f w l
    have hturn : Turn s [prefillRow s₂ r f l w 0] s₂ := (begins.becomes hs).turn
      (.began (begins.begun hs hr hb) rfl (Or.inr ⟨pos,rfl⟩)) (by simp [prefillRow,ForwardOperation.base])
    refine ⟨[prefillRow s₂ r f l w 0] ++ [],.cons hturn (.single (loads.rests hturn.sound).turn),?_⟩
    cases loads <;> simp [Forwarding.push]
  | decoded begins zero state decodes loads =>
    rename_i s₁ s₂ s₃ s₄ ev f w l l'
    have hbec := begins.becomes hs
    have hturn : Turn s [] s₂ := hbec.turn (.began (begins.begun hs hr hb) rfl (Or.inl ⟨zero,rfl⟩)) (by simp)
    have hdec := decodes.turn hturn.sound hbec.mem begins.localAllocator (Or.inl ⟨w,state⟩)
    refine ⟨_,.cons hturn (.cons hdec (.single (loads.rests hdec.sound).turn)),?_⟩
    cases loads <;> simp [Forwarding.push,decodeRow]
  | stuck begins zero room loads =>
    rename_i s₁ s₂ s₃ ev f w l
    have hbec := begins.becomes hs
    have hturn : Turn s [] s₂ := hbec.turn (.began (begins.begun hs hr hb) rfl (Or.inl ⟨zero,rfl⟩)) (by simp)
    have hroom : Rests s₂ s₃ := by
      rcases room with rfl | room
      · exact .refl hturn.sound
      · exact room.rests hturn.sound
    refine ⟨_,.cons hturn (.cons hroom.turn (.single (loads.rests hroom.sound).turn)),?_⟩
    cases loads <;> simp

theorem RecoverVisit.turns {h : NodeId} (hv : RecoverVisit s a r h l a' s') (hs : Sound s)
    (hr : r ∈ s.requests) : ∃ rows, Turns s rows s' ∧ a'.ops = a.ops ++ rows := by
  cases hv with
  | short room => exact ⟨[],.single (room.rests hs).turn,(List.append_nil _).symm⟩
  | row recovers loads =>
    rename_i s₁ s₂ ev f l' last
    have hturn := Recovers.turn hs hr last recovers
    refine ⟨_,.cons hturn (.single (loads.rests hturn.sound).turn),?_⟩
    cases loads <;> simp [Forwarding.push]

theorem Visit.turns (h : Visit s a r (some a') s') (hs : Sound s) (hr : r ∈ s.requests)
    (hb : 0 < a.tokenBudget) :
    ∃ rows, Turns s rows s' ∧ a'.ops = a.ops ++ rows := by
  cases h with
  | idle => exact ⟨[],.nil,(List.append_nil _).symm⟩
  | first before visit => exact visit.turns hs hr hb
  | noChunk before room => exact ⟨[],.single (room.rests hs).turn,(List.append_nil _).symm⟩
  | chunk chunks => exact ⟨_,.single (chunks.turn hs hr hb rfl),rfl⟩
  | noDecode before localAllocator room =>
    exact ⟨[],.single (room.rests hs).turn,(List.append_nil _).symm⟩
  | decode before _ localAllocator decodes =>
    exact ⟨_,.single (decodes.turn hs hr localAllocator before),rfl⟩
  | recover before _ visit => exact visit.turns hs hr

theorem Visits.turns {ids rest : List RequestId} (h : Visits ids a s rest a' s') (hs : Sound s) :
    ∃ rows, Turns s rows s' ∧ a'.ops = a.ops ++ rows := by
  induction h with
  | refl => exact ⟨[],.nil,(List.append_nil _).symm⟩
  | cons budget batch found visit visits ih =>
    obtain ⟨rows,hturns,hops⟩ := visit.turns hs found budget
    obtain ⟨rows',hturns',hops'⟩ := ih (hturns.sound hs)
    exact ⟨_,hturns.append hturns',by rw [hops',hops,List.append_assoc]⟩

theorem Retired.turn (h : Retired s r s') (hr : r.state.isDecodable = true) : Turn s [] s' := by
  cases h with
  | left becomes => exact becomes.turn (.left rfl rfl) (by simp)
  | kept before localAllocator after becomes retained recorded tail =>
    exact becomes.turn (.retracted becomes.found before hr localAllocator rfl rfl rfl after retained
      recorded tail rfl) (by simp)

end FluxServe
