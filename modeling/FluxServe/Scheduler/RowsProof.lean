import FluxServe.Scheduler.RetractProof

namespace FluxServe

open KVPrefixCache

variable {s s' : Scheduler} {r : Request} {f : ForwardState} {l : LocalKVAllocator} {w : Window}
  {a a' : Forwarding} {nodes : List NodeId} {num : Int} {ensured : Bool}

/-- The pages of a row: the tree pages of the locked path, then the local ones. -/
def rowPages (kv : KVPrefixCache) (f : ForwardState) (l : LocalKVAllocator) : List PageId :=
  pathPages .device kv.tree f.deviceNodeRef ++ l.pages

def decodeRow (s : Scheduler) (r : Request) (f : ForwardState) (l : LocalKVAllocator) (start : Nat) :
    ForwardOperation :=
  .decode
    { requestId := r.id, requestPoolIndex := f.reqPoolIndex,
      inputLength := s.config.decodeInputTokens, occupiedPages := rowPages s.kv f l, start,
      size := (rowPages s.kv f l).length-start, prefillLength := r.prefillSize } (-1) (-1)

def prefillRow (s : Scheduler) (r : Request) (f : ForwardState) (l : LocalKVAllocator) (w : Window)
    (start : Nat) : ForwardOperation :=
  .prefill
    { requestId := r.id, requestPoolIndex := f.reqPoolIndex, inputLength := w.size,
      occupiedPages := rowPages s.kv f l, start, size := (rowPages s.kv f l).length-start,
      prefillLength := r.prefillSize }
    (r.tokenSlice w) (r.shiftedInputIds w) w.start

def recoverRow (s : Scheduler) (r : Request) (f : ForwardState) (l : LocalKVAllocator)
    (lastToken : Token) : ForwardOperation :=
  .decode
    { requestId := r.id, requestPoolIndex := f.reqPoolIndex,
      inputLength := s.config.decodeInputTokens, occupiedPages := rowPages s.kv f l, start := 0,
      size := (rowPages s.kv f l).length, prefillLength := 0 } lastToken (r.tokens.length-1)

theorem occupiedPages_bind {α : Type} {g : List PageId → Sched α} {Q : α → Scheduler → Prop}
    {E : Fault → Scheduler → Prop} (h : Sound s) (hr : r ∈ s.requests)
    (hf : r.state.forward? = some f) (hl : f.localKVAllocator = some l)
    (hg : Runs (g (rowPages s.kv f l)) s Q E) : Runs (onKV (occupiedPages f) >>= g) s Q E := by
  have hd : f.deviceNodeRef ∈ refsOf s.requests .device :=
    mem_refsOf.mpr ⟨r,hr,deviceNodeRef_mem hf⟩
  obtain ⟨⟨n,hn⟩,hres⟩ := (h.kv.inv.tier .device).pinned hd
  refine onKV_bind ?_
  unfold occupiedPages
  refine devicePagesFromRoot_bind hn hres ?_
  rw [hl]
  exact hg

theorem decodeOperation_returns (h : Sound s) (hr : r ∈ s.requests)
    (hf : r.state.forward? = some f) (hl : f.localKVAllocator = some l) (start : Nat) :
    Returns (decodeOperation r.id start) s (fun op s' => op = decodeRow s r f l start ∧ s' = s) := by
  unfold Returns decodeOperation
  refine getRequest_bind h.ids hr ?_
  rw [getForward,hf,pure_bind]
  refine occupiedPages_bind h hr hf hl ?_
  rw [runs_bind,runs_get]
  exact ⟨rfl,rfl⟩

/-- The row of a prefill; a negative window throws. -/
theorem prefillOperation_runs (h : Sound s) (hr : r ∈ s.requests)
    (hf : r.state.forward? = some f) (hl : f.localKVAllocator = some l)
    (hw : r.state = .prefilling f w ∨ ∃ n, r.state = .prefillDone f w n) (start : Nat) :
    Runs (prefillOperation r.id start) s
      (fun op s' => op = prefillRow s r f l w start ∧ s' = s ∧ 0 ≤ w.size)
      (fun e s' => e = .exception .negativeWindow ∧ s' = s ∧ w.size < 0) := by
  unfold prefillOperation
  refine getRequest_bind h.ids hr ?_
  rw [getForward,hf,pure_bind]
  refine occupiedPages_bind h hr hf hl ?_
  have hinfo : prefillInfo r = prefillInfo.check w := by
    unfold prefillInfo
    rcases hw with hw | ⟨n,hw⟩ <;> rw [hw]
  rw [hinfo,prefillInfo.check]
  by_cases hneg : w.size < 0
  · rw [if_pos hneg]
    exact ⟨rfl,rfl,hneg⟩
  · rw [if_neg hneg]
    exact ⟨rfl,rfl,by omega⟩

/-- The row of a recovered request; reading the last of no tokens is undefined. -/
theorem recoverOperation_runs (h : Sound s) (hr : r ∈ s.requests)
    (hf : r.state.forward? = some f) (hl : f.localKVAllocator = some l) :
    Runs (recoverOperation r.id) s
      (fun op s' => (∃ x, op = recoverRow s r f l x) ∧ s' = s)
      (fun e s' => e = .undefined .emptyTokens ∧ s' = s ∧ r.tokens = []) := by
  unfold recoverOperation
  refine getRequest_bind h.ids hr ?_
  rw [getForward,hf,pure_bind]
  refine occupiedPages_bind h hr hf hl ?_
  cases hx : r.tokens.getLast? with
  | none => exact ⟨rfl,rfl,List.getLast?_eq_none_iff.mp hx⟩
  | some x => exact ⟨⟨x,rfl⟩,rfl⟩

/-- Making room leaves the pages of every locked path alone. -/
theorem MakesRoom.nodePages_eq {d j : NodeId} (h : MakesRoom s num ensured s') (hs : Sound s)
    (hd : d ∈ refsOf s.requests .device) (hj : j ∈ leafToRoot s.kv.tree d) (t : ResourceType) :
    nodePages t s'.kv.tree j = nodePages t s.kv.tree j := by
  have hT := hs.kv.inv.tree
  obtain ⟨n,_,hn,_⟩ := hT.mem_leafToRoot hj
  have hpinned := (hs.kv.inv.tier .device).pinned hd
  have hcount : 0 < refCountOf .device s.kv.tree j := by
    rw [(hs.kv.inv.tier .device).count (hpinned.2 j hj)]
    unfold refsBelow
    exact Multiset.countP_pos.mpr ⟨d,hd,hj⟩
  cases hn' : s'.kv.tree.read j with
  | none => exact absurd (h.shrinks.gone hn hn').2 (by omega)
  | some n' =>
    obtain ⟨m,hm,_,hother,hcore⟩ := h.shrinks.live hn'
    rw [hn] at hm
    cases hm
    have hsame : ∀ u, coreOf u n' = coreOf u n := by
      intro u
      cases u with
      | host => exact hother
      | device =>
        rcases hcore with hcore | ⟨_,h0⟩
        · exact hcore
        · exact absurd h0 (by omega)
    unfold nodePages
    rw [hn,hn',Option.map_some,Option.map_some,pages_of_coreOf (hsame t)]

end FluxServe
