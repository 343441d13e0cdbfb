import FluxServe.Engine.FifoLoop
import Mathlib.Data.List.Pairwise
import Mathlib.Data.List.Nodup

namespace FluxServe.Engine

variable {t t' : FifoLoop} {rid : RequestId} {i : Nat} {ids : List Nat} {r : RequestState}
  {x : Output × RequestState} {error reason : String} {call : FifoCall} {maxBatchSize : Nat}

namespace FifoLoop

/-- The states of the batch that executes and, behind them, of the queue. -/
def batch (t : FifoLoop) : List Nat := t.executing.getD []

def inOrder (t : FifoLoop) : List Nat := t.batch ++ t.adapter.queue.filterMap t.states

/-- No id is used again while it is in use, and the executor answers every request it is given. -/
def Careful (t : FifoLoop) : FifoCall → Prop
  | .submit r => r.finishedReason = none ∧ r.queue = [] ∧ t.states r.rid = none ∧
      r.rid ∉ t.aborting ∧ ∀ i ∈ t.batch, (t.state i).rid ≠ r.rid
  | .results results => ∀ i ∈ t.batch, ∃ r ∈ results, r.rid = (t.state i).rid
  | _ => True

/-- What is known of a request: it waits for its one answer, or has it. -/
inductive Fate (t : FifoLoop) (i : Nat) : Prop
  | pending (unfinished : (t.state i).finished = false) (silent : (t.state i).queue = [])
      (registered : t.states (t.state i).rid = some i)
      (somewhere : i ∈ t.inOrder ∨ (t.state i).rid ∈ t.aborting)
  | answered (output : Output) (late : List Output) (finished : (t.state i).finished = true)
      (queue : (t.state i).queue = output :: late) (own : output.rid = (t.state i).rid)
      (last : output.finished = true) (lateErrors : ∀ o ∈ late, o.error.isSome = true)

/-- Every request is accounted for, the older ones first. -/
structure InBooks (t : FifoLoop) : Prop where
  registered : ∀ rid i, t.states rid = some i → i < t.made ∧ (t.state i).rid = rid ∧
    (t.state i).finished = false
  made : ∀ i ∈ t.batch, i < t.made
  rids : (t.batch.map fun i => (t.state i).rid).Nodup
  own : ∀ i ∈ t.batch, ∀ j, t.states (t.state i).rid = some j → j = i
  queued : ∀ rid ∈ t.adapter.queue, rid ∈ t.adapter.active
  held : ∀ rid ∈ t.adapter.active, (t.states rid).isSome = true
  aborted : ∀ rid ∈ t.aborting, rid ∉ t.adapter.active
  order : t.inOrder.Pairwise (· < ·)
  limit : t.batch.length ≤ t.adapter.maxBatchSize
  fate : ∀ i < t.made, t.Fate i

theorem inBooks_start : InBooks { adapter := { maxBatchSize } } where
  registered := by simp
  made := by simp [batch]
  rids := by simp [batch]
  own := by simp [batch]
  queued := by simp
  held := by simp
  aborted := by simp
  order := by simp [inOrder,batch]
  limit := by simp [batch]
  fate := by simp

theorem filterMap_update {queue : List RequestId} {states : RequestId → Option Nat}
    {v : Option Nat} (hq : rid ∉ queue) :
    queue.filterMap (Function.update states rid v) = queue.filterMap states := by
  apply List.filterMap_congr
  intro y hy
  rw [Function.update_of_ne]
  exact fun heq => hq (heq ▸ hy)

section Submit

theorem InBooks.generateRequest (h : InBooks t) (hok : t.Careful (.submit r)) :
    InBooks (t.generateRequest r) := by
  obtain ⟨hnew,hsilent,hfree,hnotAborting,hnotBatch⟩ := hok
  have hactive : r.rid ∉ t.adapter.active := by
    intro hmem
    have hheld := h.held _ hmem
    rw [hfree] at hheld
    cases hheld
  have hqueue : r.rid ∉ t.adapter.queue := fun hmem => hactive (h.queued _ hmem)
  have hadapter : t.adapter.submit [r] = { t.adapter with
      active := r.rid :: t.adapter.active, queue := t.adapter.queue ++ [r.rid] } := by
    simp [DefaultSchedulerAdapter.submit,hactive]
  have hold : ∀ i < t.made, Function.update t.state t.made r i = t.state i :=
    fun i hi => Function.update_of_ne (by omega) _ _
  have hstates : ∀ rid i, Function.update t.states r.rid (some t.made) rid = some i →
      rid = r.rid ∧ i = t.made ∨ rid ≠ r.rid ∧ t.states rid = some i := by
    intro rid i hi
    by_cases hr : rid = r.rid
    · subst hr
      simp at hi
      exact .inl ⟨rfl,hi.symm⟩
    · rw [Function.update_of_ne hr] at hi
      exact .inr ⟨hr,hi⟩
  have hinOrder : (t.generateRequest r).inOrder = t.inOrder ++ [t.made] := by
    unfold inOrder FifoLoop.generateRequest
    dsimp only
    rw [hadapter]
    simp [filterMap_update hqueue,batch]
  have hless : ∀ i ∈ t.inOrder, i < t.made := by
    intro i hi
    obtain hi | hi := List.mem_append.mp hi
    · exact h.made i hi
    · obtain ⟨rid,_,hrid⟩ := List.mem_filterMap.mp hi
      exact (h.registered rid i hrid).1
  refine ⟨?_,?_,?_,?_,?_,?_,?_,?_,?_,?_⟩
  · intro rid i hi
    obtain ⟨rfl,rfl⟩ | ⟨_,hi⟩ := hstates rid i hi
    · simp [FifoLoop.generateRequest,RequestState.finished,hnew]
    · obtain ⟨hlt,hrid,hfin⟩ := h.registered rid i hi
      refine ⟨Nat.lt_succ_of_lt hlt,?_⟩
      simpa [FifoLoop.generateRequest,hold i hlt] using ⟨hrid,hfin⟩
  · exact fun i hi => Nat.lt_succ_of_lt (h.made i hi)
  · have hsame : t.batch.map (fun i => (Function.update t.state t.made r i).rid) =
        t.batch.map fun i => (t.state i).rid :=
      List.map_congr_left fun i hi => by rw [hold i (h.made i hi)]
    exact hsame ▸ h.rids
  · intro i hi j hj
    have hrid : ((t.generateRequest r).state i).rid = (t.state i).rid :=
      congrArg RequestState.rid (hold i (h.made i hi))
    rw [hrid] at hj
    obtain ⟨heq,_⟩ | ⟨_,hj⟩ := hstates _ j hj
    · exact absurd heq (hnotBatch i hi)
    · exact h.own i hi j hj
  · intro rid hrid
    simp only [FifoLoop.generateRequest,hadapter] at hrid ⊢
    obtain hrid | hrid := List.mem_append.mp hrid
    · exact List.mem_cons_of_mem _ (h.queued rid hrid)
    · rw [List.mem_singleton.mp hrid]
      exact List.mem_cons_self
  · intro rid hrid
    simp only [FifoLoop.generateRequest,hadapter] at hrid ⊢
    by_cases hr : rid = r.rid
    · simp [hr]
    · rw [Function.update_of_ne hr]
      exact h.held rid ((List.mem_cons.mp hrid).resolve_left hr)
  · intro rid hrid
    simp only [FifoLoop.generateRequest,hadapter] at hrid ⊢
    intro hmem
    obtain rfl | hmem := List.mem_cons.mp hmem
    · exact hnotAborting hrid
    · exact h.aborted rid hrid hmem
  · rw [hinOrder]
    refine List.pairwise_append.mpr ⟨h.order,List.pairwise_singleton _ _,?_⟩
    intro i hi j hj
    rw [List.mem_singleton.mp hj]
    exact hless i hi
  · simpa [FifoLoop.generateRequest,hadapter,batch] using h.limit
  · intro i hi
    by_cases him : i = t.made
    · subst him
      refine .pending ?_ ?_ ?_ (.inl ?_)
      · simp [FifoLoop.generateRequest,RequestState.finished,hnew]
      · simp [FifoLoop.generateRequest,hsilent]
      · simp [FifoLoop.generateRequest]
      · rw [hinOrder]
        exact List.mem_append_right _ (List.mem_singleton_self _)
    · have hlt : i < t.made := by
        have hsucc : i < t.made+1 := hi
        omega
      have hstate : (t.generateRequest r).state i = t.state i := hold i hlt
      cases h.fate i hlt with
      | pending unfinished silent registered somewhere =>
        refine .pending (hstate ▸ unfinished) (hstate ▸ silent) ?_ ?_
        · rw [hstate]
          have hne : (t.state i).rid ≠ r.rid := by
            intro heq
            rw [heq,hfree] at registered
            cases registered
          simpa [FifoLoop.generateRequest,hne] using registered
        · rw [hstate,hinOrder]
          exact somewhere.imp_left fun hmem => List.mem_append_left _ hmem
      | answered output late finished queue own last lateErrors =>
        exact .answered output late (hstate ▸ finished) (hstate ▸ queue) (hstate ▸ own) last
          lateErrors

end Submit

section Abort

theorem queued_abort : (t.adapter.abort rid).queue = t.adapter.queue.filter fun x => x ≠ rid := by
  simp [DefaultSchedulerAdapter.abort,DefaultSchedulerAdapter.finish]

theorem mem_active_abort {y : RequestId} :
    y ∈ (t.adapter.abort rid).active ↔ y ∈ t.adapter.active ∧ y ≠ rid := by
  simp [DefaultSchedulerAdapter.abort,DefaultSchedulerAdapter.finish]

theorem InBooks.abort (h : InBooks t) (rid : RequestId) :
    InBooks { t with adapter := t.adapter.abort rid, aborting := rid :: t.aborting } := by
  have hsub : ((t.adapter.abort rid).queue.filterMap t.states).Sublist
      (t.adapter.queue.filterMap t.states) := by
    rw [queued_abort]
    exact List.filter_sublist.filterMap _
  refine ⟨h.registered,h.made,h.rids,h.own,?_,?_,?_,?_,h.limit,?_⟩
  · intro y hy
    dsimp only at hy
    rw [queued_abort,List.mem_filter] at hy
    exact mem_active_abort.mpr ⟨h.queued y hy.1,by simpa using hy.2⟩
  · exact fun y hy => h.held y (mem_active_abort.mp hy).1
  · intro y hy hmem
    obtain ⟨hactive,hne⟩ := mem_active_abort.mp hmem
    obtain rfl | hy := List.mem_cons.mp hy
    · exact hne rfl
    · exact h.aborted y hy hactive
  · exact h.order.sublist (hsub.append_left _)
  · intro i hi
    cases h.fate i hi with
    | pending unfinished silent registered somewhere =>
      refine .pending unfinished silent registered ?_
      by_cases hr : (t.state i).rid = rid
      · exact .inr (by simp [hr])
      · refine somewhere.imp (fun hmem => ?_) (List.mem_cons_of_mem _)
        obtain hmem | hmem := List.mem_append.mp hmem
        · exact List.mem_append_left _ hmem
        · obtain ⟨y,hy,hyi⟩ := List.mem_filterMap.mp hmem
          have hne : y ≠ rid := (h.registered y i hyi).2.1 ▸ hr
          refine List.mem_append_right _ (List.mem_filterMap.mpr ⟨y,?_,hyi⟩)
          dsimp only
          rw [queued_abort,List.mem_filter]
          exact ⟨hy,by simpa using hne⟩
    | answered output late finished queue own last lateErrors =>
      exact .answered output late finished queue own last lateErrors

end Abort

section Settle

/-- An output that ends a request, and the request as it is then. -/
structure Ends (r : RequestState) (x : Output × RequestState) : Prop where
  rid : x.1.rid = r.rid
  finishedOutput : x.1.finished = true
  same : x.2.rid = r.rid
  finished : x.2.finished = true
  queue : x.2.queue = r.queue

theorem makeOutput_ends (tokenIds : List Token) (text finishReason : String) :
    Ends r (makeOutput r tokenIds text (some finishReason)) :=
  ⟨rfl,rfl,rfl,rfl,rfl⟩

theorem makeErrorOutput_ends : Ends r (makeErrorOutput r error) := ⟨rfl,rfl,rfl,rfl,rfl⟩

theorem makeAbortOutput_ends (r : RequestState) (reason : String) :
    Ends r (makeAbortOutput r reason) := ⟨rfl,rfl,rfl,rfl,rfl⟩

/-- A request that ends is taken out of the dictionary; it may be taken out of the adapter too. -/
theorem InBooks.ends {adapter : DefaultSchedulerAdapter} (h : InBooks t) (hi : i < t.made)
    (hx : Ends (t.state i) x)
    (hlate : (t.state i).finished = true → x.1.error.isSome = true)
    (hown : ∀ j, t.states (t.state i).rid = some j → j = i)
    (hlimit : adapter.maxBatchSize = t.adapter.maxBatchSize)
    (hqueue : adapter.queue = t.adapter.queue.filter fun y => y ≠ (t.state i).rid)
    (hactive : ∀ y, y ∈ adapter.active ↔ y ∈ t.adapter.active ∧ y ≠ (t.state i).rid) :
    InBooks { t with
      adapter
      state := Function.update t.state i (x.2.put x.1)
      states := Function.update t.states x.2.rid none } := by
  have hrid : ∀ j, (Function.update t.state i (x.2.put x.1) j).rid = (t.state j).rid := by
    intro j
    by_cases hj : j = i
    · subst hj
      simpa [RequestState.put] using hx.same
    · rw [Function.update_of_ne hj]
  have hstates : ∀ y j, Function.update t.states x.2.rid none y = some j →
      y ≠ (t.state i).rid ∧ t.states y = some j := by
    intro y j hj
    by_cases hy : y = x.2.rid
    · simp [hy] at hj
    · rw [Function.update_of_ne hy] at hj
      exact ⟨hx.same ▸ hy,hj⟩
  have hkept : ∀ j, j ≠ i → ∀ y, t.states y = some j →
      Function.update t.states x.2.rid none y = some j := by
    intro j hj y hy
    rw [Function.update_of_ne,hy]
    intro heq
    rw [heq,hx.same] at hy
    exact hj (hown j hy)
  have hfilter : adapter.queue.filterMap (Function.update t.states x.2.rid none) =
      adapter.queue.filterMap t.states := by
    refine filterMap_update ?_
    rw [hqueue,hx.same,List.mem_filter]
    simp
  have hsub : (adapter.queue.filterMap t.states).Sublist
      (t.adapter.queue.filterMap t.states) := by
    rw [hqueue]
    exact List.filter_sublist.filterMap _
  refine ⟨?_,h.made,?_,?_,?_,?_,?_,?_,?_,?_⟩
  · intro y j hj
    obtain ⟨hy,hj⟩ := hstates y j hj
    obtain ⟨hlt,hyj,hfin⟩ := h.registered y j hj
    have hji : j ≠ i := fun heq => hy (heq ▸ hyj).symm
    refine ⟨hlt,?_⟩
    dsimp only
    rw [Function.update_of_ne hji]
    exact ⟨hyj,hfin⟩
  · have hsame : t.batch.map (fun j => (Function.update t.state i (x.2.put x.1) j).rid) =
        t.batch.map fun j => (t.state j).rid := List.map_congr_left fun j _ => hrid j
    exact hsame ▸ h.rids
  · intro j hj k hk
    dsimp only at hk
    rw [hrid] at hk
    exact h.own j hj k (hstates _ k hk).2
  · intro y hy
    dsimp only at hy
    rw [hqueue,List.mem_filter] at hy
    exact (hactive y).mpr ⟨h.queued y hy.1,by simpa using hy.2⟩
  · intro y hy
    obtain ⟨hy,hne⟩ := (hactive y).mp hy
    dsimp only
    rw [Function.update_of_ne (hx.same ▸ hne)]
    exact h.held y hy
  · exact fun y hy hmem => h.aborted y hy ((hactive y).mp hmem).1
  · refine h.order.sublist ?_
    unfold inOrder
    dsimp only
    rw [hfilter]
    exact hsub.append_left _
  · simpa [hlimit,batch] using h.limit
  · intro j hj
    by_cases hji : j = i
    · subst hji
      have hput : ∀ (late : List Output), (t.state j).queue = late →
          (x.2.put x.1).queue = late ++ [x.1] := by
        intro late hlate
        rw [← hlate,← hx.queue]
        rfl
      have hfin : (Function.update t.state j (x.2.put x.1) j).finished = true := by
        rw [Function.update_self]
        exact hx.finished
      cases h.fate j hj with
      | pending unfinished silent registered somewhere =>
        refine .answered x.1 [] hfin ?_ ?_ hx.finishedOutput (by simp)
        · dsimp only
          rw [Function.update_self]
          exact hput [] silent
        · dsimp only
          rw [hrid,hx.rid]
      | answered output late finished queue own last lateErrors =>
        refine .answered output (late ++ [x.1]) hfin ?_ ?_ last ?_
        · dsimp only
          rw [Function.update_self]
          exact hput _ queue
        · dsimp only
          rw [hrid,own]
        · intro o ho
          obtain ho | ho := List.mem_append.mp ho
          · exact lateErrors o ho
          · rw [List.mem_singleton.mp ho]
            exact hlate finished
    · have hstate : Function.update t.state i (x.2.put x.1) j = t.state j :=
        Function.update_of_ne hji _ _
      cases h.fate j hj with
      | pending unfinished silent registered somewhere =>
        refine .pending ?_ ?_ ?_ ?_
        · exact (congrArg RequestState.finished hstate).trans unfinished
        · exact (congrArg RequestState.queue hstate).trans silent
        · dsimp only
          rw [hstate]
          exact hkept j hji _ registered
        · dsimp only
          rw [hstate]
          refine somewhere.imp_left fun hmem => ?_
          obtain hmem | hmem := List.mem_append.mp hmem
          · exact List.mem_append_left _ hmem
          · obtain ⟨y,hy,hyj⟩ := List.mem_filterMap.mp hmem
            refine List.mem_append_right _ ?_
            dsimp only
            rw [hfilter,List.mem_filterMap]
            refine ⟨y,?_,hyj⟩
            rw [hqueue,List.mem_filter]
            refine ⟨hy,?_⟩
            have hne : y ≠ (t.state i).rid := fun heq => hji (hown j (heq ▸ hyj))
            simpa using hne
      | answered output late finished queue own last lateErrors =>
        refine .answered output late ?_ ?_ ?_ last lateErrors
        · exact (congrArg RequestState.finished hstate).trans finished
        · exact (congrArg RequestState.queue hstate).trans queue
        · dsimp only
          rw [hstate,own]

theorem InBooks.forget (h : InBooks t) (rid : RequestId) (hnone : t.states rid = none) :
    InBooks { t with aborting := t.aborting.erase rid } := by
  refine ⟨h.registered,h.made,h.rids,h.own,h.queued,h.held,
    fun y hy => h.aborted y (List.mem_of_mem_erase hy),h.order,h.limit,fun i hi => ?_⟩
  cases h.fate i hi with
  | pending unfinished silent registered somewhere =>
    refine .pending unfinished silent registered (somewhere.imp_right fun hmem => ?_)
    refine (List.mem_erase_of_ne ?_).mpr hmem
    intro heq
    rw [heq,hnone] at registered
    cases registered
  | answered output late finished queue own last lateErrors =>
    exact .answered output late finished queue own last lateErrors

theorem InBooks.cleanup (h : InBooks t) (hrid : rid ∈ t.aborting) (reason : String) :
    InBooks ({ t with aborting := t.aborting.erase rid }.cleanup rid reason) := by
  unfold FifoLoop.cleanup
  dsimp only
  cases hi : t.states rid with
  | none => exact h.forget rid hi
  | some i =>
    obtain ⟨hlt,hri,hfin⟩ := h.registered rid i hi
    have hactive : rid ∉ t.adapter.active := h.aborted rid hrid
    have hends := makeAbortOutput_ends (t.state i) reason
    have hout : InBooks { t with
        state := Function.update t.state i
          ((makeAbortOutput (t.state i) reason).2.put (makeAbortOutput (t.state i) reason).1)
        states := Function.update t.states (makeAbortOutput (t.state i) reason).2.rid none } := by
      refine h.ends hlt hends (by simp [hfin]) (fun j hj => ?_) rfl ?_ fun y => ?_
      · rw [hri,hi] at hj
        exact (Option.some.inj hj).symm
      · refine (List.filter_eq_self.mpr fun y hy => ?_).symm
        rw [hri]
        simpa using fun heq : y = rid => hactive (heq ▸ h.queued y hy)
      · rw [hri]
        exact ⟨fun hy => ⟨hy,fun heq => hactive (heq ▸ hy)⟩,And.left⟩
    have hfree := hout.forget rid (by simp [hends.same,hri])
    simpa [hfin] using hfree

theorem InBooks.settle (h : InBooks t) (hi : i ∈ t.batch) (hx : Ends (t.state i) x)
    (hlate : (t.state i).finished = true → x.1.error.isSome = true) : InBooks (t.settle i x) := by
  refine h.ends (h.made i hi) hx hlate (h.own i hi) rfl ?_ ?_
  · simp [DefaultSchedulerAdapter.finish,hx.same]
  · simp [DefaultSchedulerAdapter.finish,hx.same]

/-- The batch stays, and what has finished stays so. -/
structure Further (t t' : FifoLoop) : Prop where
  limit : t'.adapter.maxBatchSize = t.adapter.maxBatchSize
  executing : t'.executing = t.executing
  rid : ∀ i, (t'.state i).rid = (t.state i).rid
  finished : ∀ i, (t.state i).finished = true → (t'.state i).finished = true
  queue : ∀ i, (t.state i).queue <+: (t'.state i).queue

theorem further_refl (t : FifoLoop) : Further t t :=
  ⟨rfl,rfl,fun _ => rfl,fun _ h => h,fun _ => List.prefix_refl _⟩

theorem Further.trans {t'' : FifoLoop} (h : Further t t') (h' : Further t' t'') :
    Further t t'' :=
  ⟨h'.limit.trans h.limit,h'.executing.trans h.executing,fun i => (h'.rid i).trans (h.rid i),
    fun i hi => h'.finished i (h.finished i hi),fun i => (h.queue i).trans (h'.queue i)⟩

theorem settle_further (hx : Ends (t.state i) x) :
    Further t (t.settle i x) ∧ ((t.settle i x).state i).finished = true := by
  have hself : (t.settle i x).state i = x.2.put x.1 := Function.update_self _ _ _
  have hother : ∀ j, j ≠ i → (t.settle i x).state j = t.state j :=
    fun j hj => Function.update_of_ne hj _ _
  refine ⟨⟨rfl,rfl,fun j => ?_,fun j hj => ?_,fun j => ?_⟩,hself ▸ hx.finished⟩
  · by_cases hji : j = i
    · rw [hji,hself]
      exact hx.same
    · rw [hother j hji]
  · by_cases hji : j = i
    · rw [hji,hself]
      exact hx.finished
    · rwa [hother j hji]
  · by_cases hji : j = i
    · rw [hji,hself,← hx.queue]
      exact List.prefix_append _ _
    · exact ⟨[],by simp [hother j hji]⟩

theorem cleanup_further (t : FifoLoop) (rid : RequestId) (reason : String) :
    Further t (t.cleanup rid reason) := by
  unfold FifoLoop.cleanup
  split
  · next i _ =>
    split
    · exact further_refl t
    · have hsettled := (settle_further (makeAbortOutput_ends (t.state i) reason)).1
      exact { hsettled with limit := rfl }
  · exact further_refl t

theorem byId_spec (h : InBooks t) (hids : t.batch = ids) (rid : RequestId) :
    (∀ i, t.byId ids rid = some i → i ∈ ids ∧ (t.state i).rid = rid) ∧
      ∀ i ∈ ids, t.byId ids (t.state i).rid = some i := by
  have hmem : ∀ rid i, t.byId ids rid = some i → i ∈ ids ∧ (t.state i).rid = rid := by
    intro rid i hi
    have hlast := List.mem_of_getLast? hi
    simpa using List.mem_filter.mp hlast
  refine ⟨hmem rid,fun i hi => ?_⟩
  cases hb : t.byId ids (t.state i).rid with
  | none =>
    have hempty := List.getLast?_eq_none_iff.mp hb
    have hin : i ∈ ids.filter fun j => (t.state j).rid = (t.state i).rid :=
      List.mem_filter.mpr ⟨hi,by simp⟩
    rw [hempty] at hin
    cases hin
  | some j =>
    obtain ⟨hj,hrid⟩ := hmem _ j hb
    have hnodup := h.rids
    rw [hids] at hnodup
    rw [List.inj_on_of_nodup_map hnodup hj hi hrid]

/-- A result ends the request of the batch it is for. -/
theorem takeOver_spec (h : InBooks t) (hids : t.batch = ids) (r : ExecutionResult) :
    InBooks (t.takeOver ids r) ∧ Further t (t.takeOver ids r) ∧
      ∀ i ∈ ids, (t.state i).rid = r.rid → t.states (t.state i).rid = some i →
        ((t.takeOver ids r).state i).finished = true := by
  obtain ⟨hmem,hfind⟩ := byId_spec h hids r.rid
  unfold takeOver
  split
  · next i hi =>
    obtain ⟨hbatch,hrid⟩ := hmem i hi
    have hends := makeOutput_ends (r := t.state i) r.tokenIds r.text r.finishReason
    split
    · next hskip =>
      refine ⟨h,further_refl t,fun j hj hjr hjs => ?_⟩
      have hji : j = i := by
        have hfj := hfind j hj
        rw [hjr,hi] at hfj
        exact (Option.some.inj hfj).symm
      subst hji
      exact hskip.resolve_left (fun hno => hno hjs)
    · next hskip =>
      have hunfinished : (t.state i).finished = false := by
        simpa using fun hfin => hskip (.inr hfin)
      have hsettled := settle_further hends
      refine ⟨h.settle (hids ▸ hbatch) hends (by simp [hunfinished]),hsettled.1,?_⟩
      intro j hj hjr _
      have hji : j = i := by
        have hfj := hfind j hj
        rw [hjr,hi] at hfj
        exact (Option.some.inj hfj).symm
      rw [hji]
      exact hsettled.2
  · next hnone =>
    refine ⟨h,further_refl t,fun j hj hjr _ => ?_⟩
    have hfj := hfind j hj
    rw [hjr,hnone] at hfj
    cases hfj

theorem fail_spec (h : InBooks t) (hi : i ∈ t.batch) (error : String) :
    InBooks (t.fail error i) ∧ Further t (t.fail error i) ∧
      ((t.fail error i).state i).finished = true :=
  ⟨h.settle hi makeErrorOutput_ends fun _ => rfl,settle_further makeErrorOutput_ends⟩

/-- After the results, the batch is done with. -/
theorem results_spec (h : InBooks t) (hids : t.batch = ids) (results : List ExecutionResult) :
    InBooks (results.foldl (fun t r => t.takeOver ids r) t) ∧
      Further t (results.foldl (fun t r => t.takeOver ids r) t) ∧
      ∀ i ∈ ids, (∃ r ∈ results, r.rid = (t.state i).rid) →
        ((results.foldl (fun t r => t.takeOver ids r) t).state i).finished = true := by
  induction results generalizing t with
  | nil => exact ⟨h,further_refl t,by simp⟩
  | cons r rest ih =>
    obtain ⟨hbooks,hfurther,hfinishes⟩ := takeOver_spec h hids r
    have hids' : (t.takeOver ids r).batch = ids := by
      rw [batch,hfurther.executing]
      exact hids
    obtain ⟨hbooks',hfurther',hfinishes'⟩ := ih hbooks hids'
    refine ⟨hbooks',hfurther.trans hfurther',fun i hi hanswer => ?_⟩
    obtain ⟨a,ha,har⟩ := hanswer
    obtain rfl | ha := List.mem_cons.mp ha
    · refine hfurther'.finished i ?_
      cases h.fate i (h.made i (hids ▸ hi)) with
      | pending _ _ registered _ => exact hfinishes i hi har.symm registered
      | answered _ _ finished _ _ _ _ => exact hfurther.finished i finished
    · exact hfinishes' i hi ⟨a,ha,har.trans (hfurther.rid i).symm⟩

theorem raises_spec {rest : List Nat} (h : InBooks t) (hrest : ∀ i ∈ rest, i ∈ t.batch)
    (error : String) :
    InBooks (rest.foldl (fun t i => t.fail error i) t) ∧
      Further t (rest.foldl (fun t i => t.fail error i) t) ∧
      ∀ i ∈ rest, ((rest.foldl (fun t i => t.fail error i) t).state i).finished = true := by
  induction rest generalizing t with
  | nil => exact ⟨h,further_refl t,by simp⟩
  | cons i rest ih =>
    obtain ⟨hbooks,hfurther,hdone⟩ := fail_spec h (hrest i List.mem_cons_self) error
    have hrest' : ∀ j ∈ rest, j ∈ (t.fail error i).batch := by
      intro j hj
      rw [batch,hfurther.executing]
      exact hrest j (List.mem_cons_of_mem _ hj)
    obtain ⟨hbooks',hfurther',hdone'⟩ := ih hbooks hrest'
    refine ⟨hbooks',hfurther.trans hfurther',fun j hj => ?_⟩
    obtain rfl | hj := List.mem_cons.mp hj
    · exact hfurther'.finished _ hdone
    · exact hdone' j hj

/-- A batch whose requests have all finished can go. -/
theorem InBooks.idle (h : InBooks t) (hdone : ∀ i ∈ t.batch, (t.state i).finished = true) :
    InBooks { t with executing := none } := by
  refine ⟨h.registered,by simp [batch],by simp [batch],by simp [batch],h.queued,h.held,h.aborted,
    h.order.sublist (List.sublist_append_right _ _),by simp [batch],fun i hi => ?_⟩
  cases h.fate i hi with
  | pending unfinished silent registered somewhere =>
    refine .pending unfinished silent registered (somewhere.imp_left fun hmem => ?_)
    obtain hmem | hmem := List.mem_append.mp hmem
    · rw [hdone i hmem] at unfinished
      cases unfinished
    · exact hmem
  | answered output late finished queue own last lateErrors =>
    exact .answered output late finished queue own last lateErrors

end Settle

section NextBatch

theorem markAll_same (rids : List RequestId) (i : Nat) :
    (if i ∈ rids.filterMap t.states then (t.state i).markScheduled else t.state i) =
      { t.state i with
        scheduled := if i ∈ rids.filterMap t.states then true else (t.state i).scheduled } := by
  split <;> rfl

theorem InBooks.nextBatch (h : InBooks t) (hidle : t.executing = none) {rids : List RequestId}
    {adapter : DefaultSchedulerAdapter} (hnext : t.adapter.nextBatch = some (rids,adapter)) :
    InBooks { t with
      adapter
      state := fun i => if i ∈ rids.filterMap t.states then (t.state i).markScheduled else t.state i
      executing := some (rids.filterMap t.states) } := by
  unfold DefaultSchedulerAdapter.nextBatch at hnext
  split at hnext
  · cases hnext
  obtain ⟨rfl,rfl⟩ := Prod.mk.inj (Option.some.inj hnext)
  generalize hn : t.adapter.maxBatchSize = n
  have hmem : ∀ i ∈ (t.adapter.queue.take n).filterMap t.states,
      i < t.made ∧ t.states (t.state i).rid = some i := by
    intro i hi
    obtain ⟨rid,_,hrid⟩ := List.mem_filterMap.mp hi
    obtain ⟨hlt,hri,_⟩ := h.registered rid i hrid
    exact ⟨hlt,hri ▸ hrid⟩
  have hbatch : t.batch = [] := by rw [batch,hidle,Option.getD_none]
  have horder : (t.adapter.queue.take n).filterMap t.states ++
      (t.adapter.queue.drop n).filterMap t.states = t.inOrder := by
    rw [← List.filterMap_append,List.take_append_drop,inOrder,hbatch,List.nil_append]
  have hsorted := h.order
  rw [← horder] at hsorted
  simp only [markAll_same]
  refine ⟨h.registered,fun i hi => (hmem i hi).1,?_,fun i hi j hj => ?_,
    fun rid hrid => h.queued rid (List.mem_of_mem_drop hrid),h.held,h.aborted,?_,?_,fun i hi => ?_⟩
  · have hnodup : ((t.adapter.queue.take n).filterMap t.states).Nodup :=
      (List.pairwise_append.mp hsorted).1.imp fun hlt => Nat.ne_of_lt hlt
    refine hnodup.map_on fun i hi j hj heq => ?_
    have hi' := (hmem i hi).2
    rw [show (t.state i).rid = (t.state j).rid from heq,(hmem j hj).2] at hi'
    exact (Option.some.inj hi').symm
  · have hj' : t.states (t.state i).rid = some j := hj
    rw [(hmem i hi).2] at hj'
    exact (Option.some.inj hj').symm
  · exact hsorted
  · exact (List.length_filterMap_le _ _).trans (by rw [List.length_take]; exact Nat.min_le_left _ _)
  · cases h.fate i hi with
    | pending unfinished silent registered somewhere =>
      refine .pending unfinished silent registered (somewhere.imp_left fun hin => ?_)
      rw [← horder] at hin
      exact hin
    | answered output late finished queue own last lateErrors =>
      exact .answered output late finished queue own last lateErrors

end NextBatch

theorem InBooks.step (h : InBooks t) (hstep : t.step call = some t') (hok : t.Careful call) :
    InBooks t' ∧ t'.adapter.maxBatchSize = t.adapter.maxBatchSize ∧
      ∀ i < t.made, (t.state i).queue <+: (t'.state i).queue := by
  cases call with
  | submit r =>
    cases hstep
    refine ⟨h.generateRequest hok,?_,fun i hi => ⟨[],?_⟩⟩
    · simp only [FifoLoop.generateRequest,DefaultSchedulerAdapter.submit,List.foldl]
      split <;> rfl
    · have hne : i ≠ t.made := Nat.ne_of_lt hi
      simp [FifoLoop.generateRequest,hne]
  | abort rid =>
    cases hstep
    exact ⟨h.abort rid,rfl,fun _ _ => List.prefix_refl _⟩
  | cleanup rid reason =>
    simp only [FifoLoop.step] at hstep
    split at hstep
    · next hrid =>
      cases hstep
      have hfurther := cleanup_further { t with aborting := t.aborting.erase rid } rid reason
      exact ⟨h.cleanup hrid reason,hfurther.limit,fun i _ => hfurther.queue i⟩
    · cases hstep
  | nextBatch =>
    simp only [FifoLoop.step] at hstep
    split at hstep
    · next rids adapter hidle hnext =>
      have hbatch := h.nextBatch hidle hnext
      have hlimit : adapter.maxBatchSize = t.adapter.maxBatchSize := by
        unfold DefaultSchedulerAdapter.nextBatch at hnext
        split at hnext
        · cases hnext
        · cases hnext
          rfl
      split at hstep
      · next hempty =>
        cases hstep
        have hidled := hbatch.idle (by simp [batch,hempty])
        exact ⟨by simpa [hempty,hidle] using hidled,hlimit,fun _ _ => List.prefix_refl _⟩
      · cases hstep
        refine ⟨hbatch,hlimit,fun i _ => ⟨[],?_⟩⟩
        dsimp only
        rw [markAll_same,List.append_nil]
    · cases hstep
  | results results =>
    simp only [FifoLoop.step,Option.map_eq_some_iff] at hstep
    obtain ⟨ids,hids,rfl⟩ := hstep
    have hbatch : t.batch = ids := by rw [batch,hids,Option.getD_some]
    obtain ⟨hbooks,hfurther,hdone⟩ := results_spec h hbatch results
    refine ⟨hbooks.idle fun i hi => ?_,hfurther.limit,fun i _ => hfurther.queue i⟩
    rw [batch,hfurther.executing,← batch,hbatch] at hi
    exact hdone i hi (hok i (hbatch ▸ hi))
  | raises error =>
    simp only [FifoLoop.step,Option.map_eq_some_iff] at hstep
    obtain ⟨ids,hids,rfl⟩ := hstep
    have hbatch : t.batch = ids := by rw [batch,hids,Option.getD_some]
    obtain ⟨hbooks,hfurther,hdone⟩ := raises_spec h (fun i hi => hbatch ▸ hi) error
    refine ⟨hbooks.idle fun i hi => ?_,hfurther.limit,fun i _ => hfurther.queue i⟩
    rw [batch,hfurther.executing,← batch,hbatch] at hi
    exact hdone i hi

theorem inBooks_of_run (run : FifoRuns Careful maxBatchSize t) :
    InBooks t ∧ t.adapter.maxBatchSize = maxBatchSize := by
  induction run with
  | start => exact ⟨inBooks_start,rfl⟩
  | step run step meets ih =>
    obtain ⟨hbooks,hlimit,_⟩ := ih.1.step step meets
    exact ⟨hbooks,hlimit.trans ih.2⟩

/-- In every run in which no id is used again while it is in use and the executor answers every
request it is given, every request waits for its answer, in the batch, in the queue or for its
abort to be carried out, or has it, as the first output of its queue, with at most errors behind it.
An answer stays. The batch and behind it the queue hold the requests in the order in which they
came, each once; when both are empty and no abort is left, every request has its answer. -/
theorem fifo_accounts (run : FifoRuns Careful maxBatchSize t) :
    (∀ i < t.made, t.Fate i) ∧ t.inOrder.Pairwise (· < ·) ∧ t.batch.length ≤ maxBatchSize ∧
    (∀ call t', t.step call = some t' → t.Careful call →
      ∀ i < t.made, (t.state i).queue <+: (t'.state i).queue) ∧
    (t.batch = [] → t.adapter.queue = [] → t.aborting = [] →
      ∀ i < t.made, (t.state i).finished = true) := by
  obtain ⟨h,hlimit⟩ := inBooks_of_run run
  refine ⟨h.fate,h.order,hlimit ▸ h.limit,fun call t' hstep hok => (h.step hstep hok).2.2,
    fun hbatch hqueue haborting i hi => ?_⟩
  cases h.fate i hi with
  | pending _ _ _ somewhere =>
    obtain hmem | hmem := somewhere
    · rw [inOrder,hbatch,hqueue] at hmem
      cases hmem
    · rw [haborting] at hmem
      cases hmem
  | answered _ _ finished _ _ _ _ => exact finished

/-- A loop with one request in its queue. -/
def oneQueued : FifoLoop :=
  ({ adapter := { maxBatchSize := 8 } } : FifoLoop).generateRequest
    { rid := [1], inputIds := [5], maxNewTokens := 4 }

theorem oneQueued_step : ({ adapter := { maxBatchSize := 8 } } : FifoLoop).step
    (.submit { rid := [1], inputIds := [5], maxNewTokens := 4 }) = some oneQueued := rfl

theorem fifo_accounts_oneQueued :
    (∀ i < oneQueued.made, oneQueued.Fate i) ∧ oneQueued.inOrder.Pairwise (· < ·) := by
  have hrun : FifoRuns Careful 8 oneQueued :=
    .step .start oneQueued_step ⟨rfl,rfl,rfl,by simp,by simp [batch]⟩
  exact ⟨(fifo_accounts hrun).1,(fifo_accounts hrun).2.1⟩

-- an id that is used again while it executes: neither request gets an answer, nor is one queued
example : (do
    let t ← oneQueued.step .nextBatch
    let t ← t.step (.submit { rid := [1], inputIds := [6], maxNewTokens := 4 })
    let t ← t.step (.results [⟨[1],[7],"",""⟩])
    return ((t.state 0).finished,(t.state 1).finished,t.inOrder,t.adapter.active)) =
      some (false,false,[],[[1]]) := by decide

end FifoLoop

end FluxServe.Engine
