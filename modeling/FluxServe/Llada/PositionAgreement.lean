import FluxServe.Engine.DecodeReady
import FluxServe.Llada.BlockResults
import FluxServe.Scheduler.Extensions

namespace FluxServe.Engine

variable {a a' : Adapter} {rid : RequestId} {events : List Event}

theorem Adapter.Aborts.extends {reply : Reply} (h : a.Aborts rid reply a') (hs : Sound a.scheduler)
    (hc : Copying a.scheduler) : Sound a'.scheduler ∧ Copying a'.scheduler ∧
      Extends a.scheduler a'.scheduler fun _ => [] := by
  cases h with
  | inactive => exact ⟨hs,hc,extends_refl _⟩
  | returns _ calls | raises _ calls =>
    obtain ⟨hs',hc',_⟩ := calls.keeps hs hc
    exact ⟨hs',hc',calls.abort_extends hs⟩

theorem Adapter.AbortsAll.extends {rids : List RequestId} (h : a.AbortsAll rids a')
    (hs : Sound a.scheduler) (hc : Copying a.scheduler) : Sound a'.scheduler ∧
      Copying a'.scheduler ∧ Extends a.scheduler a'.scheduler fun _ => [] := by
  induction h with
  | nil => exact ⟨hs,hc,extends_refl _⟩
  | cons abort _ ih =>
    obtain ⟨hs₁,hc₁,hone⟩ := abort.extends hs hc
    obtain ⟨hs',hc',hrest⟩ := ih hs₁ hc₁
    exact ⟨hs',hc',hone.trans hrest⟩

theorem Adapter.Advances.extends {finished : List RequestId}
    (h : a.Advances events finished .done a') (hs : Sound a.scheduler) (hc : Copying a.scheduler) :
    Sound a'.scheduler ∧ Copying a'.scheduler ∧
      Extends a.scheduler a'.scheduler fun id => extensionOf id events := by
  cases h with
  | nothing none =>
    subst none
    exact ⟨hs,hc,extends_refl _⟩
  | call _ calls =>
    obtain ⟨hs',hc',_⟩ := calls.keeps hs hc
    exact ⟨hs',hc',calls.extended hs⟩

end FluxServe.Engine

namespace FluxServe.Llada

open Engine

variable {Logits Kv S : Type} {R : PagedLladaRunner Logits Kv S} {c : AdapterConfig}
  {args : ServerArgs} {encode : String → List Token} {t t' : LladaService} {w w' : States}
  {rid : RequestId} {state state' : Engine.RequestState} {r : Engine.StepResult}
  {results : List Engine.StepResult} {a a' : Adapter} {x y : Request}

section Placed

/-- The tokens of a request that the engine holds. -/
def tokenCount (state : Engine.RequestState) : Nat :=
  state.inputIds.length+state.outputIds.length

/-- After its first block the tokens of a request end where its next block starts. -/
def Placed (R : PagedLladaRunner Logits Kv S) (state : Engine.RequestState) : Prop :=
  (state.currentDecodeBlock = 0 ∧ state.outputIds = []) ∨
    (1 ≤ state.currentDecodeBlock ∧ tokenCount state = R.blockStart state)

theorem blockStart_done (h : 0 ≤ state.currentDecodeBlock) :
    R.blockStart state.markDecodeBlockDone = R.blockStart state + R.blockLength := by
  have hk : (state.currentDecodeBlock+1).toNat = state.currentDecodeBlock.toNat+1 := by omega
  unfold PagedLladaRunner.blockStart
  change state.alignedPrefillLength R.blockLength + (state.currentDecodeBlock+1).toNat*_ = _
  rw [hk]
  ring

theorem Placed.nonneg (h : Placed R state) : 0 ≤ state.currentDecodeBlock := by
  obtain ⟨hzero,_⟩ | ⟨hone,_⟩ := h <;> omega

/-- A block that is decoded to its end takes a request to its next one. -/
theorem Placed.filled (h : Placed R state) {generated : Nat}
    (hlen : generated =
      R.blockStart state + R.blockLength-max (R.blockStart state) state.inputIds.length) :
    tokenCount state + generated = R.blockStart state.markDecodeBlockDone ∧
      R.blockStart state.markDecodeBlockDone =
        (tokenCount state/R.blockLength+1)*R.blockLength := by
  have hpos := R.blockLength_pos
  rw [blockStart_done h.nonneg]
  obtain ⟨hzero,hout⟩ | ⟨_,hcount⟩ := h
  · have hstart : R.blockStart state = state.inputIds.length/R.blockLength*R.blockLength := by
      rw [PagedLladaRunner.blockStart,hzero]
      simp [Engine.RequestState.alignedPrefillLength]
    have hle := Nat.div_mul_le_self state.inputIds.length R.blockLength
    have hlt := Nat.lt_div_mul_add (a := state.inputIds.length) hpos
    rw [hstart] at hlen ⊢
    unfold tokenCount
    rw [hout,List.length_nil,Nat.add_zero]
    refine ⟨by omega,by ring⟩
  · have hin : state.inputIds.length ≤ R.blockStart state := by
      rw [← hcount]
      exact Nat.le_add_right _ _
    have hdvd : R.blockStart state/R.blockLength*R.blockLength = R.blockStart state := by
      apply Nat.div_mul_cancel
      exact (Dvd.intro_left _ rfl).add (Dvd.intro_left _ rfl)
    rw [hcount]
    refine ⟨by omega,?_⟩
    rw [Nat.add_mul,hdvd,Nat.one_mul]

/-- The token row of a placed request: its tokens in their places, and masks from its next block
on. -/
theorem Placed.tokenRow (h : Placed R state) (hdone : 1 ≤ state.currentDecodeBlock) :
    (∀ p < R.blockStart state,
      (state.inputIds ++ state.outputIds)[p]? = some (R.tokenRow state p)) ∧
    ∀ p, R.blockStart state ≤ p → R.tokenRow state p = R.maskId := by
  obtain ⟨hzero,_⟩ | ⟨_,hcount⟩ := h
  · omega
  have hlen : (state.inputIds ++ state.outputIds).length = R.blockStart state := by
    rw [List.length_append]
    exact hcount
  constructor
  · intro p hp
    rw [← hlen] at hp
    rw [PagedLladaRunner.tokenRow,List.getElem?_eq_getElem hp]
    rfl
  · intro p hp
    rw [← hlen] at hp
    rw [PagedLladaRunner.tokenRow,List.getElem?_eq_none hp]
    rfl

end Placed

section Agrees

/-- What an unfinished result brings fits the state that it finds, and the scheduler's request. -/
structure Due (R : PagedLladaRunner Logits Kv S) (t : LladaService) (r : Engine.StepResult) :
    Prop where
  prefill : r.decodeBlockCompleted = false → r.tokenIds = []
  state : r.decodeBlockCompleted = true → ∀ state, t.states r.rid = some state →
    tokenCount state + r.tokenIds.length = R.blockStart state.markDecodeBlockDone
  native : r.decodeBlockCompleted = true → ∀ x ∈ t.adapter.scheduler.requests,
    x.state.inService = true → x.id = r.rid →
      x.tokens.length+r.tokenIds.length = (x.tokens.length/R.blockLength+1)*R.blockLength

/-- The engine, the scheduler and the block counter agree on the tokens of every request. -/
structure Agrees (R : PagedLladaRunner Logits Kv S) (t : LladaService) : Prop where
  sound : Sound t.adapter.scheduler
  copying : Copying t.adapter.scheduler
  running : ∀ rid state, t.states rid = some state → state.finished = false
  placed : ∀ rid state, t.states rid = some state → Placed R state
  counts : ∀ x ∈ t.adapter.scheduler.requests, x.state.inService = true →
    ∀ state, t.states x.id = some state → x.tokens.length = tokenCount state
  distinct : ∀ f results, t.inflight = some f → f.results = some results →
    (results.map Engine.StepResult.rid).Nodup
  due : ∀ f results, t.inflight = some f → f.results = some results →
    ∀ r ∈ results, r.finished = false → Due R t r

/-- A submission that agrees with what is still in service under its id: the scheduler's request
has as many tokens, and there is one if a decoded block is still to be delivered. -/
def Suits (t : LladaService) (state : Engine.RequestState) : Prop :=
  (∀ x ∈ t.adapter.scheduler.requests, x.id = state.rid → x.state.inService = true →
    x.tokens.length = state.inputIds.length) ∧
  ∀ f results, t.inflight = some f → f.results = some results → ∀ r ∈ results,
    r.rid = state.rid → r.finished = false → r.decodeBlockCompleted = true →
      ∃ x ∈ t.adapter.scheduler.requests, x.id = state.rid ∧ x.state.inService = true

theorem agrees_start (R : PagedLladaRunner Logits Kv S) (c : AdapterConfig)
    (clock : Nat → Timestamp) : Agrees R { adapter := Adapter.new c clock } where
  sound := sound_new c.scheduler clock
  copying := copying_new c.scheduler clock
  running _ _ hstate := by cases hstate
  placed _ _ hstate := by cases hstate
  counts _ hx := by cases hx
  distinct _ _ hf := by cases hf
  due _ _ hf := by cases hf

/-- Nothing is added to a request, and no state is new. -/
theorem Agrees.frame (h : Agrees R t) (hsound : Sound a'.scheduler)
    (hcopying : Copying a'.scheduler)
    (hextends : Extends t.adapter.scheduler a'.scheduler fun _ => [])
    (hstates : ∀ rid state, w' rid = some state → t.states rid = some state)
    {inflight : Option Inflight} (hinflight : ∀ f results, inflight = some f →
      f.results = some results → t.inflight = some f) (aborting : List RequestId) :
    Agrees R { adapter := a', states := w', inflight, aborting } := by
  have hkept : ∀ x ∈ a'.scheduler.requests, x.state.inService = true →
      ∃ y ∈ t.adapter.scheduler.requests, y.state.inService = true ∧ y.id = x.id ∧
        x.tokens = y.tokens := by
    intro x hx hin
    obtain ⟨y,hy,hyx⟩ := hextends x hx hin
    exact ⟨y,hy,hyx.inService,hyx.id,by rw [hyx.tokens,List.append_nil]⟩
  refine ⟨hsound,hcopying,?_,?_,?_,?_,?_⟩
  · exact fun rid state hstate => h.running rid state (hstates rid state hstate)
  · exact fun rid state hstate => h.placed rid state (hstates rid state hstate)
  · intro x hx hin state hstate
    obtain ⟨y,hy,hy_in,hid,htokens⟩ := hkept x hx hin
    rw [htokens]
    apply h.counts y hy hy_in
    rw [hid]
    exact hstates x.id state hstate
  · intro f results hf hresults
    exact h.distinct f results (hinflight f results hf hresults) hresults
  · intro f results hf hresults r hr hgoes
    have hdue := h.due f results (hinflight f results hf hresults) hresults r hr hgoes
    refine ⟨hdue.prefill,fun hblock state hstate => ?_,fun hblock x hx hin hid => ?_⟩
    · exact hdue.state hblock state (hstates _ state hstate)
    · obtain ⟨y,hy,hy_in,hy_id,htokens⟩ := hkept x hx hin
      rw [htokens]
      exact hdue.native hblock y hy hy_in (hy_id.trans hid)

end Agrees

section Steps

theorem drop_some {rids : List RequestId} (h : w.drop rids rid = some state) :
    w rid = some state := by
  unfold States.drop at h
  split at h
  · cases h
  · exact h

theorem Agrees.submit (h : Agrees R t) (hrunning : state.finished = false)
    (hfresh : state.currentDecodeBlock = 0 ∧ state.outputIds = []) (hok : Suits t state)
    (takes : t.adapter.Submits c [state] a') :
    Agrees R { t with adapter := a', states := patch t.states [(state.rid,some state)] } := by
  obtain ⟨hsound,hcopying,_⟩ := takes.keeps h.sound h.copying
  have hslot {rid : RequestId} {state' : Engine.RequestState}
      (hstate : patch t.states [(state.rid,some state)] rid = some state') :
      rid = state.rid ∧ state' = state ∨ rid ≠ state.rid ∧ t.states rid = some state' := by
    rw [patch_single] at hstate
    split at hstate
    · next hid =>
      injection hstate with hstate
      exact .inl ⟨hid,hstate.symm⟩
    · next hid => exact .inr ⟨hid,hstate⟩
  have hcount : tokenCount state = state.inputIds.length := by
    rw [tokenCount,hfresh.2]
    rfl
  have hmem : ∀ x ∈ a'.scheduler.requests, x ∈ t.adapter.scheduler.requests ∨
      x = (c.specOf state).request ∧ ∀ y ∈ t.adapter.scheduler.requests, y.id ≠ state.rid := by
    intro x hx
    obtain ⟨_,rfl⟩ | ⟨_,_,htakes⟩ := submits_single takes
    · exact .inl hx
    · obtain heq | ⟨hnone,heq⟩ := htakes
      · exact .inl (heq ▸ hx)
      · rw [heq] at hx
        obtain hx | hx := List.mem_append.mp hx
        · exact .inl hx
        · exact .inr ⟨List.mem_singleton.mp hx,hnone⟩
  refine ⟨hsound,hcopying,?_,?_,?_,h.distinct,?_⟩
  · intro rid state' hstate
    obtain ⟨_,rfl⟩ | ⟨_,hold⟩ := hslot hstate
    · exact hrunning
    · exact h.running rid state' hold
  · intro rid state' hstate
    obtain ⟨_,rfl⟩ | ⟨_,hold⟩ := hslot hstate
    · exact .inl hfresh
    · exact h.placed rid state' hold
  · intro x hx hin state' hstate
    obtain hold | ⟨rfl,_⟩ := hmem x hx
    · obtain ⟨hid,rfl⟩ | ⟨_,hstate⟩ := hslot hstate
      · rw [hcount]
        exact hok.1 x hold hid hin
      · exact h.counts x hold hin state' hstate
    · obtain ⟨_,rfl⟩ | ⟨hne,_⟩ := hslot hstate
      · exact hcount.symm
      · exact absurd rfl hne
  · intro f results hf hresults r hr hgoes
    have hdue := h.due f results hf hresults r hr hgoes
    refine ⟨hdue.prefill,fun hblock state' hstate => ?_,fun hblock x hx hin hid => ?_⟩
    · obtain ⟨hown,rfl⟩ | ⟨_,hstate⟩ := hslot hstate
      · obtain ⟨x,hx,hid,hin⟩ := hok.2 f results hf hresults r hr hown hgoes hblock
        have hnative := hdue.native hblock x hx hin (hid.trans hown.symm)
        rw [hok.1 x hx hid hin] at hnative
        rw [hcount,hnative,blockStart_done hfresh.1.ge,PagedLladaRunner.blockStart,hfresh.1]
        simp only [Engine.RequestState.alignedPrefillLength,Int.toNat_zero,Nat.zero_mul]
        ring
      · exact hdue.state hblock state' hstate
    · obtain hold | ⟨rfl,hnone⟩ := hmem x hx
      · exact hdue.native hblock x hold hin hid
      · have hown : r.rid = state.rid := hid.symm
        obtain ⟨y,hy,hy_id,_⟩ := hok.2 f results hf hresults r hr hown hgoes hblock
        exact absurd hy_id (hnone y hy)

end Steps

section Executes

variable {op : PlanOp} {rows : List (RequestId × PlanRow)} {kv : Nat → Nat → Option Kv}

/-- The results of a plan that was executed: none for the rows that are prefilled, a block for those
that are decoded. -/
def planResults (w : States) (op : PlanOp) (results : List Engine.StepResult) :
    List Engine.StepResult :=
  ((op.prefills.map PrefillRow.rid).filter fun rid => (w rid).isSome).map
    (fun rid => ({ rid } : Engine.StepResult)) ++ results

theorem planResults_nodup (read : PlanRows w op rows)
    (run : R.executePagedDecode rows kv = .ok results) :
    ((planResults w op results).map Engine.StepResult.rid).Nodup := by
  have hprefills : (((op.prefills.map PrefillRow.rid).filter fun rid => (w rid).isSome).map
      (fun rid => ({ rid } : Engine.StepResult))).map Engine.StepResult.rid =
        (op.prefills.map PrefillRow.rid).filter fun rid => (w rid).isSome := by
    rw [List.map_map]
    exact List.map_id _
  rw [planResults,List.map_append,hprefills,
    (PagedLladaRunner.executePagedDecode_results run read.slots).1]
  exact op.distinct.sublist (List.filter_sublist.append read.sub)

theorem Agrees.executes (h : Agrees R t) {order : List RequestId} {p : ExecutionPlan}
    {s' : Scheduler} {known : List RequestId}
    (plan : Calls t.adapter.scheduler (.plan order) (.plan p) s') (read : PlanRows t.states op rows)
    (run : R.executePagedDecode rows kv = .ok results) :
    Agrees R { t with
      adapter := { t.adapter with scheduler := s' }
      inflight := some { known, results := some (planResults t.states op results) } } := by
  obtain ⟨hsound,hcopying,_⟩ := plan.keeps h.sound h.copying
  have hextends := plan.plan_extends h.sound h.copying
  have hframe : Agrees R
      { t with adapter := { t.adapter with scheduler := s' }, inflight := none } :=
    h.frame hsound hcopying hextends (fun _ _ hstate => hstate) (fun _ _ hf => by cases hf)
      t.aborting
  refine ⟨hsound,hcopying,h.running,h.placed,hframe.counts,?_,?_⟩
  · rintro _ _ ⟨⟩ ⟨⟩
    exact planResults_nodup read run
  · rintro _ _ ⟨⟩ ⟨⟩ r hr hgoes
    obtain hr | hr := List.mem_append.mp hr
    · obtain ⟨rid,_,rfl⟩ := List.mem_map.mp hr
      exact ⟨fun _ => rfl,fun hblock => (by cases hblock),fun hblock => (by cases hblock)⟩
    · obtain ⟨x,hx,row,rfl,hunmasked⟩ :=
        (PagedLladaRunner.executePagedDecode_results run read.slots).2 r hr
      have hheld := read.held x hx
      obtain ⟨hcount,hnext⟩ := (h.placed x.1 _ hheld).filled
        (PagedLladaRunner.decodeResult_length hunmasked hgoes)
      refine ⟨fun hblock => (by cases hblock),fun _ state hstate => ?_,fun _ y hy hin hid => ?_⟩
      · change t.states x.1 = some state at hstate
        rw [hheld] at hstate
        cases hstate
        exact hcount
      · have hy_count := hframe.counts y hy hin x.2.state (by rw [hid]; exact hheld)
        rw [hy_count]
        exact hcount.trans hnext

end Executes

section Settles

theorem deliver_some (h : States.deliver r state = some state') :
    r.finished = false ∧ state'.finished = state.finished ∧ state'.inputIds = state.inputIds ∧
      state'.outputIds = state.outputIds ++ r.tokenIds ∧
      state'.currentDecodeBlock = if r.decodeBlockCompleted then state.currentDecodeBlock+1
        else state.currentDecodeBlock := by
  unfold States.deliver at h
  split at h
  · cases h
  · next hgoes =>
    injection h with h
    rw [← h]
    refine ⟨by simpa using hgoes,?_⟩
    split <;> exact ⟨rfl,rfl,rfl,rfl⟩

theorem mem_liveResults : r ∈ w.liveResults results ↔ r ∈ results ∧ w.live r.rid = true :=
  List.mem_filter

theorem settle_of_live (hnd : (results.map Engine.StepResult.rid).Nodup)
    (hr : r ∈ w.liveResults results) :
    w.settle results r.rid = (w r.rid).bind (States.deliver r) := by
  apply patch_of_mem
  · rw [List.map_map]
    exact hnd.sublist (List.filter_sublist.map _)
  · exact List.mem_map.mpr ⟨r,hr,rfl⟩

theorem settle_of_notMem (h : rid ∉ (w.liveResults results).map Engine.StepResult.rid) :
    w.settle results rid = w rid := by
  apply patch_of_notMem
  rw [List.map_map]
  exact h

/-- The tokens among some results that are for a request. -/
def tokensFor (rid : RequestId) (results : List Engine.StepResult) : List Token :=
  results.flatMap fun r => if r.rid = rid then r.tokenIds else []

theorem tokensFor_of_notMem (h : rid ∉ results.map Engine.StepResult.rid) :
    tokensFor rid results = [] := by
  rw [tokensFor,List.flatMap_eq_nil_iff]
  intro r hr
  apply if_neg
  rintro rfl
  exact h (List.mem_map_of_mem hr)

theorem tokensFor_of_mem (hnd : (results.map Engine.StepResult.rid).Nodup) (hr : r ∈ results) :
    tokensFor r.rid results = r.tokenIds := by
  induction results with
  | nil => cases hr
  | cons head results ih =>
    rw [List.map_cons,List.nodup_cons] at hnd
    change (if head.rid = r.rid then head.tokenIds else []) ++ tokensFor r.rid results = _
    obtain rfl | hr := List.mem_cons.mp hr
    · rw [if_pos rfl,tokensFor_of_notMem hnd.1,List.append_nil]
    · have hne : head.rid ≠ r.rid := fun heq => hnd.1 (heq ▸ List.mem_map_of_mem hr)
      rw [if_neg hne,List.nil_append]
      exact ih hnd.2 hr

/-- The events extend a request by the tokens of its result. -/
theorem extensionOf_eventsOf (rid : RequestId) :
    extensionOf rid (w.eventsOf results) = tokensFor rid (w.liveResults results) := by
  have hnone : ∀ (l : List Engine.StepResult) (ev : Engine.StepResult → Event),
      (∀ r, (ev r).extension rid = []) → extensionOf rid (l.map ev) = [] := by
    intro l ev hev
    rw [extensionOf,List.flatMap_map,List.flatMap_eq_nil_iff]
    exact fun r _ => hev r
  have hresults : ∀ l : List Engine.StepResult,
      extensionOf rid ((l.filter fun r => !r.tokenIds.isEmpty).map fun r =>
        .extendResult r.rid r.tokenIds) = tokensFor rid l := by
    intro l
    induction l with
    | nil => rfl
    | cons r l ih =>
      change _ = (if r.rid = rid then r.tokenIds else []) ++ tokensFor rid l
      rw [← ih,List.filter_cons]
      cases htokens : r.tokenIds with
      | nil => simp
      | cons token tokens => simp [extensionOf,Event.extension,htokens]
  unfold States.eventsOf
  rw [extensionOf_append,extensionOf_append,hresults,hnone _ _ fun _ => rfl,hnone _ _ fun _ => rfl,
    List.append_nil,List.append_nil]

/-- Results that are taken over leave every request where its tokens end. -/
theorem Agrees.settles (h : Agrees R t) {known : List RequestId}
    (hinflight : t.inflight = some ⟨known,some results⟩)
    (advances : t.adapter.Advances (t.states.eventsOf results) (t.states.finishedIds results)
      .done a') :
    Agrees R { t with adapter := a', states := t.states.settle results, inflight := none } := by
  obtain ⟨hsound,hcopying,hextends⟩ := advances.extends h.sound h.copying
  have hnd := h.distinct _ _ hinflight rfl
  have hlive_nd : ((t.states.liveResults results).map Engine.StepResult.rid).Nodup :=
    hnd.sublist (List.filter_sublist.map _)
  -- a state after the results is one that no result was for, or comes from the one that was
  have hcases : ∀ rid state', t.states.settle results rid = some state' →
      (rid ∉ (t.states.liveResults results).map Engine.StepResult.rid ∧
        t.states rid = some state') ∨
      ∃ r ∈ t.states.liveResults results, r.rid = rid ∧ Due R t r ∧
        ∃ state, t.states rid = some state ∧ States.deliver r state = some state' := by
    intro rid state' hstate
    by_cases hmem : rid ∈ (t.states.liveResults results).map Engine.StepResult.rid
    · right
      obtain ⟨r,hr,rfl⟩ := List.mem_map.mp hmem
      rw [settle_of_live hnd hr] at hstate
      obtain ⟨state,hheld,hdeliver⟩ := Option.bind_eq_some_iff.mp hstate
      have hdue := h.due _ _ hinflight rfl r (mem_liveResults.mp hr).1 (deliver_some hdeliver).1
      exact ⟨r,hr,rfl,hdue,state,hheld,hdeliver⟩
    · rw [settle_of_notMem hmem] at hstate
      exact .inl ⟨hmem,hstate⟩
  refine ⟨hsound,hcopying,?_,?_,?_,fun _ _ hf => (by cases hf),fun _ _ hf => (by cases hf)⟩
  · intro rid state' hstate
    obtain ⟨_,hold⟩ | ⟨r,_,_,_,state,hheld,hdeliver⟩ := hcases rid state' hstate
    · exact h.running rid state' hold
    · rw [(deliver_some hdeliver).2.1]
      exact h.running rid state hheld
  · intro rid state' hstate
    obtain ⟨_,hold⟩ | ⟨r,_,rfl,hdue,state,hheld,hdeliver⟩ := hcases rid state' hstate
    · exact h.placed rid state' hold
    · obtain ⟨_,_,hin,hout,hblock⟩ := deliver_some hdeliver
      have hplaced := h.placed r.rid state hheld
      cases hcompleted : r.decodeBlockCompleted with
      | true =>
        right
        rw [hcompleted,if_pos rfl] at hblock
        have hnonneg := hplaced.nonneg
        refine ⟨by omega,?_⟩
        have hcount := hdue.state hcompleted state hheld
        have hstart : R.blockStart state' = R.blockStart state.markDecodeBlockDone := by
          unfold PagedLladaRunner.blockStart Engine.RequestState.alignedPrefillLength
          rw [hin,hblock]
          rfl
        rw [hstart,← hcount,tokenCount,tokenCount,hin,hout,List.length_append,Nat.add_assoc]
      | false =>
        rw [hcompleted,if_neg Bool.false_ne_true] at hblock
        rw [hdue.prefill hcompleted,List.append_nil] at hout
        unfold Placed tokenCount PagedLladaRunner.blockStart
          Engine.RequestState.alignedPrefillLength
        rw [hin,hout,hblock]
        exact hplaced
  · intro x hx hin state' hstate
    obtain ⟨y,hy,hyx⟩ := hextends x hx hin
    dsimp only at hyx
    rw [hyx.tokens,List.length_append,extensionOf_eventsOf]
    obtain ⟨hnot,hold⟩ | ⟨r,hr,hrid,_,state,hheld,hdeliver⟩ := hcases x.id state' hstate
    · rw [tokensFor_of_notMem hnot,List.length_nil,Nat.add_zero]
      apply h.counts y hy hyx.inService
      rw [hyx.id]
      exact hold
    · obtain ⟨_,_,hinput,hout,_⟩ := deliver_some hdeliver
      have hcount := h.counts y hy hyx.inService state (by rw [hyx.id]; exact hheld)
      rw [← hrid,tokensFor_of_mem hlive_nd hr,hcount,tokenCount,tokenCount,hinput,hout,
        List.length_append,Nat.add_assoc]

end Settles

section Run

variable {clock : Nat → Timestamp} {submitted : Option Engine.RequestState}

/-- One step of the service. -/
theorem Agrees.step (h : Agrees R t) (hstep : ServiceStep c args encode R t submitted t')
    (hok : ∀ state, submitted = some state → Suits t state) : Agrees R t' := by
  cases hstep with
  | submit accepted takes =>
    obtain ⟨hrunning,hfresh⟩ := makeState_fresh accepted
    exact h.submit hrunning hfresh (hok _ rfl) takes
  | aborts abort | abortRaises abort =>
    obtain ⟨hsound,hcopying,hextends⟩ := abort.extends h.sound h.copying
    exact h.frame hsound hcopying hextends (fun _ _ hstate => hstate) (fun _ _ hf _ => hf) _
  | drops =>
    exact h.frame h.sound h.copying (extends_refl _) (fun _ _ => drop_some) (fun _ _ hf _ => hf) _
  | rests _ _ plan =>
    obtain ⟨hsound,hcopying,_⟩ := plan.keeps h.sound h.copying
    exact h.frame hsound hcopying (plan.plan_extends h.sound h.copying) (fun _ _ hstate => hstate)
      (fun _ _ hf _ => hf) _
  | failAll _ _ plan _ _ aborts =>
    obtain ⟨hsound,hcopying,_⟩ := plan.keeps h.sound h.copying
    obtain ⟨hsound',hcopying',hextends⟩ := aborts.extends hsound hcopying
    exact h.frame hsound' hcopying' ((plan.plan_extends h.sound h.copying).trans hextends)
      (fun _ _ => drop_some) (fun _ _ hf _ => hf) _
  | executes _ _ plan _ _ _ read run => exact h.executes plan read run
  | raises _ _ plan =>
    obtain ⟨hsound,hcopying,_⟩ := plan.keeps h.sound h.copying
    refine h.frame hsound hcopying (plan.plan_extends h.sound h.copying) (fun _ _ hstate => hstate)
      (fun _ _ hf hresults => ?_) _
    cases hf
    cases hresults
  | settles inflight advances => exact h.settles inflight advances
  | fails _ _ aborts =>
    obtain ⟨hsound,hcopying,hextends⟩ := aborts.extends h.sound h.copying
    exact h.frame hsound hcopying hextends (fun _ _ => drop_some) (fun _ _ hf => by cases hf) _

theorem ServiceRuns.agrees (h : ServiceRuns c args encode R Suits clock t) : Agrees R t := by
  induction h with
  | start => exact agrees_start R c clock
  | step _ step meets ih => exact ih.step step meets

/-- In runs whose submissions agree with what is in service under their ids, a request that goes on
after some blocks has its tokens end where its next block starts, and the scheduler's request has as
many. Its token row holds every token in its place, and masks in the whole next block. -/
theorem positions_agree (h : ServiceRuns c args encode R Suits clock t)
    (hheld : t.states rid = some state) (hdone : 1 ≤ state.currentDecodeBlock) :
    ((state.inputIds.length+state.outputIds.length : Nat) : Int) =
        state.alignedPrefillLength R.blockLength + state.currentDecodeBlock*R.blockLength ∧
    R.blockStart state = state.inputIds.length+state.outputIds.length ∧
    (∀ x ∈ t.adapter.scheduler.requests, x.id = rid → x.state.inService = true →
      x.tokens.length = state.inputIds.length+state.outputIds.length) ∧
    (∀ p < R.blockStart state,
      (state.inputIds ++ state.outputIds)[p]? = some (R.tokenRow state p)) ∧
    ∀ p, R.blockStart state ≤ p → R.tokenRow state p = R.maskId := by
  have hagrees := h.agrees
  have hplaced := hagrees.placed rid state hheld
  have hcount : state.inputIds.length+state.outputIds.length = R.blockStart state := by
    obtain ⟨hzero,_⟩ | ⟨_,hcount⟩ := hplaced
    · omega
    · exact hcount
  refine ⟨?_,hcount.symm,?_,hplaced.tokenRow hdone⟩
  · have hk : (state.currentDecodeBlock.toNat : Int) = state.currentDecodeBlock := by omega
    rw [hcount,PagedLladaRunner.blockStart]
    push_cast
    rw [hk]
  · rintro x hx rfl hin
    exact hagrees.counts x hx hin state hheld

/-- Pages and blocks of two. -/
def blockAdapter : AdapterConfig where
  maxBatchSize := 8
  maxScheduledTokens := 8
  pageSize := 2
  pageSize_pos := Nat.two_pos
  numDevicePages := 9
  maxModelLen := 64

def smallPaged : PagedLladaRunner (Fin 2 → Fin 4 → Nat) Token (Nat → Unit) :=
  { LladaRunner.smallRunner .flashinferDefault false 2 with
    maxNumSeqs := 1
    makeRowState := fun _ => () }

/-- The plan of a request with a prompt of one token, which it decodes from. -/
def blockPlan : ExecutionPlan where
  forward := [.decode
    { requestId := [5], requestPoolIndex := 1, inputLength := 2, occupiedPages := [8,7], start := 1,
      size := 1, prefillLength := 0 } (-1) (-1)]

theorem blockOp_distinct : (([] : List PrefillRow).map PrefillRow.rid ++ [[5]]).Nodup := by decide

def blockOp : PlanOp where
  decodes := [[5]]
  distinct := blockOp_distinct

/-- A block that begins with one token of a prompt. -/
def smallResult : Engine.StepResult where
  rid := [5]
  tokenIds := [2]
  reserveTokens := 2
  decodeBlockCompleted := true

/-- The result, as the scheduler gets it. -/
def smallEvents : List Event := [.extendResult [5] [2],.updateReserveNumTokens [5] 2]

theorem smallPaged_settles {ok : LladaService → Engine.RequestState → Prop} {s₁ s₂ : Scheduler}
    {inputIds : List Token} (hrun : ServiceRuns blockAdapter {} (fun _ => []) smallPaged ok id t)
    (hidle : t.inflight = none)
    (hstate : t.states [5] = some (smallState inputIds))
    (plan : Calls t.adapter.scheduler (.plan [[5]]) (.plan blockPlan) s₁)
    (decodes : smallPaged.executePagedDecode [([5],⟨0,smallState inputIds⟩)] (fun _ _ => none) =
      .ok [smallResult])
    (advance : Calls s₁ (.advance smallEvents) .done s₂) :
    ∃ t', ServiceRuns blockAdapter {} (fun _ => []) smallPaged ok id t' ∧
      t'.adapter.scheduler = s₂ ∧ t'.states [5] =
        some { smallState inputIds with outputIds := [2], currentDecodeBlock := 1 } := by
  have hread : PlanRows t.states blockOp [([5],⟨0,smallState inputIds⟩)] :=
    ⟨.refl _,by simpa using hstate,List.nodup_singleton 0⟩
  have hexecuted : ServiceRuns blockAdapter {} (fun _ => []) smallPaged ok id _ :=
    .step hrun (.executes hidle ⟨[5],by rw [hstate]; rfl⟩ plan ⟨rfl,rfl⟩
      ⟨rfl,rfl⟩ ⟨[5],List.mem_singleton_self _,by rw [hstate]; rfl⟩
      hread decodes) fun _ h => by cases h
  have hevents : t.states.eventsOf [smallResult] = smallEvents := by
    simp [States.eventsOf,States.liveResults,States.live,hstate,smallResult,smallEvents,smallState,
      Engine.RequestState.finished]
  have hsettled : ServiceRuns blockAdapter {} (fun _ => []) smallPaged ok id _ :=
    .step hexecuted (.settles rfl (.call (by
      change t.states.eventsOf [smallResult] ≠ []
      rw [hevents]
      exact List.cons_ne_nil _ _) (by
      change Calls s₁ (.advance (t.states.eventsOf [smallResult])) .done s₂
      rw [hevents]
      exact advance))) fun _ h => by cases h
  have hlive : smallResult ∈ t.states.liveResults [smallResult] := by
    apply mem_liveResults.mpr ⟨List.mem_singleton_self _,?_⟩
    change (t.states [5]).any _ = true
    rw [hstate]
    rfl
  refine ⟨_,hsettled,rfl,?_⟩
  have hnd : ([smallResult].map Engine.StepResult.rid).Nodup :=
    List.nodup_singleton smallResult.rid
  calc t.states.settle [smallResult] [5]
      = (t.states [5]).bind (States.deliver smallResult) := settle_of_live hnd hlive
    _ = _ := by
        rw [hstate]
        rfl

theorem smallPaged_decodes (inputIds : List Token) (h : inputIds = [5] ∨ inputIds = [5,6,7]) :
    smallPaged.executePagedDecode [([5],⟨0,smallState inputIds⟩)] (fun _ _ => none) =
      .ok [smallResult] := by
  obtain rfl | rfl := h <;> rfl

theorem blockService_runs {ok : LladaService → Engine.RequestState → Prop} {s₁ : Scheduler}
    (hok : ok { adapter := Adapter.new blockAdapter id } (smallState [5]))
    (calls : Calls (Scheduler.new blockAdapter.scheduler id)
      (.submit [blockAdapter.specOf (smallState [5])]) .done s₁) :
    ServiceRuns blockAdapter {} (fun _ => []) smallPaged ok id
      { adapter := ⟨s₁,[[5]]⟩, states := patch (fun _ => none) [([5],some (smallState [5]))] } := by
  have accepted : ServerArgs.makeState {} (fun _ => []) 0 (smallItem [5]) =
      .ok (smallState [5]) := rfl
  apply ServiceRuns.step .start (.submit accepted (.call rfl (List.cons_ne_nil _ _) calls))
  intro state hstate
  injection hstate with hstate
  rw [← hstate]
  exact hok

/-- The first block of a prompt of one token is delivered. -/
theorem positions_agree_single : ∃ t state, ServiceRuns blockAdapter {} (fun _ => []) smallPaged
      Suits id t ∧ t.states [5] = some state ∧ state.currentDecodeBlock = 1 ∧
    (∃ x ∈ t.adapter.scheduler.requests, x.id = [5] ∧ x.state.inService = true) ∧
    (((state.inputIds.length+state.outputIds.length : Nat) : Int) =
        state.alignedPrefillLength smallPaged.blockLength +
          state.currentDecodeBlock*smallPaged.blockLength ∧
      smallPaged.blockStart state = state.inputIds.length+state.outputIds.length ∧
      (∀ x ∈ t.adapter.scheduler.requests, x.id = [5] → x.state.inService = true →
        x.tokens.length = state.inputIds.length+state.outputIds.length) ∧
      (∀ p < smallPaged.blockStart state,
        (state.inputIds ++ state.outputIds)[p]? = some (smallPaged.tokenRow state p)) ∧
      ∀ p, smallPaged.blockStart state ≤ p →
        smallPaged.tokenRow state p = smallPaged.maskId) := by
  obtain ⟨x,hx,hsubmit,y,hy,hplan,z,hz,hadvance,hserved⟩ :
      ∃ x, replayCall ([],Scheduler.new blockAdapter.scheduler id)
          (.submit [blockAdapter.specOf (smallState [5])]) = some x ∧
          x.1 = [(.submit [blockAdapter.specOf (smallState [5])],.done)] ∧
        ∃ y, replayCall x (.plan [[5]]) = some y ∧ y.1 = (.plan [[5]],.plan blockPlan) :: x.1 ∧
          ∃ z, replayCall y (.advance smallEvents) = some z ∧
            z.1 = (.advance smallEvents,.done) :: y.1 ∧
            ∃ x ∈ z.2.requests, x.id = [5] ∧ x.state.inService = true := by
    decide +kernel
  have hok : Suits { adapter := Adapter.new blockAdapter id } (smallState [5]) :=
    ⟨fun _ hx => (by cases hx),fun _ _ hf => (by cases hf)⟩
  obtain ⟨t,hrun,hscheduler,hstate⟩ := smallPaged_settles
    (blockService_runs hok (calls_of_replayCall_eq hx hsubmit)) rfl rfl
    (calls_of_replayCall_eq hy hplan) (smallPaged_decodes [5] (.inl rfl))
    (calls_of_replayCall_eq hz hadvance)
  refine ⟨t,_,hrun,hstate,rfl,?_,positions_agree hrun hstate (by decide)⟩
  rw [hscheduler]
  exact hserved

/-- A longer prompt that comes in under an active id is decoded from its own end, while the
scheduler goes on with the first one. -/
theorem positions_disagree : ∃ t state x, ServiceRuns blockAdapter {} (fun _ => []) smallPaged
      (fun _ _ => True) id t ∧ t.states [5] = some state ∧ state.currentDecodeBlock = 1 ∧
    x ∈ t.adapter.scheduler.requests ∧ x.id = [5] ∧ x.state.inService = true ∧
    state.inputIds.length+state.outputIds.length = 4 ∧ x.tokens.length = 2 := by
  obtain ⟨x,hx,hsubmit,y,hy,hplan,z,hz,hadvance,r,hr,hid,hin,hlen⟩ :
      ∃ x, replayCall ([],Scheduler.new blockAdapter.scheduler id)
          (.submit [blockAdapter.specOf (smallState [5])]) = some x ∧
          x.1 = [(.submit [blockAdapter.specOf (smallState [5])],.done)] ∧
        ∃ y, replayCall x (.plan [[5]]) = some y ∧ y.1 = (.plan [[5]],.plan blockPlan) :: x.1 ∧
          ∃ z, replayCall y (.advance smallEvents) = some z ∧
            z.1 = (.advance smallEvents,.done) :: y.1 ∧
            ∃ x ∈ z.2.requests, x.id = [5] ∧ x.state.inService = true ∧ x.tokens.length = 2 := by
    decide +kernel
  have accepted : ServerArgs.makeState {} (fun _ => []) 0 (smallItem [5,6,7]) =
      .ok (smallState [5,6,7]) := rfl
  have hfirst : ServiceRuns blockAdapter {} (fun _ => []) smallPaged (fun _ _ => True) id _ :=
    blockService_runs trivial (calls_of_replayCall_eq hx hsubmit)
  have hsecond : ServiceRuns blockAdapter {} (fun _ => []) smallPaged (fun _ _ => True) id _ :=
    .step hfirst (.submit accepted (.nothing rfl)) fun _ _ => trivial
  obtain ⟨t,hrun,hscheduler,hstate⟩ := smallPaged_settles hsecond rfl rfl
    (calls_of_replayCall_eq hy hplan) (smallPaged_decodes [5,6,7] (.inr rfl))
    (calls_of_replayCall_eq hz hadvance)
  refine ⟨t,_,r,hrun,hstate,rfl,?_,hid,hin,rfl,hlen⟩
  rw [hscheduler]
  exact hr

end Run

end FluxServe.Llada
