import FluxServe.Scheduler.CallRule
import FluxServe.Scheduler.Conservation

namespace FluxServe

open KVPrefixCache

variable {config : SchedulerConfig} {clock : Nat → Timestamp} {history : List (Call × Reply)}
  {s s' : Scheduler} {r : Request} {f : ForwardState} {w : Window} {h : NodeId}
  {l : LocalKVAllocator}

/-- The states in which a request may be scheduled: between calls, and while a plan is made. -/
inductive Schedules (config : SchedulerConfig) (clock : Nat → Timestamp) : Scheduler → Prop
  | reached {history : List (Call × Reply)} {s : Scheduler}
      (reaches : Reaches config clock history s) : Schedules config clock s
  | written {s s' : Scheduler} {order : List RequestId} {ops : List WriteBackOperation}
      (before : Schedules config clock s) (known : ∀ id ∈ order, id ∈ s.requests.map Request.id)
      (run : newWriteBackOperation order s = .ok ops s') : Schedules config clock s'
  | erased {s : Scheduler} (before : Schedules config clock s) : Schedules config clock s.erased
  | visited {s s' : Scheduler} {r : Request} {a : Forwarding} {o : Option Forwarding}
      (before : Schedules config clock s) (found : r ∈ s.requests)
      (run : forwardCandidate a r.id s = .ok o s') : Schedules config clock s'
  | began {s s₁ s₂ : Scheduler} {r : Request} {budget : Int} {ev : FirstChunkEvent}
      (before : Schedules config clock s) (found : r ∈ s.requests) (state : r.state = .submitted)
      (run : schedulePrefillFirstChunk r budget s = .ok (some ev) s₁)
      (applied : applyFirstChunk r ev s₁ = .ok () s₂) : Schedules config clock s₂

theorem Schedules.sound (hs : Schedules config clock s) : Sound s ∧ s.config = config := by
  induction hs with
  | reached reaches => exact ⟨reaches.sound,reaches.config_eq⟩
  | written _ known run ih =>
    obtain ⟨ls,hsteps,_⟩ := ((newWriteBackOperation_returns ih.1 known).of_ok run).steps
    exact ⟨hsteps.sound ih.1,hsteps.config_eq.trans ih.2⟩
  | erased _ ih => exact ⟨(Steps.single .erase).sound ih.1,ih.2⟩
  | @visited s s' r a o _ found run ih =>
    have hvisit := (forwardCandidate_runs ih.1 found a).of_ok run
    cases o with
    | none =>
      rw [hvisit.none_eq]
      exact ih
    | some a' =>
      have hp := hvisit.proceeds
      exact ⟨hp.sound ih.1,hp.config.trans ih.2⟩
  | @began s s₁ s₂ r budget ev _ found state run applied ih =>
    obtain ⟨hroom,_,_,hoffer,_⟩ := (schedulePrefillFirstChunk_returns ih.1 r budget).of_ok run
    have hr₁ : r ∈ s₁.requests := by
      rw [hroom.requests]
      exact found
    obtain ⟨f,w,hchunk⟩ :=
      (applyFirstChunk_runs hroom.sound hr₁ state (hoffer ev rfl)).of_ok applied
    exact ⟨hchunk.move.sound,(hchunk.move.config.trans hroom.config).trans ih.2⟩

theorem Schedules.allocated (hs : Schedules config clock s) : Allocated s := by
  induction hs with
  | reached reaches => exact reaches.allocated
  | written _ _ run ih => exact ((any_rule.callOperationRule.allots_newWriteBackOperation _ _).of_ok run).2 ih
  | erased _ ih => exact fun r hr => ih r (List.mem_filter.mp hr).1
  | visited _ _ run ih => exact ((any_rule.callOperationRule.allots_forwardCandidate _ _).of_ok run).2 ih
  | began _ _ _ run applied ih =>
    exact ((any_rule.callOperationRule.allots_applyFirstChunk _ _).of_ok applied).2
      (((any_rule.callOperationRule.allots_schedulePrefillFirstChunk _ _).of_ok run).2 ih)

/-- No more than `num` device pages are taken from the free ones. -/
def TakesUpTo (num : Int) (s s' : Scheduler) : Prop :=
  (s.kv.availablePages .device : Int) ≤ s'.kv.availablePages .device+num

theorem firstChunk_admitted (hs : Sound s) (hr : r ∈ s.requests) (hst : r.state = .submitted)
    (hd : 0 ≤ s.config.decodeInputTokens) (remaining : Int) :
    Returns (schedulePrefillFirstChunk r remaining) s (fun o s₁ => ∀ ev, o = some ev →
      0 ≤ ev.tokensThisRound → Returns (applyFirstChunk r ev) s₁ (fun _ s₂ =>
        (∀ j ∈ ev.loadbackDiff, hasResource .device s₂.kv.tree j = true) ∧
        TakesUpTo (firstChunkNeeds s.config r remaining s₁.kv.tree ev.matchResult) s₁ s₂)) := by
  apply (schedulePrefillFirstChunk_returns hs r remaining).runs
  rintro o s₁ ⟨hroom,_,_,hoffer,_⟩ ev rfl h0
  have ho := hoffer ev rfl
  have hr₁ : r ∈ s₁.requests := by
    rw [hroom.requests]
    exact hr
  have hd₁ : 0 ≤ s₁.config.decodeInputTokens := by
    rw [hroom.config]
    exact hd
  apply (applyFirstChunk_runs hroom.sound hr₁ hst ho).imp
  · rintro _ s₂ ⟨f,w,hchunk⟩
    have hfwd := firstChunkState_forward s₁.config r f w
    have hpin : f.deviceNodeRef ∈ refsOf s₂.requests .device :=
      mem_refsOf.mpr ⟨_,hchunk.move.found',deviceNodeRef_mem hfwd⟩
    constructor
    · intro j hj
      exact ((hchunk.move.sound.kv.inv.tier .device).pinned hpin).2 j (hchunk.path hj)
    · obtain ⟨l,l₁,new₁,new₂,_,ha₁,ha₂,hav⟩ := hchunk.localAllocator
      have hneeds := ho.needs hroom.sound h0 hd₁
      have hadd := acquireNeeds_add s₁.config.pageSize_pos h0 hd₁ ha₁
      have hlen : l.pages.length = new₁.length+new₂.length := by
        rw [ha₂.pages,ha₁.pages]
        simp
      have hlen₂ := ha₂.length
      unfold TakesUpTo
      rw [← hroom.config]
      omega
  · rintro e s₂ ⟨_,hneg⟩
    omega

theorem prefill_admitted (hs : Sound s) (ha : Allocated s) (hr : r ∈ s.requests)
    (hst : r.state = .prefilling f w) (remaining : Int) :
    Returns (schedulePrefill r w remaining) s (fun o s₁ => ∀ num, o = some num → 0 ≤ num →
      Returns (applyPrefill r f w num) s₁ (fun _ s₂ =>
        TakesUpTo (pagesFor num s.config.pageSize) s₁ s₂)) := by
  apply (schedulePrefill_returns hs r w remaining).runs
  rintro o s₁ ⟨ensured,hroom,ho⟩ num rfl h0
  cases ensured with
  | false => simp at ho
  | true =>
    rw [if_pos rfl,Option.some.injEq] at ho
    rw [← ho] at hroom
    have hr₁ : r ∈ s₁.requests := by
      rw [hroom.move.requests]
      exact hr
    have hav := hroom.available.mp rfl
    have hpages : pagesFor num s₁.config.pageSize ≤ s₁.kv.availablePages .device := by
      rw [hroom.move.config]
      exact hav
    apply (applyPrefill_runs hroom.move.sound hr₁ hst num hpages).imp
    · rintro _ s₂ ⟨l,l',hl,hext,_⟩
      obtain ⟨new,hacq,htaken⟩ := hext.acquired
      have htail : 0 ≤ l.tailPageAvailableTokens := by
        apply (hs.requests r hr).tail
        rw [local_of_forward (by rw [hst]; rfl)]
        exact hl
      have hps := s₁.config.pageSize_pos
      have hle := acquireNeeds_le hps htail (pagesFor_nonneg h0 hps) le_rfl
      have hlen := hacq.length
      unfold TakesUpTo
      rw [← hroom.move.config]
      omega
    · rintro e s₂ ⟨_,_,hnone⟩
      exact absurd hnone (ha r hr f w hst)

theorem decode_admitted (hs : Sound s) (hr : r ∈ s.requests) (hf : r.state.forward? = some f)
    (reserve : Int) (asserted : Bool) :
    Runs (scheduleDecode f reserve asserted) s (fun ensured s₁ => ensured = true →
      ∃ l, f.localKVAllocator = some l ∧
        Returns (applyDecode r f reserve) s₁ (fun _ s₂ => TakesUpTo
          (pagesFor (max 0 (reserve-l.tailPageAvailableTokens)) s.config.pageSize) s₁ s₂))
      (fun _ _ => True) := by
  apply (scheduleDecode_runs hs f reserve asserted).imp ?_ (fun _ _ _ => trivial)
  rintro ensured s₁ ⟨l,hl,hroom⟩ rfl
  refine ⟨l,hl,?_⟩
  have hr₁ : r ∈ s₁.requests := by
    rw [hroom.move.requests]
    exact hr
  have hps := s₁.config.pageSize_pos
  have hav := hroom.available.mp rfl
  rw [← hroom.move.config] at hav
  apply (applyDecode_runs hroom.move.sound hr₁ hf hl reserve
    ((scheduleDecode_needs hps reserve _).mp hav)).runs
  rintro _ s₂ ⟨l',hext,_⟩
  obtain ⟨new,hacq,htaken⟩ := hext.acquired
  have hle := (scheduleDecode_needs (l := l) hps reserve _).mpr le_rfl
  have hneeds := (scheduleDecode_needs (l := l) hps reserve _).mp le_rfl
  have hlen := hacq.length
  unfold TakesUpTo
  rw [← hroom.move.config]
  omega

theorem recover_admitted (hs : Sound s) (hr : r ∈ s.requests) (hst : r.state = .retracted h l)
    (hd : 0 ≤ s.config.decodeInputTokens) :
    Returns (scheduleDecodeFromRetracted r) s (fun o s₁ => ∀ ev, o = some ev →
      Returns (applyRecover r h l ev) s₁ (fun _ s₂ =>
        (∀ j ∈ ev.loadbackDiff, hasResource .device s₂.kv.tree j = true) ∧
        TakesUpTo (recoverNeeds s.config s₁.kv.tree ev.matchResult) s₁ s₂)) := by
  apply (scheduleDecodeFromRetracted_returns hs r).runs
  rintro o s₁ ⟨hroom,_,_,hoffer,_⟩ ev rfl
  have ho := hoffer ev rfl
  have hr₁ : r ∈ s₁.requests := by
    rw [hroom.requests]
    exact hr
  have hd₁ : 0 ≤ s₁.config.decodeInputTokens := by
    rw [hroom.config]
    exact hd
  apply (applyRecover_takes hroom.sound hr₁ hst ho).imp
  · rintro _ s₂ ⟨f,l',new,hrec,hacq,hav⟩
    have hpin : f.deviceNodeRef ∈ refsOf s₂.requests .device :=
      mem_refsOf.mpr ⟨_,hrec.move.found',deviceNodeRef_mem rfl⟩
    constructor
    · intro j hj
      exact ((hrec.move.sound.kv.inv.tier .device).pinned hpin).2 j (hrec.path hj)
    · have hps := s₁.config.pageSize_pos
      have hneeds := ho.needs hroom.sound hd₁
      have htail : 0 ≤ l.tailPageAvailableTokens := by
        apply (hs.requests r hr).tail
        rw [hst]
        rfl
      have hle := acquireNeeds_le hps htail (pagesFor_nonneg hd₁ hps) le_rfl
      have hlen := hacq.length
      unfold TakesUpTo
      rw [← hroom.config]
      omega
  · rintro e s₂ ⟨_,hneg⟩
    omega

/-- The prompt of a second request extends the one that was served. -/
def prolongedCalls : List Call :=
  servedCalls ++ [.submit [{ requestId := [2], tokens := [7,8,5,6] }]]

/-- A first chunk is offered, and it needs so many pages. -/
def offersFor (needs : Nat) (r : Request) (s : Scheduler) : Bool :=
  match schedulePrefillFirstChunk r 8 s with
  | .ok (some ev) s₁ => decide (0 ≤ ev.tokensThisRound ∧
      firstChunkNeeds s.config r 8 s₁.kv.tree ev.matchResult = needs)
  | _ => false

end FluxServe
