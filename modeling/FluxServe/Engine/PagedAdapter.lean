import FluxServe.Engine.Request
import FluxServe.Scheduler.Runs

namespace FluxServe.Engine

/-- The arguments of `PagedSchedulerAdapter`. -/
structure AdapterConfig where
  maxBatchSize : Int
  maxScheduledTokens : Int
  pageSize : Nat
  pageSize_pos : 0 < pageSize
  numDevicePages : Nat
  maxModelLen : Int
  fullPromptPrefill : Bool := false

namespace AdapterConfig

variable (c : AdapterConfig)

/-- The configuration of the native scheduler, whose host pool is left empty. -/
def scheduler : SchedulerConfig where
  pageSize := c.pageSize
  pageSize_pos := c.pageSize_pos
  deviceTotalPages := c.numDevicePages
  hostTotalPages := 0
  maxScheduledTokens := c.maxScheduledTokens
  maxBatchSize := c.maxBatchSize
  decodeInputTokens := c.pageSize
  disableL2Cache := true
  disablePrefixCache := true

def prefillLength (r : RequestState) : Nat :=
  if c.fullPromptPrefill then r.inputIds.length else r.alignedPrefillLength c.pageSize

def specOf (r : RequestState) : RequestSpec where
  requestId := r.rid
  tokens := r.inputIds
  prefillLength := c.prefillLength r

/-- The loop of `submit`: the ids that are active after it, and the specifications of those that
were not; a prompt that is too long ends it. -/
def takeUp : List RequestState → List RequestId → List RequestId × Option (List RequestSpec)
  | [],active => (active,some [])
  | r::rs,active =>
    if r.rid ∈ active then takeUp rs active
    else if c.maxModelLen < c.prefillLength r then (r.rid::active,none)
    else
      let (active,specs) := takeUp rs (r.rid::active)
      (active,specs.map (c.specOf r :: ·))

end AdapterConfig

/-- `PagedSchedulerAdapter`: the native scheduler, and `_active`. -/
structure Adapter where
  scheduler : Scheduler
  active : List RequestId := []

def Adapter.new (c : AdapterConfig) (clock : Nat → Timestamp) : Adapter :=
  { scheduler := Scheduler.new c.scheduler clock }

namespace Adapter

/-- `submit`; a `ValueError` keeps the requests of the call from the scheduler. -/
inductive Submits (c : AdapterConfig) (a : Adapter) (requests : List RequestState) : Adapter → Prop
  | raises {active : List RequestId} (loop : c.takeUp requests a.active = (active,none)) :
      Submits c a requests { a with active }
  | nothing {active : List RequestId} (loop : c.takeUp requests a.active = (active,some [])) :
      Submits c a requests { a with active }
  | call {active : List RequestId} {specs : List RequestSpec} {reply : Reply} {s' : Scheduler}
      (loop : c.takeUp requests a.active = (active,some specs)) (some : specs ≠ [])
      (calls : Calls a.scheduler (.submit specs) reply s') :
      Submits c a requests ⟨s',active⟩

/-- `advance_forward`, given its events and the ids among them that are finished. -/
inductive Advances (a : Adapter) (events : List Event) (finished : List RequestId) :
    Reply → Adapter → Prop
  | nothing (none : events = []) : Advances a events finished .done a
  | call {reply : Reply} {s' : Scheduler} (some : events ≠ [])
      (calls : Calls a.scheduler (.advance events) reply s') :
      Advances a events finished reply ⟨s',a.active.filter fun rid => rid ∉ finished⟩

/-- `abort`, which leaves an id that is not active alone. -/
inductive Aborts (a : Adapter) (rid : RequestId) : Reply → Adapter → Prop
  | inactive (gone : rid ∉ a.active) : Aborts a rid .done a
  | returns {s' : Scheduler} (held : rid ∈ a.active)
      (calls : Calls a.scheduler (.advance [.abort rid]) .done s') :
      Aborts a rid .done ⟨s',a.active.filter fun id => id ≠ rid⟩
  | raises {x : Exception} {s' : Scheduler} (held : rid ∈ a.active)
      (calls : Calls a.scheduler (.advance [.abort rid]) (.threw x) s') :
      Aborts a rid (.threw x) { a with scheduler := s' }

/-- Aborts of several requests, one after the other, all of which return. -/
inductive AbortsAll : Adapter → List RequestId → Adapter → Prop
  | nil {a : Adapter} : AbortsAll a [] a
  | cons {a a₁ a' : Adapter} {rid : RequestId} {rids : List RequestId}
      (abort : Aborts a rid .done a₁) (aborts : AbortsAll a₁ rids a') : AbortsAll a (rid::rids) a'

end Adapter

end FluxServe.Engine
