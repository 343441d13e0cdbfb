import Mathlib.Algebra.GroupWithZero.Nat
import Mathlib.Data.List.Nodup
import Mathlib.Logic.Function.Basic

namespace FluxServe.Entrypoints

/-- `_ReplayEntry`. A subscriber is the stream that reads the queue. -/
structure ReplayEntry where
  payloadHash : String
  events : List String := []
  subscribers : List Nat := []
  finished : Bool := false
  completedAt : Rat := 0

/-- Where `replayable_stream` stands: it goes through the events of its entry, waits on its queue,
has ended, or was closed by its client. -/
inductive Stage
  | replaying (next : Nat)
  | waiting (queue : List (Option String))
  | complete
  | closed
  deriving DecidableEq

structure ReplayStream where
  entry : Nat
  output : List String := []
  stage : Stage

/-- `RequestReplayRegistry` with the entries it has made, the tasks that produce events and the
streams. `entries` is the ordered dictionary, oldest key first. -/
structure RequestReplayRegistry where
  ttl : Rat := 60
  maxEntries : Int := 1024
  maxBytes : Int := 64*1024*1024
  entries : List (String × Nat) := []
  made : Nat := 0
  entry : Nat → ReplayEntry := fun _ => { payloadHash := "" }
  producers : List (String × Nat) := []
  opened : Nat := 0
  stream : Nat → ReplayStream := fun _ => { entry := 0, stage := .closed }

def ReplayEntry.bytes (e : ReplayEntry) : Nat := (e.events.map String.utf8ByteSize).sum

def moveToEnd (key : String) (entries : List (String × Nat)) : List (String × Nat) :=
  entries.filter (fun x => x.1 ≠ key) ++ entries.filter fun x => x.1 = key

/-- `put_nowait` on the queue of a stream. -/
def ReplayStream.put (x : Option String) (c : ReplayStream) : ReplayStream :=
  match c.stage with
  | .waiting queue => { c with stage := .waiting (queue ++ [x]) }
  | _ => c

def putAll (x : Option String) (subscribers : List Nat) (stream : Nat → ReplayStream) :
    Nat → ReplayStream :=
  subscribers.foldl (fun stream c => Function.update stream c ((stream c).put x)) stream

namespace RequestReplayRegistry

variable (s : RequestReplayRegistry)

def expired (now : Rat) (i : Nat) : Bool :=
  (s.entry i).finished && decide (s.ttl < now-(s.entry i).completedAt)

/-- The oldest entries go while there are too many, or too many bytes, up to one that is not
finished. -/
def shrink : List (String × Nat) → Int → List (String × Nat)
  | [],_ => []
  | (key,i)::rest,totalBytes =>
    if s.maxEntries < (rest.length+1 : Nat) ∨ s.maxBytes < totalBytes then
      if (s.entry i).finished then shrink rest (totalBytes-(s.entry i).bytes)
      else (key,i)::rest
    else (key,i)::rest

def totalBytes (entries : List (String × Nat)) : Nat :=
  (entries.map fun x => (s.entry x.2).bytes).sum

/-- `_evict` at the time `now`. -/
def evict (now : Rat) : RequestReplayRegistry :=
  let entries := s.entries.filter fun x => !s.expired now x.2
  { s with entries := s.shrink entries (s.totalBytes entries) }

/-- `acquire`: the entry and whether the caller owns it; none is the error of a key that was used
with another payload. -/
def acquire (now : Rat) (key payloadHash : String) :
    RequestReplayRegistry × Option (Nat × Bool) :=
  let s := s.evict now
  match s.entries.lookup key with
  | some i =>
    if (s.entry i).payloadHash = payloadHash then
      ({ s with entries := moveToEnd key s.entries },some (i,false))
    else (s,none)
  | none =>
    ({ s with
        entries := s.entries ++ [(key,s.made)]
        made := s.made+1
        entry := Function.update s.entry s.made { payloadHash } },some (s.made,true))

def publish (i : Nat) (event : String) : RequestReplayRegistry :=
  let e := s.entry i
  { s with
    entry := Function.update s.entry i { e with events := e.events ++ [event] }
    stream := putAll (some event) e.subscribers s.stream }

/-- `finish`; the clock is read for `completed_at` and again by `_evict`. -/
def finish (i : Nat) (completedAt now : Rat) : RequestReplayRegistry :=
  let e := s.entry i
  evict { s with
    entry := Function.update s.entry i { e with finished := true, completedAt }
    stream := putAll none e.subscribers s.stream } now

/-- `replayable_stream` up to its first event: an owner starts the task that produces the events. -/
def connect (now : Rat) (key payloadHash : String) : RequestReplayRegistry :=
  match s.acquire now key payloadHash with
  | (s,none) => s
  | (s,some (i,owner)) =>
    { s with
      producers := if owner then s.producers ++ [(key,i)] else s.producers
      opened := s.opened+1
      stream := Function.update s.stream s.opened { entry := i, stage := .replaying 0 } }

def setStream (c : Nat) (stream : ReplayStream) : RequestReplayRegistry :=
  { s with stream := Function.update s.stream c stream }

def setSubscribers (i : Nat) (subscribers : List Nat) : RequestReplayRegistry :=
  { s with entry := Function.update s.entry i { s.entry i with subscribers } }

/-- `replayable_stream` up to its next event, or until it has to wait. Past the last event it ends
or subscribes, without letting anyone else run. -/
def pull (c : Nat) : RequestReplayRegistry :=
  let stream := s.stream c
  let e := s.entry stream.entry
  match stream.stage with
  | .replaying n =>
    match e.events[n]? with
    | some event =>
      s.setStream c { stream with output := stream.output ++ [event], stage := .replaying (n+1) }
    | none =>
      if e.finished then s.setStream c { stream with stage := .complete }
      else (s.setStream c { stream with stage := .waiting [] }).setSubscribers stream.entry
        (e.subscribers ++ [c])
  | .waiting (some event :: queue) =>
    s.setStream c { stream with output := stream.output ++ [event], stage := .waiting queue }
  | .waiting (none :: _) =>
    (s.setStream c { stream with stage := .complete }).setSubscribers stream.entry
      (e.subscribers.erase c)
  | _ => s

/-- The client goes away. -/
def close (c : Nat) : RequestReplayRegistry :=
  let stream := s.stream c
  let e := s.entry stream.entry
  match stream.stage with
  | .replaying _ => s.setStream c { stream with stage := .closed }
  | .waiting _ => (s.setStream c { stream with stage := .closed }).setSubscribers stream.entry
      (e.subscribers.erase c)
  | _ => s

end RequestReplayRegistry

/-- What happens between two points where the event loop may switch tasks. -/
inductive RegistryStep : RequestReplayRegistry → RequestReplayRegistry → Prop
  | connect {s : RequestReplayRegistry} (now : Rat) (key payloadHash : String) :
      RegistryStep s (s.connect now key payloadHash)
  | publish {s : RequestReplayRegistry} {key : String} {i : Nat} (running : (key,i) ∈ s.producers)
      (event : String) : RegistryStep s (s.publish i event)
  | finish {s : RequestReplayRegistry} {key : String} {i : Nat} (running : (key,i) ∈ s.producers)
      (completedAt now : Rat) :
      RegistryStep s ({ s with producers := s.producers.erase (key,i) }.finish i completedAt now)
  | pull {s : RequestReplayRegistry} {c : Nat} (opened : c < s.opened) : RegistryStep s (s.pull c)
  | close {s : RequestReplayRegistry} {c : Nat} (opened : c < s.opened) : RegistryStep s (s.close c)

/-- The states of a registry that starts empty, with any limits. -/
inductive RegistryRuns (ttl : Rat) (maxEntries maxBytes : Int) : RequestReplayRegistry → Prop
  | start : RegistryRuns ttl maxEntries maxBytes { ttl, maxEntries, maxBytes }
  | step {s s' : RequestReplayRegistry} (run : RegistryRuns ttl maxEntries maxBytes s)
      (step : RegistryStep s s') : RegistryRuns ttl maxEntries maxBytes s'

end FluxServe.Entrypoints
