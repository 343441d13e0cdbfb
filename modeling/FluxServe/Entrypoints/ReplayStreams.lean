import FluxServe.Entrypoints.ReplayRuns

namespace FluxServe.Entrypoints

open RequestReplayRegistry

variable {s s' : RequestReplayRegistry} {now ttl : Rat} {maxEntries maxBytes : Int}
  {key payloadHash : String} {i j c : Nat} {e : ReplayEntry} {stream : ReplayStream}

section Later

/-- Nothing that was published or sent is taken back. -/
structure Later (s s' : RequestReplayRegistry) : Prop where
  made : s.made ≤ s'.made
  opened : s.opened ≤ s'.opened
  hash : ∀ i < s.made, (s'.entry i).payloadHash = (s.entry i).payloadHash
  events : ∀ i < s.made, (s.entry i).events <+: (s'.entry i).events
  finished : ∀ i < s.made, (s.entry i).finished = true →
    (s'.entry i).finished = true ∧ (s'.entry i).events = (s.entry i).events
  entry : ∀ c < s.opened, (s'.stream c).entry = (s.stream c).entry
  output : ∀ c < s.opened, (s.stream c).output <+: (s'.stream c).output

theorem later_refl (s : RequestReplayRegistry) : Later s s where
  made := Nat.le_refl _
  opened := Nat.le_refl _
  hash _ _ := rfl
  events _ _ := List.prefix_refl _
  finished _ _ h := ⟨h,rfl⟩
  entry _ _ := rfl
  output _ _ := List.prefix_refl _

theorem Later.trans {s'' : RequestReplayRegistry} (h : Later s s') (h' : Later s' s'') :
    Later s s'' := by
  have hmade : ∀ i < s.made, i < s'.made := fun _ hi => Nat.lt_of_lt_of_le hi h.made
  have hopened : ∀ c < s.opened, c < s'.opened := fun _ hc => Nat.lt_of_lt_of_le hc h.opened
  refine ⟨Nat.le_trans h.made h'.made,Nat.le_trans h.opened h'.opened,?_,?_,?_,?_,?_⟩
  · exact fun i hi => (h'.hash i (hmade i hi)).trans (h.hash i hi)
  · exact fun i hi => (h.events i hi).trans (h'.events i (hmade i hi))
  · intro i hi hfin
    obtain ⟨hfin',hsame⟩ := h.finished i hi hfin
    obtain ⟨hfin'',hsame'⟩ := h'.finished i (hmade i hi) hfin'
    exact ⟨hfin'',hsame'.trans hsame⟩
  · exact fun c hc => (h'.entry c (hopened c hc)).trans (h.entry c hc)
  · exact fun c hc => (h.output c hc).trans (h'.output c (hopened c hc))

/-- The step of one stream. -/
theorem later_setStream (hentry : stream.entry = (s.stream c).entry)
    (hout : (s.stream c).output <+: stream.output) : Later s (s.setStream c stream) := by
  have hcases : ∀ d, (d = c ∧ (s.setStream c stream).stream d = stream) ∨
      (s.setStream c stream).stream d = s.stream d := by
    intro d
    by_cases hd : d = c
    · exact .inl ⟨hd,by simp [setStream,hd]⟩
    · exact .inr (by simp [setStream,hd])
  refine { later_refl s with entry := ?_, output := ?_ }
  · intro d _
    obtain ⟨rfl,hd⟩ | hd := hcases d
    · rw [hd,hentry]
    · rw [hd]
  · intro d _
    obtain ⟨rfl,hd⟩ | hd := hcases d
    · rw [hd]
      exact hout
    · exact ⟨[],by simp [hd]⟩

/-- The step of one entry, with what its streams get. -/
theorem later_setEntry {streams : Nat → ReplayStream}
    (hhash : e.payloadHash = (s.entry i).payloadHash)
    (hevents : (s.entry i).events <+: e.events)
    (hfin : (s.entry i).finished = true → e.finished = true ∧ e.events = (s.entry i).events)
    (hstream : ∀ c, (streams c).entry = (s.stream c).entry ∧
      (streams c).output = (s.stream c).output) :
    Later s { s with entry := Function.update s.entry i e, stream := streams } := by
  have hcases : ∀ j, (j = i ∧ Function.update s.entry i e j = e) ∨
      Function.update s.entry i e j = s.entry j := by
    intro j
    by_cases hj : j = i
    · exact .inl ⟨hj,by simp [hj]⟩
    · exact .inr (by simp [hj])
  refine { later_refl s with hash := ?_, events := ?_, finished := ?_, entry := ?_, output := ?_ }
  · intro j _
    obtain ⟨rfl,hj⟩ | hj := hcases j
    · exact (congrArg _ hj).trans hhash
    · exact congrArg _ hj
  · intro j _
    obtain ⟨rfl,hj⟩ | hj := hcases j
    · dsimp only
      rw [hj]
      exact hevents
    · exact ⟨[],by simp [hj]⟩
  · intro j _ hj_fin
    obtain ⟨rfl,hj⟩ | hj := hcases j
    · dsimp only
      rw [hj]
      exact hfin hj_fin
    · dsimp only
      rw [hj]
      exact ⟨hj_fin,rfl⟩
  · exact fun d _ => (hstream d).1
  · exact fun d _ => ⟨[],by simp [(hstream d).2]⟩

theorem later_setSubscribers (subscribers : List Nat) : Later s (s.setSubscribers i subscribers) :=
  later_setEntry rfl (List.prefix_refl _) (fun h => ⟨h,rfl⟩) fun _ => ⟨rfl,rfl⟩

theorem later_turn {subscribers : List Nat} (hentry : stream.entry = (s.stream c).entry)
    (hout : (s.stream c).output <+: stream.output) :
    Later s ((s.setStream c stream).setSubscribers i subscribers) :=
  (later_setStream hentry hout).trans (later_setSubscribers subscribers)

theorem putAll_same (x : Option String) (subscribers : List Nat) (streams : Nat → ReplayStream)
    (c : Nat) : (putAll x subscribers streams c).entry = (streams c).entry ∧
      (putAll x subscribers streams c).output = (streams c).output := by
  induction subscribers generalizing streams with
  | nil => exact ⟨rfl,rfl⟩
  | cons d rest ih =>
    obtain ⟨hentry,hout⟩ := ih (Function.update streams d ((streams d).put x))
    have hput : ((streams d).put x).output = (streams d).output := by
      unfold ReplayStream.put
      split <;> rfl
    have hself : (Function.update streams d ((streams d).put x) c).entry = (streams c).entry ∧
        (Function.update streams d ((streams d).put x) c).output = (streams c).output := by
      by_cases hd : c = d
      · subst hd
        simp [hput]
      · simp [hd]
    exact ⟨hentry.trans hself.1,hout.trans hself.2⟩

theorem later_connect (s : RequestReplayRegistry) (now : Rat) (key payloadHash : String) :
    Later s (s.connect now key payloadHash) := by
  have hevict : Later s (s.evict now) := { later_refl s with }
  have hopen : ∀ (t : RequestReplayRegistry) (i : Nat), Later t { t with
      opened := t.opened+1
      stream := Function.update t.stream t.opened { entry := i, stage := .replaying 0 } } := by
    intro t i
    have hother : ∀ c < t.opened, Function.update t.stream t.opened
        { entry := i, stage := .replaying 0 } c = t.stream c :=
      fun c hc => Function.update_of_ne (by omega) _ _
    refine { later_refl t with opened := Nat.le_succ _, entry := ?_, output := ?_ }
    · exact fun c hc => congrArg _ (hother c hc)
    · exact fun c hc => ⟨[],by simp [hother c hc]⟩
  unfold RequestReplayRegistry.connect acquire
  dsimp only
  cases hlookup : (s.evict now).entries.lookup key with
  | some i =>
    dsimp only
    split
    · next heq =>
      split at heq
      · cases heq
      · cases heq
        exact hevict
    · next heq =>
      split at heq
      · cases heq
        have htouch : Later s { s.evict now with
            entries := moveToEnd key (s.evict now).entries } := { later_refl s with }
        exact htouch.trans (hopen _ i)
      · cases heq
  | none =>
    have hmade : Later (s.evict now) { s.evict now with
        entries := (s.evict now).entries ++ [(key,(s.evict now).made)]
        made := (s.evict now).made+1
        entry := Function.update (s.evict now).entry (s.evict now).made { payloadHash }
        producers := (s.evict now).producers ++ [(key,(s.evict now).made)] } := by
      have hold : ∀ j < (s.evict now).made, Function.update (s.evict now).entry (s.evict now).made
          { payloadHash } j = (s.evict now).entry j :=
        fun j hj => Function.update_of_ne (by omega) _ _
      refine { later_refl (s.evict now) with
        made := Nat.le_succ _, hash := ?_, events := ?_, finished := ?_ }
      · exact fun j hj => congrArg _ (hold j hj)
      · exact fun j hj => ⟨[],by simp [hold j hj]⟩
      · intro j hj hfin
        dsimp only
        rw [hold j hj]
        exact ⟨hfin,rfl⟩
    exact (hevict.trans hmade).trans (hopen _ _)

theorem later_pull (s : RequestReplayRegistry) (c : Nat) : Later s (s.pull c) := by
  unfold RequestReplayRegistry.pull
  dsimp only
  split
  · split
    · exact later_setStream rfl (List.prefix_append _ _)
    · split
      · exact later_setStream rfl (List.prefix_refl _)
      · exact later_turn rfl (List.prefix_refl _)
  · exact later_setStream rfl (List.prefix_append _ _)
  · exact later_turn rfl (List.prefix_refl _)
  · exact later_refl s

theorem later_close (s : RequestReplayRegistry) (c : Nat) : Later s (s.close c) := by
  unfold RequestReplayRegistry.close
  dsimp only
  split
  · exact later_setStream rfl (List.prefix_refl _)
  · exact later_turn rfl (List.prefix_refl _)
  · exact later_refl s

theorem RegistryStep.later (step : RegistryStep s s') (h : Consistent s) : Later s s' := by
  cases step with
  | connect now key payloadHash => exact later_connect _ now key payloadHash
  | @publish _ i running event =>
    have hfin := (h.running _ running).2
    refine later_setEntry rfl (List.prefix_append _ _) (fun hdone => ?_) (putAll_same _ _ _)
    rw [hfin] at hdone
    cases hdone
  | @finish _ i running completedAt now =>
    have hend : Later s { s with
        entry := Function.update s.entry i { s.entry i with finished := true, completedAt }
        stream := putAll none (s.entry i).subscribers s.stream } :=
      later_setEntry rfl (List.prefix_refl _) (fun _ => ⟨rfl,rfl⟩) (putAll_same _ _ _)
    exact { hend with }
  | pull _ => exact later_pull s _
  | close _ => exact later_close s _

theorem later_of_steps (h : Consistent s) (steps : Relation.ReflTransGen RegistryStep s s') :
    Consistent s' ∧ Later s s' := by
  induction steps with
  | refl => exact ⟨h,later_refl s⟩
  | tail _ step ih => exact ⟨step.consistent ih.1,ih.2.trans (step.later ih.1)⟩

end Later

section CatchUp

/-- The entry of the stream. -/
abbrev RequestReplayRegistry.source (s : RequestReplayRegistry) (c : Nat) : ReplayEntry :=
  s.entry (s.stream c).entry

/-- The client takes as many as `n` events. -/
def RequestReplayRegistry.pulls (s : RequestReplayRegistry) (c : Nat) : Nat → RequestReplayRegistry
  | 0 => s
  | n+1 => (s.pull c).pulls c n

/-- What the steps of a stream leave as it is. -/
structure Undisturbed (s s' : RequestReplayRegistry) : Prop where
  entries : s'.entries = s.entries
  producers : s'.producers = s.producers
  limits : s'.maxEntries = s.maxEntries ∧ s'.maxBytes = s.maxBytes
  opened : s'.opened = s.opened
  events : ∀ i, (s'.entry i).events = (s.entry i).events
  finished : ∀ i, (s'.entry i).finished = (s.entry i).finished

theorem undisturbed_refl (s : RequestReplayRegistry) : Undisturbed s s :=
  ⟨rfl,rfl,⟨rfl,rfl⟩,rfl,fun _ => rfl,fun _ => rfl⟩

theorem setStream_undisturbed : Undisturbed s (s.setStream c stream) :=
  { undisturbed_refl s with }

theorem setSubscribers_undisturbed {subscribers : List Nat} :
    Undisturbed s ((s.setStream c stream).setSubscribers i subscribers) := by
  have hsame : ∀ j, (((s.setStream c stream).setSubscribers i subscribers).entry j) =
      { s.entry j with subscribers := if j = i then subscribers else (s.entry j).subscribers } := by
    intro j
    by_cases hj : j = i
    · subst hj
      simp [setSubscribers,setStream]
    · simp [setSubscribers,setStream,hj]
  exact ⟨rfl,rfl,⟨rfl,rfl⟩,rfl,fun j => by rw [hsame],fun j => by rw [hsame]⟩

theorem pull_undisturbed (s : RequestReplayRegistry) (c : Nat) : Undisturbed s (s.pull c) := by
  unfold RequestReplayRegistry.pull
  dsimp only
  split
  · split
    · exact setStream_undisturbed
    · split
      · exact setStream_undisturbed
      · exact setSubscribers_undisturbed
  · exact setStream_undisturbed
  · exact setSubscribers_undisturbed
  · exact undisturbed_refl s

theorem close_undisturbed (s : RequestReplayRegistry) (c : Nat) : Undisturbed s (s.close c) := by
  unfold RequestReplayRegistry.close
  dsimp only
  split
  · exact setStream_undisturbed
  · exact setSubscribers_undisturbed
  · exact undisturbed_refl s

theorem pull_source (hc : c < s.opened) :
    ((s.pull c).source c).events = (s.source c).events ∧
      ((s.pull c).source c).finished = (s.source c).finished := by
  rw [source,(later_pull s c).entry c hc]
  exact ⟨(pull_undisturbed s c).events _,(pull_undisturbed s c).finished _⟩

/-- A stream that has not sent all events sends the next one. -/
theorem pull_sends (h : Consistent s) (hc : c < s.opened) (hopen : (s.stream c).stage ≠ .closed)
    (hless : (s.stream c).output.length < (s.source c).events.length) :
    ((s.pull c).stream c).output.length = (s.stream c).output.length+1 ∧
      ((s.pull c).stream c).stage ≠ .closed := by
  have hold := h.follows c hc
  unfold RequestReplayRegistry.pull
  dsimp only
  cases hstage : (s.stream c).stage with
  | replaying n =>
    simp only [Follows,hstage] at hold
    have hn : n < (s.source c).events.length := by
      rw [hold.2,List.length_take] at hless
      omega
    simp [List.getElem?_eq_getElem hn,setStream]
  | waiting queue =>
    simp only [Follows,hstage] at hold
    obtain ⟨rest,hqueue,hout⟩ := hold
    cases rest with
    | nil =>
      rw [← hout] at hless
      simp at hless
    | cons event rest => simp [hqueue,setStream]
  | complete =>
    simp only [Follows,hstage] at hold
    rw [hold.2] at hless
    exact absurd hless (Nat.lt_irrefl _)
  | closed => exact absurd hstage hopen

/-- A stream that has sent all events of a finished entry ends. -/
theorem pull_ends (h : Consistent s) (hc : c < s.opened) (hopen : (s.stream c).stage ≠ .closed)
    (hall : (s.stream c).output = (s.source c).events) (hfin : (s.source c).finished = true) :
    ((s.pull c).stream c).output = (s.source c).events ∧
      ((s.pull c).stream c).stage = .complete := by
  have hold := h.follows c hc
  unfold RequestReplayRegistry.pull
  dsimp only
  cases hstage : (s.stream c).stage with
  | replaying n =>
    simp only [Follows,hstage] at hold
    have hn : (s.source c).events.length ≤ n := by
      have hlen := congrArg List.length (hall.symm.trans hold.2)
      rw [List.length_take] at hlen
      omega
    have hnone : (s.entry (s.stream c).entry).events[n]? = none := List.getElem?_eq_none hn
    have hfin' : (s.entry (s.stream c).entry).finished = true := hfin
    simp [hnone,hfin',setStream,hall]
  | waiting queue =>
    simp only [Follows,hstage] at hold
    obtain ⟨rest,hqueue,hout⟩ := hold
    have hrest : rest = [] := by
      rw [hall] at hout
      simpa using hout
    have hnone : queue = [none] := by
      rw [hqueue,hrest,show (s.entry (s.stream c).entry).finished = true from hfin]
      rfl
    simp [hnone,setStream,setSubscribers,hall]
  | complete => exact ⟨hall,hstage⟩
  | closed => exact absurd hstage hopen

/-- A stream that is not closed gets to the end of the events by itself. -/
theorem catchUp (h : Consistent s) (hc : c < s.opened) (hopen : (s.stream c).stage ≠ .closed) :
    ∃ n, ((s.pulls c n).stream c).output = (s.source c).events ∧
      ((s.source c).finished = true → ((s.pulls c n).stream c).stage = .complete) := by
  generalize hleft : (s.source c).events.length-(s.stream c).output.length = left
  induction left generalizing s with
  | zero =>
    have hlen : (s.source c).events.length ≤ (s.stream c).output.length := by omega
    have hall : (s.stream c).output = (s.source c).events :=
      (h.follows c hc).leads.eq_of_length_le hlen
    cases hfin : (s.source c).finished with
    | false => exact ⟨0,hall,by simp⟩
    | true =>
      obtain ⟨hout,hstage⟩ := pull_ends h hc hopen hall hfin
      exact ⟨1,hout,fun _ => hstage⟩
  | succ left ih =>
    have hless : (s.stream c).output.length < (s.source c).events.length := by omega
    obtain ⟨hlen,hopen'⟩ := pull_sends h hc hopen hless
    obtain ⟨hevents,hfin⟩ := pull_source hc
    have hc' : c < (s.pull c).opened := by rwa [(pull_undisturbed s c).opened]
    have hleft' : ((s.pull c).source c).events.length-((s.pull c).stream c).output.length =
        left := by
      have hsame := congrArg List.length hevents
      omega
    obtain ⟨n,hn⟩ := ih (h.pull hc) hc' hopen' hleft'
    rw [hevents,hfin] at hn
    exact ⟨n+1,hn⟩

end CatchUp

/-- A stream sends the events of its entry in order, each once, whatever else happens: what it has
sent is always an initial part of them, it ends only with all of them, a stream that is not closed
gets to their end by itself, and neither what it sent nor what was published changes later. -/
theorem stream_exact (run : RegistryRuns ttl maxEntries maxBytes s) (hc : c < s.opened) :
    (s.stream c).output <+: (s.source c).events ∧
    ((s.stream c).stage = .complete →
      (s.source c).finished = true ∧ (s.stream c).output = (s.source c).events) ∧
    ((s.stream c).stage ≠ .closed →
      ∃ n, ((s.pulls c n).stream c).output = (s.source c).events ∧
        ((s.source c).finished = true → ((s.pulls c n).stream c).stage = .complete)) ∧
    ∀ s', Relation.ReflTransGen RegistryStep s s' →
      (s'.stream c).entry = (s.stream c).entry ∧ (s.stream c).output <+: (s'.stream c).output ∧
      (s.source c).events <+: (s'.source c).events ∧
      ((s.source c).finished = true → (s'.source c).events = (s.source c).events) := by
  have h := run.consistent
  refine ⟨(h.follows c hc).leads,fun hstage => ?_,catchUp h hc,fun s' steps => ?_⟩
  · have hold := h.follows c hc
    simpa only [Follows,hstage] using hold
  · obtain ⟨_,hlater⟩ := later_of_steps h steps
    have hentry := hlater.entry c hc
    have hmade := h.attached c hc
    refine ⟨hentry,hlater.output c hc,?_,fun hfin => ?_⟩
    · rw [source,source,hentry]
      exact hlater.events _ hmade
    · rw [source,source,hentry]
      exact (hlater.finished _ hmade hfin).2

/-- A request that has published one event. -/
def published : RequestReplayRegistry :=
  ({ : RequestReplayRegistry }.connect 0 "key" "hash").publish 0 "event"

theorem published_runs : RegistryRuns 60 1024 (64*1024*1024) published := by
  have hopen : RegistryRuns 60 1024 (64*1024*1024)
      ({ : RequestReplayRegistry }.connect 0 "key" "hash") := .step .start (.connect 0 "key" "hash")
  have hrunning : ("key",0) ∈ ({ : RequestReplayRegistry }.connect 0 "key" "hash").producers :=
    List.mem_singleton_self _
  exact .step hopen (.publish hrunning "event")

theorem stream_exact_published : 0 < published.opened ∧
    (published.stream 0).output <+: (published.source 0).events ∧
    ∃ n, ((published.pulls 0 n).stream 0).output = (published.source 0).events := by
  have hopened : 0 < published.opened := Nat.one_pos
  obtain ⟨hsent,_,hcatch,_⟩ := stream_exact published_runs hopened
  obtain ⟨n,hn,_⟩ := hcatch (by rintro ⟨⟩)
  exact ⟨hopened,hsent,n,hn⟩

/-- A request with the key and the payload of an entry reads that entry from its first event. -/
theorem connect_joins (h : Consistent s) (hmem : (key,i) ∈ (s.evict now).entries)
    (hhash : payloadHash = (s.entry i).payloadHash) :
    (s.connect now key payloadHash).producers = s.producers ∧
    (s.connect now key payloadHash).opened = s.opened+1 ∧
    (s.connect now key payloadHash).stream s.opened = { entry := i, stage := .replaying 0 } := by
  have hlookup : (s.evict now).entries.lookup key = some i :=
    lookup_of_mem (h.evict now).keys hmem
  have hsame : ((s.evict now).entry i).payloadHash = payloadHash := hhash.symm
  have hopened : (s.evict now).opened = s.opened := rfl
  simp [RequestReplayRegistry.connect,acquire,hlookup,hsame,hopened]
  rfl

theorem connect_refuses (h : Consistent s) (hmem : (key,i) ∈ (s.evict now).entries)
    (hhash : payloadHash ≠ (s.entry i).payloadHash) :
    s.connect now key payloadHash = s.evict now := by
  have hlookup : (s.evict now).entries.lookup key = some i :=
    lookup_of_mem (h.evict now).keys hmem
  have hother : ¬((s.evict now).entry i).payloadHash = payloadHash := fun heq => hhash heq.symm
  simp [RequestReplayRegistry.connect,acquire,hlookup,hother]

/-- In every state there is at most one running task for a key, and exactly one for each entry that
is not finished. Its entry stays registered: a request with the same key reads it from its first
event where the payload is the same, and is refused where it is not, and starts no task. -/
theorem single_producer (run : RegistryRuns ttl maxEntries maxBytes s) :
    (s.producers.map Prod.fst).Nodup ∧ (s.producers.map Prod.snd).Nodup ∧
    (∀ i < s.made, (s.entry i).finished = false ↔ i ∈ s.producers.map Prod.snd) ∧
    ∀ key i, (key,i) ∈ s.producers → ∀ now payloadHash,
      (payloadHash = (s.entry i).payloadHash →
        (s.connect now key payloadHash).producers = s.producers ∧
        (s.connect now key payloadHash).opened = s.opened+1 ∧
        (s.connect now key payloadHash).stream s.opened = { entry := i, stage := .replaying 0 }) ∧
      (payloadHash ≠ (s.entry i).payloadHash → s.connect now key payloadHash = s.evict now) := by
  have h := run.consistent
  have hsub : ∀ y ∈ s.producers, y ∈ s.entries := fun y hy => (h.running y hy).1
  have hkeys := List.inj_on_of_nodup_map h.keys
  have hids := List.inj_on_of_nodup_map h.ids
  refine ⟨?_,?_,fun i hi => ⟨fun hfin => ?_,fun hmem => ?_⟩,fun key i hmem now payloadHash => ?_⟩
  · exact h.producers.map_on fun y hy z hz => hkeys (hsub y hy) (hsub z hz)
  · exact h.producers.map_on fun y hy z hz => hids (hsub y hy) (hsub z hz)
  · obtain ⟨key,hkey⟩ := h.produced i hi hfin
    exact List.mem_map.mpr ⟨_,hkey,rfl⟩
  · obtain ⟨y,hy,rfl⟩ := List.mem_map.mp hmem
    exact (h.running y hy).2
  · have hkept := mem_evict now (h.running _ hmem).1 (h.running _ hmem).2
    exact ⟨connect_joins h hkept,connect_refuses h hkept⟩

theorem single_producer_published :
    (published.connect 5 "key" "hash").producers = published.producers ∧
    published.connect 5 "key" "other" = published.evict 5 := by
  have hmem : ("key",0) ∈ published.producers := List.mem_singleton_self _
  obtain ⟨_,_,_,h⟩ := single_producer published_runs
  exact ⟨((h _ _ hmem 5 "hash").1 rfl).1,(h _ _ hmem 5 "other").2 (by decide)⟩

section Quiet

/-- While no task runs the registry is within its limits. -/
def Quiet (s : RequestReplayRegistry) : Prop :=
  s.producers = [] → s.entries ≠ [] → Bounded s s.entries

theorem evict_quiet (h : Consistent s) (now : Rat) : Quiet (s.evict now) := by
  intro hnone hsome
  obtain ⟨_,_,_,_,hend⟩ := evict_spec s now
  obtain hbound | hempty | ⟨y,rest,hhead,hfin⟩ := hend
  · exact hbound
  · exact absurd hempty hsome
  · have hmem : y ∈ (s.evict now).entries := by
      rw [hhead]
      exact List.mem_cons_self
    obtain ⟨key,hkey⟩ := (h.evict now).produced _ ((h.evict now).registered y hmem) hfin
    rw [hnone] at hkey
    cases hkey

theorem bounded_congr {entries entries' : List (String × Nat)} (hperm : entries.Perm entries')
    (hlimits : s'.maxEntries = s.maxEntries ∧ s'.maxBytes = s.maxBytes)
    (hevents : ∀ i, (s'.entry i).events = (s.entry i).events) :
    Bounded s' entries' ↔ Bounded s entries := by
  have hbytes : s'.totalBytes entries' = s.totalBytes entries := by
    unfold RequestReplayRegistry.totalBytes ReplayEntry.bytes
    simp only [hevents]
    exact (hperm.map _).sum_nat.symm
  unfold Bounded
  rw [hbytes,hperm.length_eq,hlimits.1,hlimits.2]

theorem Quiet.touch (h : Quiet s) (key : String) :
    Quiet { s with entries := moveToEnd key s.entries } := by
  intro hnone hsome
  rw [bounded_congr moveToEnd_perm.symm ⟨rfl,rfl⟩ fun _ => rfl]
  refine h hnone fun hempty => hsome ?_
  dsimp only
  rw [hempty]
  rfl

theorem Quiet.undisturbed (h : Quiet s) (hsame : Undisturbed s s') : Quiet s' := by
  intro hnone hsome
  rw [hsame.entries,bounded_congr (List.Perm.refl _) hsame.limits hsame.events]
  rw [hsame.producers] at hnone
  rw [hsame.entries] at hsome
  exact h hnone hsome

theorem connect_quiet (h : Consistent s) (now : Rat) (key payloadHash : String) :
    Quiet (s.connect now key payloadHash) := by
  have hquiet := evict_quiet h now
  unfold RequestReplayRegistry.connect acquire
  dsimp only
  cases hlookup : (s.evict now).entries.lookup key with
  | some i =>
    dsimp only
    split
    · next heq =>
      split at heq
      · cases heq
      · cases heq
        exact hquiet
    · next heq =>
      split at heq
      · cases heq
        exact hquiet.touch key
      · cases heq
  | none =>
    intro hnone
    exact absurd hnone (by simp)

theorem RegistryStep.quiet (step : RegistryStep s s') (h : Consistent s) (hquiet : Quiet s) :
    Quiet s' := by
  cases step with
  | connect now key payloadHash => exact connect_quiet h now key payloadHash
  | publish running event =>
    intro hnone
    have hnone' : s.producers = [] := hnone
    rw [hnone'] at running
    cases running
  | finish running completedAt now => exact evict_quiet (h.ended running completedAt) now
  | pull opened => exact hquiet.undisturbed (pull_undisturbed _ _)
  | close opened => exact hquiet.undisturbed (close_undisturbed _ _)

theorem RegistryStep.limits (step : RegistryStep s s') :
    s'.maxEntries = s.maxEntries ∧ s'.maxBytes = s.maxBytes := by
  cases step with
  | connect now key payloadHash =>
    unfold RequestReplayRegistry.connect acquire
    dsimp only
    split
    · next heq =>
      split at heq
      · split at heq
        · cases heq
        · cases heq
          exact ⟨rfl,rfl⟩
      · cases heq
    · next heq =>
      split at heq
      · split at heq
        · cases heq
          exact ⟨rfl,rfl⟩
        · cases heq
      · cases heq
        exact ⟨rfl,rfl⟩
  | publish running event => exact ⟨rfl,rfl⟩
  | finish running completedAt now => exact ⟨rfl,rfl⟩
  | pull opened => exact (pull_undisturbed _ _).limits
  | close opened => exact (close_undisturbed _ _).limits

theorem RegistryRuns.quiet (run : RegistryRuns ttl maxEntries maxBytes s) :
    Quiet s ∧ s.maxEntries = maxEntries ∧ s.maxBytes = maxBytes := by
  induction run with
  | start => exact ⟨fun _ hsome => absurd rfl hsome,rfl,rfl⟩
  | step run step ih =>
    exact ⟨step.quiet run.consistent ih.1,step.limits.1.trans ih.2.1,step.limits.2.trans ih.2.2⟩

end Quiet

/-- Entries may outgrow the limits only while some task runs: whenever none does, the registry holds
at most `maxEntries` entries with at most `maxBytes` bytes of events. -/
theorem quiet_bounded (hentries : 0 ≤ maxEntries) (hbytes : 0 ≤ maxBytes)
    (run : RegistryRuns ttl maxEntries maxBytes s) (hnone : s.producers = []) :
    (s.entries.length : Int) ≤ maxEntries ∧ (s.totalBytes s.entries : Int) ≤ maxBytes := by
  obtain ⟨hquiet,rfl,rfl⟩ := run.quiet
  cases hlist : s.entries with
  | nil => exact ⟨hentries,hbytes⟩
  | cons y rest =>
    rw [← hlist]
    exact hquiet hnone (by rw [hlist]; exact List.cons_ne_nil _ _)

theorem quiet_bounded_published :
    ((({ published with producers := [] }.finish 0 0 1).entries.length : Nat) : Int) ≤ 1024 := by
  have hrunning : ("key",0) ∈ published.producers := List.mem_singleton_self _
  have hrun := RegistryRuns.step published_runs (.finish hrunning 0 1)
  exact (quiet_bounded (by decide) (by decide) hrun rfl).1

end FluxServe.Entrypoints
