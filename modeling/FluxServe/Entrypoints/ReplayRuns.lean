import FluxServe.Entrypoints.ReplayRegistry
import FluxServe.Framework.AssocList

namespace FluxServe.Entrypoints

open RequestReplayRegistry

variable {s s' : RequestReplayRegistry} {now completedAt ttl : Rat} {maxEntries maxBytes : Int}
  {key payloadHash event : String} {i j c : Nat} {total : Int} {x : Option String}
  {entries : List (String × Nat)} {e : ReplayEntry} {stream : ReplayStream}

section Evict

/-- The limits hold. -/
def Bounded (s : RequestReplayRegistry) (entries : List (String × Nat)) : Prop :=
  (entries.length : Int) ≤ s.maxEntries ∧ (s.totalBytes entries : Int) ≤ s.maxBytes

theorem totalBytes_cons (y : String × Nat) (entries : List (String × Nat)) :
    s.totalBytes (y :: entries) = (s.entry y.2).bytes+s.totalBytes entries := by
  simp [totalBytes]

/-- What shrinking drops is finished, and it drops no more than the limits ask for. -/
theorem shrink_spec (htotal : total = s.totalBytes entries) :
    ∃ gone, entries = gone ++ s.shrink entries total ∧
      (∀ y ∈ gone, (s.entry y.2).finished = true) ∧
      (∀ n < gone.length, ¬Bounded s (entries.drop n)) ∧
      (Bounded s (s.shrink entries total) ∨ s.shrink entries total = [] ∨
        ∃ y rest, s.shrink entries total = y :: rest ∧ (s.entry y.2).finished = false) := by
  induction entries generalizing total with
  | nil => exact ⟨[],rfl,by simp,by simp,.inr (.inl rfl)⟩
  | cons y rest ih =>
    obtain ⟨key,i⟩ := y
    have hbytes := totalBytes_cons (s := s) (key,i) rest
    unfold shrink
    split
    · next hover =>
      have hfull : ¬Bounded s ((key,i) :: rest) := by
        rintro ⟨hlen,htot⟩
        rw [List.length_cons] at hlen
        omega
      split
      · next hfin =>
        have hless : total-(s.entry i).bytes = s.totalBytes rest := by
          simp only [] at hbytes
          omega
        obtain ⟨gone,hsplit,hgone,hleast,hend⟩ := ih hless
        refine ⟨(key,i) :: gone,by rw [List.cons_append,← hsplit],?_,?_,hend⟩
        · intro y hy
          obtain rfl | hy := List.mem_cons.mp hy
          · exact hfin
          · exact hgone y hy
        · intro n hn
          cases n with
          | zero => exact hfull
          | succ n => exact hleast n (by rw [List.length_cons] at hn; omega)
      · next hfin =>
        exact ⟨[],rfl,by simp,by simp,.inr (.inr ⟨_,_,rfl,by simpa using hfin⟩)⟩
    · next hover =>
      refine ⟨[],rfl,by simp,by simp,.inl ⟨?_,?_⟩⟩
      · rw [List.length_cons]
        omega
      · omega

/-- `_evict` drops the expired entries and then, of the others, the shortest run of oldest ones that
restores the limits; it stops at an entry that is not finished. -/
theorem evict_spec (s : RequestReplayRegistry) (now : Rat) :
    ∃ gone, s.entries.filter (fun y => !s.expired now y.2) = gone ++ (s.evict now).entries ∧ (∀ y ∈ gone, (s.entry y.2).finished = true) ∧
    (∀ n < gone.length, ¬Bounded s ((s.entries.filter fun y => !s.expired now y.2).drop n)) ∧
    (Bounded s (s.evict now).entries ∨ (s.evict now).entries = [] ∨
      ∃ y rest, (s.evict now).entries = y :: rest ∧ (s.entry y.2).finished = false) :=
  shrink_spec rfl

theorem evict_sublist : (s.evict now).entries.Sublist s.entries := by
  obtain ⟨gone,hsplit,_⟩ := evict_spec s now
  have hsub : (s.evict now).entries.Sublist (s.entries.filter fun y => !s.expired now y.2) := by
    rw [hsplit]
    exact List.sublist_append_right _ _
  exact hsub.trans List.filter_sublist

/-- An entry whose events are still being produced stays. -/
theorem mem_evict {y : String × Nat} (now : Rat) (hy : y ∈ s.entries)
    (hfin : (s.entry y.2).finished = false) :
    y ∈ (s.evict now).entries := by
  obtain ⟨gone,hsplit,hgone,_⟩ := evict_spec s now
  have hkept : y ∈ s.entries.filter fun y => !s.expired now y.2 := by
    rw [List.mem_filter]
    exact ⟨hy,by simp [expired,hfin]⟩
  rw [hsplit] at hkept
  obtain hno | hkept := List.mem_append.mp hkept
  · rw [hgone y hno] at hfin
    cases hfin
  · exact hkept

end Evict

section Consistent

/-- What a stream has sent, and what waits in its queue, are the events of its entry in order. -/
def Follows (e : ReplayEntry) (stream : ReplayStream) : Prop :=
  match stream.stage with
  | .replaying n => n ≤ e.events.length ∧ stream.output = e.events.take n
  | .waiting queue => ∃ rest, queue = rest.map some ++ (if e.finished then [none] else []) ∧
      stream.output ++ rest = e.events
  | .complete => e.finished = true ∧ stream.output = e.events
  | .closed => stream.output <+: e.events

/-- A stream waits on its queue. -/
def ReplayStream.Waits (stream : ReplayStream) : Prop := ∃ queue, stream.stage = .waiting queue

/-- The entries that are registered and the tasks that produce events. -/
structure Registered (s : RequestReplayRegistry) : Prop where
  registered : ∀ y ∈ s.entries, y.2 < s.made
  keys : (s.entries.map Prod.fst).Nodup
  ids : (s.entries.map Prod.snd).Nodup
  running : ∀ y ∈ s.producers, y ∈ s.entries ∧ (s.entry y.2).finished = false
  producers : s.producers.Nodup
  produced : ∀ i < s.made, (s.entry i).finished = false → ∃ key, (key,i) ∈ s.producers

/-- The streams and the queues they wait on. -/
structure Streamed (s : RequestReplayRegistry) : Prop where
  attached : ∀ c < s.opened, (s.stream c).entry < s.made
  follows : ∀ c < s.opened, Follows (s.entry (s.stream c).entry) (s.stream c)
  subscribed : ∀ i c, c ∈ (s.entry i).subscribers ↔
    c < s.opened ∧ (s.stream c).entry = i ∧ (s.stream c).Waits
  distinct : ∀ i, (s.entry i).subscribers.Nodup

structure Consistent (s : RequestReplayRegistry) : Prop extends Registered s, Streamed s

theorem consistent_start :
    Consistent { ttl, maxEntries, maxBytes : RequestReplayRegistry } where
  registered := by simp
  keys := List.nodup_nil
  ids := List.nodup_nil
  running := by simp
  producers := List.nodup_nil
  produced := by simp
  attached := by simp
  follows := by simp
  subscribed := by simp
  distinct := fun _ => List.nodup_nil

theorem Consistent.evict (h : Consistent s) (now : Rat) : Consistent (s.evict now) where
  registered y hy := h.registered y (evict_sublist.subset hy)
  keys := (evict_sublist.map _).nodup h.keys
  ids := (evict_sublist.map _).nodup h.ids
  running y hy := ⟨mem_evict _ (h.running y hy).1 (h.running y hy).2,(h.running y hy).2⟩
  producers := h.producers
  produced := h.produced
  attached := h.attached
  follows := h.follows
  subscribed := h.subscribed
  distinct := h.distinct

theorem moveToEnd_perm : (moveToEnd key entries).Perm entries := by
  have hperm := List.filter_append_perm (fun y : String × Nat => decide (y.1 ≠ key)) entries
  have hnot : (fun y : String × Nat => !decide (y.1 ≠ key)) = fun y => decide (y.1 = key) := by
    funext y
    simp
  rwa [hnot] at hperm

/-- A new stream on an entry. -/
theorem Consistent.open (h : Consistent s) (hi : i < s.made) : Consistent { s with
    opened := s.opened+1
    stream := Function.update s.stream s.opened { entry := i, stage := .replaying 0 } } := by
  have hother : ∀ c < s.opened, Function.update s.stream s.opened
      { entry := i, stage := .replaying 0 } c = s.stream c :=
    fun c hc => Function.update_of_ne (by omega) _ _
  have hcases : ∀ c < s.opened+1, c < s.opened ∨ c = s.opened := fun c hc => by omega
  refine ⟨⟨h.registered,h.keys,h.ids,h.running,h.producers,h.produced⟩,?_,?_,?_,h.distinct⟩
  · intro c hc
    obtain hc | rfl := hcases c hc
    · dsimp only
      rw [hother c hc]
      exact h.attached c hc
    · simpa using hi
  · intro c hc
    obtain hc | rfl := hcases c hc
    · dsimp only
      rw [hother c hc]
      exact h.follows c hc
    · simp [Follows]
  · intro j c
    rw [h.subscribed j c]
    dsimp only
    constructor
    · rintro ⟨hc,hrest⟩
      rw [hother c hc]
      exact ⟨by omega,hrest⟩
    · rintro ⟨hc,hentry,hwaits⟩
      obtain hc | rfl := hcases c hc
      · rw [hother c hc] at hentry hwaits
        exact ⟨hc,hentry,hwaits⟩
      · obtain ⟨queue,hstage⟩ := hwaits
        simp at hstage

/-- The entry of a key that is registered moves to the end. -/
theorem Consistent.touch (h : Consistent s) (key : String) :
    Consistent { s with entries := moveToEnd key s.entries } :=
  ⟨⟨fun y hy => h.registered y (moveToEnd_perm.mem_iff.mp hy),
    (moveToEnd_perm.map _).nodup_iff.mpr h.keys,(moveToEnd_perm.map _).nodup_iff.mpr h.ids,
    fun y hy => ⟨moveToEnd_perm.mem_iff.mpr (h.running y hy).1,(h.running y hy).2⟩,h.producers,
    h.produced⟩,h.toStreamed.attached,h.follows,h.subscribed,h.distinct⟩

/-- A new entry with the task that produces its events. -/
theorem Consistent.make (h : Consistent s) (payloadHash : String)
    (hkey : key ∉ s.entries.map Prod.fst) :
    Consistent { s with
      entries := s.entries ++ [(key,s.made)]
      made := s.made+1
      entry := Function.update s.entry s.made { payloadHash }
      producers := s.producers ++ [(key,s.made)] } := by
  have hold : ∀ j < s.made, Function.update s.entry s.made { payloadHash } j = s.entry j :=
    fun j hj => Function.update_of_ne (by omega) _ _
  have hfresh : ∀ y ∈ s.entries, y.2 ≠ s.made := fun y hy => Nat.ne_of_lt (h.registered y hy)
  refine ⟨⟨?_,?_,?_,?_,?_,?_⟩,?_,?_,?_,?_⟩
  · intro y hy
    obtain hy | hy := List.mem_append.mp hy
    · exact Nat.lt_succ_of_lt (h.registered y hy)
    · rw [List.mem_singleton.mp hy]
      exact Nat.lt_succ_self _
  · dsimp only
    rw [List.map_append]
    exact List.nodup_append'.mpr ⟨h.keys,List.nodup_singleton _,by simpa using hkey⟩
  · dsimp only
    rw [List.map_append]
    refine List.nodup_append'.mpr ⟨h.ids,List.nodup_singleton _,?_⟩
    intro i hi hi'
    obtain ⟨y,hy,rfl⟩ := List.mem_map.mp hi
    exact hfresh y hy (by simpa using hi')
  · intro y hy
    obtain hy | hy := List.mem_append.mp hy
    · obtain ⟨hmem,hfin⟩ := h.running y hy
      refine ⟨List.mem_append_left _ hmem,?_⟩
      dsimp only
      rw [hold y.2 (h.registered y hmem)]
      exact hfin
    · rw [List.mem_singleton.mp hy]
      exact ⟨List.mem_append_right _ (List.mem_singleton_self _),by simp⟩
  · refine List.nodup_append'.mpr ⟨h.producers,List.nodup_singleton _,?_⟩
    intro y hy hy'
    rw [List.mem_singleton.mp hy'] at hy
    exact hfresh _ (h.running _ hy).1 rfl
  · intro j hj hfin
    by_cases hjm : j = s.made
    · exact ⟨key,List.mem_append_right _ (by rw [hjm]; exact List.mem_singleton_self _)⟩
    · have hlt : j < s.made := by
        dsimp only at hj
        omega
      dsimp only at hfin
      rw [hold j hlt] at hfin
      obtain ⟨k,hk⟩ := h.produced j hlt hfin
      exact ⟨k,List.mem_append_left _ hk⟩
  · exact fun c hc => Nat.lt_succ_of_lt (h.attached c hc)
  · intro c hc
    dsimp only
    rw [hold _ (h.attached c hc)]
    exact h.follows c hc
  · intro j c
    by_cases hjm : j = s.made
    · have hnot : ¬(c < s.opened ∧ (s.stream c).entry = j ∧ (s.stream c).Waits) := by
        rintro ⟨hc,hentry,_⟩
        have hlt := h.attached c hc
        omega
      subst hjm
      simpa using hnot
    · dsimp only
      rw [Function.update_of_ne hjm]
      exact h.subscribed j c
  · intro j
    by_cases hjm : j = s.made
    · subst hjm
      simp
    · dsimp only
      rw [Function.update_of_ne hjm]
      exact h.distinct j

theorem Consistent.connect (h : Consistent s) (now : Rat) (key payloadHash : String) :
    Consistent (s.connect now key payloadHash) := by
  have he := h.evict now
  unfold RequestReplayRegistry.connect acquire
  dsimp only
  cases hlookup : (s.evict now).entries.lookup key with
  | some i =>
    have hmem := mem_of_lookup hlookup
    dsimp only
    split
    · next heq =>
      split at heq
      · cases heq
      · cases heq
        exact he
    · next r i' owner heq =>
      split at heq
      · cases heq
        exact (he.touch key).open (he.registered _ hmem)
      · cases heq
  | none =>
    have hmade := he.make payloadHash (lookup_eq_none_iff_notMem.mp hlookup)
    exact hmade.open (Nat.lt_succ_self _)

theorem putAll_apply {subscribers : List Nat} (hnodup : subscribers.Nodup)
    (streams : Nat → ReplayStream) (c : Nat) : putAll x subscribers streams c =
      if c ∈ subscribers then (streams c).put x else streams c := by
  induction subscribers generalizing streams with
  | nil => rfl
  | cons d rest ih =>
    obtain ⟨hd,hrest⟩ := List.nodup_cons.mp hnodup
    have hstep := ih hrest (Function.update streams d ((streams d).put x))
    change putAll x rest (Function.update streams d ((streams d).put x)) c = _
    rw [hstep]
    by_cases hcd : c = d
    · subst hcd
      simp [hd]
    · simp [hcd]

@[simp] theorem put_entry : (stream.put x).entry = stream.entry := by
  unfold ReplayStream.put
  split <;> rfl

theorem put_of_not_waits (h : ¬stream.Waits) : stream.put x = stream := by
  unfold ReplayStream.put
  split
  · next queue hstage => exact absurd ⟨queue,hstage⟩ h
  · rfl

theorem put_waits_iff : (stream.put x).Waits ↔ stream.Waits := by
  by_cases h : stream.Waits
  · obtain ⟨queue,hstage⟩ := h
    simp [ReplayStream.put,ReplayStream.Waits,hstage]
  · rw [put_of_not_waits h]

/-- All who wait on an entry get a change of it in their queues. -/
theorem Consistent.feed (h : Consistent s) (hsub : e.subscribers = (s.entry i).subscribers)
    (hfollows : ∀ stream, Follows (s.entry i) stream → Follows e (stream.put x)) :
    Streamed { s with
      entry := Function.update s.entry i e
      stream := putAll x (s.entry i).subscribers s.stream } := by
  have hput : ∀ c, (s.stream c).entry = i → c < s.opened →
      putAll x (s.entry i).subscribers s.stream c = (s.stream c).put x := by
    intro c hc hopen
    rw [putAll_apply (h.distinct i)]
    split
    · rfl
    · next hno =>
      rw [put_of_not_waits]
      exact fun hwaits => hno ((h.subscribed i c).mpr ⟨hopen,hc,hwaits⟩)
  have hother : ∀ c, (s.stream c).entry ≠ i →
      putAll x (s.entry i).subscribers s.stream c = s.stream c := by
    intro c hc
    rw [putAll_apply (h.distinct i),if_neg]
    exact fun hmem => hc ((h.subscribed i c).mp hmem).2.1
  have hentry : ∀ c, (putAll x (s.entry i).subscribers s.stream c).entry = (s.stream c).entry := by
    intro c
    rw [putAll_apply (h.distinct i)]
    split <;> simp
  have hwaits : ∀ c, (putAll x (s.entry i).subscribers s.stream c).Waits ↔ (s.stream c).Waits := by
    intro c
    rw [putAll_apply (h.distinct i)]
    split
    · exact put_waits_iff
    · exact Iff.rfl
  refine ⟨?_,?_,?_,?_⟩
  · intro c hc
    dsimp only
    rw [hentry]
    exact h.attached c hc
  · intro c hc
    dsimp only
    rw [hentry]
    by_cases hi : (s.stream c).entry = i
    · rw [hput c hi hc,hi,Function.update_self]
      have hold := h.follows c hc
      rw [hi] at hold
      exact hfollows _ hold
    · rw [hother c hi,Function.update_of_ne hi]
      exact h.follows c hc
  · intro j c
    dsimp only
    rw [hentry,hwaits,← h.subscribed j c]
    by_cases hj : j = i
    · subst hj
      rw [Function.update_self,hsub]
    · rw [Function.update_of_ne hj]
  · intro j
    by_cases hj : j = i
    · subst hj
      simpa [hsub] using h.distinct j
    · simpa [hj] using h.distinct j

theorem Consistent.publish (h : Consistent s) (hrun : (key,i) ∈ s.producers) (event : String) :
    Consistent (s.publish i event) := by
  have hfin : (s.entry i).finished = false := (h.running _ hrun).2
  have hsame : ∀ j, (Function.update s.entry i { s.entry i with
      events := (s.entry i).events ++ [event] } j).finished = (s.entry j).finished := by
    intro j
    by_cases hj : j = i
    · subst hj
      simp
    · rw [Function.update_of_ne hj]
  refine ⟨⟨h.registered,h.keys,h.ids,fun y hy => ⟨(h.running y hy).1,?_⟩,h.producers,?_⟩,?_⟩
  · exact (hsame y.2).trans (h.running y hy).2
  · exact fun j hj hj_fin => h.produced j hj ((hsame j).symm.trans hj_fin)
  · refine h.feed (e := { s.entry i with events := (s.entry i).events ++ [event] }) rfl ?_
    intro stream hold
    unfold Follows ReplayStream.put at *
    cases hstage : stream.stage with
    | replaying n =>
      simp only [hstage] at hold ⊢
      refine ⟨by rw [List.length_append]; omega,?_⟩
      rw [hold.2,List.take_append_of_le_length hold.1]
    | waiting queue =>
      simp only [hstage,hfin] at hold ⊢
      obtain ⟨rest,hqueue,hout⟩ := hold
      refine ⟨rest ++ [event],by simpa using hqueue,?_⟩
      rw [← List.append_assoc,hout]
    | complete =>
      simp only [hstage,hfin] at hold
      cases hold.1
    | closed =>
      simp only [hstage] at hold ⊢
      exact hold.trans (List.prefix_append _ _)

/-- The state of `finish` before it evicts. -/
theorem Consistent.ended (h : Consistent s) (hrun : (key,i) ∈ s.producers) (completedAt : Rat) :
    Consistent { s with
      entry := Function.update s.entry i { s.entry i with finished := true, completedAt }
      stream := putAll none (s.entry i).subscribers s.stream
      producers := s.producers.erase (key,i) } := by
  have hfin : (s.entry i).finished = false := (h.running _ hrun).2
  have honly : ∀ y ∈ s.producers.erase (key,i), y ∈ s.producers ∧ y.2 ≠ i := by
    intro y hy
    have hmem := List.mem_of_mem_erase hy
    refine ⟨hmem,fun hi => ?_⟩
    have hsame : y = (key,i) :=
      List.inj_on_of_nodup_map h.ids (h.running y hmem).1 (h.running _ hrun).1 hi
    rw [hsame] at hy
    exact (List.Nodup.not_mem_erase h.producers) hy
  refine ⟨⟨h.registered,h.keys,h.ids,fun y hy => ?_,h.producers.erase _,?_⟩,?_⟩
  · obtain ⟨hmem,hne⟩ := honly y hy
    refine ⟨(h.running y hmem).1,?_⟩
    dsimp only
    rw [Function.update_of_ne hne]
    exact (h.running y hmem).2
  · intro j hj hj_fin
    by_cases hji : j = i
    · subst hji
      simp at hj_fin
    · dsimp only at hj_fin
      rw [Function.update_of_ne hji] at hj_fin
      obtain ⟨k,hk⟩ := h.produced j hj hj_fin
      refine ⟨k,(List.mem_erase_of_ne ?_).mpr hk⟩
      simp [hji]
  · have hfed := h.feed (i := i) (x := none)
      (e := { s.entry i with finished := true, completedAt }) rfl ?_
    · exact ⟨hfed.attached,hfed.follows,hfed.subscribed,hfed.distinct⟩
    · intro stream hold
      unfold Follows ReplayStream.put at *
      cases hstage : stream.stage with
      | replaying n =>
        simp only [hstage] at hold ⊢
        exact hold
      | waiting queue =>
        simp only [hstage,hfin] at hold ⊢
        obtain ⟨rest,hqueue,hout⟩ := hold
        exact ⟨rest,by simpa using hqueue,hout⟩
      | complete =>
        simp only [hstage,hfin] at hold
        cases hold.1
      | closed =>
        simp only [hstage] at hold ⊢
        exact hold

theorem Consistent.finish (h : Consistent s) (hrun : (key,i) ∈ s.producers)
    (completedAt now : Rat) :
    Consistent ({ s with producers := s.producers.erase (key,i) }.finish i completedAt now) :=
  (h.ended hrun completedAt).evict now

/-- A stream moves on, and its entry keeps it as a subscriber exactly while it waits. -/
theorem Consistent.turn (h : Consistent s) {subscribers : List Nat}
    (hentry : stream.entry = (s.stream c).entry) (hfollows : Follows (s.entry stream.entry) stream)
    (hsub : ∀ d, d ∈ subscribers ↔ if d = c then c < s.opened ∧ stream.Waits
      else d ∈ (s.entry stream.entry).subscribers)
    (hnodup : subscribers.Nodup) :
    Consistent ((s.setStream c stream).setSubscribers stream.entry subscribers) := by
  have hfinished : ∀ j, (Function.update s.entry stream.entry
      { s.entry stream.entry with subscribers } j).finished = (s.entry j).finished := by
    intro j
    by_cases hj : j = stream.entry
    · rw [hj,Function.update_self]
    · rw [Function.update_of_ne hj]
  have hkept : ∀ j d, Follows (Function.update s.entry stream.entry
      { s.entry stream.entry with subscribers } j) d ↔ Follows (s.entry j) d := by
    intro j d
    by_cases hj : j = stream.entry
    · rw [hj,Function.update_self]
      rfl
    · rw [Function.update_of_ne hj]
  refine ⟨⟨h.registered,h.keys,h.ids,fun y hy => ⟨(h.running y hy).1,?_⟩,h.producers,?_⟩,
    ?_,?_,?_,?_⟩
  · exact (hfinished y.2).trans (h.running y hy).2
  · exact fun j hj hj_fin => h.produced j hj ((hfinished j).symm.trans hj_fin)
  · intro d hd
    by_cases hdc : d = c
    · subst hdc
      simpa [setStream,setSubscribers,hentry] using h.attached d hd
    · simpa [setStream,setSubscribers,hdc] using h.attached d hd
  · intro d hd
    refine (hkept _ _).mpr ?_
    by_cases hdc : d = c
    · subst hdc
      simpa [setStream,setSubscribers] using hfollows
    · simpa [setStream,setSubscribers,hdc] using h.follows d hd
  · intro j d
    by_cases hj : j = stream.entry
    · subst hj
      by_cases hdc : d = c
      · subst hdc
        simpa [setStream,setSubscribers] using hsub d
      · simpa [setStream,setSubscribers,hdc] using (hsub d).trans (by simp [hdc,h.subscribed])
    · by_cases hdc : d = c
      · subst hdc
        have hno : ¬(s.stream d).entry = j := fun heq => hj (heq ▸ hentry.symm)
        have hno' : ¬stream.entry = j := fun heq => hj heq.symm
        simp [setStream,setSubscribers,hj,h.subscribed,hno,hno']
      · simpa [setStream,setSubscribers,hj,hdc] using h.subscribed j d
  · intro j
    by_cases hj : j = stream.entry
    · subst hj
      simpa [setStream,setSubscribers] using hnodup
    · simpa [setStream,setSubscribers,hj] using h.distinct j

theorem Consistent.serve (h : Consistent s) (hc : c < s.opened)
    (hentry : stream.entry = (s.stream c).entry) (hfollows : Follows (s.entry stream.entry) stream)
    (hwaits : stream.Waits ↔ (s.stream c).Waits) : Consistent (s.setStream c stream) := by
  have hturn := h.turn (c := c) hentry hfollows
    (fun d => ?_) (h.distinct stream.entry)
  · simpa [setStream,setSubscribers] using hturn
  · split
    · next hd =>
      subst hd
      rw [h.subscribed,hentry,hwaits]
      simp
    · rfl

theorem Consistent.leave (h : Consistent s) (hentry : stream.entry = (s.stream c).entry)
    (hfollows : Follows (s.entry stream.entry) stream) (hwaits : ¬stream.Waits) :
    Consistent ((s.setStream c stream).setSubscribers stream.entry
      ((s.entry stream.entry).subscribers.erase c)) := by
  refine h.turn hentry hfollows (fun d => ?_) ((h.distinct _).erase c)
  rw [(h.distinct _).mem_erase_iff]
  by_cases hd : d = c
  · simp [hd,hwaits]
  · simp [hd]

theorem Consistent.pull (h : Consistent s) (hc : c < s.opened) : Consistent (s.pull c) := by
  have hold := h.follows c hc
  unfold RequestReplayRegistry.pull
  dsimp only
  cases hstage : (s.stream c).stage with
  | replaying n =>
    simp only [Follows,hstage] at hold
    dsimp only
    split
    · next event hevent =>
      obtain ⟨hn,_⟩ := List.getElem?_eq_some_iff.mp hevent
      refine h.serve hc rfl ⟨hn,?_⟩ (by simp [ReplayStream.Waits,hstage])
      rw [List.take_succ,hevent,hold.2]
      rfl
    · next hevent =>
      have hn : n = (s.entry (s.stream c).entry).events.length :=
        Nat.le_antisymm hold.1 (List.getElem?_eq_none_iff.mp hevent)
      have hall : (s.stream c).output = (s.entry (s.stream c).entry).events := by
        rw [hold.2,hn,List.take_length]
      split
      · next hfin => exact h.serve hc rfl ⟨hfin,hall⟩ (by simp [ReplayStream.Waits,hstage])
      · next hfin =>
        have hnew : c ∉ (s.entry (s.stream c).entry).subscribers := by
          rw [h.subscribed]
          rintro ⟨_,_,queue,hqueue⟩
          rw [hstage] at hqueue
          cases hqueue
        refine h.turn rfl ?_ (fun d => ?_) (List.nodup_append'.mpr
          ⟨h.distinct _,List.nodup_singleton c,by simpa using hnew⟩)
        · exact ⟨[],by simp [hfin],by simpa using hall⟩
        · by_cases hd : d = c
          · simp [hd,hc,ReplayStream.Waits]
          · simp [hd]
  | waiting queue =>
    simp only [Follows,hstage] at hold
    obtain ⟨rest,hqueue,hout⟩ := hold
    cases rest with
    | nil =>
      cases hfin : (s.entry (s.stream c).entry).finished with
      | false =>
        simp only [hfin] at hqueue
        simpa [hqueue] using h
      | true =>
        simp only [hfin] at hqueue
        rw [hqueue]
        exact h.leave rfl ⟨hfin,by simpa using hout⟩ (by simp [ReplayStream.Waits])
    | cons event rest =>
      rw [hqueue]
      refine h.serve hc rfl ⟨rest,rfl,?_⟩ (by simp [ReplayStream.Waits,hstage])
      rw [← hout,List.append_assoc]
      rfl
  | complete => exact h
  | closed => exact h

theorem Follows.leads (h : Follows e stream) : stream.output <+: e.events := by
  unfold Follows at h
  cases hstage : stream.stage with
  | replaying n =>
    simp only [hstage] at h
    rw [h.2]
    exact List.take_prefix n _
  | waiting queue =>
    simp only [hstage] at h
    obtain ⟨rest,_,hout⟩ := h
    exact ⟨rest,hout⟩
  | complete =>
    simp only [hstage] at h
    exact h.2 ▸ List.prefix_refl _
  | closed => simpa only [hstage] using h

theorem Consistent.close (h : Consistent s) (hc : c < s.opened) : Consistent (s.close c) := by
  have hsent := (h.follows c hc).leads
  unfold RequestReplayRegistry.close
  dsimp only
  cases hstage : (s.stream c).stage with
  | replaying n => exact h.serve hc rfl hsent (by simp [ReplayStream.Waits,hstage])
  | waiting queue => exact h.leave rfl hsent (by simp [ReplayStream.Waits])
  | complete => exact h
  | closed => exact h

theorem RegistryStep.consistent (step : RegistryStep s s') (h : Consistent s) : Consistent s' := by
  cases step with
  | connect now key payloadHash => exact h.connect now key payloadHash
  | publish running event => exact h.publish running event
  | finish running completedAt now => exact h.finish running completedAt now
  | pull opened => exact h.pull opened
  | close opened => exact h.close opened

theorem RegistryRuns.consistent (run : RegistryRuns ttl maxEntries maxBytes s) : Consistent s := by
  induction run with
  | start => exact consistent_start
  | step _ step ih => exact step.consistent ih

end Consistent

end FluxServe.Entrypoints
