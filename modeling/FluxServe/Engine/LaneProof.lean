import FluxServe.Engine.BlockDiffusion
import Mathlib.Algebra.Order.BigOperators.Group.List
import Mathlib.Algebra.Order.Ring.Nat
import Mathlib.Data.List.Forall2
import Mathlib.Data.Nat.ModEq

namespace FluxServe.Engine

theorem le_alignExp2 (x : Nat) : x ≤ alignExp2 x := by
  unfold alignExp2
  split
  · omega
  · exact Nat.le_of_lt Nat.lt_log2_self

theorem le_ceilTo {b : Nat} (hb : 0 < b) (n : Nat) : n ≤ ceilTo b n := by
  have h := Nat.div_add_mod (n+b-1) b
  have hlt := Nat.mod_lt (n+b-1) hb
  unfold ceilTo
  rw [Nat.mul_comm]
  omega

theorem dvd_ceilTo (b n : Nat) : b ∣ ceilTo b n := Nat.dvd_mul_left b _

theorem ceilTo_mono (b : Nat) {m n : Nat} (h : m ≤ n) : ceilTo b m ≤ ceilTo b n :=
  Nat.mul_le_mul_right b (Nat.div_le_div_right (by omega))

/-- Two starts in step with each other are equal when they are less than a block apart. -/
theorem eq_of_mod_eq_of_lt {b m n : Nat} (hmod : m%b = n%b) (hle : m ≤ n) (hlt : n < m+b) :
    m = n := by
  have hdvd : b ∣ n-m := (Nat.modEq_iff_dvd' hle).mp hmod
  have hzero : n-m = 0 := Nat.eq_zero_of_dvd_of_lt hdvd (by omega)
  omega

theorem le_of_dvd_of_lt {b m n : Nat} (hm : b ∣ m) (hn : b ∣ n) (hlt : m < n+b) : m ≤ n := by
  obtain ⟨i,rfl⟩ := hm
  obtain ⟨j,rfl⟩ := hn
  rw [← Nat.mul_succ] at hlt
  exact Nat.mul_le_mul_left b (Nat.le_of_lt_succ (Nat.lt_of_mul_lt_mul_left hlt))

section Advance

variable {c : RunnerConfig} {model : RowModel c.maskId} {es : Bool} {total window : Nat}
  {l : Lane model.Row}

def Lane.block (b : Nat) {ρ : Type} (l : Lane ρ) : List Token := (l.tokens.drop l.start).take b

/-- The block and the row after one iteration. -/
def Lane.iterated (c : RunnerConfig) (model : RowModel c.maskId) (window : Nat)
    (l : Lane model.Row) : List Token × model.Row :=
  model.iterate window l.start l.promptLength (l.block c.blockLength,l.row)

/-- Whether an iteration finishes the block: no masks, and no change. -/
def Lane.finishes (c : RunnerConfig) (model : RowModel c.maskId) (window : Nat)
    (l : Lane model.Row) : Prop :=
  c.maskId ∉ l.block c.blockLength ∧ (l.iterated c model window).1 = l.block c.blockLength

theorem iterated_length (model : RowModel c.maskId) (window : Nat) (l : Lane model.Row) :
    (l.iterated c model window).1.length = (l.block c.blockLength).length :=
  model.iterate_length window l.start l.promptLength _

@[simp] theorem advance_promptLength :
    (l.advance c model es total window).promptLength = l.promptLength := rfl

@[simp] theorem advance_decodeLength :
    (l.advance c model es total window).decodeLength = l.decodeLength := rfl

theorem advance_tokens : (l.advance c model es total window).tokens =
    l.tokens.take l.start ++ (l.iterated c model window).1 ++
      l.tokens.drop (l.start+c.blockLength) := rfl

theorem advance_row :
    (l.advance c model es total window).row = (l.iterated c model window).2 := rfl

variable (c model es total window l) in
/-- Where a row goes on: at the same block, at the next one, or nowhere after a stop token. -/
theorem advance_start :
    (¬l.finishes c model window ∧ (l.advance c model es total window).start = l.start) ∨
    (l.finishes c model window ∧
      ¬(es = true ∧ generatedEosHit c (l.advance c model es total window).tokens l.promptLength
        (l.start+c.blockLength) = true) ∧
      (l.advance c model es total window).start = l.start+c.blockLength) ∨
    (l.finishes c model window ∧ es = true ∧
      generatedEosHit c (l.advance c model es total window).tokens l.promptLength
        (l.start+c.blockLength) = true ∧
      (l.advance c model es total window).start = total) := by
  unfold Lane.advance Lane.finishes Lane.iterated Lane.block
  dsimp only
  by_cases hf : c.maskId ∉ (l.tokens.drop l.start).take c.blockLength ∧
      (model.iterate window l.start l.promptLength
        ((l.tokens.drop l.start).take c.blockLength,l.row)).1 =
          (l.tokens.drop l.start).take c.blockLength
  · by_cases he : es = true ∧ generatedEosHit c (l.tokens.take l.start ++
        (model.iterate window l.start l.promptLength
          ((l.tokens.drop l.start).take c.blockLength,l.row)).1 ++
        l.tokens.drop (l.start+c.blockLength)) l.promptLength (l.start+c.blockLength) = true
    · refine Or.inr (Or.inr ⟨hf,he.1,he.2,?_⟩)
      rw [if_pos hf,if_pos ⟨he.1,hf,he.2⟩]
    · refine Or.inr (Or.inl ⟨hf,he,?_⟩)
      rw [if_pos hf,if_neg fun h => he ⟨h.1,h.2.2⟩]
  · refine Or.inl ⟨hf,?_⟩
    rw [if_neg hf,if_neg fun h => hf h.2.1]

theorem block_length {ρ : Type} {l : Lane ρ} (hfit : l.start+c.blockLength ≤ l.tokens.length) :
    (l.block c.blockLength).length = c.blockLength := by
  simp only [Lane.block,List.length_take,List.length_drop]
  omega

theorem advance_tokens_length (hfit : l.start+c.blockLength ≤ l.tokens.length) :
    (l.advance c model es total window).tokens.length = l.tokens.length := by
  have hlen := iterated_length model window l
  rw [block_length hfit] at hlen
  simp only [advance_tokens,List.length_append,List.length_take,List.length_drop]
  omega

theorem advance_take (hfit : l.start+c.blockLength ≤ l.tokens.length) {n : Nat}
    (hn : n ≤ l.start) :
    (l.advance c model es total window).tokens.take n = l.tokens.take n := by
  rw [advance_tokens,List.append_assoc,List.take_append_of_le_length]
  · rw [List.take_take,Nat.min_eq_left hn]
  · rw [List.length_take]
    omega

end Advance

section Solo

variable (c : RunnerConfig) (model : RowModel c.maskId) (es : Bool) (maxLength total : Nat)

/-- The window a row is stepped in when it is alone. -/
def soloWindow {ρ : Type} (window : Nat) (l : Lane ρ) : Nat :=
  if l.current c window then window else cacheLength c maxLength l.start

/-- The decode loop of one row. -/
def soloTurn (x : Nat × Lane model.Row) : Nat × Lane model.Row :=
  let window := soloWindow c maxLength x.1 x.2
  (window,x.2.advance c model es total window)

def soloDone {ρ : Type} (x : Nat × Lane ρ) : Bool := !x.2.active c

/-- From `window` on, the row alone comes to `final` after `n` iterations. -/
def EndsAlone (window : Nat) (l final : Lane model.Row) (n : Nat) : Prop :=
  ∃ w, Ends (soloDone c) (soloTurn c model es maxLength total) (window,l) (w,final) n

/-- What the loops keep about a row: its canvas, its limits, and the grid its blocks lie on. -/
structure Lane.Placed {ρ : Type} (s₀ window : Nat) (l : Lane ρ) : Prop where
  canvas : l.tokens.length = total
  limit : l.decodeLength ≤ total
  grid : l.active c = true →
    s₀ ≤ l.start ∧ l.start%c.blockLength = s₀%c.blockLength ∧
      (l.start+c.blockLength ≤ window ∨ l.start = s₀ ∨ l.start ≤ window)

variable {c model es maxLength total} {ρ : Type} {s₀ window : Nat} {l m : Lane model.Row}

theorem active_iff {l : Lane ρ} :
    l.active c = true ↔ l.start+c.blockLength ≤ l.decodeLength := by
  simp [Lane.active]

theorem current_iff {l : Lane ρ} : l.current c window = true ↔
    l.active c = true ∧ l.start+c.blockLength ≤ window := by
  simp [Lane.current]

/-- A window reaches at least to the end of the block it was cut for. -/
theorem le_cacheLength {start : Nat} (h : start+c.blockLength ≤ maxLength) :
    start+c.blockLength ≤ cacheLength c maxLength start := by
  unfold cacheLength
  have halign := le_alignExp2 (start+c.blockLength)
  omega

theorem Lane.Placed.fits {l : Lane ρ} (h : l.Placed c total s₀ window)
    (ha : l.active c = true) : l.start+c.blockLength ≤ l.tokens.length := by
  rw [h.canvas]
  exact (active_iff.mp ha).trans h.limit

theorem Lane.Placed.current_cacheLength {l : Lane ρ} (h : l.Placed c total s₀ window)
    (hM : total ≤ maxLength) (ha : l.active c = true) :
    l.current c (cacheLength c maxLength l.start) = true :=
  current_iff.mpr ⟨ha,le_cacheLength ((active_iff.mp ha).trans (h.limit.trans hM))⟩

/-- Active rows beyond the window stand at the same block. -/
theorem Lane.Placed.start_eq {l m : Lane ρ} (hl : l.Placed c total s₀ window)
    (hm : m.Placed c total s₀ window) (hla : l.active c = true) (hma : m.active c = true)
    (hlw : ¬l.start+c.blockLength ≤ window) (hmw : ¬m.start+c.blockLength ≤ window) :
    l.start = m.start := by
  obtain ⟨hl₀,hlmod,hlat⟩ := hl.grid hla
  obtain ⟨hm₀,hmmod,hmat⟩ := hm.grid hma
  have hpos := c.blockLength_pos
  rcases Nat.le_total l.start m.start with hle | hle
  · exact eq_of_mod_eq_of_lt (hlmod.trans hmmod.symm) hle (by omega)
  · exact (eq_of_mod_eq_of_lt (hmmod.trans hlmod.symm) hle (by omega)).symm

theorem Lane.Placed.advance (h : l.Placed c total s₀ window) (hc : l.current c window = true) :
    (l.advance c model es total window).Placed c total s₀ window := by
  obtain ⟨ha,hw⟩ := current_iff.mp hc
  obtain ⟨h₀,hmod,_⟩ := h.grid ha
  constructor
  · rw [advance_tokens_length (h.fits ha)]
    exact h.canvas
  · exact h.limit
  · intro ha'
    rcases advance_start c model es total window l with ⟨_,hs⟩ | ⟨_,_,hs⟩ | ⟨_,_,_,hs⟩
    · rw [hs]
      exact ⟨h₀,hmod,.inl hw⟩
    · rw [hs]
      refine ⟨by omega,?_,.inr (.inr hw)⟩
      rw [Nat.add_mod_right]
      exact hmod
    · have hlim := active_iff.mp ha'
      rw [hs,advance_decodeLength] at hlim
      have hpos := c.blockLength_pos
      have hle := h.limit
      omega

theorem Lane.Placed.widen {l : Lane ρ} {window' : Nat} (h : l.Placed c total s₀ window)
    (hw : l.active c = true → l.start+c.blockLength ≤ window') :
    l.Placed c total s₀ window' := by
  refine ⟨h.canvas,h.limit,?_⟩
  intro ha
  obtain ⟨h₀,hmod,_⟩ := h.grid ha
  exact ⟨h₀,hmod,.inl (hw ha)⟩

end Solo

section Batch

variable {c : RunnerConfig} {model : RowModel c.maskId} {es : Bool} {maxLength total s₀ : Nat}
  {d : Decoding model.Row}

/-- The rows of a batch that started at the same block. -/
def Decoding.Placed (c : RunnerConfig) (total s₀ : Nat) {ρ : Type} (d : Decoding ρ) : Prop :=
  ∀ l ∈ d.lanes, l.Placed c total s₀ d.window

theorem nextWindow_of_current {ρ : Type} {d : Decoding ρ}
    (h : d.lanes.any (Lane.current c d.window) = true) : nextWindow c maxLength d = d.window := by
  unfold nextWindow
  rw [if_pos h]

/-- When the round is over, the next window is the one any of the active rows asks for. -/
theorem nextWindow_of_none {ρ : Type} {d : Decoding ρ} (hd : d.Placed c total s₀)
    (h : ¬d.lanes.any (Lane.current c d.window) = true) {l : Lane ρ} (hl : l ∈ d.lanes)
    (ha : l.active c = true) : nextWindow c maxLength d = cacheLength c maxLength l.start := by
  have hbeyond : ∀ m ∈ d.lanes, m.active c = true → ¬m.start+c.blockLength ≤ d.window := by
    intro m hm hma hw
    exact h (List.any_eq_true.mpr ⟨m,hm,current_iff.mpr ⟨hma,hw⟩⟩)
  have hmin : ((d.lanes.filter (Lane.active c)).map Lane.start).min? = some l.start := by
    rw [List.min?_eq_some_iff]
    constructor
    · exact List.mem_map_of_mem (List.mem_filter.mpr ⟨hl,ha⟩)
    · intro start hstart
      obtain ⟨m,hm,rfl⟩ := List.mem_map.mp hstart
      obtain ⟨hm,hma⟩ := List.mem_filter.mp hm
      exact ((hd l hl).start_eq (hd m hm) ha hma (hbeyond l hl ha) (hbeyond m hm hma)).le
  unfold nextWindow
  rw [if_neg h]
  dsimp only
  rw [hmin]
  rfl

theorem soloWindow_eq_nextWindow {ρ : Type} {d : Decoding ρ} (hd : d.Placed c total s₀)
    {l : Lane ρ} (hl : l ∈ d.lanes) (hc : l.current c (nextWindow c maxLength d) = true) :
    soloWindow c maxLength d.window l = nextWindow c maxLength d := by
  by_cases h : d.lanes.any (Lane.current c d.window) = true
  · rw [nextWindow_of_current h] at hc ⊢
    unfold soloWindow
    rw [if_pos hc]
  · have hn : ¬l.current c d.window = true := fun hlc => h (List.any_eq_true.mpr ⟨l,hl,hlc⟩)
    unfold soloWindow
    rw [if_neg hn,nextWindow_of_none hd h hl (current_iff.mp hc).1]

theorem soloWindow_nextWindow {ρ : Type} {d : Decoding ρ} (hd : d.Placed c total s₀)
    {l : Lane ρ} (hl : l ∈ d.lanes) (ha : l.active c = true) :
    soloWindow c maxLength (nextWindow c maxLength d) l = soloWindow c maxLength d.window l := by
  by_cases h : d.lanes.any (Lane.current c d.window) = true
  · rw [nextWindow_of_current h]
  · have hn : ¬l.current c d.window = true := fun hlc => h (List.any_eq_true.mpr ⟨l,hl,hlc⟩)
    rw [nextWindow_of_none hd h hl ha]
    unfold soloWindow
    rw [if_neg hn,ite_self]

theorem mem_selectDecodeSequences {ρ : Type} {lanes : List (Lane ρ)} {window i : Nat}
    (h : i ∈ selectDecodeSequences c lanes window) :
    ∃ l, lanes[i]? = some l ∧ l.current c window = true := by
  unfold selectDecodeSequences at h
  have hmem := List.mem_of_mem_take h
  have hfilter : i ∈ (List.range lanes.length).filter
      fun i => (lanes[i]?).any (Lane.current c window) := by
    split at hmem
    · exact hmem
    · exact (List.perm_insertionSort _ _).mem_iff.mp hmem
  have hany := (List.mem_filter.mp hfilter).2
  cases hget : lanes[i]? with
  | none =>
    rw [hget] at hany
    cases hany
  | some l =>
    rw [hget] at hany
    exact ⟨l,rfl,hany⟩

/-- Some row is taken as long as one is within the window. -/
theorem exists_mem_selectDecodeSequences {ρ : Type} {lanes : List (Lane ρ)} {window : Nat}
    {l : Lane ρ} (hl : l ∈ lanes) (hc : l.current c window = true) :
    ∃ i, i ∈ selectDecodeSequences c lanes window := by
  obtain ⟨i,hi,hil⟩ := List.getElem_of_mem hl
  have hget : lanes[i]? = some l := by rw [List.getElem?_eq_getElem hi,hil]
  unfold selectDecodeSequences
  extract_lets candidates masks sorted
  have hcand : i ∈ candidates := by
    refine List.mem_filter.mpr ⟨List.mem_range.mpr hi,?_⟩
    rw [hget]
    exact hc
  have hsorted : sorted.length = candidates.length := by
    unfold sorted
    split
    · rfl
    · exact List.length_insertionSort _ _
  have hpos := List.length_pos_of_mem hcand
  have htake : 0 < (sorted.take c.miniBatchSize).length := by
    rw [List.length_take,hsorted]
    exact Nat.lt_min.mpr ⟨c.miniBatchSize_pos,hpos⟩
  exact List.exists_mem_of_length_pos htake

variable (c es maxLength total) in
theorem turn_getElem? (d : Decoding model.Row) (i : Nat) :
    (d.turn c model es maxLength total).lanes[i]? = (d.lanes[i]?).map fun l =>
      if i ∈ selectDecodeSequences c d.lanes (nextWindow c maxLength d) then
        l.advance c model es total (nextWindow c maxLength d) else l := by
  simp [Decoding.turn]

theorem turn_length (d : Decoding model.Row) :
    (d.turn c model es maxLength total).lanes.length = d.lanes.length := by
  simp [Decoding.turn]

/-- Once the round is over every active row is within the next window. -/
theorem nextWindow_reaches (hd : d.Placed c total s₀) (hM : total ≤ maxLength)
    (h : ¬d.lanes.any (Lane.current c d.window) = true) {l : Lane model.Row} (hl : l ∈ d.lanes)
    (ha : l.active c = true) : l.current c (nextWindow c maxLength d) = true := by
  rw [nextWindow_of_none hd h hl ha]
  exact (hd l hl).current_cacheLength hM ha

theorem exists_current_nextWindow (hd : d.Placed c total s₀) (hM : total ≤ maxLength)
    (hgo : d.done c = false) :
    ∃ l ∈ d.lanes, l.current c (nextWindow c maxLength d) = true := by
  by_cases h : d.lanes.any (Lane.current c d.window) = true
  · rw [nextWindow_of_current h]
    exact List.any_eq_true.mp h
  · have hactive : d.lanes.any (Lane.active c) = true := by simpa [Decoding.done] using hgo
    obtain ⟨l,hl,ha⟩ := List.any_eq_true.mp hactive
    exact ⟨l,hl,nextWindow_reaches hd hM h hl ha⟩

theorem Decoding.Placed.turn (hd : d.Placed c total s₀) (hM : total ≤ maxLength) :
    (d.turn c model es maxLength total).Placed c total s₀ := by
  intro l' hl'
  obtain ⟨i,hi,hget⟩ := List.getElem_of_mem hl'
  have hget' := turn_getElem? c es maxLength total d i
  rw [List.getElem?_eq_getElem hi,hget] at hget'
  obtain ⟨l,hl,heq⟩ := Option.map_eq_some_iff.mp hget'.symm
  have hmem := List.mem_of_getElem? hl
  have hwide : l.Placed c total s₀ (nextWindow c maxLength d) := by
    by_cases h : d.lanes.any (Lane.current c d.window) = true
    · rw [nextWindow_of_current h]
      exact hd l hmem
    · exact (hd l hmem).widen fun ha =>
        (current_iff.mp (nextWindow_reaches hd hM h hmem ha)).2
  rw [← heq]
  split
  · rename_i hsel
    obtain ⟨l₁,hl₁,hc⟩ := mem_selectDecodeSequences hsel
    obtain rfl : l₁ = l := Option.some.inj (hl₁.symm.trans hl)
    exact hwide.advance hc
  · exact hwide

theorem EndsAlone.inactive {window n : Nat} {l final : Lane model.Row}
    (h : EndsAlone c model es maxLength total window l final n) (hi : l.active c = false) :
    final = l := by
  obtain ⟨w,hends⟩ := h
  have hdone : soloDone c (window,l) = true := by simp [soloDone,hi]
  have heq := (hends.unique (.done hdone)).1
  exact congrArg Prod.snd heq

theorem EndsAlone.turn {window n : Nat} {l final : Lane model.Row}
    (h : EndsAlone c model es maxLength total window l final n) (ha : l.active c = true) :
    ∃ n', n = n'+1 ∧
      EndsAlone c model es maxLength total (soloWindow c maxLength window l)
        (l.advance c model es total (soloWindow c maxLength window l)) final n' := by
  obtain ⟨w,hends⟩ := h
  cases hends with
  | done stop => simp [soloDone,ha] at stop
  | turn go rest => exact ⟨_,rfl,w,rest⟩

/-- Of the window only what the row's next iteration makes of it counts. -/
theorem EndsAlone.window {window window' n : Nat} {l final : Lane model.Row}
    (h : EndsAlone c model es maxLength total window l final n)
    (hw : l.active c = true →
      soloWindow c maxLength window' l = soloWindow c maxLength window l) :
    EndsAlone c model es maxLength total window' l final n := by
  obtain ⟨w,hends⟩ := h
  cases hends with
  | done stop => exact ⟨window',.done stop⟩
  | turn go rest =>
    refine ⟨w,.turn go ?_⟩
    have hturn : soloTurn c model es maxLength total (window',l) =
        soloTurn c model es maxLength total (window,l) := by
      simp only [soloTurn]
      rw [hw (by simpa [soloDone] using go)]
    rw [hturn]
    exact rest

/-- What is left of the rows' iterations falls with every turn of the batch. -/
theorem sum_map_lt {counts counts' : Nat → Nat} {n i : Nat} (hi : i < n)
    (hle : ∀ j < n, counts' j ≤ counts j) (hlt : counts' i < counts i) :
    ((List.range n).map counts').sum < ((List.range n).map counts).sum := by
  apply List.sum_lt_sum
  · intro j hj
    exact hle j (List.mem_range.mp hj)
  · exact ⟨i,List.mem_range.mpr hi,hlt⟩

/-- A batch brings every row to where it comes alone. -/
theorem batch_ends (hM : total ≤ maxLength) (final : Nat → Lane model.Row) (counts : Nat → Nat)
    (d : Decoding model.Row) (hd : d.Placed c total s₀)
    (halone : ∀ i l, d.lanes[i]? = some l →
      EndsAlone c model es maxLength total d.window l (final i) (counts i)) :
    ∃ w n, Ends (Decoding.done c) (Decoding.turn c model es maxLength total) d
      ⟨w,(List.range d.lanes.length).map final⟩ n := by
  cases hdone : d.done c with
  | true =>
    refine ⟨d.window,0,?_⟩
    have hlanes : d.lanes = (List.range d.lanes.length).map final := by
      apply List.ext_getElem?
      intro i
      by_cases hi : i < d.lanes.length
      · have hget := List.getElem?_eq_getElem hi
        have hinactive : (d.lanes[i]).active c = false := by
          have hnone : d.lanes.any (Lane.active c) = false := by simpa [Decoding.done] using hdone
          simpa using List.any_eq_false.mp hnone _ (List.getElem_mem hi)
        rw [hget,List.getElem?_map,List.getElem?_range hi,Option.map_some,
          (halone i _ hget).inactive hinactive]
      · rw [List.getElem?_eq_none (Nat.le_of_not_lt hi),List.getElem?_eq_none]
        rw [List.length_map,List.length_range]
        exact Nat.le_of_not_lt hi
    rw [← hlanes]
    exact .done hdone
  | false =>
    let selected := selectDecodeSequences c d.lanes (nextWindow c maxLength d)
    let counts' (i : Nat) : Nat := if i ∈ selected then counts i-1 else counts i
    -- the selected rows take the iteration they take alone, the others only see a new window
    have hrows : ∀ i l', (d.turn c model es maxLength total).lanes[i]? = some l' →
        EndsAlone c model es maxLength total (nextWindow c maxLength d) l' (final i)
          (counts' i) := by
      intro i l' hl'
      rw [turn_getElem?] at hl'
      obtain ⟨l,hl,rfl⟩ := Option.map_eq_some_iff.mp hl'
      have hmem := List.mem_of_getElem? hl
      by_cases hsel : i ∈ selected
      · obtain ⟨l₁,hl₁,hc⟩ := mem_selectDecodeSequences hsel
        obtain rfl : l₁ = l := Option.some.inj (hl₁.symm.trans hl)
        obtain ⟨n',hn',hrest⟩ := (halone i l₁ hl).turn (current_iff.mp hc).1
        rw [soloWindow_eq_nextWindow hd hmem hc] at hrest
        have hcount : counts' i = n' := by simp [counts',hsel,hn']
        rw [if_pos hsel,hcount]
        exact hrest
      · have hcount : counts' i = counts i := by simp [counts',hsel]
        rw [if_neg hsel,hcount]
        exact (halone i l hl).window fun ha => soloWindow_nextWindow hd hmem ha
    have hlt : ((List.range d.lanes.length).map counts').sum <
        ((List.range d.lanes.length).map counts).sum := by
      obtain ⟨l,hl,hc⟩ := exists_current_nextWindow hd hM hdone
      obtain ⟨i,hi⟩ := exists_mem_selectDecodeSequences hl hc
      obtain ⟨l₁,hl₁,hc₁⟩ := mem_selectDecodeSequences hi
      obtain ⟨n',hn',_⟩ := (halone i l₁ hl₁).turn (current_iff.mp hc₁).1
      apply sum_map_lt (List.getElem?_eq_some_iff.mp hl₁).1
      · intro j _
        dsimp only [counts']
        split <;> omega
      · dsimp only [counts']
        rw [if_pos hi]
        omega
    obtain ⟨w,n,hends⟩ := batch_ends hM final counts' _ (hd.turn hM) hrows
    rw [turn_length] at hends
    exact ⟨w,n+1,.turn hdone hends⟩
termination_by ((List.range d.lanes.length).map counts).sum
decreasing_by
  rw [turn_length]
  exact hlt

end Batch

end FluxServe.Engine
