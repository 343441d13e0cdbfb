import FluxServe.Engine.LaneProof

namespace FluxServe.Engine

section Ending

variable {c : RunnerConfig} {model : RowModel c.maskId} {es : Bool} {maxLength total s₀ : Nat}
  {window : Nat} {l : Lane model.Row}

/-- Alone, a row is stepped in a window it is within. -/
theorem Lane.Placed.solo {ρ : Type} {l : Lane ρ} (h : l.Placed c total s₀ window)
    (hM : total ≤ maxLength) (ha : l.active c = true) :
    l.current c (soloWindow c maxLength window l) = true ∧
      l.Placed c total s₀ (soloWindow c maxLength window l) := by
  have hc : l.current c (soloWindow c maxLength window l) = true := by
    unfold soloWindow
    split
    · rename_i hc
      exact hc
    · exact h.current_cacheLength hM ha
  exact ⟨hc,h.widen fun _ => (current_iff.mp hc).2⟩

theorem soloWindow_of_current {ρ : Type} {l : Lane ρ} (hc : l.current c window = true) :
    soloWindow c maxLength window l = window := by
  unfold soloWindow
  rw [if_pos hc]

theorem EndsAlone.of_turn {n : Nat} {final : Lane model.Row} (hc : l.current c window = true)
    (h : EndsAlone c model es maxLength total window (l.advance c model es total window) final n) :
    EndsAlone c model es maxLength total window l final (n+1) := by
  obtain ⟨w,hends⟩ := h
  refine ⟨w,.turn (by simp [soloDone,(current_iff.mp hc).1]) ?_⟩
  unfold soloTurn
  dsimp only
  rw [soloWindow_of_current hc]
  exact hends

theorem advance_block (hfit : l.start+c.blockLength ≤ l.tokens.length)
    (hs : (l.advance c model es total window).start = l.start) :
    (l.advance c model es total window).block c.blockLength = (l.iterated c model window).1 := by
  have hlen := iterated_length model window l
  rw [block_length hfit] at hlen
  unfold Lane.block
  rw [hs,advance_tokens,List.append_assoc,List.drop_left' (by rw [List.length_take]; omega),
    List.take_left' hlen]

/-- A row gets past its block, in as many iterations as the block takes to settle. -/
theorem exists_next_block (es : Bool) (maxLength k : Nat) (l : Lane model.Row) (h : l.Placed c total s₀ window)
    (hc : l.current c window = true)
    (hk : c.maskId ∉ ((model.iterate window l.start l.promptLength)^[k]
        (l.block c.blockLength,l.row)).1 ∧
      ((model.iterate window l.start l.promptLength)^[k+1] (l.block c.blockLength,l.row)).1 =
        ((model.iterate window l.start l.promptLength)^[k] (l.block c.blockLength,l.row)).1) :
    ∃ l' : Lane model.Row, l'.Placed c total s₀ window ∧ l'.decodeLength = l.decodeLength ∧
      l.start+c.blockLength ≤ l'.start ∧
      ∀ final n, EndsAlone c model es maxLength total window l' final n →
        ∃ n', EndsAlone c model es maxLength total window l final n' := by
  have hnext (final : Lane model.Row) (n : Nat)
      (hends : EndsAlone c model es maxLength total window (l.advance c model es total window)
        final n) : ∃ n', EndsAlone c model es maxLength total window l final n' :=
    ⟨_,hends.of_turn hc⟩
  obtain ⟨ha,_⟩ := current_iff.mp hc
  rcases advance_start c model es total window l with ⟨hf,hs⟩ | ⟨_,_,hs⟩ | ⟨_,_,_,hs⟩
  · cases k with
    | zero => exact absurd hk hf
    | succ k =>
      have hblock := advance_block (h.fits ha) hs
      have hx : ((l.advance c model es total window).block c.blockLength,
          (l.advance c model es total window).row) =
            model.iterate window l.start l.promptLength (l.block c.blockLength,l.row) := by
        rw [hblock,advance_row]
        rfl
      have hc' : (l.advance c model es total window).current c window = true := by
        rw [current_iff,active_iff,hs,advance_decodeLength]
        exact ⟨active_iff.mp ha,(current_iff.mp hc).2⟩
      obtain ⟨l',hplaced,hdl,hstart,hends⟩ := exists_next_block es maxLength k
        (l.advance c model es total window) (h.advance hc) hc' (by
          rw [hs,advance_promptLength,hx]
          exact hk)
      refine ⟨l',hplaced,hdl,by rw [hs] at hstart; exact hstart,?_⟩
      intro final n hn
      obtain ⟨n',hn'⟩ := hends final n hn
      exact hnext final n' hn'
  · exact ⟨_,h.advance hc,rfl,hs.ge,hnext⟩
  · refine ⟨_,h.advance hc,rfl,?_,hnext⟩
    rw [hs]
    exact (active_iff.mp ha).trans h.limit

/-- Every row comes to its end. -/
theorem exists_endsAlone (hM : total ≤ maxLength) (l : Lane model.Row) (window : Nat)
    (h : l.Placed c total s₀ window) :
    ∃ final n, EndsAlone c model es maxLength total window l final n := by
  cases ha : l.active c with
  | false => exact ⟨l,0,window,.done (by simp [soloDone,ha])⟩
  | true =>
    obtain ⟨hc,hwide⟩ := h.solo hM ha
    obtain ⟨k,hk⟩ := model.settles (soloWindow c maxLength window l) l.start l.promptLength
      (l.block c.blockLength,l.row)
    obtain ⟨l',hplaced,hdl,hstart,hends⟩ :=
      exists_next_block es maxLength k l hwide hc hk
    have hlt : l'.decodeLength-l'.start < l.decodeLength-l.start := by
      have hlim := active_iff.mp ha
      have hpos := c.blockLength_pos
      omega
    obtain ⟨final,n,hn⟩ := exists_endsAlone hM l' _ hplaced
    obtain ⟨n',hn'⟩ := hends final n hn
    refine ⟨final,n',hn'.window fun _ => ?_⟩
    rw [soloWindow_of_current hc]
termination_by l.decodeLength-l.start

theorem EndsAlone.take_final (hM : total ≤ maxLength) {n k : Nat} {final : Lane model.Row}
    (h : EndsAlone c model es maxLength total window l final n) (hp : l.Placed c total s₀ window)
    (hk : k ≤ l.start) : final.tokens.take k = l.tokens.take k := by
  induction n generalizing l window with
  | zero =>
    cases ha : l.active c with
    | false => rw [h.inactive ha]
    | true =>
      obtain ⟨_,hn,_⟩ := h.turn ha
      omega
  | succ n ih =>
    cases ha : l.active c with
    | false => rw [h.inactive ha]
    | true =>
      obtain ⟨n',hn,hrest⟩ := h.turn ha
      obtain ⟨hc,hwide⟩ := hp.solo hM ha
      obtain rfl : n = n' := by omega
      have hstart : k ≤ (l.advance c model es total (soloWindow c maxLength window l)).start := by
        rcases advance_start c model es total (soloWindow c maxLength window l) l with ⟨_,hs⟩ | ⟨_,_,hs⟩ | ⟨_,_,_,hs⟩
        · rw [hs]
          exact hk
        · rw [hs]
          omega
        · rw [hs]
          have hlim := (active_iff.mp ha).trans hp.limit
          omega
      rw [ih hrest (hwide.advance hc) hstart,advance_take (hp.fits ha) hk]

end Ending

section Compare

variable {c : RunnerConfig} {model : RowModel c.maskId} {es es' : Bool}
  {maxLength total total' s₀ : Nat} {window : Nat} {l m : Lane model.Row}

/-- The same row on a longer canvas and with a later end. -/
structure Lane.Longer {ρ : Type} (l m : Lane ρ) : Prop where
  start : m.start = l.start
  promptLength : m.promptLength = l.promptLength
  row : m.row = l.row
  tokens : l.tokens <+: m.tokens
  decodeLength : l.decodeLength ≤ m.decodeLength

/-- What the row alone leaves behind is also there on the longer canvas, up to its own end or to a
stop token. -/
def Lane.Agrees {ρ : Type} (c : RunnerConfig) (es : Bool) (l m : Lane ρ) : Prop :=
  ∃ k, k ≤ l.tokens.length ∧ l.tokens.take k = m.tokens.take k ∧
    (l.decodeLength ≤ k ∨ es = true ∧ generatedEosHit c l.tokens l.promptLength k = true)

theorem Lane.Longer.block {ρ : Type} {l m : Lane ρ} (h : l.Longer m)
    (hfit : l.start+c.blockLength ≤ l.tokens.length) :
    m.block c.blockLength = l.block c.blockLength := by
  obtain ⟨rest,hrest⟩ := h.tokens
  unfold Lane.block
  rw [h.start,← hrest,List.drop_append_of_le_length (by omega),List.take_append_of_le_length]
  rw [List.length_drop]
  omega

theorem Lane.Longer.iterated (h : l.Longer m)
    (hfit : l.start+c.blockLength ≤ l.tokens.length) :
    m.iterated c model window = l.iterated c model window := by
  unfold Lane.iterated
  rw [h.start,h.promptLength,h.row,h.block hfit]

theorem Lane.Longer.finishes (h : l.Longer m) (hfit : l.start+c.blockLength ≤ l.tokens.length) :
    m.finishes c model window ↔ l.finishes c model window := by
  unfold Lane.finishes
  rw [h.iterated hfit,h.block hfit]

theorem Lane.Longer.advance_tokens (h : l.Longer m)
    (hfit : l.start+c.blockLength ≤ l.tokens.length) :
    (l.advance c model es total window).tokens <+:
      (m.advance c model es' total' window).tokens := by
  obtain ⟨rest,hrest⟩ := h.tokens
  refine ⟨rest,?_⟩
  rw [FluxServe.Engine.advance_tokens,FluxServe.Engine.advance_tokens,h.iterated hfit,h.start,
    ← hrest,List.take_append_of_le_length (by omega),List.drop_append_of_le_length hfit]
  simp only [List.append_assoc]

theorem generatedEosHit_congr (c : RunnerConfig) {tokens tokens' : List Token} (n : Nat) {k : Nat}
    (h : tokens.take k = tokens'.take k) :
    generatedEosHit c tokens n k = generatedEosHit c tokens' n k := by
  unfold generatedEosHit
  rw [h]

theorem take_eq_take_of_isPrefix {tokens tokens' : List Token} {k : Nat} (h : tokens <+: tokens')
    (hk : k ≤ tokens.length) : tokens.take k = tokens'.take k := by
  obtain ⟨rest,rfl⟩ := h
  rw [List.take_append_of_le_length hk]

/-- Once the row alone has reached its end, a longer run leaves its canvas as it is. -/
theorem agrees_of_inactive {M n' : Nat} (hM' : total' ≤ M) {g : Lane model.Row}
    (hg : EndsAlone c model es' M total' window m g n') (hlm : l.Longer m)
    (hl : l.Placed c total s₀ window) (hm : m.Placed c total' s₀ window)
    (hstart : c.blockLength ∣ l.start) (hend : c.blockLength ∣ l.decodeLength)
    (ha : l.active c = false) : l.Agrees c es g := by
  have hlt : l.decodeLength < l.start+c.blockLength := by
    by_contra hge
    rw [active_iff.mpr (Nat.le_of_not_lt hge)] at ha
    cases ha
  have hle : l.decodeLength ≤ l.start := le_of_dvd_of_lt hend hstart hlt
  have hcanvas : l.decodeLength ≤ l.tokens.length := by
    rw [hl.canvas]
    exact hl.limit
  refine ⟨l.decodeLength,hcanvas,?_,.inl (Nat.le_refl _)⟩
  rw [take_eq_take_of_isPrefix hlm.tokens hcanvas]
  exact (hg.take_final hM' hm (hlm.start ▸ hle)).symm

/-- A row alone and the same row in a longer run go the same way until the first one ends. -/
theorem agrees_of_longer {M : Nat} (hM : total ≤ M) (hM' : total' ≤ M) (hes : es' = true → es = true)
    {n n' : Nat} {f g : Lane model.Row}
    (hf : EndsAlone c model es M total window l f n)
    (hg : EndsAlone c model es' M total' window m g n') (hlm : l.Longer m)
    (hl : l.Placed c total s₀ window) (hm : m.Placed c total' s₀ window)
    (hstart : c.blockLength ∣ l.start) (hend : c.blockLength ∣ l.decodeLength) :
    f.Agrees c es g := by
  induction n generalizing l m window n' with
  | zero =>
    cases ha : l.active c with
    | true =>
      obtain ⟨_,hn,_⟩ := hf.turn ha
      omega
    | false =>
      rw [hf.inactive ha]
      exact agrees_of_inactive hM' hg hlm hl hm hstart hend ha
  | succ n ih =>
    cases ha : l.active c with
    | false =>
      rw [hf.inactive ha]
      exact agrees_of_inactive hM' hg hlm hl hm hstart hend ha
    | true =>
      have hma : m.active c = true := by
        rw [active_iff,hlm.start]
        exact (active_iff.mp ha).trans hlm.decodeLength
      have hwindow : soloWindow c M window m = soloWindow c M window l := by
        unfold soloWindow
        rw [hlm.start,Bool.eq_iff_iff.mpr (show m.current c window = true ↔
          l.current c window = true by simp only [current_iff,hma,ha,hlm.start])]
      obtain ⟨k,hk,hf'⟩ := hf.turn ha
      obtain ⟨k',_,hg'⟩ := hg.turn hma
      obtain rfl : n = k := by omega
      obtain ⟨hc,hlw⟩ := hl.solo hM ha
      obtain ⟨hmc,hmw⟩ := hm.solo hM' hma
      rw [hwindow] at hg' hmc hmw
      generalize soloWindow c M window l = w at *
      have hl' : (l.advance c model es total w).Placed c total s₀ w := hlw.advance hc
      have hm' : (m.advance c model es' total' w).Placed c total' s₀ w := hmw.advance hmc
      have htokens : (l.advance c model es total w).tokens <+:
          (m.advance c model es' total' w).tokens := hlm.advance_tokens (hl.fits ha)
      have hreach : l.start+c.blockLength ≤ (l.advance c model es total w).tokens.length := by
        rw [hl'.canvas]
        exact (active_iff.mp ha).trans hl.limit
      have hsame := take_eq_take_of_isPrefix htokens hreach
      have hrow : (m.advance c model es' total' w).row = (l.advance c model es total w).row := by
        rw [advance_row,advance_row,hlm.iterated (hl.fits ha)]
      have hfin : m.finishes c model w ↔ l.finishes c model w := hlm.finishes (hl.fits ha)
      have hhit := generatedEosHit_congr c l.promptLength hsame
      have hls := advance_start c model es total w l
      have hms := advance_start c model es' total' w m
      rw [hfin,hlm.start,hlm.promptLength,← hhit] at hms
      have hnext (hs : (m.advance c model es' total' w).start =
          (l.advance c model es total w).start) :
          (l.advance c model es total w).Longer (m.advance c model es' total' w) :=
        ⟨hs,hlm.promptLength,hrow,htokens,hlm.decodeLength⟩
      rcases hls with ⟨hnf,hs⟩ | ⟨hf₁,hstop,hs⟩ | ⟨hf₁,hes₁,hhit₁,hs⟩
      · rcases hms with ⟨_,hs'⟩ | ⟨hf₂,_⟩ | ⟨hf₂,_⟩
        · exact ih hf' hg' (hnext (hs'.trans hs.symm)) hl' hm' (hs.symm ▸ hstart) hend
        · exact absurd hf₂ hnf
        · exact absurd hf₂ hnf
      · rcases hms with ⟨hnf,_⟩ | ⟨_,_,hs'⟩ | ⟨_,hes₂,hhit₂,_⟩
        · exact absurd hf₁ hnf
        · refine ih hf' hg' (hnext (hs'.trans hs.symm)) hl' hm' ?_ hend
          rw [hs]
          exact Nat.dvd_add hstart (Nat.dvd_refl _)
        · exact absurd ⟨hes hes₂,hhit₂⟩ hstop
      · have hinactive : (l.advance c model es total w).active c = false := by
          have hpos := c.blockLength_pos
          have hlim := hl.limit
          rw [← Bool.not_eq_true,active_iff,hs,advance_decodeLength]
          omega
        have hbeyond : l.start+c.blockLength ≤ (m.advance c model es' total' w).start := by
          rcases hms with ⟨hnf,_⟩ | ⟨_,_,hs'⟩ | ⟨_,_,_,hs'⟩
          · exact absurd hf₁ hnf
          · exact hs'.ge
          · rw [hs',← hlm.start]
            exact (active_iff.mp hma).trans hm.limit
        rw [hf'.inactive hinactive]
        refine ⟨l.start+c.blockLength,hreach,?_,.inr ⟨hes₁,hhit₁⟩⟩
        rw [hsame]
        exact (hg'.take_final hM' hm' hbeyond).symm

end Compare

end FluxServe.Engine
