import FluxServe.Framework.Loop
import FluxServe.Framework.Guards
import Mathlib.Data.List.Forall2

namespace FluxServe

variable {σ ε ρ : Type} {more : σ → Bool} {step : σ → Except ε σ}

/-- A raise ends a loop as its condition does. -/
def halted (more : σ → Bool) : Except ε σ → Bool
  | .ok s => !more s
  | .error _ => true

/-- A while loop whose turns may raise. -/
def tryLoop (more : σ → Bool) (step : σ → Except ε σ) (fuel : Nat) (s : σ) :
    Option (Except ε σ) :=
  loop (halted more) (fun x => x >>= step) fuel (.ok s)

/-- The loop that starts in `s` comes to the outcome `r` after `n` turns. -/
def Halts (more : σ → Bool) (step : σ → Except ε σ) (s : σ) (r : Except ε σ) (n : Nat) : Prop :=
  Ends (halted more) (fun x => x >>= step) (.ok s) r n

/-- The states in which the loop tests its condition. -/
inductive Visited (more : σ → Bool) (step : σ → Except ε σ) (s : σ) : σ → Prop
  | start : Visited more step s s
  | turn {t u : σ} (before : Visited more step s t) (go : more t = true)
      (turned : step t = .ok u) : Visited more step s u

theorem Visited.invariant {P : σ → Prop} {s t : σ} (h : Visited more step s t) (hs : P s)
    (hstep : ∀ t u, P t → more t = true → step t = .ok u → P u) : P t := by
  induction h with
  | start => exact hs
  | turn _ go turned ih => exact hstep _ _ ih go turned

theorem Visited.cons {s t u : σ} (go : more s = true) (turned : step s = .ok t)
    (h : Visited more step t u) : Visited more step s u := by
  induction h with
  | start => exact .turn .start go turned
  | turn _ go turned ih => exact .turn ih go turned

theorem halts_of_tryLoop {s : σ} {r : Except ε σ} {fuel : Nat}
    (h : tryLoop more step fuel s = some r) : ∃ n, n ≤ fuel ∧ Halts more step s r n :=
  ends_of_loop h

theorem Halts.tryLoop_eq {s : σ} {r : Except ε σ} {n fuel : Nat} (h : Halts more step s r n)
    (hle : n ≤ fuel) : tryLoop more step fuel s = some r :=
  Ends.loop_eq h hle

/-- A loop over the images of the states. -/
theorem tryLoop_map {τ : Type} (f : σ → τ) {more' : τ → Bool} {step' : τ → Except ε τ}
    (hmore : ∀ s, more' (f s) = more s) (hstep : ∀ s, step' (f s) = (step s).map f) (fuel : Nat)
    (s : σ) : tryLoop more' step' fuel (f s) = (tryLoop more step fuel s).map (Except.map f) := by
  refine loop_map (Except.map f) ?_ ?_ fuel (.ok s)
  · intro x
    cases x with
    | ok s => exact congrArg not (hmore s)
    | error e => rfl
  · intro x
    cases x with
    | ok s => exact hstep s
    | error e => rfl

/-- More fuel changes nothing. -/
theorem tryLoop_mono {s : σ} {r : Except ε σ} {fuel fuel' : Nat}
    (h : tryLoop more step fuel s = some r) (hle : fuel ≤ fuel') :
    tryLoop more step fuel' s = some r := by
  obtain ⟨n,hn,hends⟩ := halts_of_tryLoop h
  exact hends.tryLoop_eq (Nat.le_trans hn hle)

theorem Halts.unique {s : σ} {r r' : Except ε σ} {n n' : Nat} (h : Halts more step s r n)
    (h' : Halts more step s r' n') : r = r' :=
  (Ends.unique h h').1

theorem halts_done {s : σ} (stop : more s = false) : Halts more step s (.ok s) 0 :=
  .done (by simp [halted,stop])

theorem halts_error {s : σ} {e : ε} (go : more s = true) (raised : step s = .error e) :
    Halts more step s (.error e) 1 := by
  refine .turn (by simp [halted,go]) ?_
  change Ends _ _ (step s) _ 0
  rw [raised]
  exact .done rfl

theorem Halts.cons {s t : σ} {r : Except ε σ} {n : Nat} (h : Halts more step t r n)
    (go : more s = true) (turned : step s = .ok t) : Halts more step s r (n+1) := by
  refine .turn (by simp [halted,go]) ?_
  change Ends _ _ (step s) _ n
  rw [turned]
  exact h

/-- How a loop ended: its condition failed, its turn raised, or it went on. -/
theorem Halts.cases {s : σ} {r : Except ε σ} {n : Nat} (h : Halts more step s r n) :
    (more s = false ∧ r = .ok s ∧ n = 0) ∨
    (more s = true ∧ ∃ e, step s = .error e ∧ r = .error e ∧ n = 1) ∨
    (more s = true ∧ ∃ t k, step s = .ok t ∧ Halts more step t r k ∧ n = k+1) := by
  cases h with
  | done stop => exact .inl ⟨by simpa [halted] using stop,rfl,rfl⟩
  | turn go rest =>
    have hgo : more s = true := by simpa [halted] using go
    change Ends _ _ (step s) _ _ at rest
    cases hs : step s with
    | error e =>
      rw [hs] at rest
      cases rest with
      | done => exact .inr (.inl ⟨hgo,e,rfl,rfl,rfl⟩)
      | turn go => simp [halted] at go
    | ok t =>
      rw [hs] at rest
      exact .inr (.inr ⟨hgo,t,_,rfl,rest,rfl⟩)

theorem Visited.halts {s t : σ} {r : Except ε σ} {n : Nat} (h : Visited more step s t)
    (hends : Halts more step t r n) : ∃ m, Halts more step s r m := by
  induction h generalizing n with
  | start => exact ⟨n,hends⟩
  | turn _ go turned ih => exact ih (hends.cons go turned)

theorem Halts.visited {s t : σ} {n : Nat} (h : Halts more step s (.ok t) n) :
    Visited more step s t ∧ more t = false := by
  induction n generalizing s with
  | zero =>
    obtain ⟨stop,hr,_⟩ | ⟨_,e,_,_,hn⟩ | ⟨_,u,k,_,_,hn⟩ := h.cases
    · injection hr with hr
      subst hr
      exact ⟨.start,stop⟩
    · omega
    · omega
  | succ n ih =>
    obtain ⟨_,_,hn⟩ | ⟨_,e,_,hr,_⟩ | ⟨go,u,k,hu,hk,hn⟩ := h.cases
    · omega
    · cases hr
    · obtain rfl : k = n := by omega
      exact ⟨.cons go hu (ih hk).1,(ih hk).2⟩

/-- Loops whose turns return the same end with the same. -/
theorem Halts.of_ok_congr {step' : σ → Except ε σ}
    (hsame : ∀ s t, step s = .ok t → step' s = .ok t) {s t : σ} {n : Nat}
    (h : Halts more step s (.ok t) n) : Halts more step' s (.ok t) n := by
  induction n generalizing s with
  | zero =>
    obtain ⟨stop,hr,_⟩ | ⟨_,_,_,_,hn⟩ | ⟨_,_,_,_,_,hn⟩ := h.cases
    · injection hr with hr
      subst hr
      exact halts_done stop
    · omega
    · omega
  | succ n ih =>
    obtain ⟨_,_,hn⟩ | ⟨_,_,_,hr,_⟩ | ⟨go,u,k,hu,hk,hn⟩ := h.cases
    · omega
    · cases hr
    · obtain rfl : k = n := by omega
      exact (ih hk).cons go (hsame _ _ hu)

/-- A raise comes out of a turn in a visited state. -/
theorem Halts.raised {s : σ} {e : ε} {n : Nat} (h : Halts more step s (.error e) n) :
    ∃ t, Visited more step s t ∧ more t = true ∧ step t = .error e := by
  induction n generalizing s with
  | zero =>
    obtain ⟨_,hr,_⟩ | ⟨_,_,_,_,hn⟩ | ⟨_,_,_,_,_,hn⟩ := h.cases
    · cases hr
    · omega
    · omega
  | succ n ih =>
    obtain ⟨_,hr,_⟩ | ⟨go,e',he,hr,_⟩ | ⟨go,u,k,hu,hk,hn⟩ := h.cases
    · cases hr
    · injection hr with hr
      subst hr
      exact ⟨s,.start,go,he⟩
    · obtain rfl : k = n := by omega
      obtain ⟨t,ht,hgo,hraise⟩ := ih hk
      exact ⟨t,.cons go hu ht,hgo,hraise⟩

/-- A loop whose turns lower a measure under an invariant ends within it. -/
theorem halts_of_measure {P : σ → Prop} (measure : σ → Nat)
    (hstep : ∀ s t, P s → more s = true → step s = .ok t → P t ∧ measure t < measure s) :
    ∀ m s, P s → measure s ≤ m → ∃ r n, n ≤ m+1 ∧ Halts more step s r n := by
  intro m
  induction m with
  | zero =>
    intro s hs hm
    cases hgo : more s with
    | false => exact ⟨_,0,Nat.zero_le _,halts_done hgo⟩
    | true =>
      cases ht : step s with
      | error e => exact ⟨_,1,Nat.le_refl _,halts_error hgo ht⟩
      | ok t =>
        have hlt := (hstep s t hs hgo ht).2
        omega
  | succ m ih =>
    intro s hs hm
    cases hgo : more s with
    | false => exact ⟨_,0,Nat.zero_le _,halts_done hgo⟩
    | true =>
      cases ht : step s with
      | error e => exact ⟨_,1,by omega,halts_error hgo ht⟩
      | ok t =>
        obtain ⟨hP,hlt⟩ := hstep s t hs hgo ht
        obtain ⟨r,n,hn,h⟩ := ih t hP (by omega)
        exact ⟨r,n+1,by omega,h.cons hgo ht⟩

section Rows

variable {moreRow : ρ → Bool} {turn : ρ → Except ε ρ}

/-- Some row is not done. -/
def moreRows (moreRow : ρ → Bool) (rows : List ρ) : Bool := rows.any moreRow

/-- One turn of every row that is not done. -/
def turnRows (moreRow : ρ → Bool) (turn : ρ → Except ε ρ) (rows : List ρ) :
    Except ε (List ρ) :=
  rows.mapM fun r => if moreRow r then turn r else .ok r

/-- Two passes over the rows: `first` on those that `isFirst` selects, then `second` on those that
`isSecond` selected before the first pass. -/
def twoPasses (isFirst isSecond : ρ → Bool) (first second : ρ → Except ε ρ) (rows : List ρ) :
    Except ε (List ρ) := do
  let after ← rows.mapM fun r => if isFirst r then first r else pure r
  (rows.zip after).mapM fun x => if isSecond x.1 then second x.2 else pure x.2

theorem mapM_eq_ok {α β : Type} {f : α → Except ε β} {as : List α} {bs : List β} :
    as.mapM f = .ok bs ↔ List.Forall₂ (fun a b => f a = .ok b) as bs := by
  induction as generalizing bs with
  | nil =>
    rw [List.mapM_nil,List.forall₂_nil_left_iff]
    constructor
    · intro h
      injection h with h
      exact h.symm
    · rintro rfl
      rfl
  | cons a as ih =>
    rw [List.mapM_cons]
    cases ha : f a with
    | error e =>
      constructor
      · intro h
        cases h
      · intro h
        cases h with
        | cons hb _ => rw [ha] at hb; cases hb
    | ok b =>
      cases has : as.mapM f with
      | error e =>
        constructor
        · intro h
          cases h
        · intro h
          cases h with
          | cons hb hbs => rw [ih.mpr hbs] at has; cases has
      | ok bs' =>
        constructor
        · intro h
          injection h with h
          subst h
          exact .cons ha (ih.mp has)
        · intro h
          cases h with
          | cons hb hbs =>
            rw [ha] at hb
            injection hb with hb
            have := ih.mpr hbs
            rw [has] at this
            injection this with this
            subst hb this
            rfl

/-- A raise of a batch is the raise of one of its rows. -/
theorem mapM_eq_error {α β : Type} {f : α → Except ε β} {as : List α} {e : ε}
    (h : as.mapM f = .error e) : ∃ a ∈ as, f a = .error e := by
  induction as with
  | nil => cases h
  | cons a as ih =>
    rw [List.mapM_cons] at h
    obtain ha | ⟨b,_,h⟩ := bind_eq_error h
    · exact ⟨a,List.mem_cons_self,ha⟩
    · obtain has | ⟨bs,_,h⟩ := bind_eq_error h
      · obtain ⟨a',ha',hraise⟩ := ih has
        exact ⟨a',List.mem_cons_of_mem _ ha',hraise⟩
      · cases h

theorem twoPasses_eq_error {isFirst isSecond : ρ → Bool} {first second : ρ → Except ε ρ}
    {rows : List ρ} {e : ε} (h : twoPasses isFirst isSecond first second rows = .error e) :
    ∃ r, first r = .error e ∨ second r = .error e := by
  obtain h | ⟨after,_,h⟩ := bind_eq_error h
  · obtain ⟨r,_,hr⟩ := mapM_eq_error h
    split at hr
    · exact ⟨r,.inl hr⟩
    · cases hr
  · obtain ⟨x,_,hx⟩ := mapM_eq_error h
    split at hx
    · exact ⟨x.2,.inr hx⟩
    · cases hx

/-- Two passes that select different rows give each selected row one turn. -/
theorem twoPasses_eq_ok {isFirst isSecond : ρ → Bool} {first second : ρ → Except ε ρ}
    (hdisjoint : ∀ r, isFirst r = true → isSecond r = false) {rows rows' : List ρ} :
    twoPasses isFirst isSecond first second rows = .ok rows' ↔
      turnRows (fun r => isFirst r || isSecond r)
        (fun r => if isFirst r then first r else second r) rows = .ok rows' := by
  have hafter : twoPasses isFirst isSecond first second rows = .ok rows' ↔
      ∃ after, List.Forall₂ (fun r a => (if isFirst r then first r else .ok r) = .ok a) rows after ∧
        List.Forall₂ (fun x b => (if isSecond x.1 then second x.2 else .ok x.2) = .ok b)
          (rows.zip after) rows' := by
    unfold twoPasses
    cases hf : rows.mapM fun r => if isFirst r then first r else pure r with
    | error e =>
      constructor
      · intro h
        cases h
      · rintro ⟨after,hfirst,_⟩
        have hok := mapM_eq_ok.mpr hfirst
        exact absurd (hf.symm.trans hok) (by simp)
    | ok after =>
      constructor
      · intro h
        exact ⟨after,mapM_eq_ok.mp hf,mapM_eq_ok.mp h⟩
      · rintro ⟨after',hfirst,hsecond⟩
        have hok := mapM_eq_ok.mpr hfirst
        have heq := hf.symm.trans hok
        injection heq with heq
        subst heq
        exact mapM_eq_ok.mpr hsecond
  rw [hafter]
  unfold turnRows
  rw [mapM_eq_ok]
  constructor
  · rintro ⟨after,hfirst,hsecond⟩
    clear hafter
    induction hfirst generalizing rows' with
    | nil =>
      cases hsecond
      exact .nil
    | @cons r a rs as ha _ ih =>
      cases hsecond with
      | cons hb hbs =>
        refine .cons ?_ (ih hbs)
        cases hr : isFirst r with
        | true =>
          rw [hdisjoint r hr] at hb
          rw [hr] at ha
          injection hb with hb
          subst hb
          simpa [hr] using ha
        | false =>
          rw [hr] at ha
          injection ha with ha
          subst ha
          simpa [hr] using hb
  · intro h
    clear hafter
    induction h with
    | nil => exact ⟨[],.nil,.nil⟩
    | @cons r b rs bs hb _ ih =>
      obtain ⟨after,hfirst,hsecond⟩ := ih
      cases hr : isFirst r with
      | true =>
        refine ⟨b :: after,.cons ?_ hfirst,.cons ?_ hsecond⟩
        · simpa [hr] using hb
        · simp [hdisjoint r hr]
      | false =>
        refine ⟨r :: after,.cons ?_ hfirst,.cons ?_ hsecond⟩
        · simp [hr]
        · simpa [hr] using hb

/-- A batch that ends ran each of its rows to its end. -/
theorem Halts.rows {rows outs : List ρ} {n : Nat}
    (h : Halts (moreRows moreRow) (turnRows moreRow turn) rows (.ok outs) n) :
    List.Forall₂ (fun r o => ∃ k, k ≤ n ∧ Halts moreRow turn r (.ok o) k) rows outs := by
  induction n generalizing rows with
  | zero =>
    obtain ⟨stop,hr,_⟩ | ⟨_,e,_,_,hn⟩ | ⟨_,u,k,_,_,hn⟩ := h.cases
    · injection hr with hr
      subst hr
      refine List.forall₂_same.mpr fun r hr => ⟨0,Nat.le_refl 0,halts_done ?_⟩
      simpa using List.any_eq_false.mp stop r hr
    · omega
    · omega
  | succ n ih =>
    obtain ⟨_,_,hn⟩ | ⟨_,e,_,hr,_⟩ | ⟨go,u,k,hu,hk,hn⟩ := h.cases
    · omega
    · cases hr
    · obtain rfl : k = n := by omega
      have hstep := mapM_eq_ok.mp hu
      have hrest := ih hk
      clear h hk hu go hn ih
      induction hstep generalizing outs with
      | nil =>
        rw [List.forall₂_nil_left_iff] at hrest
        subst hrest
        exact .nil
      | cons hr _ ih' =>
        cases hrest with
        | cons ho hos =>
          refine .cons ?_ (ih' hos)
          obtain ⟨j,hj,hends⟩ := ho
          split at hr
          · rename_i go
            exact ⟨j+1,by omega,hends.cons go hr⟩
          · injection hr with hr
            subst hr
            exact ⟨j,by omega,hends⟩

/-- Rows that come to their ends let the batch end with them. -/
theorem halts_rows {rows outs : List ρ} {m : Nat}
    (h : List.Forall₂ (fun r o => ∃ k, k ≤ m ∧ Halts moreRow turn r (.ok o) k) rows outs) :
    ∃ n, n ≤ m ∧ Halts (moreRows moreRow) (turnRows moreRow turn) rows (.ok outs) n := by
  induction m generalizing rows with
  | zero =>
    have hdone : List.Forall₂ (fun r o => moreRow r = false ∧ r = o) rows outs := by
      refine h.imp fun r o ⟨k,hk,hends⟩ => ?_
      obtain rfl : k = 0 := by omega
      obtain ⟨stop,hr,_⟩ | ⟨_,e,_,_,hn⟩ | ⟨_,u,k,_,_,hn⟩ := hends.cases
      · injection hr with hr
        exact ⟨stop,hr.symm⟩
      · omega
      · omega
    refine ⟨0,Nat.le_refl 0,?_⟩
    have heq : rows = outs := by
      rw [← List.forall₂_eq_eq_eq]
      exact hdone.imp fun _ _ h => h.2
    subst heq
    refine halts_done (List.any_eq_false.mpr fun r hr => ?_)
    simpa using (List.forall₂_same.mp (hdone.imp fun _ _ h => h.1) r hr)
  | succ m ih =>
    cases hgo : moreRows moreRow rows with
    | false =>
      refine ⟨0,Nat.zero_le _,?_⟩
      have heq : rows = outs := by
        rw [← List.forall₂_eq_eq_eq]
        have hall := List.any_eq_false.mp hgo
        clear hgo ih
        induction h with
        | nil => exact .nil
        | cons ho _ ih' =>
          refine .cons ?_ (ih' fun r hr => hall r (List.mem_cons_of_mem _ hr))
          obtain ⟨k,_,hends⟩ := ho
          have stop := hall _ List.mem_cons_self
          have hsame := hends.unique (halts_done (by simpa using stop))
          injection hsame with hsame
          exact hsame.symm
      rw [heq] at hgo ⊢
      exact halts_done hgo
    | true =>
      have hturn : ∃ rows', turnRows moreRow turn rows = .ok rows' ∧
          List.Forall₂ (fun r o => ∃ k, k ≤ m ∧ Halts moreRow turn r (.ok o) k) rows' outs := by
        clear hgo ih
        induction h with
        | nil => exact ⟨[],rfl,.nil⟩
        | @cons r o rs os ho _ ih' =>
          obtain ⟨rows',hturn,hrest⟩ := ih'
          obtain ⟨k,hk,hends⟩ := ho
          obtain ⟨stop,hr,_⟩ | ⟨_,e,_,hr,_⟩ | ⟨go,u,j,hu,hj,hn⟩ := hends.cases
          · injection hr with hr
            subst hr
            refine ⟨o :: rows',?_,.cons ⟨0,Nat.zero_le _,halts_done stop⟩ hrest⟩
            exact mapM_eq_ok.mpr (.cons (by simp [stop]) (mapM_eq_ok.mp hturn))
          · cases hr
          · refine ⟨u :: rows',?_,.cons ⟨j,by omega,hj⟩ hrest⟩
            exact mapM_eq_ok.mpr (.cons (by simp [go,hu]) (mapM_eq_ok.mp hturn))
      obtain ⟨rows',hturn,hrest⟩ := hturn
      obtain ⟨n,hn,hends⟩ := ih hrest
      exact ⟨n+1,by omega,hends.cons hgo hturn⟩

theorem forall₂_exists {α β γ : Type} {R : α → β → Prop} {S : β → γ → Prop} {as : List α}
    {cs : List γ} :
    List.Forall₂ (fun a c => ∃ b, R a b ∧ S b c) as cs ↔
      ∃ bs, List.Forall₂ R as bs ∧ List.Forall₂ S bs cs := by
  constructor
  · intro h
    induction h with
    | nil => exact ⟨[],.nil,.nil⟩
    | cons hb _ ih =>
      obtain ⟨b,hR,hS⟩ := hb
      obtain ⟨bs,hRs,hSs⟩ := ih
      exact ⟨b :: bs,.cons hR hRs,.cons hS hSs⟩
  · rintro ⟨bs,hR,hS⟩
    induction hR generalizing cs with
    | nil =>
      cases hS
      exact .nil
    | cons hR _ ih =>
      cases hS with
      | cons hS hSs => exact .cons ⟨_,hR,hS⟩ (ih hSs)

theorem exists_of_forall₂ {α β : Type} {R : α → β → Prop} {as : List α} {bs : List β} {b : β}
    (h : List.Forall₂ R as bs) (hb : b ∈ bs) : ∃ a ∈ as, R a b := by
  induction h with
  | nil => cases hb
  | cons hab _ ih =>
    cases hb with
    | head => exact ⟨_,List.mem_cons_self,hab⟩
    | tail _ hb =>
      obtain ⟨a,ha,hab⟩ := ih hb
      exact ⟨a,List.mem_cons_of_mem _ ha,hab⟩

/-- A batch ends with the rows that its rows end with. -/
theorem halts_rows_iff {rows outs : List ρ} :
    (∃ n, Halts (moreRows moreRow) (turnRows moreRow turn) rows (.ok outs) n) ↔
      List.Forall₂ (fun r o => ∃ k, Halts moreRow turn r (.ok o) k) rows outs := by
  constructor
  · rintro ⟨n,h⟩
    exact h.rows.imp fun _ _ ⟨k,_,hk⟩ => ⟨k,hk⟩
  · intro h
    obtain ⟨m,hm⟩ : ∃ m, List.Forall₂ (fun r o => ∃ k, k ≤ m ∧ Halts moreRow turn r (.ok o) k)
        rows outs := by
      induction h with
      | nil => exact ⟨0,.nil⟩
      | cons hk _ ih =>
        obtain ⟨k,hk⟩ := hk
        obtain ⟨m,hm⟩ := ih
        refine ⟨max k m,.cons ⟨k,Nat.le_max_left k m,hk⟩ (hm.imp fun _ _ ⟨j,hj,h⟩ => ?_)⟩
        exact ⟨j,Nat.le_trans hj (Nat.le_max_right k m),h⟩
    obtain ⟨n,_,hn⟩ := halts_rows hm
    exact ⟨n,hn⟩

/-- A batch loop whose turns are one turn of each row is the loop of each row. -/
theorem tryLoop_rows_iff {batchTurn : List ρ → Except ε (List ρ)}
    (hturn : ∀ rows outs, batchTurn rows = .ok outs ↔ turnRows moreRow turn rows = .ok outs)
    {rows outs : List ρ} :
    (∃ fuel, tryLoop (moreRows moreRow) batchTurn fuel rows = some (.ok outs)) ↔
      List.Forall₂ (fun r o => ∃ k, Halts moreRow turn r (.ok o) k) rows outs := by
  rw [← halts_rows_iff]
  constructor
  · rintro ⟨fuel,h⟩
    obtain ⟨n,_,hn⟩ := halts_of_tryLoop h
    exact ⟨n,hn.of_ok_congr fun rows outs => (hturn rows outs).mp⟩
  · rintro ⟨n,hn⟩
    have hbatch := hn.of_ok_congr fun rows outs => (hturn rows outs).mpr
    exact ⟨n,hbatch.tryLoop_eq (Nat.le_refl n)⟩

end Rows

end FluxServe
