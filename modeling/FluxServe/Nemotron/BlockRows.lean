import FluxServe.Nemotron.Causal
import FluxServe.Nemotron.Paged
import FluxServe.Nemotron.SpecRows

namespace FluxServe.Engine.NemotronRunner

variable {M : NemotronModel} (R : NemotronRunner M)

/-- One turn of an active row. -/
def blockRowTurn (r : BlockRow M) : Except NemotronFault (BlockRow M) :=
  if r.state = .denoise then R.denoiseRow r else R.commitRow r

theorem blockTurn_eq_ok {rows rows' : List (BlockRow M)} :
    R.blockTurn rows = .ok rows' ↔ turnRows BlockRow.active R.blockRowTurn rows = .ok rows' := by
  unfold blockTurn
  rw [twoPasses_eq_ok fun r hr => by simp_all]
  have hactive : (fun r : BlockRow M => decide (r.state = .denoise) || decide (r.state = .commit)) =
      BlockRow.active := by
    funext r
    cases h : r.state <;> simp [BlockRow.active,h]
  rw [hactive]
  simp only [decide_eq_true_eq]
  rfl

/-- What a row of a batch of blocks comes to. -/
def BlockEnds (R : NemotronRunner M) (r r' : BlockRow M) : Prop :=
  ∃ m, Halts BlockRow.active R.blockRowTurn r (.ok r') m

/-- The batch loop is the loop of each of its rows. -/
theorem runBlockLoop_iff {rs rs' : List (BlockRow M)} :
    (∃ fuel, R.runBlockLoop fuel rs = some (.ok rs')) ↔ List.Forall₂ R.BlockEnds rs rs' :=
  tryLoop_rows_iff fun _ _ => R.blockTurn_eq_ok

/-- Whether a block needs no further denoising. -/
def settledBlock (stop : Bool) (block : List Token) : Bool :=
  !R.decoder.hasMasks block || (stop && R.decoder.eosIsTerminal block)

section Denoise

variable {R} {cache : List M.Kv} {stop : Bool} {prefixLength : Nat} {block : List Token}

theorem denoiseSteps_length (n : Nat) (block : List Token) :
    (R.denoiseSteps stop prefixLength cache n block).length = block.length := by
  induction n generalizing block with
  | zero => rfl
  | succ n ih =>
    unfold denoiseSteps
    dsimp only
    split
    · split
      · exact R.decoder.step_length
      · rw [ih]
        exact R.decoder.step_length
    · rfl

theorem denoiseBlock_eq (R : NemotronRunner M) (stop : Bool) (block : List Token)
    (prefixLength : Nat) (cache : List M.Kv) :
    R.denoiseBlock stop block prefixLength cache =
      if R.settledBlock stop (R.denoiseSteps stop prefixLength cache R.maxDenoiseSteps block) then
        .ok (R.denoiseSteps stop prefixLength cache R.maxDenoiseSteps block)
      else .error (.blockBudgetExceeded ((R.denoiseSteps stop prefixLength cache R.maxDenoiseSteps
        block).count R.maskId) R.maxDenoiseSteps prefixLength) := by
  unfold denoiseBlock settledBlock
  dsimp only
  cases R.decoder.hasMasks (R.denoiseSteps stop prefixLength cache R.maxDenoiseSteps block) <;>
    cases stop && R.decoder.eosIsTerminal
      (R.denoiseSteps stop prefixLength cache R.maxDenoiseSteps block) <;> rfl

/-- A row makes the denoising steps of its block one turn at a time, and at least one: on a block
without masks that step does nothing. -/
theorem denoiseRow_visits (n : Nat) (r : BlockRow M) (hstate : r.state = .denoise)
    (hsteps : r.denoiseSteps+(n+1) = R.maxDenoiseSteps) (hlong : r.prefixLength ≤ r.cache.length)
    (hcache : r.cache.take r.prefixLength = cache.take r.prefixLength) :
    (R.settledBlock r.stopOnEos
        (R.denoiseSteps r.stopOnEos r.prefixLength cache (n+1) r.block) = true →
      ∃ steps cache', Visited BlockRow.active R.blockRowTurn r { r with
          block := R.denoiseSteps r.stopOnEos r.prefixLength cache (n+1) r.block
          denoiseSteps := steps
          cache := cache'
          terminal := r.stopOnEos && R.decoder.eosIsTerminal
            (R.denoiseSteps r.stopOnEos r.prefixLength cache (n+1) r.block)
          state := .commit } ∧
        cache'.take r.prefixLength = cache.take r.prefixLength ∧
        r.prefixLength ≤ cache'.length) ∧
    (R.settledBlock r.stopOnEos
        (R.denoiseSteps r.stopOnEos r.prefixLength cache (n+1) r.block) = false →
      ∃ m e, Halts BlockRow.active R.blockRowTurn r (.error e) m) := by
  have hactive : r.active = true := by simp [BlockRow.active,hstate]
  have hturn : R.blockRowTurn r = R.denoiseRow r := by rw [blockRowTurn,if_pos hstate]
  have hlogits : (commit false false r.block r.prefixLength r.cache).1 =
      denoise false r.block r.prefixLength cache := by
    simp only [commit,denoise,hcache]
  have hwritten : (commit false false r.block r.prefixLength r.cache).2.take r.prefixLength =
      cache.take r.prefixLength := (commit_take_before hlong).trans hcache
  have hlength : r.prefixLength ≤
      (commit false false r.block r.prefixLength r.cache).2.length := by
    rw [commit_length hlong]
    omega
  -- the block after this turn, and what the remaining steps make of it
  obtain ⟨block,hblock⟩ : ∃ b, b = R.decoder.step M.argmax M.confidence
    (denoise false r.block r.prefixLength cache) r.block := ⟨_,rfl⟩
  cases hsettled : R.settledBlock r.stopOnEos block with
  | true =>
    have hrest : R.denoiseSteps r.stopOnEos r.prefixLength cache (n+1) r.block = block := by
      unfold denoiseSteps
      cases hmasks : R.decoder.hasMasks r.block with
      | true =>
        rw [if_pos rfl]
        dsimp only
        rw [← hblock]
        exact if_pos hsettled
      | false =>
        rw [if_neg Bool.false_ne_true,hblock,R.decoder.step_of_resolved hmasks]
    rw [hrest,hsettled]
    refine ⟨fun _ => ⟨r.denoiseSteps+1,_,.turn .start hactive ?_,hwritten,hlength⟩,fun h => ?_⟩
    · rw [hturn]
      unfold denoiseRow
      simp only [hlogits,← hblock]
      exact if_pos hsettled
    · cases h
  | false =>
    have hmasks : R.decoder.hasMasks r.block = true := by
      cases hmasks : R.decoder.hasMasks r.block with
      | true => rfl
      | false =>
        rw [hblock,R.decoder.step_of_resolved hmasks,settledBlock,hmasks] at hsettled
        cases hsettled
    have hrest : R.denoiseSteps r.stopOnEos r.prefixLength cache (n+1) r.block =
        R.denoiseSteps r.stopOnEos r.prefixLength cache n block := by
      rw [denoiseSteps,if_pos hmasks]
      dsimp only
      rw [← hblock]
      exact if_neg (by rw [settledBlock] at hsettled; rw [hsettled]; exact Bool.false_ne_true)
    rw [hrest]
    cases n with
    | zero =>
      refine ⟨fun h => ?_,fun _ => ⟨1,.blockBudgetExceeded (block.count R.maskId) R.maxDenoiseSteps
        r.prefixLength,halts_error hactive ?_⟩⟩
      · rw [denoiseSteps,hsettled] at h
        cases h
      · rw [hturn]
        unfold denoiseRow
        simp only [hlogits,← hblock]
        rw [if_neg (by rw [settledBlock] at hsettled; rw [hsettled]; exact Bool.false_ne_true),
          if_pos (by omega)]
        rfl
    | succ n =>
      obtain ⟨hdone,hraise⟩ := denoiseRow_visits n
        { r with
          block
          denoiseSteps := r.denoiseSteps+1
          cache := (commit false false r.block r.prefixLength r.cache).2 }
        hstate (by dsimp only; omega) hlength hwritten
      have hok : R.blockRowTurn r = .ok { r with
          block
          denoiseSteps := r.denoiseSteps+1
          cache := (commit false false r.block r.prefixLength r.cache).2 } := by
        rw [hturn]
        unfold denoiseRow
        simp only [hlogits,← hblock]
        rw [if_neg (by rw [settledBlock] at hsettled; rw [hsettled]; exact Bool.false_ne_true),
          if_neg (by omega)]
        rfl
      refine ⟨fun h => ?_,fun h => ?_⟩
      · obtain ⟨steps,cache',hvisited,hkept⟩ := hdone h
        exact ⟨steps,cache',.cons hactive hok hvisited,hkept⟩
      · obtain ⟨m,e,hends⟩ := hraise h
        exact ⟨m+1,e,hends.cons hactive hok⟩

end Denoise

section Block

variable {R} {cache : List M.Kv} {stop : Bool} {prefixLength : Nat} {block : List Token}

/-- The block that is committed: one that ends the sequence as it is, or what denoising makes of
it. -/
def finalBlock (R : NemotronRunner M) (stop : Bool) (block : List Token) (prefixLength : Nat)
    (cache : List M.Kv) : Except NemotronFault (List Token) :=
  if stop && R.decoder.eosIsTerminal block then .ok block
  else R.denoiseBlock stop block prefixLength cache

/-- A committed block is as long as it was, and without masks unless it ends the sequence. -/
theorem finalBlock_spec {final : List Token}
    (h : R.finalBlock stop block prefixLength cache = .ok final) :
    final.length = block.length ∧ R.settledBlock stop final = true := by
  unfold finalBlock at h
  split at h
  · next hends =>
    injection h with h
    subst h
    exact ⟨rfl,by rw [settledBlock,hends,Bool.or_true]⟩
  · rw [denoiseBlock_eq] at h
    split at h
    · next hsettled =>
      injection h with h
      rw [← h]
      exact ⟨denoiseSteps_length _ _,hsettled⟩
    · cases h

theorem finalBlock_congr {cache' : List M.Kv} (h : cache.take prefixLength = cache'.take prefixLength) :
    R.finalBlock stop block prefixLength cache = R.finalBlock stop block prefixLength cache' := by
  have hsteps (n : Nat) (b : List Token) : R.denoiseSteps stop prefixLength cache n b =
      R.denoiseSteps stop prefixLength cache' n b := by
    induction n generalizing b with
    | zero => rfl
    | succ n ih =>
      unfold denoiseSteps denoise
      rw [h]
      simp only [ih]
  unfold finalBlock
  rw [denoiseBlock_eq,denoiseBlock_eq,hsteps]

/-- The block that the dense loop starts from. -/
def nextBlock (R : NemotronRunner M) (seed : Token) (produced : List Token) : List Token :=
  R.thinkingBudget.apply (R.maskedBlock seed) produced

@[simp] theorem nextBlock_length (R : NemotronRunner M) (seed : Token) (produced : List Token) :
    (R.nextBlock seed produced).length = R.blockLength := by
  simp [nextBlock]

/-- The dense loop after a committed block. -/
def committed (R : NemotronRunner M) (stop : Bool) (s : BlockState M) (final : List Token) :
    BlockState M :=
  let y := commit false true final s.prefixLength s.cache
  { cache := y.2
    prefixLength := s.prefixLength+R.blockLength
    seed := R.seedFrom y.1
    emitted := s.emitted ++ [final]
    left := stop && R.decoder.eosIsTerminal final }

theorem generateBlock_eq (R : NemotronRunner M) (stop : Bool) (s : BlockState M) :
    R.generateBlock stop s =
      (R.finalBlock stop (R.nextBlock s.seed s.emitted.flatten) s.prefixLength s.cache).map
        (R.committed stop s) := by
  unfold generateBlock finalBlock nextBlock committed
  dsimp only
  split
  · next hends =>
    rw [Bool.and_eq_true] at hends
    simp only [Except.map,hends.1,hends.2]
    rfl
  · cases R.denoiseBlock stop (R.thinkingBudget.apply (R.maskedBlock s.seed) s.emitted.flatten)
      s.prefixLength s.cache <;> rfl

/-- A row at the start of a block. -/
structure Entered (R : NemotronRunner M) (r : BlockRow M) : Prop where
  steps : r.denoiseSteps = 0
  ends : R.endsAtOnce r = true → r.state = .commit ∧ r.terminal = true
  runs : R.endsAtOnce r = false → r.state = .denoise

theorem enterBlock_entered {r : BlockRow M} (h : r.denoiseSteps = 0) :
    R.Entered (R.enterBlock r) := by
  unfold enterBlock
  dsimp only
  split
  · next hends => exact ⟨h,fun _ => ⟨rfl,rfl⟩,fun hnot => by rw [endsAtOnce] at hends hnot; simp_all⟩
  · next hends => exact ⟨h,fun hyes => absurd hyes hends,fun _ => rfl⟩

/-- A row brings its block to where it is committed. -/
theorem Entered.visits {r : BlockRow M} (h : R.Entered r) (cache : List M.Kv)
    (hlong : r.prefixLength ≤ r.cache.length)
    (hcache : r.cache.take r.prefixLength = cache.take r.prefixLength) :
    (∀ final, R.finalBlock r.stopOnEos r.block r.prefixLength cache = .ok final →
      ∃ steps cache', Visited BlockRow.active R.blockRowTurn r { r with
          block := final
          denoiseSteps := steps
          cache := cache'
          terminal := r.stopOnEos && R.decoder.eosIsTerminal final
          state := .commit } ∧
        cache'.take r.prefixLength = cache.take r.prefixLength ∧
        r.prefixLength ≤ cache'.length) ∧
    (∀ e, R.finalBlock r.stopOnEos r.block r.prefixLength cache = .error e →
      ∃ m e', Halts BlockRow.active R.blockRowTurn r (.error e') m) := by
  unfold finalBlock
  cases hends : R.endsAtOnce r with
  | true =>
    obtain ⟨hstate,hterminal⟩ := h.ends hends
    have hopen : (r.stopOnEos && R.decoder.eosIsTerminal r.block) = true := hends
    rw [if_pos hopen]
    refine ⟨fun final hfinal => ?_,fun e he => by cases he⟩
    injection hfinal with hfinal
    subst hfinal
    refine ⟨r.denoiseSteps,r.cache,?_,hcache,hlong⟩
    rw [hopen,← hterminal,← hstate]
    exact .start
  | false =>
    have hopen : ¬(r.stopOnEos && R.decoder.eosIsTerminal r.block) = true :=
      Bool.eq_false_iff.mp hends
    rw [if_neg hopen,denoiseBlock_eq]
    obtain ⟨n,hn⟩ : ∃ n, n+1 = R.maxDenoiseSteps :=
      ⟨R.maxDenoiseSteps-1,Nat.sub_add_cancel R.maxDenoiseSteps_pos⟩
    have hsteps := h.steps
    obtain ⟨hdone,hraise⟩ := denoiseRow_visits (R := R) n r (h.runs hends) (by omega) hlong hcache
    rw [hn] at hdone hraise
    constructor
    · intro final hfinal
      split at hfinal
      · next hsettled =>
        injection hfinal with hfinal
        rw [← hfinal]
        exact hdone hsettled
      · cases hfinal
    · intro e he
      split at he
      · cases he
      · next hsettled => exact hraise (Bool.eq_false_iff.mpr hsettled)

/-- What the commit of a block makes of its row before it goes on. -/
def committedRow (R : NemotronRunner M) (r : BlockRow M) : BlockRow M :=
  { r with
    cache := (commit false true r.block r.prefixLength r.cache).2
    emitted := r.emitted ++ [r.block]
    prefixLength := r.prefixLength+R.blockLength
    seed := R.seedFrom (commit false true r.block r.prefixLength r.cache).1
    denoiseSteps := 0 }

theorem commitRow_eq (R : NemotronRunner M) (r : BlockRow M) :
    R.commitRow r =
      if r.terminal || decide (r.blockBudget ≤ r.emitted.length+1) then
        .ok { R.committedRow r with state := .done }
      else .ok (R.enterBlock (R.committedRow r)) := by
  unfold commitRow committedRow
  dsimp only
  rw [List.length_append,List.length_singleton]
  rfl

end Block

section Lockstep

variable {R} {stop : Bool} {generationLength : Nat} {s s' t : BlockState M} {r : BlockRow M}

/-- A paged row carries the variables of the dense loop, and its pages the same prefix. -/
structure BlockTracks (R : NemotronRunner M) (stop : Bool) (generationLength : Nat)
    (s : BlockState M) (r : BlockRow M) : Prop where
  prefixed : r.prefixLength = s.prefixLength
  cache : r.cache.take s.prefixLength = s.cache.take s.prefixLength
  long : s.prefixLength ≤ s.cache.length
  rowLong : s.prefixLength ≤ r.cache.length
  emitted : r.emitted = s.emitted
  budget : r.generationLength = generationLength
  blocks : r.blockBudget*R.blockLength = R.paddedGeneration generationLength
  stopOnEos : r.stopOnEos = stop

/-- A paged row stands where the dense loop tests its condition. -/
structure BlockAgrees (R : NemotronRunner M) (stop : Bool) (generationLength : Nat)
    (s : BlockState M) (r : BlockRow M) : Prop
    extends BlockTracks R stop generationLength s r where
  enters : R.blocksRemain generationLength s = true →
    R.Entered r ∧ r.block = R.nextBlock s.seed s.emitted.flatten
  done : R.blocksRemain generationLength s = false → r.state = .done

theorem blocksRemain_eq_true : R.blocksRemain generationLength s = true ↔
    s.left = false ∧ s.emitted.length*R.blockLength < R.paddedGeneration generationLength := by
  simp [blocksRemain]

/-- A row that tracks the dense loop agrees with it once its next block is entered. -/
theorem enterBlock_agrees (hsteps : r.denoiseSteps = 0)
    (h : R.BlockTracks stop generationLength s r) (hgo : R.blocksRemain generationLength s = true)
    (hblock : R.nextBlock r.seed r.emitted.flatten = R.nextBlock s.seed s.emitted.flatten) :
    R.BlockAgrees stop generationLength s (R.enterBlock r) := by
  have hsame : (R.enterBlock r).prefixLength = r.prefixLength ∧
      (R.enterBlock r).cache = r.cache ∧ (R.enterBlock r).emitted = r.emitted ∧
      (R.enterBlock r).generationLength = r.generationLength ∧
      (R.enterBlock r).blockBudget = r.blockBudget ∧
      (R.enterBlock r).stopOnEos = r.stopOnEos ∧
      (R.enterBlock r).block = R.nextBlock r.seed r.emitted.flatten := by
    unfold enterBlock
    dsimp only
    split <;> exact ⟨rfl,rfl,rfl,rfl,rfl,rfl,rfl⟩
  obtain ⟨h₁,h₂,h₃,h₄,h₅,h₆,h₇⟩ := hsame
  refine ⟨⟨?_,?_,?_,?_,?_,?_,?_,?_⟩,fun _ => ⟨enterBlock_entered hsteps,?_⟩,fun hno => ?_⟩
  · rw [h₁]
    exact h.prefixed
  · rw [h₂]
    exact h.cache
  · exact h.long
  · rw [h₂]
    exact h.rowLong
  · rw [h₃]
    exact h.emitted
  · rw [h₄]
    exact h.budget
  · rw [h₅]
    exact h.blocks
  · rw [h₆]
    exact h.stopOnEos
  · rw [h₇]
    exact hblock
  · rw [hgo] at hno
    cases hno

/-- The commit of a settled row is that of the dense loop. -/
theorem BlockTracks.commit (h : R.BlockTracks stop generationLength s r) {final : List Token}
    (hlen : final.length = R.blockLength) (hblock : r.block = final)
    (hterminal : r.terminal = (stop && R.decoder.eosIsTerminal final)) :
    ∃ r', R.commitRow r = .ok r' ∧
      R.BlockAgrees stop generationLength (R.committed stop s final) r' := by
  obtain ⟨y,hy⟩ : ∃ y, y = NemotronRunner.commit false true final s.prefixLength s.cache := ⟨_,rfl⟩
  obtain ⟨y',hy'⟩ : ∃ y', y' = NemotronRunner.commit false true r.block r.prefixLength r.cache :=
    ⟨_,rfl⟩
  have hlogits : y'.1 = y.1 := by
    rw [hy',hy,hblock,h.prefixed]
    exact commit_congr h.cache
  have hcache : y'.2.take (s.prefixLength+R.blockLength) =
      y.2.take (s.prefixLength+R.blockLength) := by
    rw [hy',hy,hblock,h.prefixed,← hlen]
    exact commit_take_congr h.cache h.rowLong h.long (Nat.le_refl _)
  have hlong : s.prefixLength+R.blockLength ≤ y.2.length := by
    rw [hy,commit_length h.long]
    omega
  have hlong' : s.prefixLength+R.blockLength ≤ y'.2.length := by
    rw [hy',h.prefixed,hblock,commit_length h.rowLong]
    omega
  have hpref : (R.committedRow r).prefixLength = s.prefixLength+R.blockLength :=
    congrArg (· + R.blockLength) h.prefixed
  have hemitted : (R.committedRow r).emitted = s.emitted ++ [final] := by
    rw [committedRow,h.emitted,hblock]
  have htracks : R.BlockTracks stop generationLength (R.committed stop s final)
      (R.committedRow r) := by
    unfold committed
    rw [← hy]
    refine ⟨hpref,?_,hlong,?_,hemitted,h.budget,h.blocks,h.stopOnEos⟩
    · rw [committedRow,← hy']
      exact hcache
    · rw [committedRow,← hy']
      exact hlong'
  have hmore : (r.terminal || decide (r.blockBudget ≤ r.emitted.length+1)) =
      !R.blocksRemain generationLength (R.committed stop s final) := by
    have hcount : r.blockBudget ≤ s.emitted.length+1 ↔
        ¬(s.emitted.length+1)*R.blockLength < r.blockBudget*R.blockLength := by
      rw [Nat.not_lt,Nat.mul_le_mul_right_iff R.blockLength_pos]
    unfold blocksRemain committed
    rw [hterminal,h.emitted,← h.blocks,List.length_append,List.length_singleton,Bool.not_and,
      Bool.not_not,← decide_not]
    congr 1
    exact decide_eq_decide.mpr hcount
  rw [commitRow_eq,hmore]
  cases hgo : R.blocksRemain generationLength (R.committed stop s final) with
  | false =>
    refine ⟨_,rfl,⟨⟨htracks.prefixed,htracks.cache,htracks.long,htracks.rowLong,htracks.emitted,
      htracks.budget,htracks.blocks,htracks.stopOnEos⟩,fun hyes => ?_,fun _ => rfl⟩⟩
    rw [hgo] at hyes
    cases hyes
  | true =>
    refine ⟨_,rfl,enterBlock_agrees rfl htracks hgo ?_⟩
    rw [hemitted]
    unfold committed committedRow
    rw [← hy,← hy',hlogits]

/-- A row ends as the dense loop does. -/
theorem BlockAgrees.halts {n : Nat} (h : R.BlockAgrees stop generationLength s r)
    (hends : Halts (R.blocksRemain generationLength) (R.generateBlock stop) s (.ok t) n) :
    ∃ r', R.BlockEnds r r' ∧ R.BlockTracks stop generationLength t r' := by
  induction n generalizing s r with
  | zero =>
    obtain ⟨hstop,ht,_⟩ | ⟨_,_,_,_,hn⟩ | ⟨_,_,_,_,_,hn⟩ := hends.cases
    · injection ht with ht
      subst ht
      exact ⟨r,⟨0,halts_done (by simp [BlockRow.active,h.done hstop])⟩,h.toBlockTracks⟩
    · omega
    · omega
  | succ n ih =>
    obtain ⟨_,_,hn⟩ | ⟨_,_,_,hbad,_⟩ | ⟨go,u,k,hu,hk,hn⟩ := hends.cases
    · omega
    · cases hbad
    · obtain rfl : k = n := by omega
      obtain ⟨hentered,hblock⟩ := h.enters go
      rw [generateBlock_eq] at hu
      cases hfinal : R.finalBlock stop (R.nextBlock s.seed s.emitted.flatten) s.prefixLength
          s.cache with
      | error e =>
        rw [hfinal] at hu
        cases hu
      | ok final =>
        rw [hfinal] at hu
        injection hu with hu
        have hlen : final.length = R.blockLength :=
          (finalBlock_spec hfinal).1.trans (R.nextBlock_length _ _)
        obtain ⟨steps,cache',hvisited,hkept,hlong⟩ := (hentered.visits s.cache
          (by rw [h.prefixed]; exact h.rowLong) (by rw [h.prefixed]; exact h.cache)).1 final
          (by rw [h.stopOnEos,hblock,h.prefixed]; exact hfinal)
        obtain ⟨v,hv⟩ : ∃ v : BlockRow M, v = { r with
          block := final
          denoiseSteps := steps
          cache := cache'
          terminal := r.stopOnEos && R.decoder.eosIsTerminal final
          state := .commit } := ⟨_,rfl⟩
        rw [← hv] at hvisited
        rw [h.prefixed] at hkept hlong
        have htracks : R.BlockTracks stop generationLength s v := by
          rw [hv]
          exact ⟨h.prefixed,hkept,h.long,hlong,h.emitted,h.budget,h.blocks,h.stopOnEos⟩
        obtain ⟨r₂,hcommit,hagrees⟩ := htracks.commit hlen (by rw [hv])
          (by rw [hv]; dsimp only; rw [h.stopOnEos])
        rw [hu] at hagrees
        obtain ⟨r',⟨m,hm⟩,ht⟩ := ih hagrees hk
        have hturn : R.blockRowTurn v = .ok r₂ := by
          rw [blockRowTurn,if_neg (by rw [hv]; simp)]
          exact hcommit
        obtain ⟨m',hm'⟩ := hvisited.halts (hm.cons (by rw [hv]; simp [BlockRow.active]) hturn)
        exact ⟨r',⟨m',hm'⟩,ht⟩

end Lockstep

end FluxServe.Engine.NemotronRunner
