import FluxServe.Gemma.DiffusionGemma

namespace FluxServe.Gemma

namespace DiffusionGemmaDecoder

variable {B L : Nat} {Soft : Type} {cfg : DiffusionGemmaSamplingConfig}

section Runs

/-- A row after so many passes, and whether it has converged; then it is left as it is. -/
def rowAfter (cfg : DiffusionGemmaSamplingConfig) (m : RowModel L Soft) (canvas : Fin L → Token) :
    Nat → DiffusionGemmaSamplingState L Soft × Bool
  | 0 => (newState canvas,false)
  | n+1 =>
    let row := rowAfter cfg m canvas n
    if row.2 then row else step cfg (modelResult cfg m n row.1) row.1

/-- A batch after so many passes. -/
def batchAfter (cfg : DiffusionGemmaSamplingConfig) (m : Fin B → RowModel L Soft)
    (canvas : Fin B → Fin L → Token) : Nat → DiffusionGemmaBatchSamplingState B L Soft
  | 0 => newBatchState canvas
  | n+1 =>
    let s := batchAfter cfg m canvas n
    (stepBatch cfg (modelResults cfg m n s) s).1

variable {m : RowModel L Soft} {canvas : Fin L → Token} {n k : Nat}

/-- A row that has not converged has made a step in every pass. -/
theorem rowAfter_step (h : (rowAfter cfg m canvas n).2 = false) :
    (rowAfter cfg m canvas n).1.step = n := by
  induction n with
  | zero => rfl
  | succ n ih =>
    cases hrow : (rowAfter cfg m canvas n).2 with
    | true =>
      rw [rowAfter,hrow,if_pos rfl,hrow] at h
      cases h
    | false =>
      rw [rowAfter,hrow,if_neg Bool.false_ne_true]
      show (rowAfter cfg m canvas n).1.step+1 = n+1
      rw [ih hrow]

/-- The last step converges. -/
theorem rowAfter_converges : (rowAfter cfg m canvas cfg.maxDenoisingSteps).2 = true := by
  obtain ⟨k,hk⟩ := Nat.exists_eq_succ_of_ne_zero (Nat.ne_of_gt cfg.one_le_maxDenoisingSteps)
  rw [hk,rowAfter]
  cases hrow : (rowAfter cfg m canvas k).2 with
  | true => simp [hrow]
  | false =>
    rw [if_neg Bool.false_ne_true]
    simp [step,rowAfter_step hrow,hk]

/-- A row that has converged keeps its state. -/
theorem rowAfter_add (h : (rowAfter cfg m canvas n).2 = true) :
    rowAfter cfg m canvas (n+k) = rowAfter cfg m canvas n := by
  induction k with
  | zero => rfl
  | succ k ih =>
    rw [← Nat.add_assoc,rowAfter,ih,h,if_pos rfl]

/-- Whenever a row has converged, it has the same state. -/
theorem rowAfter_unique (h : (rowAfter cfg m canvas n).2 = true)
    (h' : (rowAfter cfg m canvas k).2 = true) :
    rowAfter cfg m canvas n = rowAfter cfg m canvas k := by
  obtain hle | hle := Nat.le_total n k
  · obtain ⟨j,rfl⟩ := Nat.exists_eq_add_of_le hle
    exact (rowAfter_add h).symm
  · obtain ⟨j,rfl⟩ := Nat.exists_eq_add_of_le hle
    exact rowAfter_add h'

end Runs

section Window

variable {α β : Type} {history : List α} {x : α}

theorem pushHistory_map (f : α → β) :
    (pushHistory cfg history x).map f = pushHistory cfg (history.map f) (f x) := by
  unfold pushHistory
  simp only [List.length_append,List.length_map,List.length_singleton]
  split
  · simp
  · simp

theorem pushHistory_ne_nil : pushHistory cfg history x ≠ [] := by
  have hpos := cfg.one_le_stabilityThreshold
  intro hnil
  have hlen := congrArg List.length hnil
  simp only [pushHistory] at hlen
  split at hlen
  · next hlt =>
    rw [List.length_tail] at hlen
    simp only [List.length_append,List.length_singleton,List.length_nil] at hlen hlt
    omega
  · simp at hlen

theorem equal_comm (x y : Fin L → Token) : equal x y = equal y x := by
  unfold equal
  apply congrArg
  funext i
  exact Bool.beq_comm

end Window

/-- A row of a batch against the row on its own: until it converges, its part of the shared window
is its own window. -/
structure Synced (s : DiffusionGemmaBatchSamplingState B L Soft) (r : Fin B)
    (row : DiffusionGemmaSamplingState L Soft × Bool) : Prop where
  canvas : s.canvas r = row.1.canvas
  argmaxCanvas : s.argmaxCanvas r = row.1.argmaxCanvas
  softEmbeds : s.softEmbeds.map (· r) = row.1.softEmbeds
  steps : s.steps r = row.1.step
  active : s.active r = !row.2
  history : row.2 = false → s.history.map (· r) = row.1.history
  embedded : row.2 = true → row.1.softEmbeds.isSome = true

section Steps

variable {s : DiffusionGemmaBatchSamplingState B L Soft} {r : Fin B}
  {row : DiffusionGemmaSamplingState L Soft × Bool} {o : Fin B → ModelResult L Soft}

/-- A pass leaves a frozen row as it is. -/
theorem Synced.frozen (h : Synced s r row) (hrow : row.2 = true) :
    Synced (stepBatch cfg o s).1 r row := by
  have hactive : s.active r = false := by rw [h.active,hrow,Bool.not_true]
  constructor
  · simp only [stepBatch,hactive,Bool.false_and,Bool.false_eq_true,if_false]
    exact h.canvas
  · simp only [stepBatch,hactive,Bool.false_eq_true,if_false]
    exact h.argmaxCanvas
  · have hsome := h.embedded hrow
    rw [← h.softEmbeds,Option.isSome_map] at hsome
    obtain ⟨old,hold⟩ := Option.isSome_iff_exists.mp hsome
    rw [← h.softEmbeds,hold]
    simp [stepBatch,hold,hactive]
  · simp only [stepBatch,hactive,Bool.toNat_false,Nat.add_zero]
    exact h.steps
  · simp only [stepBatch,hactive,Bool.false_and]
    rw [hrow,Bool.not_true]
  · intro hfalse
    rw [hrow] at hfalse
    cases hfalse
  · exact h.embedded

/-- The test of a row in the shared window is that of its part of it. -/
theorem stableRow_eq {history : List (Fin B → Fin L → Token)} (hne : history ≠ []) :
    stableRow cfg history r = stable cfg (history.map (· r)) := by
  cases history with
  | nil => exact absurd rfl hne
  | cons reference items =>
    simp only [stableRow,stable,List.map_cons,List.length_cons,List.length_map,List.all_map]
    apply congrArg
    apply congrArg
    funext item
    exact equal_comm _ _

/-- A pass makes on an active row the step of the row on its own. -/
theorem Synced.step (h : Synced s r row) (hrow : row.2 = false) :
    Synced (stepBatch cfg o s).1 r (step cfg (o r) row.1) := by
  have hactive : s.active r = true := by rw [h.active,hrow,Bool.not_false]
  have hwindow : (pushHistory cfg s.history fun r =>
      if s.active r then (o r).argmax else s.argmaxCanvas r).map (· r) =
        pushHistory cfg row.1.history (o r).argmax := by
    rw [pushHistory_map,h.history hrow]
    simp only [hactive,if_true]
  have hconverged : (stepBatch cfg o s).2 r = (DiffusionGemmaDecoder.step cfg (o r) row.1).2 := by
    simp only [stepBatch,DiffusionGemmaDecoder.step,hactive,Bool.true_and,Bool.toNat_true,
      h.steps,stableRow_eq pushHistory_ne_nil,hwindow]
  constructor
  · show (if (stepBatch cfg o s).2 r then if s.active r then (o r).argmax else s.argmaxCanvas r
      else if s.active r then _ else s.canvas r) =
        if (DiffusionGemmaDecoder.step cfg (o r) row.1).2 then _ else _
    rw [hconverged,hactive]
    rfl
  · simp only [stepBatch,hactive,if_true]
    rfl
  · cases hsoft : s.softEmbeds <;> simp [stepBatch,DiffusionGemmaDecoder.step,hsoft,hactive]
  · simp only [stepBatch,hactive,Bool.toNat_true,h.steps]
    rfl
  · show (s.active r && !(stepBatch cfg o s).2 r) = _
    rw [hconverged,hactive,Bool.true_and]
  · exact fun _ => hwindow
  · exact fun _ => rfl

end Steps

section Agreement

variable {m : Fin B → RowModel L Soft} {canvas : Fin B → Fin L → Token} {n : Nat} {r : Fin B}

/-- Rows that agree meet the same results of the model. -/
theorem Synced.modelResult {s : DiffusionGemmaBatchSamplingState B L Soft}
    {row : DiffusionGemmaSamplingState L Soft × Bool} (h : Synced s r row) :
    modelResults cfg m n s r = modelResult cfg (m r) n row.1 := by
  rw [modelResults,h.canvas,h.softEmbeds,h.steps]
  rfl

/-- In a batch each row goes the way that it goes alone. -/
theorem synced (n : Nat) :
    Synced (batchAfter cfg m canvas n) r (rowAfter cfg (m r) (canvas r) n) := by
  induction n with
  | zero =>
    constructor
    · rfl
    · rfl
    · rfl
    · rfl
    · rfl
    · exact fun _ => rfl
    · intro h
      cases h
  | succ n ih =>
    rw [batchAfter,rowAfter]
    cases hrow : (rowAfter cfg (m r) (canvas r) n).2 with
    | true =>
      rw [if_pos rfl]
      exact ih.frozen hrow
    | false =>
      rw [if_neg Bool.false_ne_true,← ih.modelResult]
      exact ih.step hrow

/-- The results of a row. -/
structure SameResult (s : DiffusionGemmaBatchSamplingState B L Soft) (r : Fin B)
    (row : DiffusionGemmaSamplingState L Soft) : Prop where
  argmaxCanvas : s.argmaxCanvas r = row.argmaxCanvas
  canvas : s.canvas r = row.canvas
  softEmbeds : s.softEmbeds.map (· r) = row.softEmbeds
  steps : s.steps r = row.step

theorem Synced.sameResult {s : DiffusionGemmaBatchSamplingState B L Soft}
    {row : DiffusionGemmaSamplingState L Soft × Bool} (h : Synced s r row) :
    SameResult s r row.1 := ⟨h.argmaxCanvas,h.canvas,h.softEmbeds,h.steps⟩

/-- A row that a batch has frozen has the result that it reaches alone, and keeps it. -/
theorem batchAfter_result {k j : Nat} (hrow : (rowAfter cfg (m r) (canvas r) k).2 = true)
    (hactive : (batchAfter cfg m canvas n).active r = false) :
    (batchAfter cfg m canvas (n+j)).active r = false ∧
      SameResult (batchAfter cfg m canvas (n+j)) r (rowAfter cfg (m r) (canvas r) k).1 := by
  have hnow : Synced (batchAfter cfg m canvas n) r (rowAfter cfg (m r) (canvas r) n) := synced n
  have hthen : Synced (batchAfter cfg m canvas (n+j)) r
      (rowAfter cfg (m r) (canvas r) (n+j)) := synced (n+j)
  have hdone : (rowAfter cfg (m r) (canvas r) n).2 = true := by
    rw [hnow.active] at hactive
    simpa using hactive
  rw [rowAfter_add hdone,rowAfter_unique hdone hrow] at hthen
  refine ⟨?_,hthen.sameResult⟩
  rw [hthen.active,hrow,Bool.not_true]

/-- The loop of a row ends in the state in which it converges. -/
theorem denoise_eq {m : RowModel L Soft} {canvas : Fin L → Token} {k : Nat}
    (hk : n+k = cfg.maxDenoisingSteps) (h : (rowAfter cfg m canvas n).2 = false) :
    denoise cfg m k n (rowAfter cfg m canvas n).1 =
      (rowAfter cfg m canvas cfg.maxDenoisingSteps).1 := by
  induction k generalizing n with
  | zero =>
    rw [← hk]
    rfl
  | succ k ih =>
    have hnext : rowAfter cfg m canvas (n+1) =
        step cfg (DiffusionGemmaDecoder.modelResult cfg m n (rowAfter cfg m canvas n).1)
          (rowAfter cfg m canvas n).1 := by
      rw [rowAfter,h,if_neg Bool.false_ne_true]
    rw [denoise]
    simp only [← hnext]
    cases hdone : (rowAfter cfg m canvas (n+1)).2 with
    | true =>
      rw [if_pos rfl,rowAfter_unique hdone rowAfter_converges]
    | false =>
      rw [if_neg Bool.false_ne_true]
      exact ih (by omega) hdone

/-- The loop of a batch ends in a pass after which no row is active. -/
theorem denoiseBatch_eq {k : Nat} (hk : n+k = cfg.maxDenoisingSteps) :
    ∃ n' ≤ cfg.maxDenoisingSteps,
      denoiseBatch cfg m k n (batchAfter cfg m canvas n) = batchAfter cfg m canvas n' ∧
        ∀ r, (batchAfter cfg m canvas n').active r = false := by
  induction k generalizing n with
  | zero =>
    refine ⟨n,Nat.le_of_eq hk,rfl,?_⟩
    intro r
    have hlast : Synced (batchAfter cfg m canvas n) r (rowAfter cfg (m r) (canvas r) n) := synced n
    have hn : n = cfg.maxDenoisingSteps := hk
    rw [hlast.active,hn,rowAfter_converges,Bool.not_true]
  | succ k ih =>
    rw [denoiseBatch]
    show ∃ n' ≤ _, (if (List.finRange B).all (fun r =>
      !(batchAfter cfg m canvas (n+1)).active r) then batchAfter cfg m canvas (n+1)
        else denoiseBatch cfg m k (n+1) (batchAfter cfg m canvas (n+1))) = _ ∧ _
    split
    · next hall =>
      refine ⟨n+1,by omega,rfl,?_⟩
      intro r
      simpa using List.all_eq_true.mp hall r (List.mem_finRange r)
    · exact ih (by omega)

/-- Batched denoising is the denoising of each row alone. -/
theorem batchedDenoising (cfg : DiffusionGemmaSamplingConfig) (m : Fin B → RowModel L Soft)
    (canvas : Fin B → Fin L → Token) :
    (∀ r, ∃ k ≤ cfg.maxDenoisingSteps, (rowAfter cfg (m r) (canvas r) k).2 = true) ∧
    (∃ n ≤ cfg.maxDenoisingSteps, ∀ r, (batchAfter cfg m canvas n).active r = false) ∧
    (∀ r k n, (rowAfter cfg (m r) (canvas r) k).2 = true →
      (batchAfter cfg m canvas n).active r = false →
        ∀ j, SameResult (batchAfter cfg m canvas (n+j)) r (rowAfter cfg (m r) (canvas r) k).1) ∧
    (∀ r, SameResult (denoiseBatch cfg m cfg.maxDenoisingSteps 0 (newBatchState canvas)) r
      (denoise cfg (m r) cfg.maxDenoisingSteps 0 (newState (canvas r)))) := by
  obtain ⟨n',hn',hloop,hinactive⟩ :
      ∃ n' ≤ cfg.maxDenoisingSteps, denoiseBatch cfg m cfg.maxDenoisingSteps 0
        (batchAfter cfg m canvas 0) = batchAfter cfg m canvas n' ∧
          ∀ r, (batchAfter cfg m canvas n').active r = false :=
    denoiseBatch_eq (Nat.zero_add _)
  refine ⟨fun r => ⟨_,le_rfl,rowAfter_converges⟩,⟨n',hn',hinactive⟩,?_,?_⟩
  · intro r k n hrow hactive j
    exact (batchAfter_result hrow hactive).2
  · intro r
    have hsingle : denoise cfg (m r) cfg.maxDenoisingSteps 0 (newState (canvas r)) =
        (rowAfter cfg (m r) (canvas r) cfg.maxDenoisingSteps).1 := denoise_eq (Nat.zero_add _) rfl
    have hbatch : denoiseBatch cfg m cfg.maxDenoisingSteps 0 (newBatchState canvas) = _ := hloop
    rw [hsingle,hbatch]
    exact (batchAfter_result (j := 0) rowAfter_converges (hinactive r)).2

def smallConfig : DiffusionGemmaSamplingConfig where
  maxDenoisingSteps := 3
  stabilityThreshold := 2

/-- The first row settles at once, the second changes in every pass. -/
def smallModel (r : Fin 2) : RowModel 1 Nat := fun n _ _ remaining =>
  { argmax := fun _ => if r = 0 then 7 else n
    sampled := fun _ => 8
    randomTokens := fun _ => 9
    accept := fun _ => n = 0
    confident := true
    soft := remaining }

theorem batchedDenoising_small :
    (batchAfter smallConfig smallModel (fun _ _ => 0) 2).active 1 = true ∧
    (rowAfter smallConfig (smallModel 0) (fun _ => 0) 2).1.step = 2 ∧
    SameResult (batchAfter smallConfig smallModel (fun _ _ => 0) 3) 0
      (rowAfter smallConfig (smallModel 0) (fun _ => 0) 2).1 :=
  ⟨by decide,by decide,
    (batchedDenoising smallConfig smallModel fun _ _ => 0).2.2.1 0 2 2 (by decide) (by decide) 1⟩

end Agreement

end DiffusionGemmaDecoder

end FluxServe.Gemma
