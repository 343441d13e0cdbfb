import FluxServe.Llada.LevenshteinSafety
import Mathlib.Data.List.Nodup

namespace FluxServe.Llada

open Engine

section Counts

variable {n : Nat} {α : Type} [LinearOrder α] {f g : Fin n → Bool}

theorem count_mono (h : ∀ i, f i = true → g i = true) : count f ≤ count g :=
  List.countP_mono_left fun i _ => h i

theorem count_split (f g : Fin n → Bool) :
    count f = count (fun i => f i && g i) + count (fun i => f i && !g i) := by
  rw [count,List.countP_eq_countP_filter_add _ f g,List.countP_filter,List.countP_filter]
  rfl

theorem countP_range_lt {m : Nat} (h : m ≤ n) :
    (List.range n).countP (fun k => decide (k < m)) = m := by
  obtain ⟨k,rfl⟩ := Nat.exists_eq_add_of_le h
  have hlow : (List.range m).countP (fun k => decide (k < m)) = m := by
    have hall : ∀ k ∈ List.range m, decide (k < m) = true := by simp
    simpa using List.countP_eq_length.mpr hall
  have hhigh : ((List.range k).map (m + ·)).countP (fun k => decide (k < m)) = 0 := by
    simp [List.countP_eq_zero]
  rw [List.range_add,List.countP_append,hlow,hhigh,Nat.add_zero]

/-- Each of the first places is taken by one position. -/
theorem count_rank_lt (f : Fin n → α) {m : Nat} (h : m ≤ n) :
    count (fun i => decide (rank f i < m)) = m := by
  let l := (List.finRange n).mergeSort fun i j => decide (f j ≤ f i)
  have hperm : l.Perm (List.finRange n) := List.mergeSort_perm _ _
  have hnodup : l.Nodup := hperm.nodup_iff.mpr (List.nodup_finRange n)
  have hlen : l.length = n := by simpa using hperm.length_eq
  have hplaces : l.map (fun i => l.idxOf i) = List.range n := by
    apply List.ext_getElem
    · simp [hlen]
    · intro k h₁ h₂
      simp [hnodup.idxOf_getElem]
  calc count (fun i => decide (rank f i < m))
      = l.countP (fun i => decide (l.idxOf i < m)) := (hperm.countP_eq _).symm
    _ = (l.map fun i => l.idxOf i).countP (fun k => decide (k < m)) := by
        rw [List.countP_map]
        rfl
    _ = m := by rw [hplaces,countP_range_lt h]

end Counts

/-- `m2t_schedule_need`, the masks that a step is to replace at least. -/
def m2tScheduleNeed (initialMaskCount steps stepId : Nat) : Nat :=
  if steps ≤ stepId then initialMaskCount
  else initialMaskCount/steps + (if stepId < initialMaskCount % steps then 1 else 0)

/-- What the steps before one are to replace. -/
theorem sum_m2tScheduleNeed_lt {initialMaskCount steps stepId : Nat} (h : stepId ≤ steps) :
    ((List.range stepId).map (m2tScheduleNeed initialMaskCount steps)).sum =
      stepId*(initialMaskCount/steps) + min stepId (initialMaskCount % steps) := by
  induction stepId with
  | zero => simp
  | succ k ih =>
    rw [List.range_succ,List.map_append,List.sum_append,ih (Nat.le_of_succ_le h),Nat.succ_mul]
    simp only [List.map_cons,List.map_nil,List.sum_singleton]
    rw [m2tScheduleNeed,if_neg (by omega)]
    split <;> omega

theorem sum_m2tScheduleNeed {initialMaskCount steps : Nat} (h : 0 < steps) :
    ((List.range steps).map (m2tScheduleNeed initialMaskCount steps)).sum = initialMaskCount := by
  have hlt := Nat.mod_lt initialMaskCount h
  rw [sum_m2tScheduleNeed_lt le_rfl,Nat.min_eq_right (Nat.le_of_lt hlt)]
  exact Nat.div_add_mod _ _

section Unedited

variable {L : Nat} {ids : EditIds} {blk old : Fin L → Token}
  {isOriginalMask promptPositions : Fin L → Bool} {i : Fin L} {order : ScatterOrder L}

theorem le_slots (L : Nat) : L ≤ 2*L+1 := by omega

/-- Without an edit token each position goes to a slot of its own. -/
theorem scatterBoth_unedited {α : Type} {order order' : Equiv.Perm (Fin L)}
    {primary secondary : Fin L → α} {fill : α}
    (h : ∀ k, isDel ids blk promptPositions k = false ∧ isSpl ids blk promptPositions k = false) :
    scatterBoth ids blk promptPositions order order' primary secondary fill
      (i.castLE (le_slots L)) = primary i := by
  have hones (k : Fin L) : offset (counts ids blk promptPositions) k = k := by
    apply offset_of_ones (Nat.le_of_lt k.isLt)
    intro j _
    simp [counts,h j]
  have hslot : i.castLE (le_slots L) ≠ sink L := by
    simp [sink,Fin.ext_iff]
    omega
  have hprimary : primaryIdx ids blk promptPositions i = i.castLE (le_slots L) :=
    (primaryIdx_eq hslot).mpr ⟨(h i).1,hones i⟩
  rw [scatterBoth,scatter_of_notMem]
  · rw [← hprimary]
    apply scatter_of_unique
    intro k hk
    rw [hprimary] at hk
    have hplace := ((primaryIdx_eq hslot).mp hk).2
    rw [hones] at hplace
    exact Fin.ext hplace
  · intro k hk
    rw [secondaryIdx,(h k).2,if_neg Bool.false_ne_true] at hk
    exact hslot hk.symm

theorem applyEditRow_unedited
    (h : ∀ k, isDel ids blk promptPositions k = false ∧ isSpl ids blk promptPositions k = false) :
    applyEditRow ids blk old isOriginalMask promptPositions order =
      (blk,fun i => isOriginalMask i && !promptPositions i) := by
  have hcounts : counts ids blk promptPositions = fun _ => 1 := by
    funext k
    simp [counts,h k]
  have hpad (j : Fin L) : ¬(List.ofFn (counts ids blk promptPositions)).sum ≤ j := by
    rw [hcounts]
    simp
  simp only [applyEditRow]
  apply Prod.ext
  · funext j
    simp [hpad j,scatterBoth_unedited h,h j]
  · funext j
    simp [hpad j,scatterBoth_unedited h,h j]

end Unedited

namespace LevenshteinJointDecoder

variable {L V : Nat} [NeZero L] [NeZero V] {Logit Conf : Type} [LinearOrder Logit]
  [OrderBot Logit] [LinearOrder Conf] {d : LevenshteinJointDecoder V Conf}
  {softmax : (Fin V → Logit) → Fin V → Conf} {s : StepInput L V d.maxBlockIters Logit} {i : Fin L}

/-- What the schedule asks of a pass, as the step computes it. -/
def schedule (d : LevenshteinJointDecoder V Conf) (s : StepInput L V d.maxBlockIters Logit) : Nat :=
  s.initialMaskCount/d.steps + (if s.stepId < s.initialMaskCount % d.steps then 1 else 0)

theorem schedule_eq (h : s.stepId < d.steps) :
    d.schedule s = m2tScheduleNeed s.initialMaskCount d.steps s.stepId := by
  rw [m2tScheduleNeed,if_neg (Nat.not_le_of_lt h)]
  rfl

section Floor

/-- Past the schedule and in the final round every mask is replaced. -/
theorem m2t_all (hactive : s.finalized = false)
    (h : d.steps ≤ s.stepId ∨ d.finalRound softmax s = true) :
    d.m2t softmax s = d.maskIndex s := by
  funext i
  unfold m2t
  split
  · rfl
  · next hround =>
    obtain hpast | hfinal := h
    · simp only [transfers,hpast,if_true,hactive,Bool.not_false,Bool.and_true]
      cases hi : d.maskIndex s i with
      | true => simpa using any_eq_true.mpr ⟨i,hi⟩
      | false => rfl
    · exact absurd hfinal hround

/-- A pass that has a mask replaces as many as it needs, or all of them. -/
theorem le_count_transfers (hactive : s.finalized = false) :
    min (d.numNeed s) (count (d.maskIndex s)) ≤ count (d.transfers softmax s) := by
  cases hany : any (d.maskIndex s) with
  | false =>
    rw [count_eq_zero.mpr (any_eq_false.mp hany),Nat.min_zero]
    exact Nat.zero_le _
  | true =>
    by_cases hpast : d.steps ≤ s.stepId
    · have hall : d.transfers softmax s = d.maskIndex s := by
        funext i
        simp [transfers,hpast,hactive,hany]
      rw [hall]
      exact Nat.min_le_right _ _
    · by_cases hhigh : d.numNeed s ≤ count (d.highConf softmax s)
      · have hall : d.transfers softmax s = d.highConf softmax s := by
          funext i
          simp [transfers,hpast,hhigh,hactive,hany]
        rw [hall]
        exact Nat.le_trans (Nat.min_le_left _ _) hhigh
      · have hall : d.transfers softmax s = fun i =>
            decide (rank (d.maskConf softmax s) i < min (d.numNeed s) (count (d.maskIndex s))) := by
          funext i
          simp only [transfers,hpast,hhigh,if_false,hactive,hany,Bool.not_false,Bool.and_true]
        have hle : min (d.numNeed s) (count (d.maskIndex s)) ≤ L := by
          apply Nat.le_trans (Nat.min_le_right _ _)
          simpa [count] using List.countP_le_length (p := d.maskIndex s) (l := List.finRange L)
        rw [hall,count_rank_lt _ hle]

theorem le_count_m2t (hactive : s.finalized = false) :
    min (d.schedule s + d.newCnt s) (count (d.maskIndex s)) ≤ count (d.m2t softmax s) := by
  cases hround : d.finalRound softmax s with
  | true =>
    rw [m2t_all hactive (.inr hround)]
    exact Nat.min_le_right _ _
  | false =>
    have hsame : d.m2t softmax s = d.transfers softmax s := by
      funext i
      simp [m2t,hround]
    rw [hsame]
    exact le_count_transfers hactive

theorem originalCnt_add_newCnt :
    d.originalCnt s + d.newCnt s = count (d.maskIndex s) := by
  have hle : d.originalCnt s ≤ count (d.maskIndex s) := by
    apply count_mono
    intro i hi
    rw [Bool.and_eq_true] at hi
    exact hi.1
  exact Nat.add_sub_cancel' hle

theorem count_new : count (fun i => d.maskIndex s i && !s.isOriginalMask i) = d.newCnt s := by
  have hsplit := count_split (d.maskIndex s) s.isOriginalMask
  have hsum : d.originalCnt s + d.newCnt s = count (d.maskIndex s) := originalCnt_add_newCnt
  change _ = d.originalCnt s + _ at hsplit
  omega

/-- The new masks cannot take all the places, so that the schedule is left to the original ones. -/
theorem le_count_original (hactive : s.finalized = false) :
    min (d.schedule s) (d.originalCnt s) ≤
      count (fun i => d.m2t softmax s i && s.isOriginalMask i) := by
  have hfloor : min (d.schedule s + d.newCnt s) (count (d.maskIndex s)) ≤
      count (d.m2t softmax s) := le_count_m2t hactive
  have hsplit := count_split (d.m2t softmax s) s.isOriginalMask
  have hnew : count (fun i => d.m2t softmax s i && !s.isOriginalMask i) ≤ d.newCnt s := by
    rw [← count_new]
    apply count_mono
    intro i hi
    rw [Bool.and_eq_true] at hi ⊢
    exact ⟨m2t_maskIndex hi.1,hi.2⟩
  have hsum : d.originalCnt s + d.newCnt s = count (d.maskIndex s) := originalCnt_add_newCnt
  omega

/-- What the schedule asks of a step by its number, past the end as well. -/
theorem need_le_count_original (hactive : s.finalized = false) :
    min (m2tScheduleNeed s.initialMaskCount d.steps s.stepId) (d.originalCnt s) ≤
      count (fun i => d.m2t softmax s i && s.isOriginalMask i) := by
  by_cases hpast : d.steps ≤ s.stepId
  · rw [m2t_all hactive (.inl hpast)]
    exact Nat.min_le_right _ _
  · rw [← schedule_eq (Nat.lt_of_not_le hpast)]
    exact le_count_original hactive

end Floor

section Masks

variable {blk : Fin L → Token}

omit [NeZero L] in
theorem top2_ne_mask (h : 4 ≤ finiteEntries (s.logits i)) :
    ((d.top2 s i : Nat) : Token) ≠ d.maskId := by
  apply ne_of_ne_column d.maskColumn
  have hfinite := finiteEntries_suppress (d.top1 s i)
    (finiteEntries_suppress (column V d.maskId) h)
  have hne := (suppress_ne_bot (argmax_ne_bot (Nat.le_trans (by decide) hfinite))).2
  exact (suppress_ne_bot hne).1

theorem x0_ne_mask (h : 4 ≤ finiteEntries (s.logits i)) : d.x0 softmax s i ≠ d.maskId := by
  dsimp only [x0]
  split
  · exact (altX0_resolved h).1
  · exact top1_ne_mask h

/-- The escape puts no mask back. -/
theorem escapeRound_mask (hfinite : ∀ i, 4 ≤ finiteEntries (s.logits i))
    (h : d.escapeRound softmax s blk i = d.maskId) : blk i = d.maskId := by
  unfold escapeRound at h
  by_cases hi : i = d.escapePos softmax s blk
  · rw [← hi,Function.update_self] at h
    split at h
    · exfalso
      split at h
      · exact top2_ne_mask (hfinite i) h
      · exact top1_ne_mask (hfinite i) h
    · exact h
  · rw [Function.update_of_ne hi] at h
    exact h

/-- A mask that is left is one that the pass did not replace. -/
theorem blockResult_mask (hfinite : ∀ i, 4 ≤ finiteEntries (s.logits i))
    (hactive : s.finalized = false) (h : d.blockResult softmax s i = d.maskId) :
    s.xBlock i = d.maskId ∧ d.m2t softmax s i = false := by
  have hwritten : d.written softmax s i = d.maskId := by
    have hiter (n : Nat) (hn : (d.escapeRound softmax s)^[n] (d.written softmax s) i = d.maskId) :
        d.written softmax s i = d.maskId := by
      induction n with
      | zero => exact hn
      | succ n ih =>
        rw [Function.iterate_succ_apply'] at hn
        exact ih (escapeRound_mask hfinite hn)
    exact hiter 5 h
  simp only [written,hactive,Bool.not_false,Bool.and_true] at hwritten
  split at hwritten
  · exact absurd hwritten (x0_ne_mask (hfinite i))
  · next hno =>
    rw [Bool.or_eq_true,not_or,Bool.not_eq_true] at hno
    exact ⟨hwritten,hno.1⟩

/-- No generated position is an edit token when the edits are applied. -/
def Unedited (softmax : (Fin V → Logit) → Fin V → Conf)
    (s : StepInput L V d.maxBlockIters Logit) : Prop :=
  ∀ i, s.promptPositions i = false →
    d.blockResult softmax s i ≠ d.deleteTokenId ∧ d.blockResult softmax s i ≠ d.splitTokenId

theorem graphStep_unedited (hactive : s.finalized = false) (h : Unedited softmax s) :
    (d.graphStep softmax s).newBlock = d.blockResult softmax s ∧
      (d.graphStep softmax s).isOriginalMask =
        fun i => s.isOriginalMask i && !s.promptPositions i := by
  have hnone (k : Fin L) :
      isDel d.toEditIds (d.blockResult softmax s) s.promptPositions k = false ∧
        isSpl d.toEditIds (d.blockResult softmax s) s.promptPositions k = false := by
    cases hk : s.promptPositions k with
    | true => simp [isDel,isSpl,hk]
    | false => simp [isDel,isSpl,hk,(h k hk).1,(h k hk).2]
  simp only [graphStep,hactive,Bool.false_eq_true,if_false,applyEditRow_unedited hnone,and_self]

end Masks

section Remaining

variable {s' : StepInput L V d.maxBlockIters Logit}

/-- Without an edit a pass replaces original masks and adds none. -/
theorem originalCnt_unedited (hfinite : ∀ i, 4 ≤ finiteEntries (s.logits i))
    (hactive : s.finalized = false) (h : Unedited softmax s)
    (hprompt : s'.promptPositions = s.promptPositions)
    (hblock : s'.xBlock = (d.graphStep softmax s).newBlock)
    (horiginal : s'.isOriginalMask = (d.graphStep softmax s).isOriginalMask) :
    d.originalCnt s' + count (fun i => d.m2t softmax s i && s.isOriginalMask i) ≤
      d.originalCnt s := by
  obtain ⟨hnew,htracking⟩ := graphStep_unedited hactive h
  have hleft : d.originalCnt s' ≤ count (fun i =>
      (d.maskIndex s i && s.isOriginalMask i) && !d.m2t softmax s i) := by
    apply count_mono
    intro i hi
    simp only [maskIndex,hblock,hnew,hprompt,horiginal,htracking,Bool.and_eq_true,beq_iff_eq] at hi
    obtain ⟨⟨hmask,hgenerated⟩,hfrom,_⟩ := hi
    obtain ⟨hold,hm2t⟩ := blockResult_mask hfinite hactive hmask
    simp only [maskIndex,hold,beq_self_eq_true,hgenerated,hfrom,hm2t,Bool.not_false,Bool.and_self]
  have htaken : count (fun i => d.m2t softmax s i && s.isOriginalMask i) ≤ count (fun i =>
      (d.maskIndex s i && s.isOriginalMask i) && d.m2t softmax s i) := by
    apply count_mono
    intro i hi
    rw [Bool.and_eq_true] at hi
    simp only [m2t_maskIndex hi.1,hi.1,hi.2,Bool.and_self]
  have hsplit := count_split (fun i => d.maskIndex s i && s.isOriginalMask i) (d.m2t softmax s)
  change d.originalCnt s = _ at hsplit
  omega

end Remaining

end LevenshteinJointDecoder

namespace BlockRun

variable {L V : Nat} [NeZero L] [NeZero V] {Logit Conf : Type} [LinearOrder Logit]
  [OrderBot Logit] [LinearOrder Conf] {d : LevenshteinJointDecoder V Conf}
  {r : BlockRun d L Logit} {softmax : (Fin V → Logit) → Fin V → Conf} {n : Nat}

/-- What holds whenever a pass starts that no edit precedes. -/
structure Scheduled (r : BlockRun d L Logit) (n : Nat) (s : StepInput L V d.maxBlockIters Logit) :
    Prop where
  blockStart : s.blockStart = r.blockStart
  initial : s.initialMaskCount = count fun i => r.block i == d.maskId
  steps : s.finalized = true ∨ s.stepId = n
  resolved : s.finalized = true → d.originalCnt s = 0
  remaining : d.originalCnt s ≤ s.initialMaskCount -
    ((List.range n).map (m2tScheduleNeed s.initialMaskCount d.steps)).sum

theorem scheduled_zero : Scheduled r 0 (r.inputAt softmax 0) := by
  have hbegin : (r.inputAt softmax 0).toLevenshteinRowState =
      d.beginBlockRow r.row r.blockStart r.block := rfl
  rw [LevenshteinJointDecoder.beginBlockRow,if_neg r.enters] at hbegin
  have hle : d.originalCnt (r.inputAt softmax 0) ≤ count fun i => r.block i == d.maskId := by
    apply count_mono
    intro i hi
    simp only [LevenshteinJointDecoder.maskIndex,Bool.and_eq_true] at hi
    exact hi.1.1
  constructor
  · rw [hbegin]
  · rw [hbegin]
  · right
    rw [hbegin]
  · intro hfin
    rw [hbegin] at hfin
    rw [beq_iff_eq.mp hfin] at hle
    exact Nat.le_zero.mp hle
  · rw [hbegin]
    exact hle

theorem Scheduled.succ (h : Scheduled r n (r.inputAt softmax n))
    (hedit : LevenshteinJointDecoder.Unedited softmax (r.inputAt softmax n)) :
    Scheduled r (n+1) (r.inputAt softmax (n+1)) := by
  have hrow := inputAt_succ h.blockStart
  have hinitial : (r.inputAt softmax (n+1)).initialMaskCount =
      (r.inputAt softmax n).initialMaskCount := by
    rw [hrow]
    rfl
  cases hbefore : (r.inputAt softmax n).finalized with
  | true =>
    obtain ⟨hblock,htracking,_,_,hfinal,_⟩ :
        let step := d.graphStep softmax (r.inputAt softmax n)
        step.newBlock = (r.inputAt softmax n).xBlock ∧
          step.isOriginalMask = (r.inputAt softmax n).isOriginalMask ∧ _ :=
      LevenshteinJointDecoder.graphStep_finalized hbefore
    have hfin : (r.inputAt softmax (n+1)).finalized = true := by
      rw [hrow]
      exact hfinal
    have hnone : d.originalCnt (r.inputAt softmax (n+1)) = 0 := by
      rw [← h.resolved hbefore,LevenshteinJointDecoder.originalCnt,hrow]
      apply congrArg count
      funext i
      change (d.maskIndex _ i && (d.graphStep softmax (r.inputAt softmax n)).isOriginalMask i) = _
      rw [htracking,LevenshteinJointDecoder.maskIndex]
      change ((d.graphStep softmax (r.inputAt softmax n)).newBlock i == d.maskId && _ && _) = _
      rw [hblock]
      rfl
    constructor
    · rw [hrow]
      exact h.blockStart
    · rw [hinitial]
      exact h.initial
    · exact .inl hfin
    · exact fun _ => hnone
    · rw [hnone]
      exact Nat.zero_le _
  | false =>
    have hstep : (r.inputAt softmax n).stepId = n := by
      obtain hfin | hstep := h.steps
      · rw [hbefore] at hfin
        cases hfin
      · exact hstep
    have horiginal : (r.inputAt softmax (n+1)).isOriginalMask =
        (d.graphStep softmax (r.inputAt softmax n)).isOriginalMask := by
      rw [hrow]
      rfl
    have htaken : d.originalCnt (r.inputAt softmax (n+1)) + count (fun i =>
        d.m2t softmax (r.inputAt softmax n) i && (r.inputAt softmax n).isOriginalMask i) ≤
          d.originalCnt (r.inputAt softmax n) :=
      LevenshteinJointDecoder.originalCnt_unedited (r.finite n) hbefore hedit rfl rfl horiginal
    constructor
    · rw [hrow]
      exact h.blockStart
    · rw [hinitial]
      exact h.initial
    · right
      rw [hrow]
      change (r.inputAt softmax n).stepId + (if (r.inputAt softmax n).finalized then 0 else 1) = _
      rw [hbefore,hstep]
      rfl
    · intro hfin
      rw [hrow] at hfin
      change ((r.inputAt softmax n).finalized || d.finalRound softmax (r.inputAt softmax n)) = true
        at hfin
      rw [hbefore,Bool.false_or] at hfin
      rw [LevenshteinJointDecoder.m2t_all hbefore (.inr hfin)] at htaken
      change _ + d.originalCnt (r.inputAt softmax n) ≤ _ at htaken
      omega
    · have hneed : min (m2tScheduleNeed (r.inputAt softmax n).initialMaskCount d.steps
          (r.inputAt softmax n).stepId) (d.originalCnt (r.inputAt softmax n)) ≤
          count (fun i => d.m2t softmax (r.inputAt softmax n) i &&
            (r.inputAt softmax n).isOriginalMask i) :=
        LevenshteinJointDecoder.need_le_count_original hbefore
      have hremaining := h.remaining
      rw [hstep] at hneed
      rw [hinitial,List.range_succ,List.map_append,List.sum_append]
      simp only [List.map_cons,List.map_nil,List.sum_singleton]
      omega

theorem scheduled
    (hedit : ∀ k < n, LevenshteinJointDecoder.Unedited softmax (r.inputAt softmax k)) :
    Scheduled r n (r.inputAt softmax n) := by
  induction n with
  | zero => exact scheduled_zero
  | succ n ih =>
    apply (ih fun k hk => hedit k (Nat.lt_succ_of_lt hk)).succ
    exact hedit n (Nat.lt_succ_self n)

theorem sum_need_mono {m : Nat} (h : m ≤ n) (need : Nat → Nat) :
    ((List.range m).map need).sum ≤ ((List.range n).map need).sum := by
  obtain ⟨k,rfl⟩ := Nat.exists_eq_add_of_le h
  rw [List.range_add,List.map_append,List.sum_append]
  exact Nat.le_add_right _ _

theorem originalCnt_exhausted (hsteps : d.steps ≤ n)
    (hedit : ∀ k < n, LevenshteinJointDecoder.Unedited softmax (r.inputAt softmax k)) :
    d.originalCnt (r.inputAt softmax n) = 0 := by
  have hremaining := (scheduled hedit).remaining
  have hsum := sum_need_mono hsteps
    (m2tScheduleNeed (r.inputAt softmax n).initialMaskCount d.steps)
  rw [sum_m2tScheduleNeed d.steps_pos] at hsum
  omega

end BlockRun

/-- An active pass replaces masks alone, as many as the schedule and the new masks ask, and of the
original ones as many as the schedule asks; and the schedule is as long as the steps. -/
theorem scheduleFloor {L V : Nat} [NeZero L] [NeZero V] {Logit Conf : Type} [LinearOrder Logit]
    [OrderBot Logit] [LinearOrder Conf] (d : LevenshteinJointDecoder V Conf)
    (softmax : (Fin V → Logit) → Fin V → Conf) :
    (∀ s : StepInput L V d.maxBlockIters Logit, s.finalized = false →
      (∀ i, d.m2t softmax s i = true → d.maskIndex s i = true) ∧
      min (d.schedule s + d.newCnt s) (count (d.maskIndex s)) ≤ count (d.m2t softmax s) ∧
      min (d.schedule s) (d.originalCnt s) ≤
        count (fun i => d.m2t softmax s i && s.isOriginalMask i) ∧
      (d.steps ≤ s.stepId ∨ d.finalRound softmax s = true →
        d.m2t softmax s = d.maskIndex s)) ∧
    (∀ initialMaskCount,
      ((List.range d.steps).map (m2tScheduleNeed initialMaskCount d.steps)).sum =
        initialMaskCount) ∧
    (∀ s : StepInput L V d.maxBlockIters Logit,
      ((List.range d.steps).map fun stepId => d.schedule { s with stepId }).sum =
        s.initialMaskCount) ∧
    (∀ (r : BlockRun d L Logit) (n : Nat), d.steps ≤ n →
      (∀ k < n, LevenshteinJointDecoder.Unedited softmax (r.inputAt softmax k)) →
        d.originalCnt (r.inputAt softmax n) = 0) := by
  constructor
  · intro s hactive
    exact ⟨fun _ => LevenshteinJointDecoder.m2t_maskIndex,
      LevenshteinJointDecoder.le_count_m2t hactive,
      LevenshteinJointDecoder.le_count_original hactive,LevenshteinJointDecoder.m2t_all hactive⟩
  constructor
  · exact fun _ => sum_m2tScheduleNeed d.steps_pos
  constructor
  · intro s
    have hsame : ((List.range d.steps).map fun stepId => d.schedule { s with stepId }) =
        (List.range d.steps).map (m2tScheduleNeed s.initialMaskCount d.steps) := by
      apply List.map_congr_left
      intro k hk
      exact LevenshteinJointDecoder.schedule_eq (s := { s with stepId := k }) (List.mem_range.mp hk)
    rw [hsame,sum_m2tScheduleNeed d.steps_pos]
  · exact fun _ _ => BlockRun.originalCnt_exhausted

local instance hastyLength_neZero : NeZero 2 := ⟨by decide⟩

local instance hastyColumns_neZero : NeZero 5 := ⟨by decide⟩

/-- One step for all the masks of a block. -/
def hastyDecoder : LevenshteinJointDecoder 5 Nat :=
  { BlockRun.smallDecoder with
    steps := 1
    steps_pos := by decide }

/-- A block of two masks. -/
def hastyRun : BlockRun hastyDecoder 2 Nat where
  promptLength := 0
  blockStart := 4
  row := BlockRun.smallRun.row
  block _ := 0
  logits _ i t := if t = 3 then 9 else if t = 4 ∧ i = 1 then 10 else 1
  enters := by decide
  masked _ _ := rfl
  finite _ i := by
    revert i
    decide

/-- The floor takes both masks below the threshold; above it they are gone after the one step. -/
theorem scheduleFloor_hasty :
    (∀ i, hastyDecoder.highConf (fun _ _ => 0) (hastyRun.inputAt (fun _ _ => 0) 0) i = false) ∧
    2 ≤ count (fun i => hastyDecoder.m2t (fun _ _ => 0) (hastyRun.inputAt (fun _ _ => 0) 0) i &&
      (hastyRun.inputAt (fun _ _ => 0) 0).isOriginalMask i) ∧
    hastyDecoder.originalCnt (hastyRun.inputAt (fun _ _ => 1) 1) = 0 := by
  have hfloor := (scheduleFloor hastyDecoder fun _ _ => 0).1
    (hastyRun.inputAt (fun _ _ => 0) 0) (by decide)
  refine ⟨by decide,?_,
    (scheduleFloor hastyDecoder fun _ _ => 1).2.2.2 hastyRun 1 (by decide) ?_⟩
  · apply Nat.le_trans _ hfloor.2.2.1
    decide
  · intro k hk
    obtain rfl := Nat.lt_one_iff.mp hk
    unfold LevenshteinJointDecoder.Unedited
    decide +kernel

end FluxServe.Llada
