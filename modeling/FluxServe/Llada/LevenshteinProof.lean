import FluxServe.Llada.Levenshtein
import Mathlib.Data.Finset.Card
import Mathlib.Data.Fintype.Basic

namespace FluxServe.Llada

open Engine

section Reductions

variable {n : Nat} {α : Type} [LinearOrder α]

theorem le_argmax [NeZero n] (f : Fin n → α) (j : Fin n) : f j ≤ f (argmax f) := by
  cases h : (List.finRange n).argmax f with
  | none =>
    rw [List.argmax_eq_none] at h
    exact absurd (h ▸ List.mem_finRange j) List.not_mem_nil
  | some m =>
    rw [argmax,h]
    exact List.le_of_mem_argmax (List.mem_finRange j) h

theorem argmin_le [NeZero n] (f : Fin n → α) (j : Fin n) : f (argmin f) ≤ f j :=
  le_argmax (α := αᵒᵈ) f j

theorem count_pos {f : Fin n → Bool} {i : Fin n} (h : f i = true) : 0 < count f :=
  List.countP_pos_iff.mpr ⟨i,List.mem_finRange i,h⟩

theorem count_eq_zero {f : Fin n → Bool} : count f = 0 ↔ ∀ i, f i = false := by
  rw [count,List.countP_eq_zero]
  constructor
  · intro h i
    simpa using h i (List.mem_finRange i)
  · intro h i _
    simp [h i]

theorem any_eq_true {f : Fin n → Bool} : any f = true ↔ ∃ i, f i = true := by
  simp [any]

theorem any_eq_false {f : Fin n → Bool} : any f = false ↔ ∀ i, f i = false := by
  simp [any]

/-- Whatever is greater than a position comes before it. -/
theorem count_le_rank {f : Fin n → α} {P : Fin n → Bool} {i : Fin n}
    (h : ∀ j, P j = true → f i < f j) : count P ≤ rank f i := by
  let l := (List.finRange n).mergeSort fun i j => decide (f j ≤ f i)
  have hperm : l.Perm (List.finRange n) := List.mergeSort_perm _ _
  have hsorted : l.Pairwise fun a b => f b ≤ f a := by
    have hpair : l.Pairwise fun a b => decide (f b ≤ f a) = true := List.pairwise_mergeSort
      (fun a b c hab hbc => by simpa using le_trans (by simpa using hbc) (by simpa using hab))
      (fun a b => by simpa using le_total (f b) (f a)) (List.finRange n)
    simpa using hpair
  have hmem : i ∈ l := hperm.mem_iff.mpr (List.mem_finRange i)
  have hlt : l.idxOf i < l.length := List.idxOf_lt_length_of_mem hmem
  have hdrop : l.drop (l.idxOf i) = i :: l.drop (l.idxOf i + 1) := by
    rw [List.drop_eq_getElem_cons hlt,List.getElem_idxOf]
  have hafter : (l.drop (l.idxOf i)).countP P = 0 := by
    rw [List.countP_eq_zero]
    intro j hj hP
    have hsuffix := hsorted.sublist (List.drop_sublist (l.idxOf i) l)
    rw [hdrop] at hj hsuffix
    obtain rfl | hj := List.mem_cons.mp hj
    · exact lt_irrefl _ (h j hP)
    · exact absurd (h j hP) (not_lt_of_ge (List.rel_of_pairwise_cons hsuffix hj))
  have hcount : count P = (l.take (l.idxOf i)).countP P := by
    rw [count,← hperm.countP_eq,← List.take_append_drop (l.idxOf i) l,List.countP_append,
      List.take_append_drop,hafter,Nat.add_zero]
  calc count P = (l.take (l.idxOf i)).countP P := hcount
    _ ≤ (l.take (l.idxOf i)).length := List.countP_le_length
    _ ≤ l.idxOf i := List.length_take_le _ _

end Reductions

section Finite

variable {n : Nat} {α : Type} [LinearOrder α] [OrderBot α] {f : Fin n → α} {t : Fin n} {m : Nat}

/-- How many entries are finite. -/
def finiteEntries (f : Fin n → α) : Nat := (Finset.univ.filter fun t => f t ≠ ⊥).card

theorem suppress_ne_bot {c : Fin n} (h : suppress c f t ≠ ⊥) : t ≠ c ∧ f t ≠ ⊥ := by
  by_cases ht : t = c
  · rw [ht,suppress,Function.update_self] at h
    exact absurd rfl h
  · rw [suppress,Function.update_of_ne ht] at h
    exact ⟨ht,h⟩

theorem finiteEntries_suppress (c : Fin n) (h : m+1 ≤ finiteEntries f) :
    m ≤ finiteEntries (suppress c f) := by
  have hsub : (Finset.univ.filter fun t => f t ≠ ⊥).erase c ⊆
      Finset.univ.filter fun t => suppress c f t ≠ ⊥ := by
    intro t ht
    rw [Finset.mem_erase,Finset.mem_filter] at ht
    rw [Finset.mem_filter,suppress,Function.update_of_ne ht.1]
    exact ht.2
  have hcard := Finset.card_le_card hsub
  have herase := Finset.pred_card_le_card_erase (s := Finset.univ.filter fun t => f t ≠ ⊥) (a := c)
  unfold finiteEntries at h ⊢
  omega

theorem argmax_ne_bot [NeZero n] (h : 1 ≤ finiteEntries f) : f (argmax f) ≠ ⊥ := by
  obtain ⟨t,ht⟩ := Finset.card_pos.mp h
  intro hbot
  have hle := le_argmax f t
  rw [hbot,le_bot_iff] at hle
  exact (Finset.mem_filter.mp ht).2 hle

end Finite

section Scan

variable {L : Nat} {ids : EditIds} {blk old : Fin L → Token} {isOriginalMask : Fin L → Bool}
  {promptLength : Int} {order : ScatterOrder L} {i : Fin L}

theorem offset_of_ones {count : Fin L → Nat} {n : Nat} (hn : n ≤ L)
    (h : ∀ i : Fin L, (i : Nat) < n → count i = 1) : offset count n = n := by
  induction n with
  | zero => rfl
  | succ n ih =>
    rw [offset_succ count ⟨n,hn⟩,ih (by omega) fun i hi => h i (by omega),h ⟨n,hn⟩ (by simp)]

/-- The positions before which nothing is deleted or split stay where they are. -/
theorem applyEditRow_kept (hne : ids.deleteTokenId ≠ ids.splitTokenId)
    (h : ∀ k ≤ i, isDel ids blk (promptUpTo L promptLength) k = false ∧
      isSpl ids blk (promptUpTo L promptLength) k = false) :
    (applyEditRow ids blk old isOriginalMask (promptUpTo L promptLength) order).1 i = blk i := by
  have hrow := (applyEditRow_eq ids blk old isOriginalMask promptLength hne order i).1
  have hplace : offset (counts ids blk (promptUpTo L promptLength)) i = i := by
    apply offset_of_ones (Nat.le_of_lt i.isLt)
    intro k hk
    have hkept := h k (Nat.le_of_lt hk)
    simp [counts,hkept.1,hkept.2]
  have hpart := getElem?_flatten_ofFn (parts ids blk old isOriginalMask promptLength) i 0
    (by simp [parts_eq,(h i le_rfl).1,(h i le_rfl).2])
  rw [length_parts,hplace,Nat.add_zero,parts_eq] at hpart
  rw [hrow,hpart]
  simp [(h i le_rfl).1,(h i le_rfl).2]

theorem applyEditRow_prompt (hne : ids.deleteTokenId ≠ ids.splitTokenId)
    (hi : promptUpTo L promptLength i = true) :
    (applyEditRow ids blk old isOriginalMask (promptUpTo L promptLength) order).1 i = blk i := by
  apply applyEditRow_kept hne
  intro k hk
  have hprompt : promptUpTo L promptLength k = true := by
    simp only [promptUpTo,decide_eq_true_eq] at hi ⊢
    have : (k : Nat) ≤ i := hk
    omega
  simp [isDel,isSpl,hprompt]

/-- What a generated position holds after the edit. -/
theorem applyEditRow_generated (hne : ids.deleteTokenId ≠ ids.splitTokenId)
    (hi : promptUpTo L promptLength i = false) :
    let token := (applyEditRow ids blk old isOriginalMask (promptUpTo L promptLength) order).1 i
    token = ids.maskId ∨ ∃ k, promptUpTo L promptLength k = false ∧
      (token = old k ∨
        token = blk k ∧ token ≠ ids.deleteTokenId ∧ token ≠ ids.splitTokenId) := by
  have hrow := (applyEditRow_eq ids blk old isOriginalMask promptLength hne order i).1
  dsimp only at hrow ⊢
  rw [hrow]
  have hlen := length_flatten_ofFn (parts ids blk old isOriginalMask promptLength)
  by_cases hout : offset (fun i => (parts ids blk old isOriginalMask promptLength i).length) L ≤ i
  · left
    rw [List.getElem?_eq_none (by omega)]
    rfl
  · obtain ⟨k,_,m,hm,hplace⟩ := exists_offset (Nat.le_refl L) (Nat.lt_of_not_le hout)
    rw [hplace,getElem?_flatten_ofFn _ k m hm]
    have hk : promptUpTo L promptLength k = false := by
      by_contra hk
      rw [Bool.not_eq_false] at hk
      -- The parts of the prompt are single, so this place would be in the prompt itself.
      have hones : ∀ j : Fin L, (j : Nat) < k+1 →
          (parts ids blk old isOriginalMask promptLength j).length = 1 := by
        intro j hj
        have hprompt : (j : Int) < promptLength := by
          simp only [promptUpTo,decide_eq_true_eq] at hk
          omega
        simp [parts,editedToken,hprompt]
      have hk1 := hones k (Nat.lt_succ_self _)
      rw [offset_of_ones (Nat.le_of_lt k.isLt) fun j hj => hones j (by omega)] at hplace
      have hik : i = k := by
        apply Fin.ext
        omega
      rw [hik,hk] at hi
      cases hi
    rw [parts_eq] at hm ⊢
    split at hm
    · exact absurd hm (Nat.not_lt_zero m)
    · next hdel =>
      rw [if_neg hdel]
      split at hm
      · next hspl =>
        rw [if_pos hspl]
        obtain rfl | rfl : m = 0 ∨ m = 1 := by
          simp only [List.length_cons,List.length_nil] at hm
          omega
        · exact .inl rfl
        · exact .inr ⟨k,hk,.inl rfl⟩
      · next hspl =>
        rw [if_neg hspl]
        obtain rfl : m = 0 := by
          simp only [List.length_cons,List.length_nil] at hm
          omega
        refine .inr ⟨k,hk,.inr ⟨rfl,?_,?_⟩⟩
        · simpa [isDel,hk] using hdel
        · simpa [isSpl,hk] using hspl

end Scan

namespace LevenshteinJointDecoder

variable {L V : Nat} [NeZero L] [NeZero V] {Logit Conf : Type} [LinearOrder Logit]
  [OrderBot Logit] [LinearOrder Conf] {d : LevenshteinJointDecoder V Conf}
  {softmax : (Fin V → Logit) → Fin V → Conf} {s : StepInput L V d.maxBlockIters Logit} {i : Fin L}

section Candidates

omit [NeZero L] in
theorem ne_of_ne_column {id : Token} {t : Fin V} (hid : -(V : Int) ≤ id ∧ id < V)
    (h : t ≠ column V id) : ((t : Nat) : Token) ≠ id := by
  intro heq
  apply h
  apply Fin.ext
  have hlt := t.isLt
  have hmod : (id % V).toNat = t := by
    rw [← heq,Int.emod_eq_of_lt (by omega) (by omega)]
    rfl
  rw [column,Fin.ofNat,hmod]
  exact (Nat.mod_eq_of_lt hlt).symm

/-- The candidates of a position with enough finite entries. -/
theorem top1_ne_mask (h : 4 ≤ finiteEntries (s.logits i)) :
    ((d.top1 s i : Nat) : Token) ≠ d.maskId := by
  apply ne_of_ne_column d.maskColumn
  have hfinite := finiteEntries_suppress (column V d.maskId) h
  exact (suppress_ne_bot (argmax_ne_bot (Nat.le_trans (by decide) hfinite))).1

theorem altX0_resolved (h : 4 ≤ finiteEntries (s.logits i)) :
    ((d.altX0 s i : Nat) : Token) ≠ d.maskId ∧ ((d.altX0 s i : Nat) : Token) ≠ d.deleteTokenId ∧
      ((d.altX0 s i : Nat) : Token) ≠ d.splitTokenId := by
  have hfinite := finiteEntries_suppress (column V d.splitTokenId)
    (finiteEntries_suppress (column V d.deleteTokenId)
      (finiteEntries_suppress (column V d.maskId) h))
  obtain ⟨hsplit,hrest⟩ := suppress_ne_bot (argmax_ne_bot hfinite)
  obtain ⟨hdelete,hrest⟩ := suppress_ne_bot hrest
  obtain ⟨hmask,_⟩ := suppress_ne_bot hrest
  exact ⟨ne_of_ne_column d.maskColumn hmask,ne_of_ne_column d.deleteColumn hdelete,
    ne_of_ne_column d.splitColumn hsplit⟩

end Candidates

section Writes

theorem maskIndex_generated (h : d.maskIndex s i = true) : s.promptPositions i = false := by
  simp only [maskIndex,Bool.and_eq_true,Bool.not_eq_true'] at h
  exact h.2

/-- Only masks are taken by their rank, since nothing else has a confidence. -/
theorem maskIndex_of_rank
    (h : rank (d.maskConf softmax s) i < count (d.maskIndex s)) : d.maskIndex s i = true := by
  by_contra hi
  rw [Bool.not_eq_true] at hi
  apply absurd h (Nat.not_lt_of_le (count_le_rank _))
  intro j hj
  rw [maskConf,maskConf,hi,hj]
  exact WithBot.bot_lt_coe _

theorem transfers_maskIndex (h : d.transfers softmax s i = true) : d.maskIndex s i = true := by
  simp only [transfers,Bool.and_eq_true] at h
  obtain ⟨⟨h,_⟩,_⟩ := h
  split at h
  · exact h
  · split at h
    · simp only [highConf,Bool.and_eq_true] at h
      exact h.2
    · rw [decide_eq_true_eq] at h
      exact maskIndex_of_rank (Nat.lt_of_lt_of_le h (Nat.min_le_right _ _))

theorem m2t_maskIndex (h : d.m2t softmax s i = true) : d.maskIndex s i = true := by
  unfold m2t at h
  split at h
  · exact h
  · exact transfers_maskIndex h

theorem t2t_generated (h : d.t2t softmax s i = true) : s.promptPositions i = false := by
  simp only [t2t,Bool.and_eq_true,Bool.not_eq_true'] at h
  exact h.1.2.2

theorem written_prompt (h : s.promptPositions i = true) : d.written softmax s i = s.xBlock i := by
  have hm2t : d.m2t softmax s i = false := by
    by_contra hm
    rw [Bool.not_eq_false] at hm
    rw [maskIndex_generated (m2t_maskIndex hm)] at h
    cases h
  have ht2t : d.t2t softmax s i = false := by
    by_contra ht
    rw [Bool.not_eq_false] at ht
    rw [t2t_generated ht] at h
    cases h
  simp [written,hm2t,ht2t]

theorem finalRound_active (h : d.finalRound softmax s = true) : s.finalized = false := by
  simp only [finalRound,Bool.and_eq_true,Bool.not_eq_true'] at h
  exact h.2

theorem written_finalized (h : s.finalized = true) : d.written softmax s = s.xBlock := by
  funext i
  simp [written,h]

/-- The final round resolves every generated position that holds no edit token before. -/
theorem written_resolved (hround : d.finalRound softmax s = true)
    (hi : s.promptPositions i = false) (hfinite : 4 ≤ finiteEntries (s.logits i))
    (hdelete : s.xBlock i ≠ d.deleteTokenId) (hsplit : s.xBlock i ≠ d.splitTokenId) :
    d.written softmax s i ≠ d.maskId ∧ d.written softmax s i ≠ d.deleteTokenId ∧
      d.written softmax s i ≠ d.splitTokenId := by
  have hactive := finalRound_active hround
  cases hwrite : d.m2t softmax s i || d.t2t softmax s i with
  | true =>
    have hwritten : d.written softmax s i = d.x0 softmax s i := by simp [written,hwrite,hactive]
    rw [hwritten,x0]
    simp only [hround,hwrite,Bool.true_and]
    split
    · exact altX0_resolved hfinite
    · next hedit =>
      simp only [Bool.or_eq_true,decide_eq_true_eq,not_or] at hedit
      exact ⟨top1_ne_mask hfinite,hedit⟩
  | false =>
    have hwritten : d.written softmax s i = s.xBlock i := by simp [written,hwrite]
    rw [hwritten]
    refine ⟨?_,hdelete,hsplit⟩
    intro hmask
    have hm2t : d.m2t softmax s i = true := by simp [m2t,hround,maskIndex,hmask,hi]
    rw [hm2t] at hwrite
    cases hwrite

end Writes

section Escape

variable {blk : Fin L → Token}

/-- The escape resamples a position that is changed already. -/
theorem escapePos_changed (h : d.resamples softmax s blk = true) :
    blk (d.escapePos softmax s blk) ≠ s.xBlock (d.escapePos softmax s blk) := by
  simp only [resamples,Bool.and_eq_true,any_eq_true] at h
  obtain ⟨_,k,hk⟩ := h
  intro hsame
  have hle : (if blk (d.escapePos softmax s blk) != s.xBlock (d.escapePos softmax s blk) then
      (d.x0Prob softmax s (d.escapePos softmax s blk) : WithTop Conf) else ⊤) ≤
        if blk k != s.xBlock k then (d.x0Prob softmax s k : WithTop Conf) else ⊤ :=
    argmin_le (fun i => if blk i != s.xBlock i then (d.x0Prob softmax s i : WithTop Conf) else ⊤) k
  have hne : (blk (d.escapePos softmax s blk) != s.xBlock (d.escapePos softmax s blk)) = false := by
    simpa using hsame
  rw [hne,hk,if_pos rfl,if_neg Bool.false_ne_true] at hle
  exact absurd hle (not_le_of_gt (WithTop.coe_lt_top _))

theorem escapeRound_unchanged (h : blk i = s.xBlock i) :
    d.escapeRound softmax s blk i = s.xBlock i := by
  unfold escapeRound
  by_cases hi : i = d.escapePos softmax s blk
  · have hno : d.resamples softmax s blk = false := by
      by_contra hyes
      rw [Bool.not_eq_false] at hyes
      exact escapePos_changed hyes (hi ▸ h)
    rw [hno,← hi,Function.update_self]
    exact h
  · rw [Function.update_of_ne hi]
    exact h

/-- No round of the escape changes a row that is finalized or in its final round. -/
theorem escapeRound_idle (h : s.finalized = true ∨ d.finalRound softmax s = true) :
    d.escapeRound softmax s blk = blk := by
  have hno : d.resamples softmax s blk = false := by
    obtain h | h := h <;> simp [resamples,h]
  unfold escapeRound
  rw [hno]
  exact Function.update_eq_self _ blk

theorem blockResult_prompt (h : s.promptPositions i = true) :
    d.blockResult softmax s i = s.xBlock i := by
  have hiter (n : Nat) : (d.escapeRound softmax s)^[n] (d.written softmax s) i = s.xBlock i := by
    induction n with
    | zero => exact written_prompt h
    | succ n ih =>
      rw [Function.iterate_succ_apply']
      exact escapeRound_unchanged ih
  exact hiter 5

theorem blockResult_idle (h : s.finalized = true ∨ d.finalRound softmax s = true) :
    d.blockResult softmax s = d.written softmax s :=
  Function.iterate_fixed (escapeRound_idle h) 5

end Escape

section Step

variable {promptLength : Int}

/-- A finalized row stays as it is. -/
theorem graphStep_finalized (h : s.finalized = true) :
    let step := d.graphStep softmax s
    step.newBlock = s.xBlock ∧ step.isOriginalMask = s.isOriginalMask ∧ step.stepId = s.stepId ∧
      step.postSteps = s.postSteps ∧ step.finalized = true ∧ step.historyAppend = false ∧
      step.changed = false := by
  have hblock : (d.graphStep softmax s).newBlock = s.xBlock := by
    simp only [graphStep,h,if_true]
    rw [blockResult_idle (.inl h),written_finalized h]
  refine ⟨hblock,?_,?_,?_,?_,?_,?_⟩
  · simp [graphStep,h]
  · simp [graphStep,h]
  · simp [graphStep,postSteps,h]
  · simp [graphStep,h]
  · simp [graphStep,h]
  · change any (fun i => (d.graphStep softmax s).newBlock i != s.xBlock i) = false
    rw [hblock]
    simp [any_eq_false]

theorem graphStep_prompt (hne : d.deleteTokenId ≠ d.splitTokenId)
    (hprompt : s.promptPositions = promptUpTo L promptLength)
    (hi : promptUpTo L promptLength i = true) :
    (d.graphStep softmax s).newBlock i = s.xBlock i := by
  rw [← hprompt] at hi
  dsimp only [graphStep]
  split
  · exact blockResult_prompt hi
  · rw [hprompt,applyEditRow_prompt hne (hprompt ▸ hi)]
    exact blockResult_prompt hi

/-- A pass leaves no edit token where there was none. -/
theorem graphStep_consumes (hdistinct : [d.maskId,d.deleteTokenId,d.splitTokenId].Nodup)
    (hprompt : s.promptPositions = promptUpTo L promptLength)
    (hclean : ∀ i, promptUpTo L promptLength i = false →
      s.xBlock i ≠ d.deleteTokenId ∧ s.xBlock i ≠ d.splitTokenId)
    (hi : promptUpTo L promptLength i = false) :
    (d.graphStep softmax s).newBlock i ≠ d.deleteTokenId ∧
      (d.graphStep softmax s).newBlock i ≠ d.splitTokenId := by
  simp only [List.nodup_cons,List.mem_cons,List.not_mem_nil,or_false,not_or] at hdistinct
  obtain ⟨⟨hmd,hms⟩,hds,_⟩ := hdistinct
  cases hfin : s.finalized with
  | true =>
    rw [(graphStep_finalized hfin).1]
    exact hclean i hi
  | false =>
    dsimp only [graphStep]
    rw [hfin,if_neg Bool.false_ne_true,hprompt]
    have hrow : let token := (applyEditRow d.toEditIds (d.blockResult softmax s) s.xBlock
        s.isOriginalMask (promptUpTo L promptLength) s.order).1 i
      token = d.maskId ∨ ∃ k, promptUpTo L promptLength k = false ∧
        (token = s.xBlock k ∨ token = d.blockResult softmax s k ∧ token ≠ d.deleteTokenId ∧
          token ≠ d.splitTokenId) := applyEditRow_generated hds hi
    obtain hmask | ⟨k,hk,hold | ⟨_,hedit⟩⟩ := hrow
    · rw [hmask]
      exact ⟨hmd,hms⟩
    · rw [hold]
      exact hclean k hk
    · exact hedit

/-- The pass that finalizes a row leaves no mask behind its prompt. -/
theorem graphStep_resolves (hne : d.deleteTokenId ≠ d.splitTokenId)
    (hprompt : s.promptPositions = promptUpTo L promptLength)
    (hclean : ∀ i, promptUpTo L promptLength i = false →
      s.xBlock i ≠ d.deleteTokenId ∧ s.xBlock i ≠ d.splitTokenId)
    (hfinite : ∀ i, 4 ≤ finiteEntries (s.logits i)) (hround : d.finalRound softmax s = true)
    (hi : promptUpTo L promptLength i = false) :
    (d.graphStep softmax s).newBlock i ≠ d.maskId := by
  have hresolved (k : Fin L) (hk : promptUpTo L promptLength k = false) :=
    written_resolved hround (hprompt ▸ hk) (hfinite k) (hclean k hk).1 (hclean k hk).2
  dsimp only [graphStep]
  rw [finalRound_active hround,if_neg Bool.false_ne_true,hprompt,blockResult_idle (.inr hround),
    applyEditRow_kept hne]
  · exact (hresolved i hi).1
  · intro k _
    cases hk : promptUpTo L promptLength k with
    | true => simp [isDel,isSpl,hk]
    | false =>
      have hkr := hresolved k hk
      simp [isDel,isSpl,hkr.2.1,hkr.2.2]

end Step

end LevenshteinJointDecoder

end FluxServe.Llada
