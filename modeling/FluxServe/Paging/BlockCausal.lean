import FluxServe.Paging.BlockDiffusionMetadata
import FluxServe.Paging.PagedSlots

namespace FluxServe.Paging

section Lists

variable {α β : Type}

/-- Pieces of one length are found by their number. -/
theorem flatMap_piece {l : List α} {f : α → List β} {n t : Nat} (h : ∀ a ∈ l, (f a).length = n) :
    ((l.flatMap f).drop (t*n)).take n = (l[t]?.map f).getD [] := by
  induction l generalizing t with
  | nil => simp
  | cons a l ih =>
    have hlen := h a List.mem_cons_self
    rw [List.flatMap_cons]
    cases t with
    | zero =>
      rw [Nat.zero_mul,List.drop_zero,List.take_left' hlen]
      rfl
    | succ t =>
      have hdrop : (t+1)*n = (f a).length + t*n := by
        rw [hlen,Nat.succ_mul,Nat.add_comm]
      rw [hdrop,← List.drop_drop,List.drop_left,ih fun a ha => h a (List.mem_cons_of_mem _ ha)]
      rfl

theorem repeatInterleave_getElem? {l : List α} {n i : Nat} (hn : 0 < n) :
    (repeatInterleave l n)[i]? = l[i / n]? := by
  induction l generalizing i with
  | nil => simp [repeatInterleave]
  | cons a l ih =>
    rw [repeatInterleave,List.flatMap_cons]
    by_cases hi : i < n
    · rw [List.getElem?_append_left (by simpa using hi),Nat.div_eq_of_lt hi]
      simp [hi]
    · have hdiv : i / n = (i-n)/n+1 := by
        rw [← Nat.add_div_right _ hn,Nat.sub_add_cancel (Nat.le_of_not_lt hi)]
      rw [List.getElem?_append_right (by simpa using Nat.le_of_not_lt hi),List.length_replicate,
        hdiv,List.getElem?_cons_succ,← ih]
      rfl

/-- The mask joins a query with the keys of its block and of those before. -/
theorem buildBlockAttentionMask_apply {b n q k : Nat} (hb : 0 < b) (hq : q < n*b) (hk : k < n*b) :
    ((buildBlockAttentionMask b n)[q]?.bind (·[k]?)) = some (decide (k / b ≤ q / b)) := by
  have hqb : q / b < n := Nat.div_lt_of_lt_mul (Nat.mul_comm n b ▸ hq)
  have hkb : k / b < n := Nat.div_lt_of_lt_mul (Nat.mul_comm n b ▸ hk)
  rw [buildBlockAttentionMask,repeatInterleave_getElem? hb]
  simp only [List.getElem?_map,List.getElem?_range hqb,Option.map_some,Option.bind_some]
  rw [repeatInterleave_getElem? hb]
  simp only [List.getElem?_map,List.getElem?_range hkb,Option.map_some]

end Lists

/-- A request that is to be planned: the offset and the length of its query and its pages. -/
structure Request where
  qOffset : Nat
  qLen : Nat
  pages : List Int32

/-- A block of a request's query, by its place in the query. -/
structure Task extends Request where
  row : Nat
  localStart : Nat

/-- The blocks of all requests, in order. -/
def tasksOf (b : Nat) (requests : List Request) : List Task :=
  requests.zipIdx.flatMap fun x =>
    (List.range' 0 ((x.1.qLen+b-1)/b) b).map fun localStart =>
      { x.1 with row := x.2, localStart }

/-- What the builder checks of a request. -/
structure Request.Fits (b pageSize maxInputLen : Nat) (x : Request) : Prop where
  offset_aligned : b ∣ x.qOffset
  len_aligned : b ∣ x.qLen
  len_pos : 0 < x.qLen
  len_le : x.qLen ≤ maxInputLen
  pages_enough : (x.qOffset+x.qLen+pageSize-1)/pageSize ≤ x.pages.length

section Tasks

variable {b pageSize maxInputLen : Nat} {requests : List Request} {x : Request} {task : Task}

theorem blocks_of_len (hb : 0 < b) (h : b ∣ x.qLen) : (x.qLen+b-1)/b = x.qLen / b := by
  obtain ⟨k,hk⟩ := h
  have hnum : x.qLen+b-1 = b-1+b*k := by omega
  rw [hnum,hk,Nat.add_mul_div_left _ _ hb,Nat.div_eq_of_lt (by omega),Nat.zero_add,
    Nat.mul_div_cancel_left _ hb]

theorem mem_tasksOf : task ∈ tasksOf b requests ↔
    requests[task.row]? = some task.toRequest ∧
      ∃ j < (task.qLen+b-1)/b, task.localStart = j*b := by
  simp only [tasksOf,List.mem_flatMap,List.mem_map,List.mem_range']
  constructor
  · intro ⟨y,hy,localStart,⟨j,hj,hstart⟩,htask⟩
    obtain rfl := htask
    exact ⟨List.mem_zipIdx_iff_getElem?.mp hy,j,hj,by simpa [Nat.mul_comm] using hstart⟩
  · intro ⟨hrow,j,hj,hstart⟩
    exact ⟨(task.toRequest,task.row),List.mem_zipIdx_iff_getElem?.mpr hrow,task.localStart,
      ⟨j,hj,by simpa [Nat.mul_comm] using hstart⟩,rfl⟩

theorem nodup_tasksOf (hb : 0 < b) : (tasksOf b requests).Nodup := by
  rw [tasksOf,List.nodup_flatMap]
  constructor
  · intro y _
    have hinj : Function.Injective fun localStart : Nat =>
        ({ y.1 with row := y.2, localStart } : Task) := fun _ _ h => congrArg Task.localStart h
    exact (List.nodup_range' b hb).map hinj
  · have hrows : (requests.zipIdx.map Prod.snd).Nodup := by
      rw [List.zipIdx_map_snd]
      exact List.nodup_range'
    apply (List.pairwise_map.mp hrows).imp
    intro y z hne task hy hz
    obtain ⟨s,_,rfl⟩ := List.mem_map.mp hy
    obtain ⟨s',_,hsame⟩ := List.mem_map.mp hz
    exact hne (congrArg Task.row hsame).symm

end Tasks

section Build

variable {phase : Phase} {qOffsets qLens : List Int} {pageTable : PageTable}
  {maxInputLen blockLength pageSize : Int} {causal : Bool} {m : PagedAttentionMetadata}

def requestsOf (qOffsets qLens : List Int) (rows : List (List Int32)) : List Request :=
  (((qOffsets.map Int.toNat).zip (qLens.map Int.toNat)).zip rows).map fun x =>
    { qOffset := x.1.1, qLen := x.1.2, pages := x.2 }

theorem requestsOf_getElem? {rows : List (List Int32)} {r : Nat} {x : Request} :
    (requestsOf qOffsets qLens rows)[r]? = some x ↔
      ∃ q n, qOffsets[r]? = some q ∧ qLens[r]? = some n ∧ rows[r]? = some x.pages ∧
        q.toNat = x.qOffset ∧ n.toNat = x.qLen := by
  rw [requestsOf,List.getElem?_map]
  constructor
  · intro h
    obtain ⟨y,hy,rfl⟩ := Option.map_eq_some_iff.mp h
    obtain ⟨hy,hpages⟩ := List.getElem?_zip_eq_some.mp hy
    obtain ⟨hq,hn⟩ := List.getElem?_zip_eq_some.mp hy
    rw [List.getElem?_map] at hq hn
    obtain ⟨q,hq,hq'⟩ := Option.map_eq_some_iff.mp hq
    obtain ⟨n,hn,hn'⟩ := Option.map_eq_some_iff.mp hn
    exact ⟨q,n,hq,hn,hpages,hq',hn'⟩
  · intro ⟨q,n,hq,hn,hpages,hq',hn'⟩
    apply Option.map_eq_some_iff.mpr
    refine ⟨((q.toNat,n.toNat),x.pages),?_,by rw [hq',hn']⟩
    rw [List.getElem?_zip_eq_some,List.getElem?_zip_eq_some,List.getElem?_map,List.getElem?_map,
      hq,hn]
    exact ⟨⟨rfl,rfl⟩,hpages⟩

theorem requestsOf_zip {rows : List (List Int32)} (h : qOffsets.length = qLens.length)
    (h' : rows.length = qLens.length) :
    (requestsOf qOffsets qLens rows).map (fun x => (x.qOffset,x.qLen)) =
      (qOffsets.map Int.toNat).zip (qLens.map Int.toNat) := by
  rw [requestsOf,List.map_map]
  exact List.map_fst_zip (by simp; omega)

theorem requestsOf_offsets {rows : List (List Int32)} (h : qOffsets.length = qLens.length)
    (h' : rows.length = qLens.length) :
    (requestsOf qOffsets qLens rows).map Request.qOffset = qOffsets.map Int.toNat := by
  have hfst := congrArg (List.map Prod.fst) (requestsOf_zip h h')
  rw [List.map_map,List.map_fst_zip (by simp; omega)] at hfst
  exact hfst

theorem requestsOf_lens {rows : List (List Int32)} (h : qOffsets.length = qLens.length)
    (h' : rows.length = qLens.length) :
    (requestsOf qOffsets qLens rows).map Request.qLen = qLens.map Int.toNat := by
  have hsnd := congrArg (List.map Prod.snd) (requestsOf_zip h h')
  rw [List.map_map,List.map_snd_zip (by simp; omega)] at hsnd
  exact hsnd

theorem requestsOf_pages {rows : List (List Int32)} (h : qOffsets.length = qLens.length)
    (h' : rows.length = qLens.length) :
    (requestsOf qOffsets qLens rows).map Request.pages = rows := by
  rw [requestsOf,List.map_map]
  exact List.map_snd_zip (by simp; omega)

theorem toNat_dvd_toNat {b n : Int} (hb : 0 ≤ b) (hn : 0 ≤ n) (h : b ∣ n) :
    b.toNat ∣ n.toNat := by
  rw [← Int.natCast_dvd_natCast,Int.toNat_of_nonneg hb,Int.toNat_of_nonneg hn]
  exact h

/-- What a request adds to the plan once it is accepted. -/
def planOf (maxInputLen b pageSize : Nat) (x : Request) (row : Nat) : RequestPlan :=
  let localStarts := List.range' 0 ((x.qLen+b-1)/b) b
  { qIndices := localStarts.flatMap fun localStart =>
      List.range' (row*maxInputLen+localStart) b
    taskKvLens := localStarts.map fun localStart => x.qOffset+(localStart+b)
    slotPart := (List.range' x.qOffset x.qLen).map (slotOf pageSize x.pages) }

theorem planRequest_eq_ok {maxInputLen b pageSize cols row : Nat} {x : Request}
    {plan : RequestPlan} :
    planRequest maxInputLen b pageSize cols row x.pages x.qOffset x.qLen = .ok plan ↔
      (¬cols < (x.qOffset+x.qLen+pageSize-1)/pageSize ∧
        ¬(x.pages.take ((x.qOffset+x.qLen+pageSize-1)/pageSize)).any (·.toInt < 0) = true) ∧
          planOf maxInputLen b pageSize x row = plan := by
  unfold planRequest
  dsimp only
  rw [throwIf_bind_eq_ok,throwIf_bind_eq_ok,pure_eq_ok,and_assoc]
  rfl

theorem zipIdx_map_zipIdx {α β : Type} (l : List α) (f : α × Nat → β) :
    (l.zipIdx.map f).zipIdx = l.zipIdx.map fun x => (f x,x.2) := by
  apply List.ext_getElem
  · simp
  · intro i h₁ h₂
    simp

section Plans

variable {requests : List Request} {plans : List RequestPlan} {maxInputLen b pageSize : Nat}

theorem taskKvLens_plans
    (h : plans = requests.zipIdx.map fun x => planOf maxInputLen b pageSize x.1 x.2) :
    plans.flatMap RequestPlan.taskKvLens =
      (tasksOf b requests).map fun task => task.qOffset+(task.localStart+b) := by
  rw [h,List.flatMap_map,tasksOf,List.map_flatMap]
  simp only [planOf,List.map_map]
  rfl

theorem qIndices_plans
    (h : plans = requests.zipIdx.map fun x => planOf maxInputLen b pageSize x.1 x.2) :
    plans.flatMap RequestPlan.qIndices = (tasksOf b requests).flatMap fun task =>
      List.range' (task.row*maxInputLen+task.localStart) b := by
  rw [h,List.flatMap_map,tasksOf,List.flatMap_assoc]
  simp only [planOf,List.flatMap_map]

theorem slotPart_plans
    (h : plans = requests.zipIdx.map fun x => planOf maxInputLen b pageSize x.1 x.2) :
    plans.flatMap RequestPlan.slotPart = requests.flatMap fun x =>
      (List.range' x.qOffset x.qLen).map (slotOf pageSize x.pages) := by
  have hfst := List.flatMap_map Prod.fst (fun x : Request =>
    (List.range' x.qOffset x.qLen).map (slotOf pageSize x.pages)) requests.zipIdx
  rw [List.zipIdx_map_fst] at hfst
  rw [h,List.flatMap_map,hfst]
  rfl

theorem taskRows_plans
    (h : plans = requests.zipIdx.map fun x => planOf maxInputLen b pageSize x.1 x.2) :
    (plans.zipIdx.flatMap fun x => List.replicate x.1.taskKvLens.length x.2) =
      (tasksOf b requests).map Task.row := by
  rw [h,zipIdx_map_zipIdx,List.flatMap_map,tasksOf,List.map_flatMap]
  apply List.flatMap_congr
  intro x _
  simp only [planOf,List.map_map,List.length_map]
  exact List.map_const'.symm

/-- Requests of one block make one task each. -/
theorem tasksOf_single (hb : 0 < b) (h : ∀ x ∈ requests, x.qLen = b) :
    tasksOf b requests = requests.zipIdx.map fun x => { x.1 with row := x.2, localStart := 0 } := by
  have hone (x : Request × Nat) (hx : x ∈ requests.zipIdx) :
      (x.1.qLen+b-1)/b = 1 := by
    rw [h x.1 (List.fst_mem_of_mem_zipIdx hx)]
    exact Nat.div_eq_of_lt_le (by omega) (by omega)
  rw [tasksOf,List.map_eq_flatMap]
  apply List.flatMap_congr
  intro x hx
  rw [hone x hx]
  rfl

end Plans

/-- The plan, task by task. -/
structure Planned (requests : List Request) (b pageSize maxInputLen : Nat)
    (m : PagedAttentionMetadata) : Prop where
  blockLength : m.blockLength = b
  pageSize_eq : m.pageSize = pageSize
  maxInputLen_eq : m.maxInputLen = maxInputLen
  qLensCpu : m.qLensCpu = requests.map Request.qLen
  fits : ∀ x ∈ requests, x.Fits b pageSize maxInputLen
  qTokenIndices : m.qTokenIndices = (tasksOf b requests).flatMap fun task =>
    List.range' (task.row*maxInputLen+task.localStart) b
  qoIndptr : m.qoIndptr = (List.range ((tasksOf b requests).length+1)).map (· * b)
  kvLens : m.kvLens = (tasksOf b requests).map fun task => task.qOffset+(task.localStart+b)
  pageTable : m.pageTable = (tasksOf b requests).map fun task =>
    task.pages.take ((m.maxKvLen+pageSize-1)/pageSize)
  maxKvLen : ∀ n ∈ m.kvLens, n ≤ m.maxKvLen
  slotMapping : m.slotMapping = requests.flatMap fun x =>
    (List.range' x.qOffset x.qLen).map (slotOf pageSize x.pages)

theorem le_max?_getD {l : List Nat} {n : Nat} (h : n ∈ l) : n ≤ l.max?.getD 0 := by
  cases hmax : l.max? with
  | none =>
    rw [List.max?_eq_none_iff] at hmax
    rw [hmax] at h
    cases h
  | some a => exact (List.max?_eq_some_iff.mp hmax).2 n h

theorem planned (h : buildBlockDiffusionPagedMetadata phase qOffsets qLens pageTable maxInputLen
      blockLength pageSize causal = .ok m) :
    (0 < blockLength ∧ 0 < pageSize) ∧
      ((∀ q ∈ qOffsets, 0 ≤ q) ∧ (∀ n ∈ qLens, 0 < n) ∧ qOffsets.length = qLens.length ∧
        pageTable.rows.length = qLens.length) ∧
      Planned (requestsOf qOffsets qLens pageTable.rows) blockLength.toNat pageSize.toNat
        maxInputLen.toNat m := by
  obtain ⟨hpos,h⟩ := throwIf_bind_eq_ok.mp h
  obtain ⟨_,h⟩ := throwIf_bind_eq_ok.mp h
  obtain ⟨hoffsets,h⟩ := throwIf_bind_eq_ok.mp h
  obtain ⟨hrows,h⟩ := throwIf_bind_eq_ok.mp h
  obtain ⟨hlens,h⟩ := throwIf_bind_eq_ok.mp h
  obtain ⟨hmax,h⟩ := throwIf_bind_eq_ok.mp h
  obtain ⟨hnonneg,h⟩ := throwIf_bind_eq_ok.mp h
  obtain ⟨halignedOffset,h⟩ := throwIf_bind_eq_ok.mp h
  obtain ⟨halignedLen,h⟩ := throwIf_bind_eq_ok.mp h
  obtain ⟨hdecode,h⟩ := throwIf_bind_eq_ok.mp h
  obtain ⟨plans,hplans,h⟩ := bind_eq_ok h
  have hoffset : ∀ q ∈ qOffsets, 0 ≤ q := by
    intro q hq
    by_contra hlt
    exact hnonneg ⟨q,hq,by omega⟩
  have hlen : ∀ n ∈ qLens, 0 < n := by
    intro n hn
    by_contra hle
    exact hlens (.inr ⟨n,hn,by omega⟩)
  refine ⟨⟨by omega,by omega⟩,⟨hoffset,hlen,not_not.mp hoffsets,not_not.mp hrows⟩,?_⟩
  obtain ⟨hgood,hmap⟩ := forall₂_and_eq.mp ((mapM_eq_ok.mp hplans).imp fun x plan hplan =>
    planRequest_eq_ok (x := ⟨x.1.1.1,x.1.1.2,x.1.2⟩).mp hplan)
  have hrequests : plans = (requestsOf qOffsets qLens pageTable.rows).zipIdx.map fun x =>
      planOf maxInputLen.toNat blockLength.toNat pageSize.toNat x.1 x.2 := by
    rw [← hmap,requestsOf,List.zipIdx_map,List.map_map]
    rfl
  have hpagesEnough (x : Request × Nat)
      (hx : x ∈ (requestsOf qOffsets qLens pageTable.rows).zipIdx) :
      ¬pageTable.cols < (x.1.qOffset+x.1.qLen+pageSize.toNat-1)/pageSize.toNat := by
    rw [requestsOf,List.zipIdx_map] at hx
    obtain ⟨y,hy,rfl⟩ := List.mem_map.mp hx
    exact (hgood y hy).1
  obtain rfl := pure_eq_ok.mp h
  constructor
  · rfl
  · rfl
  · rfl
  · exact (requestsOf_lens (not_not.mp hoffsets) (not_not.mp hrows)).symm
  · intro x hx
    obtain ⟨r,hr⟩ := List.mem_iff_getElem?.mp hx
    obtain ⟨q,n,hq,hn,hpages,hq',hn'⟩ := requestsOf_getElem?.mp hr
    have hqmem := List.mem_of_getElem? hq
    have hnmem := List.mem_of_getElem? hn
    have hq0 := hoffset q hqmem
    have hn0 := hlen n hnmem
    have hnmax : n ≤ maxInputLen := by
      by_contra hlt
      exact hmax ⟨n,hnmem,by omega⟩
    have hqb : blockLength ∣ q := by
      by_contra hno
      exact halignedOffset ⟨q,hqmem,fun hzero => hno (Int.dvd_of_emod_eq_zero hzero)⟩
    have hnb : blockLength ∣ n := by
      by_contra hno
      exact halignedLen ⟨n,hnmem,fun hzero => hno (Int.dvd_of_emod_eq_zero hzero)⟩
    constructor
    · rw [← hq']
      exact toNat_dvd_toNat (by omega) hq0 hqb
    · rw [← hn']
      exact toNat_dvd_toNat (by omega) hn0.le hnb
    · omega
    · omega
    · have hcols := hpagesEnough (x,r) (List.mem_zipIdx_iff_getElem?.mpr hr)
      rw [pageTable.rect x.pages (List.mem_of_getElem? hpages)]
      exact Nat.le_of_not_lt hcols
  · exact qIndices_plans hrequests
  · simp only [taskKvLens_plans hrequests,List.length_map]
  · exact taskKvLens_plans hrequests
  · cases phase with
    | prefill =>
      dsimp only
      rw [taskRows_plans hrequests,List.map_map]
      apply List.map_congr_left
      intro task htask
      obtain ⟨hrow,_⟩ := mem_tasksOf.mp htask
      obtain ⟨_,_,_,_,hpages,_⟩ := requestsOf_getElem?.mp hrow
      simp [hpages]
    | decode =>
      have hsingle : ∀ x ∈ requestsOf qOffsets qLens pageTable.rows,
          x.qLen = blockLength.toNat := by
        intro x hx
        obtain ⟨r,hr⟩ := List.mem_iff_getElem?.mp hx
        obtain ⟨q,n,_,hn,_,_,hn'⟩ := requestsOf_getElem?.mp hr
        by_contra hne
        apply hdecode
        refine ⟨rfl,n,List.mem_of_getElem? hn,fun heq => hne ?_⟩
        rw [← hn',heq]
      dsimp only
      rw [tasksOf_single (by omega) hsingle,List.map_map]
      have hpages := requestsOf_pages (not_not.mp hoffsets) (not_not.mp hrows)
      have hfst := List.zipIdx_map_fst 0 (requestsOf qOffsets qLens pageTable.rows)
      conv_lhs => rw [← hpages,← hfst,List.map_map,List.map_map]
      rfl
  · exact fun n hn => le_max?_getD hn
  · exact slotPart_plans hrequests

end Build

namespace Planned

variable {requests : List Request} {b pageSize maxInputLen : Nat} {m : PagedAttentionMetadata}
  {task : Task} {x y : Request} {r t i k : Nat}

/-- A task is found in its row, and its block ends inside the query. -/
theorem task_inside (h : Planned requests b pageSize maxInputLen m) (hb : 0 < b)
    (htask : task ∈ tasksOf b requests) :
    requests[task.row]? = some task.toRequest ∧ b ∣ task.localStart ∧
      task.localStart+b ≤ task.qLen ∧ task.toRequest.Fits b pageSize maxInputLen := by
  obtain ⟨hrow,j,hj,hstart⟩ := mem_tasksOf.mp htask
  have hfits := h.fits _ (List.mem_of_getElem? hrow)
  refine ⟨hrow,hstart ▸ Nat.dvd_mul_left b j,?_,hfits⟩
  rw [blocks_of_len hb hfits.len_aligned] at hj
  have hmul := Nat.mul_le_mul_right b (Nat.succ_le_of_lt hj)
  rw [Nat.div_mul_cancel hfits.len_aligned,Nat.succ_mul] at hmul
  omega

/-- Each position of a query lies in a task. -/
theorem exists_task (h : Planned requests b pageSize maxInputLen m) (hb : 0 < b)
    (hx : requests[r]? = some x) (hi : i < x.qLen) :
    { x with row := r, localStart := i/b*b : Task } ∈ tasksOf b requests := by
  have hfits := h.fits _ (List.mem_of_getElem? hx)
  refine mem_tasksOf.mpr ⟨hx,i/b,?_,rfl⟩
  rw [blocks_of_len hb hfits.len_aligned]
  exact Nat.div_lt_div_of_lt_of_dvd hfits.len_aligned hi

theorem queries_eq (h : Planned requests b pageSize maxInputLen m) :
    m.queries t = ((tasksOf b requests)[t]?.map fun task =>
      List.range' (task.row*maxInputLen+task.localStart) b).getD [] := by
  by_cases ht : t < (tasksOf b requests).length
  · have hfirst : m.qoIndptr[t]?.getD 0 = t*b := by
      simp [h.qoIndptr,List.getElem?_range (show t < (tasksOf b requests).length+1 by omega)]
    have hlast : m.qoIndptr[t+1]?.getD 0 = (t+1)*b := by
      simp [h.qoIndptr,List.getElem?_range (show t+1 < (tasksOf b requests).length+1 by omega)]
    have hdiff : (t+1)*b - t*b = b := by
      rw [Nat.succ_mul]
      omega
    rw [PagedAttentionMetadata.queries,hfirst,hlast,hdiff,h.qTokenIndices]
    exact flatMap_piece fun task _ => List.length_range'
  · have hlast : m.qoIndptr[t+1]?.getD 0 = 0 := by
      rw [h.qoIndptr,List.getElem?_map,List.getElem?_eq_none (by simp; omega)]
      rfl
    rw [PagedAttentionMetadata.queries,hlast,Nat.zero_sub,List.take_zero,
      List.getElem?_eq_none (by omega)]
    rfl

theorem keys_eq (h : Planned requests b pageSize maxInputLen m) (hpage : 0 < pageSize)
    (ht : (tasksOf b requests)[t]? = some task) :
    m.keys t = (List.range (task.qOffset+(task.localStart+b))).map
      (slotOf pageSize task.pages) := by
  have hkv : m.kvLens[t]? = some (task.qOffset+(task.localStart+b)) := by
    rw [h.kvLens,List.getElem?_map,ht]
    rfl
  have hle := h.maxKvLen _ (List.mem_of_getElem? hkv)
  rw [PagedAttentionMetadata.keys,hkv,h.pageSize_eq,h.pageTable,List.getElem?_map,ht]
  apply List.map_congr_left
  intro k hk
  rw [Option.getD_some,List.mem_range] at hk
  have hlt : k / pageSize < (m.maxKvLen+pageSize-1)/pageSize := by
    rw [Nat.div_lt_iff_lt_mul hpage]
    have hdiv := Nat.div_add_mod (m.maxKvLen+pageSize-1) pageSize
    have hmod := Nat.mod_lt (m.maxKvLen+pageSize-1) hpage
    rw [Nat.mul_comm] at hdiv
    omega
  simp only [slotOf,Option.map_some,Option.getD_some,List.getElem?_take_of_lt hlt]

/-- A token is in the queries of the task that its block makes, and of no other. -/
theorem mem_queries (h : Planned requests b pageSize maxInputLen m) (hb : 0 < b)
    (hx : requests[r]? = some x) (hi : i < x.qLen) :
    r*maxInputLen+i ∈ m.queries t ↔
      (tasksOf b requests)[t]? = some { x with row := r, localStart := i/b*b } := by
  have hxfits := h.fits _ (List.mem_of_getElem? hx)
  have hdiv := Nat.div_add_mod i b
  have hmod := Nat.mod_lt i hb
  rw [Nat.mul_comm] at hdiv
  rw [h.queries_eq]
  constructor
  · intro hmem
    cases ht : (tasksOf b requests)[t]? with
    | none =>
      rw [ht] at hmem
      cases hmem
    | some task =>
      rw [ht,Option.map_some,Option.getD_some,List.mem_range'_1] at hmem
      obtain ⟨hrow,⟨j,hj⟩,hinside,hfits⟩ := h.task_inside hb (List.mem_of_getElem? ht)
      have hle := hfits.len_le
      have hxle := hxfits.len_le
      obtain ⟨o,ho⟩ := Nat.exists_eq_add_of_le hmem.1
      obtain ⟨hsame,hplace⟩ := page_offset_injective
        (show i < maxInputLen by omega) (show task.localStart+o < maxInputLen by omega)
        (show r*maxInputLen+i = task.row*maxInputLen+(task.localStart+o) by omega)
      rw [← hsame,hx] at hrow
      have hblock : i/b*b = task.localStart := by
        rw [hplace,hj,Nat.mul_comm b j,Nat.add_comm,Nat.add_mul_div_right _ _ hb,
          Nat.div_eq_of_lt (by omega),Nat.zero_add]
      cases task
      simp only [Option.some.injEq] at hrow hsame hblock ⊢
      rw [hrow,hsame,hblock]
  · intro ht
    rw [ht,Option.map_some,Option.getD_some,List.mem_range'_1]
    dsimp only
    omega

theorem task_unique {t' : Nat} (hb : 0 < b) (ht : (tasksOf b requests)[t]? = some task)
    (ht' : (tasksOf b requests)[t']? = some task) : t' = t := by
  obtain ⟨hlt,hget⟩ := List.getElem?_eq_some_iff.mp ht
  obtain ⟨hlt',hget'⟩ := List.getElem?_eq_some_iff.mp ht'
  exact ((nodup_tasksOf hb).getElem_inj_iff).mp (hget'.trans hget.symm)

/-- The keys of a block reach to its end. -/
theorem lt_keys_iff (hb : 0 < b) (hoffset : b ∣ x.qOffset) :
    k < x.qOffset+(i/b*b+b) ↔ k/b ≤ (x.qOffset+i)/b := by
  obtain ⟨q,hq⟩ := hoffset
  have hblock : (x.qOffset+i)/b = q+i/b := by rw [hq,Nat.mul_add_div hb]
  have hend : x.qOffset+(i/b*b+b) = (q+i/b+1)*b := by
    rw [hq,Nat.add_mul,Nat.add_mul,Nat.one_mul,Nat.mul_comm b q,Nat.add_assoc]
  rw [hblock,hend,← Nat.div_lt_iff_lt_mul hb]
  omega

/-- The blocks of a query make its tokens, in order. -/
theorem flatMap_blocks (first q b : Nat) :
    (List.range' 0 q b).flatMap (fun localStart => List.range' (first+localStart) b) =
      List.range' first (q*b) := by
  induction q with
  | zero => simp
  | succ q ih =>
    rw [List.range'_concat,List.flatMap_append,ih,Nat.succ_mul,← List.range'_append_1,
      Nat.zero_add,Nat.mul_comm b q]
    simp

theorem qTokenIndices_eq (h : Planned requests b pageSize maxInputLen m) (hb : 0 < b) :
    m.qTokenIndices = requests.zipIdx.flatMap fun x =>
      (List.range x.1.qLen).map (x.2*maxInputLen + ·) := by
  rw [h.qTokenIndices,tasksOf,List.flatMap_assoc]
  apply List.flatMap_congr
  intro x hx
  have hfits := h.fits x.1 (List.fst_mem_of_mem_zipIdx hx)
  have hblocks := flatMap_blocks (x.2*maxInputLen) (x.1.qLen/b) b
  rw [Nat.div_mul_cancel hfits.len_aligned,List.range'_eq_map_range] at hblocks
  rw [List.flatMap_map,blocks_of_len hb hfits.len_aligned]
  exact hblocks

/-- The tokens come once each, in the order of the requests. -/
theorem qTokenIndices_pairwise (h : Planned requests b pageSize maxInputLen m) (hb : 0 < b) :
    m.qTokenIndices.Pairwise (· < ·) := by
  rw [h.qTokenIndices_eq hb,List.pairwise_flatMap]
  constructor
  · intro x _
    apply List.pairwise_lt_range.map
    intro i j hij
    exact Nat.add_lt_add_left hij _
  · have hrows : (requests.zipIdx.map Prod.snd).Pairwise (· < ·) := by
      rw [List.zipIdx_map_snd]
      exact List.pairwise_lt_range'
    have hzip := List.pairwise_map.mp hrows
    apply List.Pairwise.imp_of_mem _ hzip
    intro x y hx _ hxy i hi j hj
    obtain ⟨o,ho,rfl⟩ := List.mem_map.mp hi
    obtain ⟨o',_,rfl⟩ := List.mem_map.mp hj
    have hle := (h.fits x.1 (List.fst_mem_of_mem_zipIdx hx)).len_le
    have hmul := Nat.mul_le_mul_right maxInputLen (Nat.succ_le_of_lt hxy)
    rw [Nat.succ_mul] at hmul
    rw [List.mem_range] at ho
    omega

/-- Without padding the packed tokens are all tokens. -/
theorem qTokenIndices_identity (h : Planned requests b pageSize maxInputLen m) (hb : 0 < b)
    (hidentity : m.isIdentityMapping = true) :
    m.qTokenIndices = List.range (requests.length*maxInputLen) := by
  have hsnd := List.flatMap_map Prod.snd
    (fun row => (List.range maxInputLen).map (row*maxInputLen + ·)) requests.zipIdx
  rw [List.zipIdx_map_snd,← List.range_eq_range'] at hsnd
  rw [h.qTokenIndices_eq hb,← range_whole_pages,hsnd]
  apply List.flatMap_congr
  intro x hx
  have hlen : x.1.qLen = maxInputLen := by
    rw [PagedAttentionMetadata.isIdentityMapping,h.qLensCpu,h.maxInputLen_eq] at hidentity
    have hmem := List.mem_map_of_mem (f := Request.qLen) (List.fst_mem_of_mem_zipIdx hx)
    simpa using List.all_eq_true.mp hidentity _ hmem
  rw [hlen]

theorem slotMapping_map (h : Planned requests b pageSize maxInputLen m) :
    m.slotMapping = requests.flatMap fun x =>
      (List.range x.qLen).map fun i => slotOf pageSize x.pages (x.qOffset+i) := by
  rw [h.slotMapping]
  simp only [List.range'_eq_map_range,List.map_map]
  rfl

end Planned

/-- The pages that hold a request up to the end of its query. -/
def Request.pagesInUse (x : Request) (pageSize : Nat) : List Int32 :=
  x.pages.take ((x.qOffset+x.qLen+pageSize-1)/pageSize)

section Slots

variable {pageSize : Nat} {x y : Request} {k k' : Nat}

theorem page_mem_pagesInUse (hpage : 0 < pageSize)
    (henough : (x.qOffset+x.qLen+pageSize-1)/pageSize ≤ x.pages.length)
    (hk : k < x.qOffset+x.qLen) :
    x.pages[k / pageSize]?.getD 0 ∈ x.pagesInUse pageSize := by
  have hlt : k / pageSize < (x.qOffset+x.qLen+pageSize-1)/pageSize := by
    rw [Nat.div_lt_iff_lt_mul hpage]
    have hdiv := Nat.div_add_mod (x.qOffset+x.qLen+pageSize-1) pageSize
    have hmod := Nat.mod_lt (x.qOffset+x.qLen+pageSize-1) hpage
    rw [Nat.mul_comm] at hdiv
    omega
  rw [List.getElem?_eq_getElem (by omega),Option.getD_some]
  exact List.mem_take_iff_getElem.mpr ⟨k / pageSize,by omega,rfl⟩

/-- Requests that share no page in use share no slot. -/
theorem slotOf_ne (hpage : 0 < pageSize)
    (hx : (x.qOffset+x.qLen+pageSize-1)/pageSize ≤ x.pages.length)
    (hy : (y.qOffset+y.qLen+pageSize-1)/pageSize ≤ y.pages.length)
    (h : (x.pagesInUse pageSize).Disjoint (y.pagesInUse pageSize))
    (hk : k < x.qOffset+x.qLen) (hk' : k' < y.qOffset+y.qLen) :
    slotOf pageSize x.pages k ≠ slotOf pageSize y.pages k' := by
  intro hsame
  have hmod := Nat.mod_lt k hpage
  have hmod' := Nat.mod_lt k' hpage
  have hpages : (x.pages[k / pageSize]?.getD 0).toInt = (y.pages[k' / pageSize]?.getD 0).toInt := by
    have hdiv := congrArg (· / (pageSize : Int)) hsame
    have hsmall (n : Nat) (hn : n < pageSize) : (n : Int) / pageSize = 0 :=
      Int.ediv_eq_zero_of_lt (by omega) (by omega)
    simpa only [slotOf,Int.add_comm _ ((_ % _ : Nat) : Int),
      Int.add_mul_ediv_right _ _ (by omega : (pageSize : Int) ≠ 0),hsmall _ hmod,hsmall _ hmod',
      Int.zero_add] using hdiv
  apply h (page_mem_pagesInUse hpage hx hk)
  rw [Int32.toInt_inj.mp hpages]
  exact page_mem_pagesInUse hpage hy hk'

end Slots

section Plan

variable {phase : Phase} {qOffsets qLens : List Int} {pageTable : PageTable}
  {maxInputLen blockLength pageSize : Int} {causal : Bool} {m : PagedAttentionMetadata}

theorem map_toNat_cast {l : List Int} (h : ∀ n ∈ l, 0 ≤ n) :
    (l.map Int.toNat).map (fun (n : Nat) => (n : Int)) = l := by
  rw [List.map_map]
  conv_rhs => rw [← List.map_id l]
  apply List.map_congr_left
  intro n hn
  exact Int.toNat_of_nonneg (h n hn)

/-- The requests are the arguments, which are not negative. -/
theorem requestsOf_args {rows : List (List Int32)} (hoffset : ∀ q ∈ qOffsets, 0 ≤ q)
    (hlen : ∀ n ∈ qLens, 0 < n) (h : qOffsets.length = qLens.length)
    (h' : rows.length = qLens.length) :
    (requestsOf qOffsets qLens rows).map (fun x => (x.qOffset : Int)) = qOffsets ∧
      (requestsOf qOffsets qLens rows).map (fun x => (x.qLen : Int)) = qLens ∧
        (requestsOf qOffsets qLens rows).map Request.pages = rows := by
  refine ⟨?_,?_,requestsOf_pages h h'⟩
  · conv_rhs => rw [← map_toNat_cast hoffset,← requestsOf_offsets h h',List.map_map]
    rfl
  · conv_rhs => rw [← map_toNat_cast fun n hn => (hlen n hn).le,← requestsOf_lens h h',
      List.map_map]
    rfl

/-- The plan joins a query with the keys of its own request that the block mask joins it with; its
tokens come once and in order, and each goes to its slot. -/
theorem blockCausalPlan (h : buildBlockDiffusionPagedMetadata phase qOffsets qLens pageTable
      maxInputLen blockLength pageSize causal = .ok m) :
    let requests := requestsOf qOffsets qLens pageTable.rows
    let b := blockLength.toNat
    let page := pageSize.toNat
    (requests.map (fun x => (x.qOffset : Int)) = qOffsets ∧
      requests.map (fun x => (x.qLen : Int)) = qLens ∧
      requests.map Request.pages = pageTable.rows) ∧
    (∀ (r : Nat) (x : Request), requests[r]? = some x → ∀ i < x.qLen,
      ∃ t, (∀ t', r*maxInputLen.toNat+i ∈ m.queries t' ↔ t' = t) ∧
        (∀ k, k < (m.keys t).length ↔ k/b ≤ (x.qOffset+i)/b) ∧
        (∀ k n, x.qOffset+i < n*b → k < n*b →
          (k < (m.keys t).length ↔
            (buildBlockAttentionMask b n)[x.qOffset+i]?.bind (·[k]?) = some true)) ∧
        (∀ k < (m.keys t).length, (m.keys t)[k]? = some (slotOf page x.pages k)) ∧
        (∀ (r' : Nat) (y : Request), requests[r']? = some y →
          (x.pagesInUse page).Disjoint (y.pagesInUse page) →
            ∀ k < y.qOffset+y.qLen, slotOf page y.pages k ∉ m.keys t)) ∧
    (m.qTokenIndices = requests.zipIdx.flatMap fun x =>
      (List.range x.1.qLen).map (x.2*maxInputLen.toNat + ·)) ∧
    m.qTokenIndices.Pairwise (· < ·) ∧
    (m.slotMapping = requests.flatMap fun x =>
      (List.range x.qLen).map fun i => slotOf page x.pages (x.qOffset+i)) := by
  obtain ⟨⟨hb,hpage⟩,⟨hoffset,hlen,hlengths,hrows⟩,hplan⟩ := planned h
  have hb' : 0 < blockLength.toNat := by omega
  have hpage' : 0 < pageSize.toNat := by omega
  refine ⟨requestsOf_args hoffset hlen hlengths hrows,?_,hplan.qTokenIndices_eq hb',
    hplan.qTokenIndices_pairwise hb',hplan.slotMapping_map⟩
  intro r x hx i hi
  have hmem := hplan.exists_task hb' hx hi
  obtain ⟨t,ht⟩ := List.mem_iff_getElem?.mp hmem
  have hfits := hplan.fits x (List.mem_of_getElem? hx)
  have hkeys := hplan.keys_eq hpage' ht
  have hreach (k : Nat) : k < (m.keys t).length ↔
      k/blockLength.toNat ≤ (x.qOffset+i)/blockLength.toNat := by
    rw [hkeys,List.length_map,List.length_range]
    exact Planned.lt_keys_iff hb' hfits.offset_aligned
  refine ⟨t,?_,hreach,?_,?_,?_⟩
  · intro t'
    rw [hplan.mem_queries hb' hx hi]
    constructor
    · intro ht'
      exact Planned.task_unique hb' ht ht'
    · intro ht'
      rw [ht',ht]
  · intro k n hq hk
    rw [hreach,buildBlockAttentionMask_apply hb' hq hk]
    simp
  · intro k hk
    rw [hkeys,List.length_map,List.length_range] at hk
    rw [hkeys,List.getElem?_map,List.getElem?_range hk]
    rfl
  · intro r' y hy hdisjoint k hk hmem'
    have hyfits := hplan.fits y (List.mem_of_getElem? hy)
    rw [hkeys,List.mem_map] at hmem'
    obtain ⟨k',hk',hsame⟩ := hmem'
    have hinside := (hplan.task_inside hb' hmem).2.2.1
    rw [List.mem_range] at hk'
    dsimp only at hk' hinside hsame
    exact slotOf_ne hpage' hfits.pages_enough hyfits.pages_enough hdisjoint (by omega) hk hsame

/-- A request of two blocks behind a prefix of two, and one of a single block. -/
theorem blockCausalPlan_small : ∃ m,
    buildBlockDiffusionPagedMetadata .prefill [12,0] [12,6] ⟨2,[[3,5],[4,0]],by decide⟩ 12 6 16 =
      .ok m ∧
    ∃ t, 3 ∈ m.queries t ∧ (∀ k, k < (m.keys t).length ↔ k/6 ≤ 2) ∧ 69 ∉ m.keys t := by
  refine ⟨_,rfl,?_⟩
  have hplan : buildBlockDiffusionPagedMetadata .prefill [12,0] [12,6]
      ⟨2,[[3,5],[4,0]],by decide⟩ 12 6 16 = .ok _ := rfl
  obtain ⟨_,hattention,_⟩ := blockCausalPlan hplan
  obtain ⟨t,hquery,hreach,_,_,hapart⟩ := hattention 0 ⟨12,12,[3,5]⟩ rfl 3 (by decide)
  have hdisjoint : ∀ page ∈ Request.pagesInUse ⟨12,12,[3,5]⟩ 16,
      page ∉ Request.pagesInUse ⟨0,6,[4,0]⟩ 16 := by
    simp [Request.pagesInUse]
  exact ⟨t,(hquery t).mpr rfl,hreach,
    hapart 1 ⟨0,6,[4,0]⟩ rfl (fun page h h' => hdisjoint page h h') 5 (by decide)⟩

end Plan

end FluxServe.Paging
