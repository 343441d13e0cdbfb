import FluxServe.Resource.PagedCacheTable

namespace FluxServe

inductive TableOp
  | importPrefixBorrowed (ids : List PageId) (base rawTokensCovered : Int)
  | acquire (target : Int)
  | releaseSkipped (windowLowerBound : Int)
  | commitHistoryToSnapshot (target : Int)
  | checkpointStateToSnapshot (target : Int)
  | adoptSnapshotSegment (ids : List PageId) (target : Int)
  | adoptStateSnapshotSegment (ids : List PageId) (base target : Int)
  | rewindTail (target : Int)
  | releaseAll

namespace TableOp

/-- The callers import exactly the pages that cover the prefix. -/
def Covers (g : PagedCacheGroup) : TableOp → Prop
  | importPrefixBorrowed ids base covered =>
    (base+ids.length)*g.config.rawTokensPerPage = covered
  | _ => True

/-- A history segment is adopted where it belongs: the borrowed pages end with what is committed. -/
def Aligned (g : PagedCacheGroup) : TableOp → Prop
  | adoptSnapshotSegment _ target => g.table.committedPrefixLenTokens < target → g.AtCommitted
  | _ => True

/-- The pages that an operation brings along for logical pages. -/
def supplied (g : PagedCacheGroup) : TableOp → Int → Option PageId
  | importPrefixBorrowed ids base _ => (Stretch.mk base ids).at?
  | adoptSnapshotSegment ids target =>
    if target ≤ g.table.committedPrefixLenTokens then fun _ => none
    else (Stretch.mk g.segmentBase ids).at?
  | adoptStateSnapshotSegment ids base target =>
    if target ≤ g.table.committedPrefixLenTokens then fun _ => none
    else (Stretch.mk base ids).at?
  | _ => fun _ => none

end TableOp

/-- A group with the commit results that its callers hold. -/
structure GroupState where
  group : PagedCacheGroup
  handedOut : List CommitResult := []

namespace GroupState

def committed (s : GroupState) (x : CommitResult × PagedCacheGroup) : GroupState :=
  { group := x.2,handedOut := s.handedOut ++ [x.1] }

def apply (s : GroupState) : TableOp → Except PagedCacheError GroupState
  | .importPrefixBorrowed ids base covered => do
    pure { s with group := ← s.group.importPrefixBorrowed ids base covered }
  | .acquire target => do pure { s with group := ← s.group.acquire target }
  | .releaseSkipped bound => do pure { s with group := (← s.group.releaseSkipped bound).2 }
  | .commitHistoryToSnapshot target => do
    pure (s.committed (← s.group.commitHistoryToSnapshot target))
  | .checkpointStateToSnapshot target => do
    pure (s.committed (← s.group.checkpointStateToSnapshot target))
  | .adoptSnapshotSegment ids target => do
    pure { s with group := ← s.group.adoptSnapshotSegment ids target }
  | .adoptStateSnapshotSegment ids base target => do
    pure { s with group := ← s.group.adoptStateSnapshotSegment ids base target }
  | .rewindTail target => do pure { s with group := (← s.group.rewindTail target).2 }
  | .releaseAll => do pure { s with group := (← s.group.releaseAll).2 }

/-- The pages that the callers hold. -/
def heldPages (s : GroupState) : List PageId := s.handedOut.flatMap CommitResult.pages

/-- The callers let go of a commit result, and its pages go back to the pool. -/
def letGo (s : GroupState) (r : CommitResult) : GroupState :=
  { group := s.group.giveBack r.pages,handedOut := s.handedOut.erase r }

end GroupState

/-- What operations that do not throw make of a new table. -/
inductive GroupRun (cfg : PagedCacheGroupConfig) : GroupState → Prop
  | new : GroupRun cfg { group := PagedCacheGroup.new cfg }
  | apply {s s' : GroupState} (op : TableOp) (h : GroupRun cfg s) (hcovers : op.Covers s.group)
      (hok : s.apply op = .ok s') : GroupRun cfg s'
  | letGo {s : GroupState} {r : CommitResult} (h : GroupRun cfg s) (hr : r ∈ s.handedOut) :
      GroupRun cfg (s.letGo r)

namespace GroupState

variable {cfg : PagedCacheGroupConfig} {s s' : GroupState} {op : TableOp}

/-- What a run has kept. -/
structure Kept (cfg : PagedCacheGroupConfig) (s : GroupState) : Prop where
  config : s.group.config = cfg
  ok : s.group.OK
  pages : (s.group.pool.freePages ++ s.group.table.ownedPages ++ s.heldPages).Perm
    (PageAllocator.allPages cfg.totalPages.toNat)
  atCommitted : cfg.family = .history → cfg.retention = .fullHistory → s.group.AtCommitted

theorem kept_new : Kept cfg { group := PagedCacheGroup.new cfg } := by
  constructor
  · rfl
  · constructor
    · rfl
    · exact le_refl _
    · exact le_refl _
    · exact le_refl _
    · change (0 : Int) ≤ (Stretch.mk 0 ([] : List PageId)).stop*_
      simp [Stretch.stop]
  · change ((PageAllocator.allPages _).reverse ++ [] ++ []).Perm _
    rw [List.append_nil,List.append_nil]
    exact List.reverse_perm _
  · intro _ _
    change (0 : Int)+((0 : Nat) : Int) = 0/cfg.rawTokensPerPage
    rw [Int.zero_ediv]
    rfl

theorem heldPages_committed (x : CommitResult × PagedCacheGroup) :
    (s.committed x).heldPages = s.heldPages ++ x.1.pages := by
  simp [heldPages,committed]

/-- Every operation is a step of the table. Where a segment is aligned, it supplies what it is the
segment of. -/
theorem apply_step (h : s.group.OK) (hr : 0 < s.group.config.rowsPerPage)
    (hs : 0 < s.group.config.entryStrideTokens) (hcovers : op.Covers s.group)
    (hok : s.apply op = .ok s') :
    ∃ supplied segment, TableStep s.group supplied segment s'.group ∧
      s'.heldPages = s.heldPages ++ segment ∧
      (op.Aligned s.group → supplied = op.supplied s.group) := by
  cases op with
  | importPrefixBorrowed ids base covered =>
    obtain ⟨g',hg,hok⟩ := bind_eq_ok hok
    cases pure_eq_ok.mp hok
    exact ⟨_,[],PagedCacheGroup.importPrefixBorrowed_step hcovers hg,(List.append_nil _).symm,
      fun _ => rfl⟩
  | acquire target =>
    obtain ⟨g',hg,hok⟩ := bind_eq_ok hok
    cases pure_eq_ok.mp hok
    exact ⟨_,[],PagedCacheGroup.acquire_step h hr hs hg,(List.append_nil _).symm,fun _ => rfl⟩
  | releaseSkipped bound =>
    obtain ⟨⟨released,g'⟩,hg,hok⟩ := bind_eq_ok hok
    cases pure_eq_ok.mp hok
    exact ⟨_,[],PagedCacheGroup.releaseSkipped_step h hg,(List.append_nil _).symm,fun _ => rfl⟩
  | commitHistoryToSnapshot target =>
    obtain ⟨⟨r,g'⟩,hg,hok⟩ := bind_eq_ok hok
    cases pure_eq_ok.mp hok
    exact ⟨_,r.pages,PagedCacheGroup.commitHistoryToSnapshot_step h hg,heldPages_committed _,
      fun _ => rfl⟩
  | checkpointStateToSnapshot target =>
    obtain ⟨⟨r,g'⟩,hg,hok⟩ := bind_eq_ok hok
    cases pure_eq_ok.mp hok
    exact ⟨_,r.pages,PagedCacheGroup.checkpointStateToSnapshot_step h hg,heldPages_committed _,
      fun _ => rfl⟩
  | adoptSnapshotSegment ids target =>
    obtain ⟨g',hg,hok⟩ := bind_eq_ok hok
    cases pure_eq_ok.mp hok
    by_cases htarget : target ≤ s.group.table.committedPrefixLenTokens
    · cases PagedCacheGroup.adoptSnapshotSegment_skips htarget hg
      exact ⟨_,[],PagedCacheGroup.step_refl h,(List.append_nil _).symm,
        fun _ => (if_pos htarget).symm⟩
    · rw [not_le] at htarget
      apply Exists.intro _
      apply Exists.intro []
      apply And.intro (PagedCacheGroup.adoptSnapshotSegment_step h htarget hg)
      apply And.intro (List.append_nil _).symm
      intro haligned
      have hbase : s.group.table.baseLogicalPage+s.group.table.borrowedPageIds.length =
        s.group.segmentBase := haligned htarget
      rw [hbase]
      exact (if_neg (by omega)).symm
  | adoptStateSnapshotSegment ids base target =>
    obtain ⟨g',hg,hok⟩ := bind_eq_ok hok
    cases pure_eq_ok.mp hok
    by_cases htarget : target ≤ s.group.table.committedPrefixLenTokens
    · cases PagedCacheGroup.adoptStateSnapshotSegment_skips htarget hg
      exact ⟨_,[],PagedCacheGroup.step_refl h,(List.append_nil _).symm,
        fun _ => (if_pos htarget).symm⟩
    · rw [not_le] at htarget
      exact ⟨_,[],PagedCacheGroup.adoptStateSnapshotSegment_step h htarget hg,
        (List.append_nil _).symm,fun _ => (if_neg (by omega)).symm⟩
  | rewindTail target =>
    obtain ⟨⟨released,g'⟩,hg,hok⟩ := bind_eq_ok hok
    cases pure_eq_ok.mp hok
    exact ⟨_,[],PagedCacheGroup.rewindTail_step h hr hs hg,(List.append_nil _).symm,fun _ => rfl⟩
  | releaseAll =>
    obtain ⟨⟨released,g'⟩,hg,hok⟩ := bind_eq_ok hok
    cases pure_eq_ok.mp hok
    exact ⟨_,[],PagedCacheGroup.releaseAll_step hg,(List.append_nil _).symm,fun _ => rfl⟩

/-- In a group that keeps its whole history, what is committed ends with the borrowed pages. -/
theorem apply_atCommitted (h : s.group.AtCommitted) (hrpp : 0 < s.group.config.rawTokensPerPage)
    (hfamily : s.group.config.family = .history)
    (hret : s.group.config.retention = .fullHistory) (hcovers : op.Covers s.group)
    (hok : s.apply op = .ok s') : s'.group.AtCommitted := by
  cases op with
  | importPrefixBorrowed ids base covered =>
    obtain ⟨g',hg,hok⟩ := bind_eq_ok hok
    cases pure_eq_ok.mp hok
    exact PagedCacheGroup.importPrefixBorrowed_atCommitted hrpp hcovers hg
  | acquire target =>
    obtain ⟨g',hg,hok⟩ := bind_eq_ok hok
    cases pure_eq_ok.mp hok
    exact PagedCacheGroup.acquire_atCommitted h hg
  | releaseSkipped bound =>
    obtain ⟨⟨released,g'⟩,hg,hok⟩ := bind_eq_ok hok
    cases pure_eq_ok.mp hok
    rw [PagedCacheGroup.releaseSkipped_fullHistory hret hg]
    exact h
  | commitHistoryToSnapshot target =>
    obtain ⟨⟨r,g'⟩,hg,hok⟩ := bind_eq_ok hok
    cases pure_eq_ok.mp hok
    exact PagedCacheGroup.commitHistoryToSnapshot_atCommitted h hg
  | checkpointStateToSnapshot target =>
    obtain ⟨x,hg,_⟩ := bind_eq_ok hok
    exact absurd (by rw [hfamily]; decide) (throwIf_bind_eq_ok.mp hg).1
  | adoptSnapshotSegment ids target =>
    obtain ⟨g',hg,hok⟩ := bind_eq_ok hok
    cases pure_eq_ok.mp hok
    exact PagedCacheGroup.adoptSnapshotSegment_atCommitted h hg
  | adoptStateSnapshotSegment ids base target =>
    obtain ⟨x,hg,_⟩ := bind_eq_ok hok
    exact absurd (by rw [hfamily]; decide) (throwIf_bind_eq_ok.mp hg).1
  | rewindTail target =>
    obtain ⟨⟨released,g'⟩,hg,hok⟩ := bind_eq_ok hok
    cases pure_eq_ok.mp hok
    exact PagedCacheGroup.rewindTail_atCommitted h hg
  | releaseAll =>
    obtain ⟨⟨released,g'⟩,hg,hok⟩ := bind_eq_ok hok
    cases pure_eq_ok.mp hok
    exact PagedCacheGroup.releaseAll_atCommitted hg

theorem Kept.apply (h : Kept cfg s) (hvalid : cfg.validate = .ok ()) (hcovers : op.Covers s.group)
    (hok : s.apply op = .ok s') : Kept cfg s' := by
  obtain ⟨hr,hs,_⟩ := PagedCacheGroupConfig.validate_ok hvalid
  rw [← h.config] at hr hs
  obtain ⟨supplied,segment,hstep,hheld,_⟩ := apply_step h.ok hr hs hcovers hok
  constructor
  · rw [hstep.config,h.config]
  · rw [PagedCacheGroup.OK,hstep.config]
    exact hstep.ok
  · rw [hheld]
    apply List.Perm.trans ?_ h.pages
    rw [List.perm_iff_count]
    intro p
    have hcount := List.perm_iff_count.mp hstep.pages p
    simp only [List.count_append] at hcount ⊢
    omega
  · intro hfamily hret
    have hrpp := PagedCacheGroupConfig.rawTokensPerPage_pos hr hs
    exact apply_atCommitted (h.atCommitted hfamily hret) hrpp (by rw [h.config,hfamily])
      (by rw [h.config,hret]) hcovers hok

theorem Kept.letGo (h : Kept cfg s) {r : CommitResult} (hr : r ∈ s.handedOut) :
    Kept cfg (s.letGo r) := by
  constructor
  · exact h.config
  · exact h.ok
  · apply List.Perm.trans ?_ h.pages
    have hheld : s.heldPages.Perm
        (r.pages ++ (s.handedOut.erase r).flatMap CommitResult.pages) :=
      (List.perm_cons_erase hr).flatMap_right _
    rw [List.perm_iff_count]
    intro p
    have hcount := List.perm_iff_count.mp hheld p
    simp only [GroupState.letGo,heldPages,PagedCacheGroup.giveBack,PageAllocator.deallocate,
      List.count_append,List.count_reverse] at hcount ⊢
    omega
  · exact h.atCommitted

theorem kept_of_run (hvalid : cfg.validate = .ok ()) (h : GroupRun cfg s) : Kept cfg s := by
  induction h with
  | new => exact kept_new
  | apply op _ hcovers hok ih => exact ih.apply hvalid hcovers hok
  | letGo _ hr ih => exact ih.letGo hr

end GroupState

/-- The invariants of the tables, and where the entries of a table come from: a column keeps its
logical page, unless a segment is adopted there or a free page appended. In a sliding history group
a segment has to be adopted where the borrowed pages end. -/
theorem pagedCacheTable_invariants (cfg : PagedCacheGroupConfig) (hvalid : cfg.validate = .ok ())
    (s : GroupState) (h : GroupRun cfg s) :
    s.group.table.pageIdsView = s.group.table.borrowedPageIds ++ s.group.table.ownedPages ∧
    s.group.table.committedPrefixLenTokens ≤ s.group.table.rawTokenCursor ∧
    ceilDivPositive s.group.table.rawTokenCursor cfg.rawTokensPerPage ≤
      s.group.table.baseLogicalPage+s.group.table.size ∧
    (s.group.pool.freePages ++ s.group.table.ownedPages ++ s.heldPages).Perm
      (List.range' 1 (cfg.totalPages.toNat-1)) ∧
    ∀ op s', op.Covers s.group →
      (cfg.family = .history → cfg.retention = .slidingWindow → op.Aligned s.group) →
      s.apply op = .ok s' → ∀ j p, s'.group.table.columns.at? j = some p →
        Accounted s.group (op.supplied s.group j) j p := by
  have hkept := GroupState.kept_of_run hvalid h
  obtain ⟨hr,hs,_⟩ := PagedCacheGroupConfig.validate_ok hvalid
  have hrpp := PagedCacheGroupConfig.rawTokensPerPage_pos hr hs
  rw [← hkept.config] at hr hs
  apply And.intro hkept.ok.view
  apply And.intro hkept.ok.committed_le
  constructor
  · have hbase := hkept.ok.base_nonneg
    have hcovers := hkept.ok.covers
    rw [PagedCacheGroup.stop_eq hkept.ok,hkept.config] at hcovers
    apply (ceilDivPositive_le_iff hrpp ?_).mpr hcovers
    unfold PagedCacheGroupTable.size
    omega
  apply And.intro hkept.pages
  intro op s' hcovers haligned hok j p hj
  obtain ⟨supplied,segment,hstep,_,hsupplied⟩ :=
    GroupState.apply_step hkept.ok hr hs hcovers hok
  have hop : op.Aligned s.group := by
    cases op with
    | adoptSnapshotSegment ids target =>
      obtain ⟨g',hg,_⟩ := bind_eq_ok hok
      have hfamily : cfg.family = .history := by
        rw [← hkept.config]
        exact not_not.mp (throwIf_bind_eq_ok.mp hg).1
      cases hret : cfg.retention with
      | fullHistory => exact fun _ => hkept.atCommitted hfamily hret
      | slidingWindow => exact haligned hfamily hret
    | _ => trivial
  rw [← hsupplied hop]
  exact hstep.entries j p hj

section Small

/-- A history group that keeps two of its one-token pages behind the window. -/
def slidingHistory : PagedCacheGroupConfig where
  groupId := "kv"
  rowsPerPage := 1
  entryStrideTokens := 1
  totalPages := 10
  retention := .slidingWindow
  slidingWindowTokens := some 2

/-- One request commits two pages and ends; the next one has let its first two pages go. -/
def slid : GroupState where
  group := {
    config := slidingHistory
    pool := { totalPages := 10,freePages := [6,7,3,2,1],returned := [7,6] }
    table := {
      ownedPages := [5,4]
      rawTokenCursor := 4
      baseLogicalPage := 2
      pageIdsView := [5,4] } }
  handedOut := [{ pages := [9,8] }]

theorem slid_run : GroupRun slidingHistory slid := by
  have hacquired := GroupRun.apply (.acquire 2) (@GroupRun.new slidingHistory) trivial rfl
  have hcommitted := GroupRun.apply (.commitHistoryToSnapshot 2) hacquired trivial rfl
  have hended := GroupRun.apply .releaseAll hcommitted trivial rfl
  have hnext := GroupRun.apply (.acquire 4) hended trivial rfl
  exact GroupRun.apply (.releaseSkipped 2) hnext trivial rfl

theorem pagedCacheTable_invariants_small :
    ceilDivPositive 4 1 ≤ 2+2 ∧ ([6,7,3,2,1] ++ [5,4] ++ [9,8]).Perm (List.range' 1 9) ∧
    ∃ s', slid.apply (.acquire 5) = .ok s' ∧ ∀ j p, s'.group.table.columns.at? j = some p →
      slid.group.table.columns.at? j = some p ∨ 4 ≤ j ∧ p ∈ [6,7,3,2,1] := by
  obtain ⟨_,_,hcovers,hpages,hentries⟩ :=
    pagedCacheTable_invariants slidingHistory rfl slid slid_run
  exact ⟨hcovers,hpages,_,rfl,hentries (.acquire 5) _ trivial (fun _ _ => trivial) rfl⟩

/-- The segment of the first two pages is adopted for the columns of the next two. -/
theorem adoptSnapshotSegment_misplaced :
    slidingHistory.validate = .ok () ∧ GroupRun slidingHistory slid ∧
    (TableOp.adoptSnapshotSegment [9,8] 2).supplied slid.group 0 = some 9 ∧
    slid.group.table.columns.at? 2 = some 5 ∧
    ∃ s', slid.apply (.adoptSnapshotSegment [9,8] 2) = .ok s' ∧
      s'.group.table.columns.at? 2 = some 9 ∧
      ¬Accounted slid.group ((TableOp.adoptSnapshotSegment [9,8] 2).supplied slid.group 2) 2 9 := by
  apply And.intro rfl
  apply And.intro slid_run
  apply And.intro rfl
  apply And.intro rfl
  refine ⟨_,rfl,rfl,?_⟩
  have hnone : (TableOp.adoptSnapshotSegment [9,8] 2).supplied slid.group 2 = none := rfl
  rw [hnone]
  intro haccounted
  obtain hcolumn | ⟨hstop,_⟩ := haccounted
  · exact absurd hcolumn (by decide)
  · exact absurd hstop (by decide)

end Small

end FluxServe
