import FluxServe.Resource.PagedCacheGroup
import Mathlib.Tactic.Ring
import Mathlib.Data.List.Perm.Basic

namespace FluxServe

section Arithmetic

variable {n d k : Int}

theorem ceilDivPositive_le_iff (hd : 0 < d) (hk : 0 ≤ k) : ceilDivPositive n d ≤ k ↔ n ≤ k*d := by
  unfold ceilDivPositive
  split
  · have := Int.mul_nonneg hk hd.le
    constructor <;> intro _ <;> omega
  · have hmul : (k+1)*d = k*d+d := by ring
    rw [← Int.lt_add_one_iff,Int.ediv_lt_iff_lt_mul hd,hmul]
    omega

theorem ceilDivPositive_nonneg (hd : 0 < d) : 0 ≤ ceilDivPositive n d := by
  unfold ceilDivPositive
  split
  · exact le_refl 0
  · exact Int.ediv_nonneg (by omega) hd.le

end Arithmetic

namespace PagedCacheGroupConfig

variable {cfg : PagedCacheGroupConfig} {n k : Int}

theorem validate_ok (h : cfg.validate = .ok ()) :
    0 < cfg.rowsPerPage ∧ 0 < cfg.entryStrideTokens ∧ 1 ≤ cfg.totalPages := by
  unfold validate at h
  simp only [throwIf_bind_eq_ok] at h
  omega

theorem rawTokensPerPage_pos (hr : 0 < cfg.rowsPerPage) (hs : 0 < cfg.entryStrideTokens) :
    0 < cfg.rawTokensPerPage := Int.mul_pos hr hs

/-- The pages counted are the fewest that hold the tokens. -/
theorem pagesNeeded_le_iff (hr : 0 < cfg.rowsPerPage) (hs : 0 < cfg.entryStrideTokens)
    (hk : 0 ≤ k) : cfg.pagesNeeded n ≤ k ↔ n ≤ k*cfg.rawTokensPerPage := by
  have hentries := ceilDivPositive_nonneg (n := n) hs
  have hmul : (k+1)*cfg.rowsPerPage = k*cfg.rowsPerPage+cfg.rowsPerPage := by ring
  have hassoc : k*cfg.rowsPerPage*cfg.entryStrideTokens = k*cfg.rawTokensPerPage := by
    rw [rawTokensPerPage,mul_assoc]
  unfold pagesNeeded
  rw [← Int.lt_add_one_iff,Int.ediv_lt_iff_lt_mul hr,hmul,← hassoc,
    ← ceilDivPositive_le_iff hs (Int.mul_nonneg hk hr.le)]
  omega

end PagedCacheGroupConfig

namespace OwnedPages

variable {ids taken kept : List PageId} {n : Int}

theorem takeFirst_ok (h : takeFirst ids n = .ok (taken,kept)) :
    0 ≤ n ∧ n ≤ ids.length ∧ taken = ids.take n.toNat ∧ kept = ids.drop n.toNat := by
  unfold takeFirst at h
  rw [throwIf_bind_eq_ok,pure_eq_ok,Prod.mk.injEq] at h
  obtain ⟨hn,rfl,rfl⟩ := h
  exact ⟨by omega,by omega,rfl,rfl⟩

theorem takeLast_ok (h : takeLast ids n = .ok (taken,kept)) :
    0 ≤ n ∧ n ≤ ids.length ∧ taken = ids.drop (ids.length-n.toNat) ∧
      kept = ids.take (ids.length-n.toNat) := by
  unfold takeLast at h
  rw [throwIf_bind_eq_ok,pure_eq_ok,Prod.mk.injEq] at h
  obtain ⟨hn,rfl,rfl⟩ := h
  exact ⟨by omega,by omega,rfl,rfl⟩

end OwnedPages

/-- What every operation keeps of a table whose pages hold so many raw tokens each. -/
structure TableOK (rawPerPage : Int) (t : PagedCacheGroupTable) : Prop where
  view : t.pageIdsView = t.borrowedPageIds ++ t.ownedPages
  base_nonneg : 0 ≤ t.baseLogicalPage
  committed_nonneg : 0 ≤ t.committedPrefixLenTokens
  committed_le : t.committedPrefixLenTokens ≤ t.rawTokenCursor
  covers : t.rawTokenCursor ≤ t.columns.stop*rawPerPage

/-- Where an entry of a table comes from: the operation supplies it for this logical page, the
column denoted it before, or a free page is appended. -/
def Accounted (g : PagedCacheGroup) (supplied : Option PageId) (j : Int) (p : PageId) : Prop :=
  match supplied with
  | some q => p = q
  | none => g.table.columns.at? j = some p ∨
      g.table.columns.stop ≤ j ∧ p ∈ g.pool.freePages

/-- What an operation does that hands out a segment. -/
structure TableStep (g : PagedCacheGroup) (supplied : Int → Option PageId) (segment : List PageId)
    (g' : PagedCacheGroup) : Prop where
  config : g'.config = g.config
  ok : TableOK g.config.rawTokensPerPage g'.table
  entries : ∀ j p, g'.table.columns.at? j = some p → Accounted g (supplied j) j p
  pages : (g'.pool.freePages ++ g'.table.ownedPages ++ segment).Perm
    (g.pool.freePages ++ g.table.ownedPages)

namespace PagedCacheGroup

variable {g g' : PagedCacheGroup} {ids : List PageId} {base target covered : Int} {r : CommitResult}
  {released : List PageId}

/-- The table of a step has the invariant at the start. -/
def OK (g : PagedCacheGroup) : Prop := TableOK g.config.rawTokensPerPage g.table

theorem columns_eq (h : g.OK) : g.table.columns =
    ⟨g.table.baseLogicalPage,g.table.borrowedPageIds ++ g.table.ownedPages⟩ := by
  rw [PagedCacheGroupTable.columns,TableOK.view h]

theorem stop_eq (h : g.OK) : g.table.columns.stop = g.table.baseLogicalPage+g.table.size := by
  rw [columns_eq h,Stretch.stop,List.length_append,PagedCacheGroupTable.size]
  push_cast
  rfl

/-- A step that leaves the table and the pool alone. -/
theorem step_refl (h : g.OK) : TableStep g (fun _ => none) [] g where
  config := rfl
  ok := h
  entries _ _ hj := .inl hj
  pages := by rw [List.append_nil]

/-- A step whose table has its view refreshed. -/
theorem step_of {owned borrowed segment : List PageId} {cursor base committed : Int}
    {supplied : Int → Option PageId}
    (htable : g'.table = ⟨owned,borrowed,cursor,base,committed,borrowed ++ owned⟩)
    (hconfig : g'.config = g.config) (hbase : 0 ≤ base) (hnonneg : 0 ≤ committed)
    (hle : committed ≤ cursor)
    (hcovers : cursor ≤ (Stretch.mk base (borrowed ++ owned)).stop*g.config.rawTokensPerPage)
    (hentries : ∀ j p, (Stretch.mk base (borrowed ++ owned)).at? j = some p →
      Accounted g (supplied j) j p)
    (hpages : (g'.pool.freePages ++ owned ++ segment).Perm
      (g.pool.freePages ++ g.table.ownedPages)) : TableStep g supplied segment g' where
  config := hconfig
  ok := by
    rw [htable]
    exact ⟨rfl,hbase,hnonneg,hle,hcovers⟩
  entries j p hj := by
    rw [htable] at hj
    exact hentries j p hj
  pages := by rwa [htable]

theorem importPrefixBorrowed_step
    (hcovers : (base+ids.length)*g.config.rawTokensPerPage = covered)
    (hok : g.importPrefixBorrowed ids base covered = .ok g') :
    TableStep g (Stretch.mk base ids).at? [] g' := by
  unfold importPrefixBorrowed at hok
  simp only [throwIf_bind_eq_ok,pure_eq_ok,not_not,not_lt] at hok
  obtain ⟨⟨_,howned,_⟩,hbase,hcovered,hg⟩ := hok
  have htable : g'.table = ⟨[],ids,covered,base,covered,ids ++ []⟩ := by
    rw [← hg,← howned]
    rfl
  apply step_of htable (by rw [← hg]) hbase hcovered (le_refl _)
  · rw [List.append_nil]
    exact hcovers.ge
  · intro j p hj
    rw [List.append_nil] at hj
    rw [hj]
    rfl
  · rw [← hg,howned,List.append_nil]

/-- The fresh pages come from the free list. -/
theorem acquireOwned_eq {n : Int} (hn : 0 < n) (hlen : n ≤ (g.acquireOwned n).1.length) :
    (g.acquireOwned n).1.length = n.toNat ∧
    (g.acquireOwned n).1 ++ (g.acquireOwned n).2.pool.freePages = g.pool.freePages ∧
    (g.acquireOwned n).2.config = g.config := by
  unfold acquireOwned PageAllocator.allocate at hlen ⊢
  rw [if_neg (by omega)] at hlen ⊢
  by_cases hfree : (g.pool.freePages.length : Int) < n
  · rw [if_pos (.inr hfree)] at hlen
    simp only [List.length_nil,Nat.cast_zero,if_pos hn] at hlen
    omega
  · have htake : (g.pool.freePages.take n.toNat).length = n.toNat :=
      List.length_take_of_le (by omega)
    rw [if_neg (by omega)] at hlen ⊢
    simp only [htake]
    rw [if_neg (by omega)]
    exact ⟨htake,List.take_append_drop _ _,rfl⟩

/-- Fresh pages are appended. -/
theorem accounted_extend {fresh : List PageId} {j : Int} {p : PageId}
    (hfresh : ∀ p ∈ fresh, p ∈ g.pool.freePages)
    (hj : (g.table.columns.extend fresh).at? j = some p) : Accounted g none j p := by
  rw [Stretch.at?_extend,Option.or_eq_some_iff] at hj
  obtain hold | ⟨_,hnew⟩ := hj
  · exact .inl hold
  · right
    exact ⟨(Stretch.bounds hnew).1,hfresh p (Stretch.mem_of_at? hnew)⟩

theorem acquire_step (h : g.OK) (hr : 0 < g.config.rowsPerPage)
    (hs : 0 < g.config.entryStrideTokens) (hok : g.acquire target = .ok g') :
    TableStep g (fun _ => none) [] g' := by
  unfold acquire at hok
  simp only [throwIf_bind_eq_ok,not_lt] at hok
  obtain ⟨_,hok⟩ := hok
  have hcommitted := TableOK.committed_le h
  have hbase := TableOK.base_nonneg h
  have hstop := stop_eq h
  unfold PagedCacheGroupTable.size at hstop
  split at hok
  · cases pure_eq_ok.mp hok
    exact step_refl h
  rename_i htarget
  have hmore : g.table.committedPrefixLenTokens ≤ target := by omega
  split at hok
  · rename_i hneed
    rw [throwIf_bind_eq_ok,pure_eq_ok,not_lt] at hok
    obtain ⟨hlen,hg⟩ := hok
    obtain ⟨hcount,hpages,hconfig⟩ := acquireOwned_eq hneed hlen
    set fresh := (g.acquireOwned (g.config.pagesNeeded target-(g.table.baseLogicalPage+
      g.table.borrowedPageIds.length+g.table.ownedPages.length))).1 with hfresh
    have htable : g'.table = ⟨g.table.ownedPages ++ fresh,g.table.borrowedPageIds,target,
        g.table.baseLogicalPage,g.table.committedPrefixLenTokens,
        g.table.borrowedPageIds ++ (g.table.ownedPages ++ fresh)⟩ := by
      rw [← hg]
      rfl
    have hcolumns : Stretch.mk g.table.baseLogicalPage
        (g.table.borrowedPageIds ++ (g.table.ownedPages ++ fresh)) =
        g.table.columns.extend fresh := by
      rw [columns_eq h,Stretch.extend,List.append_assoc]
    apply step_of htable (by rw [← hg,hconfig]) hbase (TableOK.committed_nonneg h) hmore
    · have hstop' : (Stretch.mk g.table.baseLogicalPage (g.table.borrowedPageIds ++
          (g.table.ownedPages ++ fresh))).stop = g.config.pagesNeeded target := by
        simp only [Stretch.stop,List.length_append]
        omega
      rw [hstop',← PagedCacheGroupConfig.pagesNeeded_le_iff hr hs (by omega)]
    · intro j p hj
      rw [hcolumns] at hj
      apply accounted_extend ?_ hj
      intro q hq
      rw [← hpages]
      exact List.mem_append_left _ hq
    · rw [← hg,← hpages,List.perm_iff_count]
      intro p
      simp only [List.count_append,List.count_nil]
      omega
  · rename_i henough
    have hg := pure_eq_ok.mp hok
    have htable : g'.table = ⟨g.table.ownedPages,g.table.borrowedPageIds,target,
        g.table.baseLogicalPage,g.table.committedPrefixLenTokens,
        g.table.borrowedPageIds ++ g.table.ownedPages⟩ := by
      rw [← hg,← TableOK.view h]
    apply step_of htable (by rw [← hg]) hbase (TableOK.committed_nonneg h) hmore
    · rw [← columns_eq h,← PagedCacheGroupConfig.pagesNeeded_le_iff hr hs (by omega)]
      omega
    · intro j p hj
      rw [← columns_eq h] at hj
      exact .inl hj
    · rw [← hg,List.append_nil]

theorem commitHistoryToSnapshot_step (h : g.OK)
    (hok : g.commitHistoryToSnapshot target = .ok (r,g')) :
    TableStep g (fun _ => none) r.pages g' := by
  unfold commitHistoryToSnapshot at hok
  obtain ⟨_,hok⟩ := throwIf_bind_eq_ok.mp hok
  have hnonneg := TableOK.committed_nonneg h
  have hbase := TableOK.base_nonneg h
  have hcovers := TableOK.covers h
  rw [columns_eq h] at hcovers
  split at hok
  · cases pure_eq_ok.mp hok
    exact step_refl h
  rename_i htarget
  simp only [throwIf_bind_eq_ok,not_lt] at hok
  obtain ⟨hcursor,_,_,_,hok⟩ := hok
  have hmore : 0 ≤ target := by omega
  split at hok
  · cases pure_eq_ok.mp hok
    apply step_of (by rfl) (by rfl) hbase hmore hcursor hcovers
    · intro j p hj
      rw [← columns_eq h] at hj
      exact .inl hj
    · rw [List.append_nil]
  · obtain ⟨_,hok⟩ := throwIf_bind_eq_ok.mp hok
    obtain ⟨⟨segment,kept⟩,htake,hok⟩ := bind_eq_ok hok
    obtain ⟨_,_,hsegment,hkept⟩ := OwnedPages.takeFirst_ok htake
    have howned : g.table.ownedPages = segment ++ kept := by
      rw [hsegment,hkept,List.take_append_drop]
    have hcolumns : Stretch.mk g.table.baseLogicalPage
        (g.table.borrowedPageIds ++ segment ++ kept) = g.table.columns := by
      rw [columns_eq h,howned,List.append_assoc]
    cases pure_eq_ok.mp hok
    apply step_of (by rfl) (by rfl) hbase hmore hcursor
    · rw [hcolumns,columns_eq h]
      exact hcovers
    · intro j p hj
      rw [hcolumns] at hj
      exact .inl hj
    · rw [howned,List.perm_iff_count]
      intro p
      simp only [List.count_append]
      omega

/-- `AdoptSnapshotSegment` takes the segment for the logical pages from the committed prefix on. -/
def segmentBase (g : PagedCacheGroup) : Int :=
  g.table.committedPrefixLenTokens/g.config.rawTokensPerPage

/-- The first owned page is the first one that is not committed. -/
def AtCommitted (g : PagedCacheGroup) : Prop :=
  g.table.baseLogicalPage+g.table.borrowedPageIds.length = g.segmentBase

/-- An entry of a segment written over the table, or one of the table. -/
theorem accounted_or {w rest : Stretch PageId} {j : Int} {p : PageId}
    (hrest : ∀ q, rest.at? j = some q → g.table.columns.at? j = some q)
    (hj : (w.at? j).or (rest.at? j) = some p) : Accounted g (w.at? j) j p := by
  cases hw : w.at? j with
  | none =>
    rw [hw,Option.none_or] at hj
    exact .inl (hrest p hj)
  | some q =>
    rw [hw,Option.some_or] at hj
    exact (Option.some.inj hj).symm

theorem adoptSnapshotSegment_skips (htarget : target ≤ g.table.committedPrefixLenTokens)
    (hok : g.adoptSnapshotSegment ids target = .ok g') : g' = g := by
  unfold adoptSnapshotSegment at hok
  obtain ⟨_,hok⟩ := throwIf_bind_eq_ok.mp hok
  rw [if_pos htarget] at hok
  exact (pure_eq_ok.mp hok).symm

/-- The segment takes the place of the first owned pages. -/
theorem adoptSnapshotSegment_step (h : g.OK) (htarget : g.table.committedPrefixLenTokens < target)
    (hok : g.adoptSnapshotSegment ids target = .ok g') :
    TableStep g (Stretch.mk (g.table.baseLogicalPage+g.table.borrowedPageIds.length) ids).at? []
      g' := by
  unfold adoptSnapshotSegment at hok
  obtain ⟨_,hok⟩ := throwIf_bind_eq_ok.mp hok
  rw [if_neg (by omega)] at hok
  simp only [throwIf_bind_eq_ok,not_lt,not_not] at hok
  obtain ⟨hcursor,_,_,hlen,_,hok⟩ := hok
  obtain ⟨⟨dropped,kept⟩,htake,hok⟩ := bind_eq_ok hok
  obtain ⟨_,hle,hdropped,hkept⟩ := OwnedPages.takeFirst_ok htake
  rw [← hlen] at hle hdropped hkept
  have howned : g.table.ownedPages = dropped ++ kept := by
    rw [hdropped,hkept,List.take_append_drop]
  have hcommitted := TableOK.committed_nonneg h
  have hcovers := TableOK.covers h
  have hsize : g.table.borrowedPageIds.length+ids.length ≤ g.table.columns.entries.length := by
    rw [columns_eq h,List.length_append]
    omega
  have hcolumns : Stretch.mk g.table.baseLogicalPage (g.table.borrowedPageIds ++ ids ++ kept) =
      g.table.columns.overwrite g.table.borrowedPageIds.length ids := by
    rw [columns_eq h,Stretch.overwrite,List.take_left,List.drop_append,
      List.drop_of_length_le (by omega),Nat.add_sub_cancel_left,hkept,Int.toNat_natCast]
    rfl
  cases pure_eq_ok.mp hok
  apply step_of (by rfl) (by rfl) (TableOK.base_nonneg h) (by omega) hcursor
  · rw [hcolumns,Stretch.stop_overwrite hsize]
    exact hcovers
  · intro j p hj
    rw [hcolumns,Stretch.at?_overwrite hsize] at hj
    exact accounted_or (fun _ hq => hq) hj
  · rw [howned,List.perm_iff_count]
    intro p
    simp only [giveBack,PageAllocator.deallocate,List.count_append,List.count_reverse,
      List.count_nil]
    omega

/-- Borrowed pages go before owned ones. -/
theorem columns_drop (h : g.OK) {m n : Nat} (hm : m ≤ g.table.borrowedPageIds.length)
    (hmn : n = 0 ∨ m = g.table.borrowedPageIds.length) :
    Stretch.mk (g.table.baseLogicalPage+m+n)
        (g.table.borrowedPageIds.drop m ++ g.table.ownedPages.drop n) =
      g.table.columns.dropFront (m+n) := by
  rw [columns_eq h,Stretch.dropFront,List.drop_append]
  push_cast
  rw [add_assoc]
  congr 1
  obtain rfl | rfl := hmn
  · rw [Nat.add_zero,Nat.sub_eq_zero_of_le hm]
  · rw [Nat.add_sub_cancel_left,List.drop_of_length_le (le_refl _),
      List.drop_of_length_le (Nat.le_add_right _ _)]

theorem releaseSkipped_step (h : g.OK) {windowLowerBound : Int}
    (hok : g.releaseSkipped windowLowerBound = .ok (released,g')) :
    TableStep g (fun _ => none) [] g' := by
  unfold releaseSkipped at hok
  dsimp only at hok
  have hbase := TableOK.base_nonneg h
  have hcommitted := TableOK.committed_nonneg h
  have hcursor := TableOK.committed_le h
  have hcovers := TableOK.covers h
  split at hok
  · cases pure_eq_ok.mp hok
    exact step_refl h
  rename_i hdrops
  simp only [not_or,not_le] at hdrops
  obtain ⟨_,_,hrpp,htarget⟩ := hdrops
  split at hok
  · rename_i hempty
    have hlists : g.table.borrowedPageIds = [] ∧ g.table.ownedPages = [] := by
      unfold PagedCacheGroupTable.size at hempty
      constructor <;> apply List.eq_nil_of_length_eq_zero <;> omega
    have hg := (Prod.mk.inj (pure_eq_ok.mp hok)).2
    have htable : g'.table = ⟨[],[],g.table.rawTokenCursor,
        windowLowerBound/g.config.rawTokensPerPage,g.table.committedPrefixLenTokens,[] ++ []⟩ := by
      rw [← hg,TableOK.view h,hlists.1,hlists.2]
    apply step_of htable (by rw [← hg]) (by omega) hcommitted hcursor
    · rw [stop_eq h,hempty,Int.add_zero] at hcovers
      have hmul := Int.mul_le_mul_of_nonneg_right htarget.le hrpp.le
      simpa [Stretch.stop] using hcovers.trans hmul
    · intro j p hj
      cases Stretch.mem_of_at? hj
    · rw [← hg,hlists.2,List.append_nil]
  rename_i hsize
  split at hok
  · cases pure_eq_ok.mp hok
    exact step_refl h
  · rename_i hdrop
    obtain ⟨⟨dropped,kept⟩,htake,hok⟩ := bind_eq_ok hok
    obtain ⟨_,hle,hdropped,hkept⟩ := OwnedPages.takeFirst_ok htake
    have hg := (Prod.mk.inj (pure_eq_ok.mp hok)).2
    set toDrop := min (windowLowerBound/g.config.rawTokensPerPage-g.table.baseLogicalPage)
      g.table.size
    set m := (min toDrop g.table.borrowedPageIds.length).toNat with hm
    set n := (toDrop-min toDrop g.table.borrowedPageIds.length).toNat with hn
    have howned : g.table.ownedPages = dropped ++ kept := by
      rw [hdropped,hkept,List.take_append_drop]
    have hcolumns : Stretch.mk (g.table.baseLogicalPage+toDrop)
        (g.table.borrowedPageIds.drop m ++ kept) = g.table.columns.dropFront (m+n) := by
      rw [← columns_drop h (by omega) (by omega),hkept]
      congr 1
      omega
    have hlen : m+n ≤ g.table.columns.entries.length := by
      rw [columns_eq h,List.length_append]
      omega
    have htable : g'.table = ⟨kept,g.table.borrowedPageIds.drop m,g.table.rawTokenCursor,
        g.table.baseLogicalPage+toDrop,g.table.committedPrefixLenTokens,
        g.table.borrowedPageIds.drop m ++ kept⟩ := by
      rw [← hg]
      rfl
    apply step_of htable (by rw [← hg]; rfl) (by omega) hcommitted hcursor
    · rw [hcolumns,Stretch.stop_dropFront hlen]
      exact hcovers
    · intro j p hj
      rw [hcolumns] at hj
      exact .inl (Stretch.at?_of_dropFront hj)
    · rw [← hg,howned,List.perm_iff_count]
      intro p
      simp only [giveBack,PageAllocator.deallocate,List.count_append,List.count_reverse,
        List.count_nil]
      omega

theorem checkpointStateToSnapshot_step (h : g.OK)
    (hok : g.checkpointStateToSnapshot target = .ok (r,g')) :
    TableStep g (fun _ => none) r.pages g' := by
  unfold checkpointStateToSnapshot at hok
  simp only [throwIf_bind_eq_ok,not_le,not_not] at hok
  obtain ⟨_,hwindow,hok⟩ := hok
  have hbase := TableOK.base_nonneg h
  have hcommitted := TableOK.committed_nonneg h
  have hcovers := TableOK.covers h
  split at hok
  · cases pure_eq_ok.mp hok
    exact step_refl h
  rename_i htarget
  simp only [throwIf_bind_eq_ok,not_lt] at hok
  obtain ⟨hcursor,_,_,hok⟩ := hok
  set live := max 0 (target-g.config.slidingWindowTokens.getD 0)/g.config.rawTokensPerPage
  set borrowedToDrop := max 0 (min (live-g.table.baseLogicalPage) g.table.borrowedPageIds.length)
  set ownedDead := max 0 (min (live-(g.table.baseLogicalPage+borrowedToDrop))
    g.table.ownedPages.length)
  obtain ⟨⟨dropped,owned⟩,htake,hok⟩ := bind_eq_ok hok
  obtain ⟨_,hle,hdropped,howned⟩ := OwnedPages.takeFirst_ok htake
  obtain ⟨⟨segment,kept⟩,hcut,hok⟩ := bind_eq_ok hok
  obtain ⟨_,_,hsegment,hkept⟩ := OwnedPages.takeFirst_ok hcut
  have hcut : owned = segment ++ kept := by
    rw [hsegment,hkept,List.take_append_drop]
  have hall : g.table.ownedPages = dropped ++ owned := by
    rw [hdropped,howned,List.take_append_drop]
  have hcolumns : Stretch.mk (g.table.baseLogicalPage+borrowedToDrop+ownedDead)
      (g.table.borrowedPageIds.drop borrowedToDrop.toNat ++ segment ++ kept) =
      g.table.columns.dropFront (borrowedToDrop.toNat+ownedDead.toNat) := by
    rw [← columns_drop h (by omega) (by omega),List.append_assoc,← hcut,howned]
    congr 1
    omega
  have hlen : borrowedToDrop.toNat+ownedDead.toNat ≤ g.table.columns.entries.length := by
    rw [columns_eq h,List.length_append]
    omega
  have hbase' : 0 ≤ g.table.baseLogicalPage+borrowedToDrop+ownedDead := by omega
  have hmore : 0 ≤ target := by omega
  cases pure_eq_ok.mp hok
  apply step_of (by rfl) (by rfl) hbase' hmore hcursor
  · rw [hcolumns,Stretch.stop_dropFront hlen]
    exact hcovers
  · intro j p hj
    rw [hcolumns] at hj
    exact .inl (Stretch.at?_of_dropFront hj)
  · rw [hall,hcut,List.perm_iff_count]
    intro p
    simp only [giveBack,PageAllocator.deallocate,List.count_append,List.count_reverse]
    omega

theorem adoptStateSnapshotSegment_skips (htarget : target ≤ g.table.committedPrefixLenTokens)
    (hok : g.adoptStateSnapshotSegment ids base target = .ok g') : g' = g := by
  unfold adoptStateSnapshotSegment at hok
  obtain ⟨_,hok⟩ := throwIf_bind_eq_ok.mp hok
  rw [if_pos htarget] at hok
  exact (pure_eq_ok.mp hok).symm

/-- What stands before the segment is dropped, and the segment takes the place of the columns
behind. -/
theorem adoptStateSnapshotSegment_step (h : g.OK)
    (htarget : g.table.committedPrefixLenTokens < target)
    (hok : g.adoptStateSnapshotSegment ids base target = .ok g') :
    TableStep g (Stretch.mk base ids).at? [] g' := by
  unfold adoptStateSnapshotSegment at hok
  obtain ⟨_,hok⟩ := throwIf_bind_eq_ok.mp hok
  rw [if_neg (by omega)] at hok
  simp only [throwIf_bind_eq_ok,not_lt,not_not] at hok
  obtain ⟨hcursor,hbase,_,_,_,_,hfirst,hsize,hok⟩ := hok
  obtain ⟨⟨before,owned⟩,htake,hok⟩ := bind_eq_ok hok
  obtain ⟨_,hle,hbefore,howned⟩ := OwnedPages.takeFirst_ok htake
  obtain ⟨henough,hok⟩ := throwIf_bind_eq_ok.mp hok
  dsimp only at henough
  obtain ⟨⟨replaced,kept⟩,hcut,hok⟩ := bind_eq_ok hok
  obtain ⟨_,_,hreplaced,hkept⟩ := OwnedPages.takeFirst_ok hcut
  have hcommitted := TableOK.committed_nonneg h
  have hcovers := TableOK.covers h
  set n := base-g.table.baseLogicalPage with hn
  set borrowedToDrop := min n g.table.borrowedPageIds.length
  set borrowed := g.table.borrowedPageIds.drop borrowedToDrop.toNat
  have hall : g.table.ownedPages = before ++ (replaced ++ kept) := by
    rw [hreplaced,hkept,List.take_append_drop,hbefore,howned,List.take_append_drop]
  have hlen : n.toNat ≤ g.table.columns.entries.length := by
    rw [columns_eq h,List.length_append]
    unfold PagedCacheGroupTable.size at hsize
    omega
  have hdropped : Stretch.mk base (borrowed ++ owned) = g.table.columns.dropFront n.toNat := by
    have hsum : n.toNat = borrowedToDrop.toNat+(n-borrowedToDrop).toNat := by omega
    rw [hsum,← columns_drop h (by omega) (by omega),howned]
    congr 1
    omega
  have hfits : 0+ids.length ≤ (Stretch.mk base (borrowed ++ owned)).entries.length := by
    rw [List.length_append]
    omega
  have hcolumns : Stretch.mk base
      (ids ++ borrowed.drop (min (ids.length : Int) borrowed.length).toNat ++ kept) =
      (Stretch.mk base (borrowed ++ owned)).overwrite 0 ids := by
    rw [Stretch.overwrite,List.take_zero,List.nil_append,Nat.zero_add,List.drop_append,hkept,
      List.append_assoc]
    congr 3
    · obtain hshort | hlong := Nat.le_total ids.length borrowed.length
      · congr 1
        omega
      · rw [List.drop_of_length_le (by omega),List.drop_of_length_le hlong]
    · congr 1
      omega
  cases pure_eq_ok.mp hok
  have hmore : 0 ≤ target := by omega
  have hbase' : 0 ≤ base := by omega
  apply step_of (by rfl) (by rfl) hbase' hmore hcursor
  · rw [hcolumns,Stretch.stop_overwrite hfits,hdropped,Stretch.stop_dropFront hlen]
    exact hcovers
  · intro j p hj
    rw [hcolumns,Stretch.at?_overwrite hfits] at hj
    have hzero : base+((0 : Nat) : Int) = base := Int.add_zero base
    dsimp only at hj
    rw [hzero] at hj
    apply accounted_or ?_ hj
    intro q hq
    rw [hdropped] at hq
    exact Stretch.at?_of_dropFront hq
  · rw [hall,List.perm_iff_count]
    intro p
    simp only [giveBack,PageAllocator.deallocate,List.count_append,List.count_reverse,
      List.count_nil]
    omega

theorem rewindTail_step (h : g.OK) (hr : 0 < g.config.rowsPerPage)
    (hs : 0 < g.config.entryStrideTokens) (hok : g.rewindTail target = .ok (released,g')) :
    TableStep g (fun _ => none) [] g' := by
  unfold rewindTail at hok
  obtain ⟨hpos,hok⟩ := throwIf_bind_eq_ok.mp hok
  dsimp only at hok
  have hbase := TableOK.base_nonneg h
  have hcommitted := TableOK.committed_nonneg h
  have hcovers := TableOK.covers h
  split at hok
  · cases pure_eq_ok.mp hok
    exact step_refl h
  rename_i htarget
  obtain ⟨_,hok⟩ := throwIf_bind_eq_ok.mp hok
  set rewound := max target g.table.committedPrefixLenTokens
  have hle : g.table.committedPrefixLenTokens ≤ rewound := le_max_right _ _
  have hstop := stop_eq h
  unfold PagedCacheGroupTable.size at hstop
  have hneeded : g.config.pagesNeeded rewound ≤ g.table.columns.stop := by
    rw [PagedCacheGroupConfig.pagesNeeded_le_iff hr hs (by omega)]
    exact (le_of_not_ge htarget).trans hcovers
  split at hok
  · rename_i hdrop
    obtain ⟨⟨dropped,kept⟩,htake,hok⟩ := bind_eq_ok hok
    obtain ⟨_,_,hdropped,hkept⟩ := OwnedPages.takeLast_ok htake
    set n := g.table.ownedPages.length-((g.table.ownedPages.length : Int)-
      max 0 (min (g.config.pagesNeeded rewound-(g.table.baseLogicalPage+
        g.table.borrowedPageIds.length)) g.table.ownedPages.length)).toNat
    have howned : g.table.ownedPages = kept ++ dropped := by
      rw [hdropped,hkept,List.take_append_drop]
    have hcolumns : Stretch.mk g.table.baseLogicalPage (g.table.borrowedPageIds ++ kept) =
        g.table.columns.takeFront (g.table.borrowedPageIds.length+n) := by
      rw [columns_eq h,Stretch.takeFront,List.take_length_add_append,hkept]
    have hg := (Prod.mk.inj (pure_eq_ok.mp hok)).2
    have htable : g'.table = ⟨kept,g.table.borrowedPageIds,rewound,g.table.baseLogicalPage,
        g.table.committedPrefixLenTokens,g.table.borrowedPageIds ++ kept⟩ := by
      rw [← hg]
      rfl
    apply step_of htable (by rw [← hg]; rfl) hbase hcommitted hle
    · rw [← PagedCacheGroupConfig.pagesNeeded_le_iff hr hs]
      · simp only [Stretch.stop,List.length_append,hkept,List.length_take]
        omega
      · simp only [Stretch.stop]
        omega
    · intro j p hj
      rw [hcolumns] at hj
      exact .inl (Stretch.at?_of_takeFront hj)
    · rw [← hg,howned,List.perm_iff_count]
      intro p
      simp only [giveBack,PageAllocator.deallocate,List.count_append,List.count_reverse,
        List.count_nil]
      omega
  · have hg := (Prod.mk.inj (pure_eq_ok.mp hok)).2
    have htable : g'.table = ⟨g.table.ownedPages,g.table.borrowedPageIds,rewound,
        g.table.baseLogicalPage,g.table.committedPrefixLenTokens,
        g.table.borrowedPageIds ++ g.table.ownedPages⟩ := by
      rw [← hg,← TableOK.view h]
    apply step_of htable (by rw [← hg]) hbase hcommitted hle
    · rw [← columns_eq h]
      exact (le_of_not_ge htarget).trans hcovers
    · intro j p hj
      rw [← columns_eq h] at hj
      exact .inl hj
    · rw [← hg,List.append_nil]

theorem releaseAll_step (hok : g.releaseAll = .ok (released,g')) :
    TableStep g (fun _ => none) [] g' := by
  unfold releaseAll at hok
  obtain ⟨⟨dropped,kept⟩,htake,hok⟩ := bind_eq_ok hok
  obtain ⟨_,_,hdropped,hkept⟩ := OwnedPages.takeFirst_ok htake
  rw [Int.toNat_natCast] at hdropped hkept
  rw [List.take_length] at hdropped
  rw [List.drop_length] at hkept
  have hg := (Prod.mk.inj (pure_eq_ok.mp hok)).2
  have htable : g'.table = ⟨[],[],0,0,0,[] ++ []⟩ := by
    rw [← hg,hkept]
    rfl
  apply step_of htable (by rw [← hg]; rfl) (le_refl _) (le_refl _) (le_refl _)
  · simp [Stretch.stop]
  · intro j p hj
    cases Stretch.mem_of_at? hj
  · rw [← hg,hdropped,List.perm_iff_count]
    intro p
    simp only [giveBack,PageAllocator.deallocate,List.count_append,List.count_reverse,
      List.count_nil]
    omega

section Committed

/-- The fields that say where the committed prefix ends. -/
theorem atCommitted_congr (h : g.AtCommitted) (hconfig : g'.config = g.config)
    (hbase : g'.table.baseLogicalPage = g.table.baseLogicalPage)
    (hborrowed : g'.table.borrowedPageIds = g.table.borrowedPageIds)
    (hcommitted : g'.table.committedPrefixLenTokens = g.table.committedPrefixLenTokens) :
    g'.AtCommitted := by
  rw [AtCommitted,segmentBase,hconfig,hbase,hborrowed,hcommitted]
  exact h

theorem importPrefixBorrowed_atCommitted (hrpp : 0 < g.config.rawTokensPerPage)
    (hcovers : (base+ids.length)*g.config.rawTokensPerPage = covered)
    (hok : g.importPrefixBorrowed ids base covered = .ok g') : g'.AtCommitted := by
  unfold importPrefixBorrowed at hok
  simp only [throwIf_bind_eq_ok,pure_eq_ok] at hok
  obtain ⟨_,_,_,rfl⟩ := hok
  change base+ids.length = covered/g.config.rawTokensPerPage
  rw [← hcovers,Int.mul_ediv_cancel _ hrpp.ne']

theorem acquire_atCommitted (h : g.AtCommitted) (hok : g.acquire target = .ok g') :
    g'.AtCommitted := by
  unfold acquire at hok
  obtain ⟨_,hok⟩ := throwIf_bind_eq_ok.mp hok
  dsimp only at hok
  split at hok
  · cases pure_eq_ok.mp hok
    exact h
  split at hok
  · rename_i hneed
    rw [throwIf_bind_eq_ok,pure_eq_ok,not_lt] at hok
    obtain ⟨hlen,rfl⟩ := hok
    exact atCommitted_congr h (acquireOwned_eq hneed hlen).2.2 rfl rfl rfl
  · cases pure_eq_ok.mp hok
    exact h

/-- The committed prefix grows by as many whole pages as become borrowed. -/
theorem segmentBase_add (hc : g.table.committedPrefixLenTokens%g.config.rawTokensPerPage = 0) :
    g.segmentBase+(target-g.table.committedPrefixLenTokens)/g.config.rawTokensPerPage =
      target/g.config.rawTokensPerPage := by
  rw [segmentBase,Int.sub_ediv_of_dvd _ (Int.dvd_of_emod_eq_zero hc)]
  omega

theorem commitHistoryToSnapshot_atCommitted (h : g.AtCommitted)
    (hok : g.commitHistoryToSnapshot target = .ok (r,g')) : g'.AtCommitted := by
  unfold commitHistoryToSnapshot at hok
  obtain ⟨_,hok⟩ := throwIf_bind_eq_ok.mp hok
  split at hok
  · cases pure_eq_ok.mp hok
    exact h
  simp only [throwIf_bind_eq_ok,not_not] at hok
  obtain ⟨_,hrpp,hc,_,hok⟩ := hok
  split at hok
  · rename_i htarget hnone
    have hle := Int.ediv_nonneg (show 0 ≤ target-g.table.committedPrefixLenTokens by omega)
      (show 0 ≤ g.config.rawTokensPerPage by omega)
    have hsame : g.segmentBase+_ = target/g.config.rawTokensPerPage := segmentBase_add hc
    cases pure_eq_ok.mp hok
    change g.table.baseLogicalPage+g.table.borrowedPageIds.length = target/g.config.rawTokensPerPage
    rw [h]
    omega
  · obtain ⟨_,hok⟩ := throwIf_bind_eq_ok.mp hok
    obtain ⟨⟨segment,kept⟩,htake,hok⟩ := bind_eq_ok hok
    obtain ⟨_,_,hsegment,_⟩ := OwnedPages.takeFirst_ok htake
    have hlen : (segment.length : Int) =
        (target-g.table.committedPrefixLenTokens)/g.config.rawTokensPerPage := by
      rw [hsegment,List.length_take]
      omega
    cases pure_eq_ok.mp hok
    change g.table.baseLogicalPage+(g.table.borrowedPageIds ++ segment).length =
      target/g.config.rawTokensPerPage
    rw [List.length_append,← segmentBase_add hc,← hlen,← h]
    push_cast
    omega

theorem adoptSnapshotSegment_atCommitted (h : g.AtCommitted)
    (hok : g.adoptSnapshotSegment ids target = .ok g') : g'.AtCommitted := by
  unfold adoptSnapshotSegment at hok
  obtain ⟨_,hok⟩ := throwIf_bind_eq_ok.mp hok
  split at hok
  · cases pure_eq_ok.mp hok
    exact h
  simp only [throwIf_bind_eq_ok,not_or,not_not] at hok
  obtain ⟨_,_,⟨hc,_⟩,hlen,_,hok⟩ := hok
  obtain ⟨⟨dropped,kept⟩,_,hok⟩ := bind_eq_ok hok
  cases pure_eq_ok.mp hok
  change g.table.baseLogicalPage+(g.table.borrowedPageIds ++ ids).length =
    target/g.config.rawTokensPerPage
  rw [List.length_append,← segmentBase_add hc,← hlen,← h]
  push_cast
  omega

theorem rewindTail_atCommitted (h : g.AtCommitted)
    (hok : g.rewindTail target = .ok (released,g')) : g'.AtCommitted := by
  unfold rewindTail at hok
  obtain ⟨_,hok⟩ := throwIf_bind_eq_ok.mp hok
  dsimp only at hok
  split at hok
  · cases pure_eq_ok.mp hok
    exact h
  obtain ⟨_,hok⟩ := throwIf_bind_eq_ok.mp hok
  split at hok
  · obtain ⟨⟨dropped,kept⟩,_,hok⟩ := bind_eq_ok hok
    cases pure_eq_ok.mp hok
    exact atCommitted_congr h rfl rfl rfl rfl
  · cases pure_eq_ok.mp hok
    exact h

theorem releaseAll_atCommitted (hok : g.releaseAll = .ok (released,g')) : g'.AtCommitted := by
  unfold releaseAll at hok
  obtain ⟨⟨dropped,kept⟩,_,hok⟩ := bind_eq_ok hok
  cases pure_eq_ok.mp hok
  change (0 : Int)+((0 : Nat) : Int) = 0/g.config.rawTokensPerPage
  rw [Int.zero_ediv]
  rfl

/-- Groups that keep their whole history drop nothing from the front. -/
theorem releaseSkipped_fullHistory (hret : g.config.retention = .fullHistory)
    {windowLowerBound : Int} (hok : g.releaseSkipped windowLowerBound = .ok (released,g')) :
    g' = g := by
  unfold releaseSkipped at hok
  dsimp only at hok
  rw [if_pos (.inr (.inl (by rw [hret]; decide)))] at hok
  exact ((Prod.mk.inj (pure_eq_ok.mp hok)).2).symm

end Committed

end PagedCacheGroup

end FluxServe
