import FluxServe.Framework.Guards
import FluxServe.Framework.Stretch
import FluxServe.Resource.PageAllocator

namespace FluxServe

inductive Retention
  | fullHistory
  | slidingWindow
  deriving DecidableEq, Repr

inductive PagedCacheError
  | invalidArgument (what : String)
  | logicError (what : String)
  | runtimeError (what : String)
  | outOfRange (what : String)
  deriving DecidableEq, Repr

/-- 0 for numerators that are not positive. -/
def ceilDivPositive (numer denom : Int) : Int := if numer ≤ 0 then 0 else (numer+denom-1)/denom

structure PagedCacheGroupConfig where
  groupId : String
  rowsPerPage : Int
  entryStrideTokens : Int
  totalPages : Int
  retention : Retention := .fullHistory
  slidingWindowTokens : Option Int := none
  family : PagedCacheGroupFamily := .history
  deriving DecidableEq, Repr

namespace PagedCacheGroupConfig

def rawTokensPerPage (cfg : PagedCacheGroupConfig) : Int := cfg.rowsPerPage*cfg.entryStrideTokens

def validate (cfg : PagedCacheGroupConfig) : Except PagedCacheError Unit := do
  throwIf (cfg.groupId.isEmpty = true)
    (.invalidArgument "PagedCacheGroupConfig: group_id must be non-empty")
  throwIf (cfg.rowsPerPage ≤ 0)
    (.invalidArgument "PagedCacheGroupConfig: rows_per_page must be > 0")
  throwIf (cfg.entryStrideTokens ≤ 0)
    (.invalidArgument "PagedCacheGroupConfig: entry_stride_tokens must be > 0")
  throwIf (cfg.totalPages < 1)
    (.invalidArgument "PagedCacheGroupConfig: total_pages must include the dummy page")
  throwIf (cfg.retention = .slidingWindow ∧ cfg.slidingWindowTokens.getD 0 ≤ 0)
    (.invalidArgument
      "PagedCacheGroupConfig: sliding_window_tokens must be > 0 for sliding groups")

/-- The pages that hold so many raw tokens, as `Acquire` and `RewindTail` count them. -/
def pagesNeeded (cfg : PagedCacheGroupConfig) (rawTokens : Int) : Int :=
  (ceilDivPositive rawTokens cfg.entryStrideTokens+cfg.rowsPerPage-1)/cfg.rowsPerPage

end PagedCacheGroupConfig

namespace OwnedPages

/-- The pages taken and those that are kept. -/
def takeFirst (ids : List PageId) (n : Int) : Except PagedCacheError (List PageId × List PageId) :=
  do
  throwIf (n < 0 ∨ (ids.length : Int) < n)
    (.outOfRange ("OwnedPages::TakeFirst: count out of range; count=" ++ toString n ++
      "; size=" ++ toString ids.length))
  pure (ids.take n.toNat,ids.drop n.toNat)

def takeLast (ids : List PageId) (n : Int) : Except PagedCacheError (List PageId × List PageId) :=
  do
  throwIf (n < 0 ∨ (ids.length : Int) < n)
    (.outOfRange ("OwnedPages::TakeLast: count out of range; count=" ++ toString n ++
      "; size=" ++ toString ids.length))
  pure (ids.drop (ids.length-n.toNat),ids.take (ids.length-n.toNat))

end OwnedPages

/-- `pageIdsView` is what `PageIds` returns. -/
structure PagedCacheGroupTable where
  ownedPages : List PageId := []
  borrowedPageIds : List PageId := []
  rawTokenCursor : Int := 0
  baseLogicalPage : Int := 0
  committedPrefixLenTokens : Int := 0
  pageIdsView : List PageId := []
  deriving DecidableEq, Repr

namespace PagedCacheGroupTable

def size (t : PagedCacheGroupTable) : Int := t.borrowedPageIds.length+t.ownedPages.length

def refreshPageIdsView (t : PagedCacheGroupTable) : PagedCacheGroupTable :=
  { t with pageIdsView := t.borrowedPageIds ++ t.ownedPages }

/-- Column `c` of `PageIds` under the logical page that it stands for. -/
def columns (t : PagedCacheGroupTable) : Stretch PageId := ⟨t.baseLogicalPage,t.pageIdsView⟩

end PagedCacheGroupTable

structure CommitResult where
  pages : List PageId := []
  segmentBaseLogicalPage : Int := 0
  deriving DecidableEq, Repr

/-- A group's allocator and a table bound to it. -/
structure PagedCacheGroup where
  config : PagedCacheGroupConfig
  pool : PageAllocator
  table : PagedCacheGroupTable := {}
  deriving DecidableEq, Repr

namespace PagedCacheGroup

def new (config : PagedCacheGroupConfig) : PagedCacheGroup :=
  { config, pool := PageAllocator.new config.totalPages.toNat }

section Operations

variable (g : PagedCacheGroup)

/-- Pages of the table go back to the pool. -/
def giveBack (pages : List PageId) : PagedCacheGroup := { g with pool := g.pool.deallocate pages }

def acquireOwned (numPages : Int) : List PageId × PagedCacheGroup :=
  if numPages ≤ 0 then ([],g) else
    let (owned,pool) := g.pool.allocate numPages
    if (owned.length : Int) < numPages then ([],g) else (owned,{ g with pool })

def acquire (target : Int) : Except PagedCacheError PagedCacheGroup := do
  throwIf (target < 0)
    (.invalidArgument "PagedCacheGroupTable::Acquire: target must be >= 0")
  let t := g.table
  if target ≤ t.rawTokenCursor then pure g else
    let pagesHave := t.baseLogicalPage+t.borrowedPageIds.length+t.ownedPages.length
    let pagesToAllocate := g.config.pagesNeeded target-pagesHave
    if 0 < pagesToAllocate then
      let (fresh,g') := g.acquireOwned pagesToAllocate
      throwIf ((fresh.length : Int) < pagesToAllocate)
        (.runtimeError ("PagedCacheGroupTable::Acquire: failed to allocate pages for group " ++
          g.config.groupId))
      let t := { t with ownedPages := t.ownedPages ++ fresh }.refreshPageIdsView
      pure { g' with table := { t with rawTokenCursor := target } }
    else pure { g with table := { t with rawTokenCursor := target } }

def commitHistoryToSnapshot (target : Int) :
    Except PagedCacheError (CommitResult × PagedCacheGroup) := do
  let t := g.table
  throwIf (g.config.family ≠ .history)
    (.logicError ("PagedCacheGroupTable::CommitHistoryToSnapshot: requires History family; group="
      ++ g.config.groupId))
  if target ≤ t.committedPrefixLenTokens then pure ({},g) else
    throwIf (t.rawTokenCursor < target)
      (.invalidArgument
        ("PagedCacheGroupTable::CommitHistoryToSnapshot: target exceeds raw_token_cursor; target="
          ++ toString target ++ "; cursor=" ++ toString t.rawTokenCursor))
    let rawPerPage := g.config.rawTokensPerPage
    throwIf (rawPerPage ≤ 0)
      (.logicError ("PagedCacheGroupTable::CommitHistoryToSnapshot: invalid group config " ++
        "(raw_per_page <= 0)"))
    throwIf (t.committedPrefixLenTokens%rawPerPage ≠ 0)
      (.logicError ("PagedCacheGroupTable::CommitHistoryToSnapshot: committed cursor not " ++
        "page-aligned; committed=" ++ toString t.committedPrefixLenTokens ++ "; raw_per_page=" ++
        toString rawPerPage))
    throwIf (target%rawPerPage ≠ 0)
      (.invalidArgument ("PagedCacheGroupTable::CommitHistoryToSnapshot: target not page-aligned; "
        ++ "target=" ++ toString target ++ "; raw_per_page=" ++ toString rawPerPage))
    let pagesToCommit := (target-t.committedPrefixLenTokens)/rawPerPage
    if pagesToCommit ≤ 0 then
      let t := { t with committedPrefixLenTokens := target }.refreshPageIdsView
      pure ({},{ g with table := t })
    else
      throwIf ((t.ownedPages.length : Int) < pagesToCommit)
        (.logicError ("PagedCacheGroupTable::CommitHistoryToSnapshot: not enough owned pages; want="
          ++ toString pagesToCommit ++ "; have_owned=" ++ toString t.ownedPages.length))
      let segmentBaseLogicalPage := t.committedPrefixLenTokens/rawPerPage
      let (segment,kept) ← OwnedPages.takeFirst t.ownedPages pagesToCommit
      let t := { t with
        ownedPages := kept
        borrowedPageIds := t.borrowedPageIds ++ segment
        committedPrefixLenTokens := target }.refreshPageIdsView
      pure ({ pages := segment,segmentBaseLogicalPage },{ g with table := t })

def adoptSnapshotSegment (ids : List PageId) (target : Int) :
    Except PagedCacheError PagedCacheGroup := do
  let t := g.table
  throwIf (g.config.family ≠ .history)
    (.logicError ("PagedCacheGroupTable::AdoptSnapshotSegment: requires History family; group="
      ++ g.config.groupId))
  if target ≤ t.committedPrefixLenTokens then pure g else
    throwIf (t.rawTokenCursor < target)
      (.invalidArgument
        ("PagedCacheGroupTable::AdoptSnapshotSegment: target exceeds raw_token_cursor; target="
          ++ toString target ++ "; cursor=" ++ toString t.rawTokenCursor))
    let rawPerPage := g.config.rawTokensPerPage
    throwIf (rawPerPage ≤ 0)
      (.logicError "PagedCacheGroupTable::AdoptSnapshotSegment: invalid group config")
    throwIf (t.committedPrefixLenTokens%rawPerPage ≠ 0 ∨ target%rawPerPage ≠ 0)
      (.invalidArgument "PagedCacheGroupTable::AdoptSnapshotSegment: unaligned commit range")
    let pagesToAdopt := (target-t.committedPrefixLenTokens)/rawPerPage
    throwIf ((ids.length : Int) ≠ pagesToAdopt)
      (.invalidArgument
        "PagedCacheGroupTable::AdoptSnapshotSegment: snapshot segment size mismatch")
    throwIf ((t.ownedPages.length : Int) < pagesToAdopt)
      (.logicError "PagedCacheGroupTable::AdoptSnapshotSegment: not enough local pages")
    let (dropped,kept) ← OwnedPages.takeFirst t.ownedPages pagesToAdopt
    let t := { t with
      ownedPages := kept
      borrowedPageIds := t.borrowedPageIds ++ ids
      committedPrefixLenTokens := target }.refreshPageIdsView
    pure { g.giveBack dropped with table := t }

def checkpointStateToSnapshot (target : Int) :
    Except PagedCacheError (CommitResult × PagedCacheGroup) := do
  let t := g.table
  throwIf (g.config.family ≠ .state)
    (.logicError ("PagedCacheGroupTable::CheckpointStateToSnapshot: requires State family; group="
      ++ g.config.groupId))
  let window := g.config.slidingWindowTokens.getD 0
  throwIf (window ≤ 0)
    (.logicError ("PagedCacheGroupTable::CheckpointStateToSnapshot: State family requires " ++
      "positive sliding_window_tokens; group=" ++ g.config.groupId))
  if target ≤ t.committedPrefixLenTokens then pure ({},g) else
    throwIf (t.rawTokenCursor < target)
      (.invalidArgument
        ("PagedCacheGroupTable::CheckpointStateToSnapshot: target exceeds raw_token_cursor; target="
          ++ toString target ++ "; cursor=" ++ toString t.rawTokenCursor))
    let rawPerPage := g.config.rawTokensPerPage
    throwIf (rawPerPage ≤ 0)
      (.logicError ("PagedCacheGroupTable::CheckpointStateToSnapshot: invalid group config " ++
        "(raw_per_page <= 0)"))
    throwIf (target%rawPerPage ≠ 0)
      (.invalidArgument ("PagedCacheGroupTable::CheckpointStateToSnapshot: target not " ++
        "page-aligned; target=" ++ toString target ++ "; raw_per_page=" ++ toString rawPerPage))
    let liveLowerPage := max 0 (target-window)/rawPerPage
    -- Stale borrowed entries: only the index is dropped.
    let borrowedToDrop :=
      max 0 (min (liveLowerPage-t.baseLogicalPage) t.borrowedPageIds.length)
    let borrowed := t.borrowedPageIds.drop borrowedToDrop.toNat
    let base := t.baseLogicalPage+borrowedToDrop
    -- Stale owned pages go back to the pool.
    let ownedDeadPages := max 0 (min (liveLowerPage-base) t.ownedPages.length)
    let (dropped,owned) ← OwnedPages.takeFirst t.ownedPages ownedDeadPages
    let base := base+ownedDeadPages
    let targetPage := target/rawPerPage
    let ownedBase := base+borrowed.length
    let segmentCount := min (owned.length : Int) (max 0 (targetPage-ownedBase))
    let (segment,owned) ← OwnedPages.takeFirst owned segmentCount
    let t := { t with
      ownedPages := owned
      borrowedPageIds := borrowed ++ segment
      baseLogicalPage := base
      committedPrefixLenTokens := target }.refreshPageIdsView
    pure ({ pages := segment,segmentBaseLogicalPage := ownedBase },
      { g.giveBack dropped with table := t })

def adoptStateSnapshotSegment (ids : List PageId) (base target : Int) :
    Except PagedCacheError PagedCacheGroup := do
  let t := g.table
  throwIf (g.config.family ≠ .state)
    (.logicError ("PagedCacheGroupTable::AdoptStateSnapshotSegment: requires State family; group="
      ++ g.config.groupId))
  if target ≤ t.committedPrefixLenTokens then pure g else
    throwIf (t.rawTokenCursor < target)
      (.invalidArgument
        ("PagedCacheGroupTable::AdoptStateSnapshotSegment: target exceeds raw_token_cursor; target="
          ++ toString target ++ "; cursor=" ++ toString t.rawTokenCursor))
    throwIf (base < 0)
      (.invalidArgument
        "PagedCacheGroupTable::AdoptStateSnapshotSegment: base_logical_page must be >= 0")
    let rawPerPage := g.config.rawTokensPerPage
    throwIf (rawPerPage ≤ 0)
      (.logicError "PagedCacheGroupTable::AdoptStateSnapshotSegment: invalid group config")
    throwIf (target%rawPerPage ≠ 0)
      (.invalidArgument
        "PagedCacheGroupTable::AdoptStateSnapshotSegment: target not page-aligned")
    let pagesToAdopt : Int := ids.length
    throwIf (pagesToAdopt ≤ 0)
      (.invalidArgument "PagedCacheGroupTable::AdoptStateSnapshotSegment: empty snapshot segment")
    throwIf ((base+pagesToAdopt)*rawPerPage ≠ target)
      (.invalidArgument
        "PagedCacheGroupTable::AdoptStateSnapshotSegment: segment does not end at target")
    throwIf (base < t.baseLogicalPage)
      (.invalidArgument
        "PagedCacheGroupTable::AdoptStateSnapshotSegment: segment precedes table base")
    let pagesBeforeSegment := base-t.baseLogicalPage
    throwIf (t.size < pagesBeforeSegment)
      (.logicError
        "PagedCacheGroupTable::AdoptStateSnapshotSegment: segment starts past table end")
    let borrowedToDrop := min pagesBeforeSegment t.borrowedPageIds.length
    let borrowed := t.borrowedPageIds.drop borrowedToDrop.toNat
    let (before,owned) ← OwnedPages.takeFirst t.ownedPages (pagesBeforeSegment-borrowedToDrop)
    throwIf ((borrowed.length : Int)+owned.length < pagesToAdopt)
      (.logicError
        "PagedCacheGroupTable::AdoptStateSnapshotSegment: not enough local pages to replace")
    let borrowedReplace := min pagesToAdopt borrowed.length
    let (replaced,owned) ← OwnedPages.takeFirst owned (pagesToAdopt-borrowedReplace)
    let t := { t with
      ownedPages := owned
      borrowedPageIds := ids ++ borrowed.drop borrowedReplace.toNat
      baseLogicalPage := base
      committedPrefixLenTokens := target }.refreshPageIdsView
    pure { (g.giveBack before).giveBack replaced with table := t }

def importPrefixBorrowed (ids : List PageId) (base rawTokensCovered : Int) :
    Except PagedCacheError PagedCacheGroup := do
  let t := g.table
  throwIf (¬(t.borrowedPageIds = [] ∧ t.ownedPages = [] ∧ t.rawTokenCursor = 0 ∧
      t.baseLogicalPage = 0 ∧ t.committedPrefixLenTokens = 0))
    (.logicError
      "PagedCacheGroupTable::ImportPrefixBorrowed: only legal on a fresh-empty table")
  throwIf (base < 0)
    (.invalidArgument "PagedCacheGroupTable::ImportPrefixBorrowed: base_logical_page must be >= 0")
  throwIf (rawTokensCovered < 0)
    (.invalidArgument "PagedCacheGroupTable::ImportPrefixBorrowed: raw_tokens_covered must be >= 0")
  let t := { t with
    borrowedPageIds := ids
    baseLogicalPage := base
    rawTokenCursor := rawTokensCovered
    committedPrefixLenTokens := rawTokensCovered }.refreshPageIdsView
  pure { g with table := t }

/-- Only sliding groups drop pages, from the front: borrowed ones first, then owned ones. -/
def releaseSkipped (windowLowerBound : Int) :
    Except PagedCacheError (List PageId × PagedCacheGroup) := do
  let t := g.table
  let target := windowLowerBound/g.config.rawTokensPerPage
  if windowLowerBound ≤ 0 ∨ g.config.retention ≠ .slidingWindow ∨ g.config.rawTokensPerPage ≤ 0 ∨
      target ≤ t.baseLogicalPage then
    pure ([],g)
  else if t.size = 0 then pure ([],{ g with table := { t with baseLogicalPage := target } })
  else
    let toDrop := min (target-t.baseLogicalPage) t.size
    if toDrop ≤ 0 then pure ([],g) else
      let borrowedDrop := min toDrop t.borrowedPageIds.length
      let (dropped,kept) ← OwnedPages.takeFirst t.ownedPages (toDrop-borrowedDrop)
      let t := { t with
        ownedPages := kept
        borrowedPageIds := t.borrowedPageIds.drop borrowedDrop.toNat
        baseLogicalPage := t.baseLogicalPage+toDrop }.refreshPageIdsView
      pure (g.table.borrowedPageIds.take borrowedDrop.toNat ++ dropped,
        { g.giveBack dropped with table := t })

/-- Borrowed and committed pages stay. -/
def rewindTail (target : Int) : Except PagedCacheError (List PageId × PagedCacheGroup) := do
  let t := g.table
  throwIf (target < 0)
    (.invalidArgument "PagedCacheGroupTable::RewindTail: target must be >= 0")
  let target := max target t.committedPrefixLenTokens
  if t.rawTokenCursor ≤ target then pure ([],g) else
    throwIf (g.config.rawTokensPerPage ≤ 0)
      (.logicError "PagedCacheGroupTable::RewindTail: invalid group config")
    let ownedBase := t.baseLogicalPage+t.borrowedPageIds.length
    let keepOwned := max 0 (min (g.config.pagesNeeded target-ownedBase) t.ownedPages.length)
    let dropOwned := (t.ownedPages.length : Int)-keepOwned
    if 0 < dropOwned then
      let (dropped,kept) ← OwnedPages.takeLast t.ownedPages dropOwned
      let t := { t with ownedPages := kept }.refreshPageIdsView
      pure (dropped,{ g.giveBack dropped with table := { t with rawTokenCursor := target } })
    else pure ([],{ g with table := { t with rawTokenCursor := target } })

def releaseAll : Except PagedCacheError (List PageId × PagedCacheGroup) := do
  let t := g.table
  let (dropped,kept) ← OwnedPages.takeFirst t.ownedPages t.ownedPages.length
  let t := { t with
    ownedPages := kept
    borrowedPageIds := []
    rawTokenCursor := 0
    baseLogicalPage := 0
    committedPrefixLenTokens := 0 }.refreshPageIdsView
  pure (g.table.borrowedPageIds ++ dropped,{ g.giveBack dropped with table := t })

end Operations

end PagedCacheGroup

end FluxServe
