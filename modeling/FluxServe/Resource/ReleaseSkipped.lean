import FluxServe.Resource.PagedCacheRuns

namespace FluxServe

/-- What `ReleaseSkipped` changes of a table, and its cursor. -/
structure PagedCacheGroupTable.Core where
  baseLogicalPage : Int
  borrowedPageIds : List PageId
  ownedPages : List PageId
  rawTokenCursor : Int
  deriving DecidableEq

def PagedCacheGroupTable.core (t : PagedCacheGroupTable) : PagedCacheGroupTable.Core :=
  ⟨t.baseLogicalPage,t.borrowedPageIds,t.ownedPages,t.rawTokenCursor⟩

namespace OwnedPages

variable {ids : List PageId} {n : Int}

theorem takeFirst_eq (h : 0 ≤ n) (hn : n ≤ ids.length) :
    takeFirst ids n = .ok (ids.take n.toNat,ids.drop n.toNat) := by
  unfold takeFirst
  exact throwIf_bind_eq_ok.mpr ⟨by omega,rfl⟩

end OwnedPages

namespace PagedCacheGroup

variable {g : PagedCacheGroup} {a b w : Int}

/-- The bounds that `ReleaseSkipped` acts upon. -/
def Slides (g : PagedCacheGroup) (w : Int) : Prop :=
  0 < w ∧ g.config.retention = .slidingWindow ∧ 0 < g.config.rawTokensPerPage

instance (g : PagedCacheGroup) (w : Int) : Decidable (g.Slides w) :=
  inferInstanceAs (Decidable (_ ∧ _ ∧ _))

/-- The page that a bound lies in. -/
def targetPage (g : PagedCacheGroup) (w : Int) : Int := w/g.config.rawTokensPerPage

/-- How many pages a bound drops. -/
def skips (g : PagedCacheGroup) (w : Int) : Nat :=
  if g.Slides w then (min (g.targetPage w-g.table.baseLogicalPage) g.table.size).toNat else 0

/-- Where the table starts then. An empty table follows the bound wherever it is, any other one as
far as its pages go. -/
def skippedBase (g : PagedCacheGroup) (w : Int) : Int :=
  if g.Slides w ∧ g.table.size = 0 then max g.table.baseLogicalPage (g.targetPage w)
  else g.table.baseLogicalPage+g.skips w

/-- The table without the pages that a bound drops. -/
def skippedCore (g : PagedCacheGroup) (w : Int) : PagedCacheGroupTable.Core where
  baseLogicalPage := g.skippedBase w
  borrowedPageIds := g.table.borrowedPageIds.drop (g.skips w)
  ownedPages := g.table.ownedPages.drop (g.skips w-g.table.borrowedPageIds.length)
  rawTokenCursor := g.table.rawTokenCursor

/-- The group that a call leaves. -/
def skipTo (g : PagedCacheGroup) (w : Int) : Except PagedCacheError PagedCacheGroup := do
  return (← g.releaseSkipped w).2

/-- The two calls return, and leave the table as the one with the greater bound does. -/
def Composes (g : PagedCacheGroup) (a b : Int) : Prop :=
  ∃ g₁ g₂ g₃, g.skipTo a = .ok g₁ ∧ g₁.skipTo b = .ok g₂ ∧ g.skipTo (max a b) = .ok g₃ ∧
    g₂.table.core = g₃.table.core

/-- The first bound empties the table and the second one lies behind its end. -/
def Overtakes (g : PagedCacheGroup) (a b : Int) : Prop :=
  g.Slides a ∧ g.Slides b ∧ g.table.size ≠ 0 ∧
    g.table.baseLogicalPage+g.table.size ≤ g.targetPage a ∧
    g.table.baseLogicalPage+g.table.size < g.targetPage b

theorem size_nonneg : 0 ≤ g.table.size := by
  unfold PagedCacheGroupTable.size
  omega

theorem skips_le : (g.skips w : Int) ≤ g.table.size := by
  have hsize := size_nonneg (g := g)
  unfold skips
  split <;> omega

theorem skips_of_empty (h : g.table.size = 0) : g.skips w = 0 := by
  have hle := skips_le (g := g) (w := w)
  omega

theorem skips_of_slides (h : g.Slides w) :
    (g.skips w : Int) = max 0 (min (g.targetPage w-g.table.baseLogicalPage) g.table.size) := by
  unfold skips
  rw [if_pos h]
  omega

theorem skippedBase_of_empty (h : g.Slides w) (hempty : g.table.size = 0) :
    g.skippedBase w = max g.table.baseLogicalPage (g.targetPage w) := if_pos ⟨h,hempty⟩

theorem skippedBase_of_pages (h : g.table.size ≠ 0) :
    g.skippedBase w = g.table.baseLogicalPage+g.skips w := if_neg fun hempty => h hempty.2

/-- A bound that is not past the first page changes nothing. -/
theorem skippedCore_of_idle (h : ¬g.Slides w ∨ g.targetPage w ≤ g.table.baseLogicalPage) :
    g.skippedCore w = g.table.core := by
  have hskips : g.skips w = 0 := by
    unfold skips
    split
    · next hslides =>
      have htarget := h.resolve_left (not_not.mpr hslides)
      omega
    · rfl
  have hbase : g.skippedBase w = g.table.baseLogicalPage := by
    unfold skippedBase
    split
    · next hempty => exact max_eq_left (h.resolve_left (not_not.mpr hempty.1))
    · omega
  simp [skippedCore,PagedCacheGroupTable.core,hskips,hbase]

/-- Every call returns; what it leaves. -/
theorem skipTo_eq (g : PagedCacheGroup) (w : Int) :
    ∃ g', g.skipTo w = .ok g' ∧ g'.config = g.config ∧ g'.table.core = g.skippedCore w := by
  unfold skipTo releaseSkipped
  dsimp only
  split
  · next hidle =>
    refine ⟨g,rfl,rfl,(skippedCore_of_idle ?_).symm⟩
    unfold Slides
    show _ ∨ w/g.config.rawTokensPerPage ≤ _
    grind
  next hacts =>
  simp only [not_or,not_le,not_not] at hacts
  obtain ⟨hw,hretention,hrpp,htarget⟩ := hacts
  have hslides : g.Slides w := ⟨hw,hretention,hrpp⟩
  split
  · next hempty =>
    refine ⟨_,rfl,rfl,?_⟩
    have hbase : g.skippedBase w = g.targetPage w := by
      rw [skippedBase,if_pos ⟨hslides,hempty⟩]
      exact max_eq_right htarget.le
    simp only [skippedCore,hbase,skips_of_empty hempty,PagedCacheGroupTable.core,List.drop_zero,
      Nat.zero_sub,targetPage]
  next hsize =>
  have hskips : (g.skips w : Int) =
      min (w/g.config.rawTokensPerPage-g.table.baseLogicalPage) g.table.size := by
    have hnonneg := size_nonneg (g := g)
    rw [skips,if_pos hslides,targetPage]
    omega
  have hbase : g.skippedBase w = g.table.baseLogicalPage+g.skips w := by
    rw [skippedBase,if_neg fun h => hsize h.2]
  rw [← hskips]
  have hnonneg := size_nonneg (g := g)
  rw [if_neg (by omega)]
  have hlen : g.table.size = g.table.borrowedPageIds.length+g.table.ownedPages.length := rfl
  have hle := skips_le (g := g) (w := w)
  rw [OwnedPages.takeFirst_eq (by omega) (by omega)]
  refine ⟨_,rfl,rfl,?_⟩
  have hborrowed : g.table.borrowedPageIds.drop
      (min (g.skips w : Int) g.table.borrowedPageIds.length).toNat =
      g.table.borrowedPageIds.drop (g.skips w) := by
    by_cases hin : g.skips w ≤ g.table.borrowedPageIds.length
    · rw [show (min (g.skips w : Int) g.table.borrowedPageIds.length).toNat = g.skips w by omega]
    · rw [List.drop_of_length_le (by omega),List.drop_of_length_le (by omega)]
  have howned : ((g.skips w : Int)-min (g.skips w : Int) g.table.borrowedPageIds.length).toNat =
      g.skips w-g.table.borrowedPageIds.length := by omega
  simp only [skippedCore,PagedCacheGroupTable.core,PagedCacheGroupTable.refreshPageIdsView,hbase,
    hborrowed,howned]

section Composition

variable {g₁ : PagedCacheGroup}

theorem slides_max (ha : g.Slides a) (hb : g.Slides b) : g.Slides (max a b) := by
  obtain hab | hba := le_total a b
  · rwa [max_eq_right hab]
  · rwa [max_eq_left hba]

/-- A bound that is not acted upon does not matter. -/
theorem skippedCore_max_of_idle (ha : ¬g.Slides a) : g.skippedCore (max a b) = g.skippedCore b := by
  obtain hab | hba := le_total a b
  · rw [max_eq_right hab]
  · rw [max_eq_left hba,skippedCore_of_idle (.inl ha),skippedCore_of_idle]
    unfold Slides at ha ⊢
    exact .inl fun hb => ha ⟨by omega,hb.2⟩

theorem skippedCore_congr (hconfig : g₁.config = g.config) (hcore : g₁.table.core = g.table.core) :
    g₁.skippedCore b = g.skippedCore b := by
  obtain ⟨config,pool,table⟩ := g
  obtain ⟨config₁,pool₁,table₁⟩ := g₁
  obtain ⟨owned,borrowed,cursor,base,_,_⟩ := table
  obtain ⟨owned₁,borrowed₁,cursor₁,base₁,_,_⟩ := table₁
  cases hconfig
  cases hcore
  rfl

theorem targetPage_max (h : 0 < g.config.rawTokensPerPage) :
    g.targetPage (max a b) = max (g.targetPage a) (g.targetPage b) := by
  unfold targetPage
  obtain hab | hba := le_total a b
  · rw [max_eq_right hab,max_eq_right (Int.ediv_le_ediv h hab)]
  · rw [max_eq_left hba,max_eq_left (Int.ediv_le_ediv h hba)]

/-- What a group looks like after the first bound. -/
structure Skipped (g : PagedCacheGroup) (a : Int) (g₁ : PagedCacheGroup) : Prop where
  config : g₁.config = g.config
  core : g₁.table.core = g.skippedCore a

namespace Skipped

variable (h : Skipped g a g₁)
include h

theorem slides : g₁.Slides b ↔ g.Slides b := by
  unfold Slides
  rw [h.config]

theorem targetPage : g₁.targetPage b = g.targetPage b := by
  unfold PagedCacheGroup.targetPage
  rw [h.config]

theorem base : g₁.table.baseLogicalPage = g.skippedBase a :=
  congrArg PagedCacheGroupTable.Core.baseLogicalPage h.core

theorem borrowed : g₁.table.borrowedPageIds = g.table.borrowedPageIds.drop (g.skips a) :=
  congrArg PagedCacheGroupTable.Core.borrowedPageIds h.core

theorem owned : g₁.table.ownedPages =
    g.table.ownedPages.drop (g.skips a-g.table.borrowedPageIds.length) :=
  congrArg PagedCacheGroupTable.Core.ownedPages h.core

theorem cursor : g₁.table.rawTokenCursor = g.table.rawTokenCursor :=
  congrArg PagedCacheGroupTable.Core.rawTokenCursor h.core

theorem size : g₁.table.size = g.table.size-g.skips a := by
  have hle := skips_le (g := g) (w := a)
  unfold PagedCacheGroupTable.size at hle ⊢
  rw [h.borrowed,h.owned,List.length_drop,List.length_drop]
  omega

/-- The two bounds drop what the greater one drops. -/
theorem skips_add (ha : g.Slides a) (hb : g.Slides b) :
    g.skips a+g₁.skips b = g.skips (max a b) := by
  have hsize := size_nonneg (g := g)
  have hfirst := skips_of_slides ha
  have hsecond := skips_of_slides (h.slides.mpr hb)
  have hboth := skips_of_slides (slides_max ha hb)
  rw [h.targetPage,h.base,h.size] at hsecond
  rw [targetPage_max ha.2.2] at hboth
  by_cases hempty : g.table.size = 0
  · rw [skippedBase_of_empty ha hempty] at hsecond
    omega
  · rw [skippedBase_of_pages hempty] at hsecond
    omega

theorem base_iff (ha : g.Slides a) (hb : g.Slides b) :
    g₁.skippedBase b = g.skippedBase (max a b) ↔ ¬g.Overtakes a b := by
  have hsize := size_nonneg (g := g)
  have hsum := h.skips_add ha hb
  have hfirst := skips_of_slides ha
  have hsecond := skips_of_slides (h.slides.mpr hb)
  have hrest := h.size
  have hbase := h.base
  rw [h.targetPage] at hsecond
  unfold Overtakes
  simp only [ha,hb,true_and]
  by_cases hempty : g.table.size = 0
  · rw [skippedBase_of_empty ha hempty] at hbase
    rw [skippedBase_of_empty (h.slides.mpr hb) (by omega),h.targetPage,
      skippedBase_of_empty (slides_max ha hb) hempty,targetPage_max ha.2.2,hbase,max_assoc]
    exact iff_of_true rfl fun hover => hover.1 hempty
  rw [skippedBase_of_pages hempty] at hbase ⊢
  -- A first bound that empties the table leaves the second one free to move its start.
  by_cases hleft : g₁.table.size = 0
  · rw [skippedBase_of_empty (h.slides.mpr hb) hleft,h.targetPage]
    omega
  · rw [skippedBase_of_pages hleft]
    omega

theorem composes_iff : g₁.skippedCore b = g.skippedCore (max a b) ↔ ¬g.Overtakes a b := by
  by_cases ha : g.Slides a
  · by_cases hb : g.Slides b
    · rw [← h.base_iff ha hb]
      constructor
      · exact congrArg PagedCacheGroupTable.Core.baseLogicalPage
      · intro hbase
        have hsum := h.skips_add ha hb
        unfold skippedCore
        rw [hbase,h.borrowed,h.owned,h.cursor,List.drop_drop,List.drop_drop,List.length_drop,
          ← hsum]
        congr 2
        omega
    · rw [skippedCore_of_idle (.inl (mt h.slides.mp hb)),h.core,max_comm,
        skippedCore_max_of_idle hb]
      exact iff_of_true rfl fun hover => hb hover.2.1
  · rw [skippedCore_congr h.config (h.core.trans (skippedCore_of_idle (.inl ha))),
      skippedCore_max_of_idle ha]
    exact iff_of_true rfl fun hover => ha hover.1

end Skipped

end Composition

/-- Two calls compose unless the first one empties the table and the second bound lies behind its
end: an empty table follows the bound, another one stops at its end. -/
theorem releaseSkipped_composes_iff (g : PagedCacheGroup) (a b : Int) :
    g.Composes a b ↔ ¬g.Overtakes a b := by
  obtain ⟨g₁,hg₁,hconfig,hcore⟩ := skipTo_eq g a
  obtain ⟨g₂,hg₂,_,hsecond⟩ := skipTo_eq g₁ b
  obtain ⟨g₃,hg₃,_,hboth⟩ := skipTo_eq g (max a b)
  have hfirst : Skipped g a g₁ := ⟨hconfig,hcore⟩
  rw [← hfirst.composes_iff,← hsecond,← hboth]
  constructor
  · intro h
    obtain ⟨x₁,x₂,x₃,hx₁,hx₂,hx₃,hx⟩ := h
    cases hg₁.symm.trans hx₁
    cases hg₂.symm.trans hx₂
    cases hg₃.symm.trans hx₃
    exact hx
  · exact fun hcores => ⟨g₁,g₂,g₃,hg₁,hg₂,hg₃,hcores⟩

end PagedCacheGroup

section Small

/-- Pages of four tokens behind a window of four. -/
def slidingPages : PagedCacheGroupConfig where
  groupId := "state"
  rowsPerPage := 4
  entryStrideTokens := 1
  totalPages := 4
  retention := .slidingWindow
  slidingWindowTokens := some 4
  family := .state

/-- One page has been acquired. -/
def onePage : GroupState where
  group := {
    config := slidingPages
    pool := { totalPages := 4,freePages := [2,1] }
    table := { ownedPages := [3],rawTokenCursor := 4,pageIdsView := [3] } }

theorem onePage_run : GroupRun slidingPages onePage :=
  GroupRun.apply (.acquire 4) (@GroupRun.new slidingPages) trivial rfl

/-- The first call for token 8 stops at the end of the table, the same call again goes on. -/
theorem releaseSkipped_repeated :
    slidingPages.validate = .ok () ∧ GroupRun slidingPages onePage ∧
    ¬onePage.group.Composes 8 8 := by
  apply And.intro rfl
  apply And.intro onePage_run
  intro h
  obtain ⟨g₁,g₂,g₃,h₁,h₂,h₃,hcore⟩ := h
  cases h₁
  cases h₂
  cases h₃
  revert hcore
  decide

end Small

end FluxServe
