import FluxServe.Resource.CacheRule

namespace FluxServe

open KVPrefixCache

/-- The record of load-backs is left alone by everything but `AllocateResourceOfType`. -/
abbrev KeepsRecord {α : Type} (x : KV α) : Prop := Keeps KVPrefixCache.loadedBack x

theorem record_rule : CacheRule fun kv kv' => kv'.loadedBack = kv.loadedBack where
  refl _ := rfl
  trans h h' := h'.trans h
  tree _ _ := rfl
  readings _ _ := rfl
  nextOpId _ _ := rfl
  manager kv t m _ := setManager_loadedBack kv t m

variable {t : ResourceType}

theorem keepsRecord_throwException {α : Type} (e : Exception) :
    KeepsRecord (throwException e : KV α) :=
  ReadRule.follows_throwException (CacheRule.toReadRule record_rule) e

theorem keepsRecord_deallocatePages (pages : List PageId) :
    KeepsRecord (deallocatePages t pages) := CacheRule.follows_deallocatePages record_rule pages

theorem keepsRecord_updateLeaves (i : NodeId) : KeepsRecord (updateLeaves t i) :=
  CacheRule.follows_updateLeaves record_rule i

theorem keepsRecord_attachResource (i : NodeId) (pages : List PageId) :
    KeepsRecord (attachResource t i pages) := CacheRule.follows_attachResource record_rule i pages

theorem keepsRecord_allocatePages (num : Int) : KeepsRecord (allocatePages t num) :=
  CacheRule.follows_allocatePages record_rule num

theorem keepsRecord_lock (i : NodeId) : KeepsRecord (lock t i) :=
  CacheRule.follows_lock record_rule i

theorem keepsRecord_unlock (i : NodeId) : KeepsRecord (unlock t i) :=
  CacheRule.follows_unlock record_rule i

theorem keepsRecord_unlock? (o : Option NodeId) : KeepsRecord (unlock? t o) :=
  OperationRule.follows_unlock? (CacheRule.operationRule record_rule) o

end FluxServe
