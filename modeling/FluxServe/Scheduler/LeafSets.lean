import FluxServe.Resource.CacheRuns
import FluxServe.Scheduler.CallRule
import FluxServe.Scheduler.Conservation

namespace FluxServe

open KVPrefixCache

variable {config : SchedulerConfig} {clock : Nat → Timestamp} {history : List (Call × Reply)}
  {s : Scheduler}

theorem run_callOperationRule : CallOperationRule CacheRun where
  toOperationRule := run_operationRule
  follows_allocate {t} nodes := follows_operation (.allocateResourceOfType t nodes) rfl

/-- The scheduler brings its cache about by operations alone, one after the other. -/
theorem Reaches.cacheRun (h : Reaches config clock history s) :
    CacheRun (Scheduler.new config clock).kv s.kv := by
  induction h with
  | new => exact Relation.ReflTransGen.refl
  | call _ calls ih => exact ih.trans (run_callOperationRule.calls calls).1

/-- The leaf sets of both tiers are exact after every operation, whether it returned or faulted,
and every state of the scheduler comes about by operations. -/
theorem leafSets_exact (h : Reaches config clock history s) :
    CacheRun (Scheduler.new config clock).kv s.kv ∧
      ∀ kv, CacheRun (Scheduler.new config clock).kv kv → ∀ t, LeafSet t kv := by
  refine ⟨h.cacheRun,fun kv hrun t => ?_⟩
  have hnew : ExactLeaves (Scheduler.new config clock).kv := (sound_new config clock).kv.exactLeaves
  exact (hnew.run hrun).leafSet t

theorem leafSets_exact_served :
    ∃ history s, Reaches (smallConfig 9 9) id history s ∧
      (s.kv.manager .device).lruLeaves ≠ [] ∧ ∀ t, LeafSet t s.kv := by
  obtain ⟨x,hx,_,_,hleaves⟩ := served_replay
  obtain ⟨hrun,hall⟩ := leafSets_exact (reaches_of_replay hx)
  exact ⟨x.1,x.2,reaches_of_replay hx,hleaves,hall _ hrun⟩

end FluxServe
