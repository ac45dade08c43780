import CountMotion.Loop.Canonical
import CountMotion.Routine.Contract
import CountMotion.Sweep

/-! The pass: contract check, one of the strategies, and the report to the cache. -/
namespace CountMotion

/-- A way of driving rounds over a routine to a fixed point. It may change the flow, and then
has to tell the cache. -/
structure Strategy where
  name : String
  optimize : Routine → Cache → Except Fault (Routine × Cache × Stats)

namespace Strategy

/-- Canonical loops, innermost first. -/
def loopAware : Strategy where
  name := "loop-aware"
  optimize r cache := do
    let (r, changed) ← r.canonicalize
    let (k, cache) ← (if changed then cache.invalidate .flow else cache).facts r
    let (s, r) ← (Sweep.start k).settle r k
    return (r, cache, s.rounds.stats)

def blockOnly : Strategy where
  name := "block-only"
  optimize r cache := do
    let (k, cache) ← cache.facts r
    let (c, r) ← Rounds.finish r k
    return (r, cache, c.stats)

end Strategy

structure Config where
  /-- Optimize at all. -/
  enabled : Bool
  /-- Use the loop-aware strategy. -/
  loops : Bool
  deriving DecidableEq, Repr

namespace Config

def default : Config := ⟨true, true⟩

def strategy (c : Config) : Strategy := if c.loops then .loopAware else .blockOnly

end Config

/-- What a run did, and what it made stale. -/
structure Outcome where
  stats : Stats
  change : Change
  deriving DecidableEq, Repr

/-- Why a run ends without an outcome. A refused routine comes back with its cache. -/
inductive Failure where
  | breach (cause : Breach) (r : Routine) (cache : Cache)
  | fault (cause : Fault)
  deriving DecidableEq, Repr

/-- Names that start so belong to initializers of globals, which are left alone. -/
def initializerMark : String := "globalinit_"

/-- Optimize a routine that keeps the contract. -/
def run (config : Config) (strategy : Strategy) (r : Routine) (cache : Cache) :
    Except Failure (Outcome × Routine × Cache) :=
  match r.check with
  | .error cause => .error (.breach cause r cache)
  | .ok () =>
    if !config.enabled || r.name.startsWith initializerMark then .ok (⟨.zero, .nothing⟩, r, cache)
    else match strategy.optimize r cache with
      | .error cause => .error (.fault cause)
      | .ok (next, cache, stats) =>
        let change : Change :=
          if next.blocks.length ≠ r.blocks.length then .flow
          else if stats.changed then .instructions
          else .nothing
        .ok (⟨stats, change⟩, next, cache.invalidate change)

end CountMotion
