import CountMotion.Hoist
import CountMotion.Round

/-! Rounds over all regions, inner loops first, with hoists in between. -/
namespace CountMotion

/-- Each operation weighs one more than the number of loops around it. -/
def Forest.weight (f : Forest) (r : Routine) : Nat :=
  tally (fun (b, n) => b.countOps * (1 + f.depthAt n)) r.blocks.zipIdx

/-- What carries over from region to region. -/
structure Sweep where
  rounds : Rounds
  table : SummaryTable
  deriving DecidableEq, Repr

namespace Sweep

def start (k : Facts) : Sweep := ⟨.start, .empty k.forest⟩

/-- One round in a region, with the hoists out of its child loops. Tells whether it changed
anything and whether another round may find more. -/
def round (s : Sweep) (r : Routine) (k : Facts) (id : RegionId) (frozen : Bool) :
    Except Fault (Sweep × Routine × Bool × Bool) := do
  let table ← s.table.summarizeChildren r k id
  let (rounds, found) ← s.rounds.perform (← Flat.build r k id (some table.get?)) frozen
  let (table, hoists) ← table.hoists r k id found.roots
  let e ← Exchange.queueAll (found.exchanges ++ hoists) r .empty
  let (next, touched, _) ← e.flush r
  let exposes := found.exposes || !hoists.isEmpty
  let removesPair := found.removesPair || hoists.any Exchange.removesPair
  let changed := !touched.isEmpty
  let table ← (if changed then table.invalidate k touched else .ok table)
  return (⟨rounds.count hoists, table⟩, next, changed, exposes && removesPair)

/-- Rounds in a region while they expose more. Every changing round lowers the weight. -/
def settleRegion (s : Sweep) (r : Routine) (k : Facts) (id : RegionId) (frozen : Bool) :
    Except Fault (Sweep × Routine × Bool) := do
  let (s, next, changed, more) ← s.round r k id frozen
  if _ : (changed ∧ more) ∧ k.forest.weight next < k.forest.weight r then
    let (s, last, _) ← s.settleRegion next k id frozen
    return (s, last, true)
  else return (s, next, changed)
termination_by k.forest.weight r

/-- Settle a loop, once more frozen if it changed, and summarize it. -/
def loop (s : Sweep) (r : Routine) (k : Facts) (id : RegionId) : Except Fault (Sweep × Routine × Bool) := do
  let (s, r, changed) ← s.settleRegion r k id false
  let (s, r) ← if changed then do
      let (s, r, _) ← s.settleRegion r k id true
      pure (s, r)
    else pure (s, r)
  return ({ s with table := ← s.table.summarize r k id }, r, changed)

/-- Settle the region of the whole routine, once more with its pinned releases frozen if it
changed. -/
def body (s : Sweep) (r : Routine) (k : Facts) : Except Fault (Sweep × Routine × Bool) := do
  let (s, r, changed) ← s.settleRegion r k 0 false
  if changed then
    let s := { s with rounds := ← s.rounds.pin r k }
    let (s, r, _) ← s.settleRegion r k 0 true
    return (s, r, true)
  else return (s, r, false)

/-- One sweep over the regions; tells whether anything changed. -/
def sweep (s : Sweep) (r : Routine) (k : Facts) : Except Fault (Sweep × Routine × Bool) := do
  let (s, r, inLoops) ← (← k.forest.bottomUp).foldlM (fun (s, r, before) id => do
    let (s, r, changed) ← s.loop r k id
    return (s, r, before || changed)) (s, r, false)
  let (s, r, inBody) ← s.body r k
  return (s, r, inLoops || inBody)

/-- Sweeps until one changes nothing. -/
def settle (s : Sweep) (r : Routine) (k : Facts) : Except Fault (Sweep × Routine) := do
  let (s, next, changed) ← s.sweep r k
  if _ : changed ∧ k.forest.weight next < k.forest.weight r then s.settle next k
  else return (s, next)
termination_by k.forest.weight r

end Sweep

end CountMotion
