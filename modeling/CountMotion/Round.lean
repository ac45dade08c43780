import CountMotion.Match

/-! One round of pairing over a flat region. -/
namespace CountMotion

/-- The exchanges of a round, and whether pending operations superseded each other. -/
structure Findings where
  exchanges : List Exchange
  superseded : Bool
  deriving DecidableEq, Repr

namespace Findings

/-- Both retains and releases go in some exchange. -/
def removesPair (x : Findings) : Bool := x.exchanges.any Exchange.removesPair

/-- Another round may find pairs that this one exposes. -/
def exposes (x : Findings) : Bool := x.superseded || !x.exchanges.isEmpty

def roots (x : Findings) : List Var := (x.exchanges.map Exchange.root).eraseDups

end Findings

/-- Try every retain in turn as a seed. Members of one closure are used up for later seeds. -/
def Flat.findings (f : Flat) (frozen : List (BlockId × Var)) : Except Fault Findings := do
  let pairing ← f.pairing
  let (_, exchanges) ← pairing.retains.keys.foldlM (fun (p, found) seed => do
    let (p, x) ← f.matchSeed frozen p seed
    return (p, found ++ x.toList)) (pairing, [])
  return ⟨exchanges, pairing.nested⟩

def Exchange.queueAll (xs : List Exchange) (r : Routine) (e : Edits) : Except Fault Edits :=
  xs.foldlM (fun e x => x.queue r e) e

/-- What carries over from round to round: the releases that frozen rounds leave alone,
whether anything changed, and the counts. -/
structure Rounds where
  pinned : List (BlockId × Var)
  changed : Bool
  stats : Stats
  deriving DecidableEq, Repr

namespace Rounds

def start : Rounds := ⟨[], false, .zero⟩

/-- The releases of a block. -/
def releasesIn (r : Routine) (k : Facts) (b : BlockId) : Except Fault (List (BlockId × Var)) := do
  return (← r.block b).body.filterMap fun
    | .release v _ => (k.root v).map fun root => (b, root)
    | _ => none

/-- Pin the releases in reachable blocks that post-dominate the entry. -/
def pin (c : Rounds) (r : Routine) (k : Facts) : Except Fault Rounds := do
  let found ← (r.postorder.filter fun b => k.postDom.postDominates b r.entry).mapM (releasesIn r k)
  return { c with pinned := found.flatten }

def hasPinned (c : Rounds) : Bool := !c.pinned.isEmpty

def count (c : Rounds) (xs : List Exchange) : Rounds := { c with stats := xs.foldl Stats.count c.stats }

/-- Find the exchanges of one round; frozen rounds leave pinned releases alone. -/
def perform (c : Rounds) (f : Flat) (frozen : Bool) : Except Fault (Rounds × Findings) := do
  let found ← f.findings (if frozen then c.pinned else [])
  let counted := c.count found.exchanges
  return ({ counted with stats.rounds := c.stats.rounds + 1 }, found)

/-- One round over the whole routine; tells whether it changed anything. -/
def run (c : Rounds) (r : Routine) (k : Facts) (frozen : Bool) : Except Fault (Rounds × Routine × Bool) := do
  let c ← (if frozen && !c.hasPinned then c.pin r k else .ok c)
  let (c, found) ← c.perform (← Flat.whole r k) frozen
  let e ← Exchange.queueAll found.exchanges r .empty
  let (r, touched, _) ← e.flush r
  let changed := !touched.isEmpty
  return ({ c with changed := c.changed || changed }, r, changed)

/-- Rounds until one changes nothing. Every changing round removes more than it adds. -/
def settle (c : Rounds) (r : Routine) (k : Facts) (frozen : Bool) : Except Fault (Rounds × Routine) := do
  let (c, next, changed) ← c.run r k frozen
  if _ : changed ∧ next.countOps < r.countOps then c.settle next k frozen else return (c, next)
termination_by r.countOps

/-- Settle unfrozen and, if anything changed, frozen. -/
def finish (r : Routine) (k : Facts) : Except Fault (Rounds × Routine) := do
  let (c, r) ← start.settle r k false
  if c.changed then c.settle r k true else return (c, r)

end Rounds

end CountMotion
