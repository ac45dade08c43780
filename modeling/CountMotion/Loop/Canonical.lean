import CountMotion.Loop.Forest

/-! Preheaders and dedicated exits for every loop. -/
namespace CountMotion.Routine

/-- Lead the edges from the sources to the target through a new empty block, which is
returned with the routine. -/
def detour (r : Routine) (target : BlockId) (sources : List BlockId) : Except Fault (Routine × BlockId) := do
  let fresh := r.nextBlock
  let r ← r.append { id := fresh, body := [], term := .jump target }
  let r ← sources.foldlM (fun r source =>
    r.modifyBlock source fun b => { b with term := b.term.redirect target fresh }) r
  return (r, fresh)

/-- What a loop still lacks. -/
inductive Lack where
  | preheader (header : BlockId) (sources : List BlockId)
  | dedicatedExit (exit : BlockId) (sources : List BlockId)
  deriving DecidableEq, Repr

/-- The first thing that a loop lacks: its preheader, then its dedicated exits in order. -/
def lackOf (f : Forest) (g : Region) : Except Fault (Option Lack) := do
  match g.preheader with
  | none => return some (.preheader g.header ((← readAt f.back.succs g.header).filter fun p => !g.holds p))
  | some _ =>
    g.exits.findSomeM? fun e => do
      let sources ← readAt f.back.succs e
      return if sources.all g.holds then none else some (.dedicatedExit e (sources.filter g.holds))

/-- Add what a loop lacks. -/
def supply (r : Routine) : Lack → Except Fault Routine
  | .preheader header sources => do
    let (wired, fresh) ← r.detour header sources
    return { wired with entry := if wired.entry = header then fresh else wired.entry }
  | .dedicatedExit e sources => do return (← r.detour e sources).1

/-- Give the first loop that lacks something the first thing it lacks. -/
def canonicalizeOnce (r : Routine) : Except Fault (Option Routine) := do
  let f ← Forest.build r (← r.domTree)
  match ← f.regions.tail.findSomeM? (lackOf f) with
  | none => return none
  | some lack => return some (← r.supply lack)

/-- At most `limit` additions; tells whether there were any. -/
def canonicalizeUpTo : (limit : Nat) → Routine → Except Fault (Routine × Bool)
  | 0, r => .ok (r, false)
  | limit + 1, r => do
    match ← r.canonicalizeOnce with
    | none => return (r, false)
    | some wider => return ((← canonicalizeUpTo limit wider).1, true)

/-- Give every loop a preheader and dedicated exits, within a limit set by the size. -/
def canonicalize (r : Routine) : Except Fault (Routine × Bool) :=
  canonicalizeUpTo (4 * r.blocks.length + 8) r

end CountMotion.Routine
