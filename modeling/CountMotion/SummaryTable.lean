import CountMotion.Sorted
import CountMotion.Trip

/-! Summaries of the loops of a routine, computed when needed and dropped when stale. -/
namespace CountMotion

namespace Instr

/-- The variables whose objects an instruction reads without releasing or testing them. -/
def reads : Instr → List Var
  | isShared _ _ | release _ _ => []
  | i => i.operands

def observed? : Instr → Option Var
  | isShared _ v => some v
  | _ => none

def released? : Instr → Option Var
  | release v _ => some v
  | _ => none

def mayRelease : Instr → Bool
  | call _ _ _ .mayRelease => true
  | _ => false

end Instr

/-- One slot for each region; the routine's own stays empty. -/
structure SummaryTable where
  slots : List (Option Summary)
  deriving DecidableEq, Repr

namespace SummaryTable

def empty (f : Forest) : SummaryTable := ⟨f.regions.map fun _ => none⟩

def get? (t : SummaryTable) (id : RegionId) : Option Summary := t.slots[id]?.join

/-- The regions that have a summary, ascending. -/
def cached (t : SummaryTable) : List RegionId :=
  (List.range t.slots.length).filter fun id => (t.get? id).isSome

/-- The count operations in the blocks, each with its root. -/
def operations (k : Facts) (blocks : List (BlockId × Block)) : List (Var × Point) :=
  blocks.flatMap fun (b, x) => x.body.zipIdx.filterMap fun (i, index) =>
    (i.counts?.bind k.root).map fun root => (root, ⟨b, index⟩)

/-- Summarize a loop whose child loops have summaries. -/
def compute (t : SummaryTable) (r : Routine) (k : Facts) (id : RegionId) : Except Fault Summary := do
  let region ← k.forest.region id
  let blocks ← region.blocks.mapM fun b => do return (b, ← r.block b)
  let flat ← Flat.build r k id (some t.get?)
  let instrs := blocks.flatMap fun (_, x) => x.body
  let found := operations k blocks
  let roots ← (ascending (found.map Prod.fst)).mapM fun root => do
    let points := (found.filter fun x => x.1 == root).map Prod.snd
    let (shape, alternating) ← flat.trip root
    return {
      root := root
      points := points
      shape := shape
      alternating := alternating
      nested := ← points.anyM fun p => do return (← k.forest.childHolding id p.block).isSome }
  return {
    roots := roots
    used := ascending (instrs.flatMap Instr.reads ++ blocks.flatMap fun (_, x) => x.term.operands)
    observed := ascending (instrs.filterMap Instr.observed?)
    released := ascending (instrs.filterMap Instr.released?)
    mayRelease := instrs.any Instr.mayRelease
    returns := blocks.any fun (_, x) => x.term.returns }

/-- Fill the slot of a loop unless it is filled. -/
def fill (r : Routine) (k : Facts) (t : SummaryTable) (id : RegionId) : Except Fault SummaryTable :=
  if (t.get? id).isSome then .ok t
  else do return ⟨t.slots.set id (some (← t.compute r k id))⟩

/-- Summarize a loop, inner loops first. -/
def summarize (r : Routine) (k : Facts) (t : SummaryTable) (id : RegionId) : Except Fault SummaryTable :=
  if id = 0 || (t.get? id).isSome then .ok t
  else do (← k.forest.insideOut id).foldlM (fill r k) t

def summarizeChildren (r : Routine) (k : Facts) (t : SummaryTable) (id : RegionId) :
    Except Fault SummaryTable := do
  (← k.forest.region id).children.foldlM (summarize r k) t

/-- Drop the summaries of the loops around the touched blocks. Any loop may have looked into
trapping code, so touching that drops all. -/
def invalidate (k : Facts) (t : SummaryTable) (touched : List BlockId) : Except Fault SummaryTable := do
  if touched.any k.traps then return ⟨t.slots.map fun _ => none⟩
  let stale ← touched.mapM k.forest.around
  return ⟨stale.flatten.foldl (fun slots id => slots.set id none) t.slots⟩

end SummaryTable

end CountMotion
