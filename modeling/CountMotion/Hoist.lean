import CountMotion.Exchange
import CountMotion.SummaryTable

/-! Exchanges that lift the operations of a loop out of it. -/
namespace CountMotion

namespace Routine

def retainsAt (r : Routine) (p : Point) : Except Fault Bool := do
  return match (← r.block p.block).body[p.index]? with
    | some (.retain _ _) => true
    | _ => false

end Routine

/-- On every trip the operations on the root cancel in order, each directly in the loop, and
nothing else in the loop touches its count. -/
def Summary.hoistable (s : Summary) (k : Facts) (x : RootSummary) : Bool :=
  x.shape == .selfCancelling && x.alternating && !x.nested && 2 ≤ x.points.length &&
    !s.returns && (s.interference k x.root).isNone

/-- One retain before the loop and one release after each of its exits instead of all the
operations inside, where some retain runs on every trip and the change pays. -/
def Summary.hoist (s : Summary) (r : Routine) (k : Facts) (loop : Region) (x : RootSummary) :
    Except Fault (Option Exchange) := do
  if !s.hoistable k x then return none
  if !(← k.forest.canonical loop) then return none
  let some preheader := loop.preheader | return none
  let flagged ← x.points.mapM fun p => do return (p, ← r.retainsAt p)
  let retains := (flagged.filter fun y => y.2).map Prod.fst
  let releases := (flagged.filter fun y => !y.2).map Prod.fst
  let guards (p : Point) : Bool := (loop.exiting ++ loop.latches).all (k.dom.dominates p.block)
  if !retains.any guards then return none
  let before : Point := ⟨preheader, (← r.block preheader).body.length⟩
  if !(← k.definedBefore r x.root before) then return none
  let after := (loop.exits.filter fun e => !k.quietExit r x.root e).map fun e => (⟨e, 0⟩ : Point)
  if x.points.length < 1 + after.length then return none
  return some ⟨x.root, retains, releases, [before], after⟩

namespace SummaryTable

/-- The hoists out of one child loop, except for roots already touched. -/
def hoistsOf (r : Routine) (k : Facts) (t : SummaryTable) (touched : List Var) (child : RegionId) :
    Except Fault (List Exchange) := do
  let loop ← k.forest.region child
  match t.get? child with
  | none => return []
  | some s =>
    let tried ← (s.roots.filter fun x => !touched.contains x.root).mapM (s.hoist r k loop)
    return tried.filterMap id

/-- Summarize the child loops of a region and find all hoists out of them. -/
def hoists (r : Routine) (k : Facts) (t : SummaryTable) (id : RegionId) (touched : List Var) :
    Except Fault (SummaryTable × List Exchange) := do
  let t ← t.summarizeChildren r k id
  let found ← (← k.forest.region id).children.mapM (t.hoistsOf r k touched)
  return (t, found.flatten)

end SummaryTable

end CountMotion
