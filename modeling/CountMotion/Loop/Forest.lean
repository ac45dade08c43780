import CountMotion.Dominance.Basic
import CountMotion.Sorted

/-! Natural loops of a routine and how they nest. -/
namespace CountMotion

/-- Regions are numbered: zero is the whole routine, then the loops in header order. -/
abbrev RegionId := Nat

/-- The routine or one of its loops. The routine has no parent, latch, exit or preheader. -/
structure Region where
  parent : Option RegionId
  children : List RegionId
  depth : Nat
  header : BlockId
  blocks : List BlockId
  preheader : Option BlockId
  latches : List BlockId
  exiting : List BlockId
  exits : List BlockId
  deriving DecidableEq, Repr

namespace Region

def holds (g : Region) (b : BlockId) : Bool := g.blocks.contains b

def isRoutine (g : Region) : Bool := g.parent.isNone

/-- The block that alone leads into a loop from outside, if it leads nowhere else. -/
def preheaderOf (flow : Graph) (header : BlockId) : (entering : List BlockId) → Except Fault (Option BlockId)
  | [p] => do return if (← readAt flow.succs p) = [header] then some p else none
  | _ => .ok none

/-- The loop that the latches close on the header, not yet placed in a forest. -/
def ofLatches (flow back : Graph) (dom : DomTree) (header : BlockId) (latches : List BlockId) :
    Except Fault Region := do
  let body ← search back.succs (fun _ sources => sources.filter (dom.dominates header)) latches [header]
  let blocks := ascending body
  let outside (b : BlockId) : Bool := !body.contains b
  let leaving ← blocks.mapM fun b => do return (b, (← readAt flow.succs b).filter outside)
  let preheader ← preheaderOf flow header ((← readAt back.succs header).filter outside)
  return {
    parent := none
    children := []
    depth := 0
    header := header
    blocks := blocks
    preheader := preheader
    latches := latches
    exiting := (leaving.filter fun x => !x.2.isEmpty).map Prod.fst
    exits := ascending (leaving.flatMap Prod.snd) }

def whole (size : Nat) (entry : BlockId) : Region where
  parent := none
  children := []
  depth := 0
  header := entry
  blocks := List.range size
  preheader := none
  latches := []
  exiting := []
  exits := []

end Region

/-- The regions of a routine, with the edges into each of its blocks. -/
structure Forest where
  regions : List Region
  back : Graph
  deriving DecidableEq, Repr

def Graph.loopAt (flow back : Graph) (dom : DomTree) (sources : List BlockId) (header : BlockId) :
    Except Fault (Option Region) :=
  match sources.filter fun tail => dom.reaches tail && dom.dominates header tail with
  | [] => .ok none
  | latches => some <$> Region.ofLatches flow back dom header latches

/-- The natural loops of a graph, given with its edges turned round, in header order. -/
def Graph.loops (flow back : Graph) (dom : DomTree) : Except Fault (List Region) := do
  let found ← back.succs.zipIdx.mapM fun (sources, header) => flow.loopAt back dom sources header
  return found.filterMap id

namespace Forest

/-- The loop with the fewest blocks among those listed, the first of several. -/
def smallest (loops : List (Region × RegionId)) : Option RegionId :=
  (loops.foldl (fun (best : Option (Region × RegionId)) l =>
    match best with
    | none => some l
    | some b => if l.1.blocks.length < b.1.blocks.length then some l else some b) none).map Prod.snd

/-- The parent of each loop, the smallest other loop that holds its header. -/
def parents (loops : List (Region × RegionId)) : List RegionId :=
  loops.map fun (g, id) => (smallest (loops.filter fun (o, other) => other != id && o.holds g.header)).getD 0

/-- A loop lies one deeper than its parent. -/
def deepen (parents : List (Option RegionId)) (depths : List Nat) (id : RegionId) : Except Fault (List Nat) := do
  let around ← match ← readAt parents id with
    | some p => readAt depths p
    | none => .ok 0
  writeAt depths id (around + 1)

/-- The depth of each region. Large loops come first, so that a parent has its depth before its
children. -/
def depthsOf (parents : List (Option RegionId)) (loops : List (Region × RegionId)) : Except Fault (List Nat) :=
  ((sortBy (fun x y => y.1.blocks.length ≤ x.1.blocks.length) loops).map Prod.snd).foldlM (deepen parents)
    (List.replicate parents.length 0)

/-- Give each loop its parent, depth and children. -/
def nest (root : Region) (loops : List Region) : Except Fault (List Region) := do
  let numbered := loops.zipIdx 1
  let parents := none :: (parents numbered).map some
  let depths ← depthsOf parents numbered
  return ((root :: loops).zip (parents.zip depths)).zipIdx.map fun ((g, parent, depth), id) =>
    { g with
      parent := parent
      children := (parents.zipIdx.filter fun x => x.1 == some id).map Prod.snd
      depth := depth }

def build (r : Routine) (dom : DomTree) : Except Fault Forest := do
  let loops ← r.flow.loops r.backflow dom
  return ⟨← nest (.whole r.blocks.length r.entry) loops, r.backflow⟩

def region (f : Forest) (id : RegionId) : Except Fault Region :=
  match f.regions[id]? with
  | some g => .ok g
  | none => .error (.noRegion id)

/-- The smallest loop that holds the block, else the routine. -/
def innermost (f : Forest) (b : BlockId) : RegionId :=
  (smallest ((f.regions.tail.zipIdx 1).filter fun (g, _) => g.holds b)).getD 0

/-- A region and the regions around it, inside out, at most `fuel` of them around it. -/
def ascend (f : Forest) : (fuel : Nat) → RegionId → Except Fault (List RegionId)
  | 0, id => .ok [id]
  | fuel + 1, id => do
    match (← f.region id).parent with
    | some p => return id :: (← f.ascend fuel p)
    | none => return [id]

/-- The innermost region that holds the block and all regions around it, inside out. -/
def around (f : Forest) (b : BlockId) : Except Fault (List RegionId) := f.ascend f.regions.length (f.innermost b)

/-- The child of a region that holds the block. -/
def childHolding (f : Forest) (id : RegionId) (b : BlockId) : Except Fault (Option RegionId) := do
  (← f.around b).findM? fun inner => do return (← f.region inner).parent == some id

def depthAt (f : Forest) (b : BlockId) : Nat :=
  (f.regions[f.innermost b]?.map Region.depth).getD 0

/-- The nesting as a graph from each region to its children. -/
def nesting (f : Forest) : Except Fault Graph := do
  return ⟨← f.regions.mapM fun g => g.children.mapM fun c => do
    let _ ← f.region c
    return c⟩

/-- The loops inside a region and the region itself, inner regions first. -/
def insideOut (f : Forest) (id : RegionId) : Except Fault (List RegionId) := do
  return (← f.nesting).postorder id

/-- All loops, each after the loops inside it. -/
def bottomUp (f : Forest) : Except Fault (List RegionId) := do return (← f.insideOut 0).dropLast

/-- Only blocks of the region lead to its exits. -/
def dedicatedExits (f : Forest) (g : Region) : Except Fault Bool :=
  g.exits.allM fun e => do return (← readAt f.back.succs e).all g.holds

/-- A loop is canonical when it has a preheader and dedicated exits; the routine always is. -/
def canonical (f : Forest) (g : Region) : Except Fault Bool :=
  if g.isRoutine then .ok true
  else if g.preheader.isSome then f.dedicatedExits g
  else .ok false

end Forest

end CountMotion
