import CountMotion.Summary

/-! One region as an acyclic graph: its own blocks, and each child loop as a single node. -/
namespace CountMotion

/-- A block of the region itself, or a collapsed child loop. -/
inductive Place where
  | block (id : BlockId)
  | loop (region : RegionId)
  deriving DecidableEq, Repr

inductive Content where
  | block (id : BlockId) (code : Block)
  | loop (region : RegionId) (header : BlockId) (summary : Summary)
  deriving DecidableEq, Repr

def Content.head : Content → BlockId
  | .block id _ => id
  | .loop _ header _ => header

/-- Edges that leave the region or lead back are cut: the former are kept as exits, the
latter mark their ends. -/
structure Node where
  content : Content
  preds : List Nat
  succs : List Nat
  exits : List BlockId
  returns : Bool
  /-- An edge back starts here. -/
  latch : Bool
  /-- An edge back ends here. -/
  reentered : Bool
  traps : Bool
  deriving DecidableEq, Repr

def Node.block? (n : Node) : Option (BlockId × Block) :=
  match n.content with
  | .block id code => some (id, code)
  | .loop _ _ _ => none

/-- The roots counted in the block at a node. -/
def Node.roots (n : Node) (k : Facts) : List Var :=
  match n.block? with
  | some (_, code) => code.body.filterMap fun i => i.counts?.bind k.root
  | none => []

/-- A block of the region with its code and where it stands. -/
structure Resident where
  id : BlockId
  code : Block
  place : Place
  deriving DecidableEq, Repr

/-- A region of a routine, flattened with the facts at hand. -/
structure Flat where
  routine : Routine
  facts : Facts
  residents : List Resident
  places : List Place
  nodes : List Node
  /-- The nodes reached from the entry, in reverse postorder. -/
  order : List Nat
  entry : Nat
  deriving DecidableEq, Repr

namespace Flat

/-- The number of the node where a block of the region stands. -/
def locate (residents : List Resident) (places : List Place) (b : BlockId) : Option Nat :=
  (residents.find? fun x => x.id == b).bind fun x => places.idxOf? x.place

/-- Where the blocks at a place may go next. -/
def targets (residents : List Resident) (place : Place) : List BlockId :=
  (residents.filter fun x => x.place == place).flatMap fun x => x.code.term.targets

/-- The nodes after a node before any edge is cut. Edges inside a collapsed loop are left out. -/
def induced (residents : List Resident) (places : List Place) (n : Nat) (place : Place) : List Nat :=
  let nodes := ((targets residents place).filterMap (locate residents places)).eraseDups
  match place with
  | .block _ => nodes
  | .loop _ => nodes.filter (· != n)

/-- The blocks of a region, each placed in the child loop that holds it. -/
def residentsOf (r : Routine) (child : BlockId → Except Fault (Option RegionId)) (blocks : List BlockId) :
    Except Fault (List Resident) :=
  blocks.mapM fun b => do
    let code ← r.block b
    return ⟨b, code, match ← child b with
      | some c => .loop c
      | none => .block b⟩

/-- What stands at a place; a loop without a summary is a black box. -/
def contentAt (r : Routine) (k : Facts) (summary : RegionId → Option Summary) :
    Place → Except Fault Content
  | .block b => do return .block b (← r.block b)
  | .loop c => do return .loop c (← k.forest.region c).header ((summary c).getD .blackBox)

/-- The edges from each node of the order, each with a mark if it leads to a later one. -/
def edgesOf (graph : Graph) (order : List Nat) : Except Fault (List (Nat × List (Nat × Bool))) :=
  let ranks := (List.range graph.size).map order.idxOf
  order.mapM fun m => do
    let rank ← readAt ranks m
    let ends ← (← readAt graph.succs m).mapM fun s => do return (s, decide (rank < (← readAt ranks s)))
    return (m, ends)

/-- One node, with the edges against the order cut. -/
def nodeAt (residents : List Resident) (places : List Place) (edges : List (Nat × List (Nat × Bool)))
    (k : Facts) (n : Nat) (place : Place) (content : Content) : Node :=
  let ends := (edges.lookup n).getD []
  { content := content
    preds := (edges.filter fun (_, ends) => ends.contains (n, true)).map Prod.fst
    succs := (ends.filter fun (_, ahead) => ahead).map Prod.fst
    exits := ((targets residents place).filter fun t => (locate residents places t).isNone).eraseDups
    returns := residents.any fun x => x.place == place && x.code.term.returns
    latch := ends.any fun (_, ahead) => !ahead
    reentered := edges.any fun (_, ends) => ends.contains (n, false)
    traps := k.traps content.head }

/-- Flatten a region. Child loops collapse when summaries are given; otherwise every block
stands for itself. -/
def build (r : Routine) (k : Facts) (id : RegionId) (summary : Option (RegionId → Option Summary)) :
    Except Fault Flat := do
  let region ← k.forest.region id
  let child (b : BlockId) : Except Fault (Option RegionId) :=
    if summary.isSome then k.forest.childHolding id b else .ok none
  let residents ← residentsOf r child region.blocks
  let places := (residents.map Resident.place).eraseDups
  let graph : Graph := ⟨places.zipIdx.map fun (place, n) => induced residents places n place⟩
  let entry := (locate residents places region.header).getD 0
  let order := (graph.postorder entry).reverse
  let edges ← edgesOf graph order
  let contents ← places.mapM (contentAt r k (summary.getD fun _ => none))
  return {
    routine := r
    facts := k
    residents := residents
    places := places
    nodes := (places.zip contents).zipIdx.map fun ((place, content), n) =>
      nodeAt residents places edges k n place content
    order := order
    entry := entry }

/-- Every block of the routine as its own node; edges back are cut. -/
def whole (r : Routine) (k : Facts) : Except Fault Flat := build r k 0 none

def size (f : Flat) : Nat := f.nodes.length

def node (f : Flat) (n : Nat) : Except Fault Node := readAt f.nodes n

def nodeOf (f : Flat) (b : BlockId) : Option Nat := locate f.residents f.places b

def reached (f : Flat) (n : Nat) : Bool := f.order.contains n

/-- The roots counted in the reached blocks of the region, in order of first sight. -/
def roots (f : Flat) : Except Fault (List Var) := do
  let found ← f.order.mapM fun n => do return (← f.node n).roots f.facts
  return found.flatten.eraseDups

end Flat

namespace Node

/-- Control may come to the node from somewhere the region cannot see. -/
def blindEntry (x : Node) (f : Flat) (n : Nat) : Bool := n == f.entry || x.reentered

/-- Control may leave the node for somewhere that the root still matters. -/
def liveEscape (x : Node) (f : Flat) (root : Var) : Bool :=
  x.returns || x.latch || x.exits.any fun e => !f.facts.quietExit f.routine root e

/-- Control stays among the nodes ahead. -/
def continues (x : Node) (f : Flat) (root : Var) : Bool := !x.liveEscape f root && !x.succs.isEmpty

/-- The effects of a node on the root, in program order. A collapsed loop has at most one,
at the top of its header. -/
def effects (x : Node) (f : Flat) (root : Var) : List (Point × Effect) :=
  match x.content with
  | .block id code => f.facts.blockEffects root id code
  | .loop _ header summary =>
    match summary.effectOn f.facts root with
    | .nothing => []
    | e => [(⟨header, 0⟩, e)]

end Node

end CountMotion
