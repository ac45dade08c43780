import CountMotion.Exchange
import CountMotion.Pairing

/-! Closed groups of paired operations, and the exchange for each. -/
namespace CountMotion

/-- All operations that are tied to each other by the pairing, ascending. -/
structure Closure where
  root : Var
  retains : List Point
  releases : List Point
  used : Bool
  deriving DecidableEq, Repr

/-- An operation, told apart by direction. -/
inductive Member where
  | retain (point : Point)
  | release (point : Point)
  deriving DecidableEq, Repr

namespace Member

def retain? : Member → Option Point
  | retain x => some x
  | release _ => none

def release? : Member → Option Point
  | release x => some x
  | retain _ => none

end Member

namespace Pairing

def entry? (p : Pairing) : Member → Option Entry
  | .retain x => p.retains.get? x
  | .release x => p.releases.get? x

def partners (p : Pairing) (m : Member) : List Member :=
  match m, p.entry? m with
  | .retain _, some e => e.partners.map .release
  | .release _, some e => e.partners.map .retain
  | _, none => []

def members (p : Pairing) : List Member :=
  p.retains.keys.map .retain ++ p.releases.keys.map .release

/-- The operation may be exchanged: it is on the root, tight, and has partners, all present. -/
def sound (p : Pairing) (root : Var) (m : Member) : Bool :=
  match p.entry? m with
  | some e => !e.loose && e.root == root && !e.partners.isEmpty &&
      (p.partners m).all fun q => (p.entry? q).isSome
  | none => false

/-- The closure of a retain under the pairing, if every member is sound. -/
def close (p : Pairing) (seed : Point) : Option Closure := do
  let e ← p.retains.get? seed
  let found := explore p.members p.partners [.retain seed] []
  if found.all (p.sound e.root) then
    some {
      root := e.root
      retains := sortBy Point.le (found.filterMap Member.retain?)
      releases := sortBy Point.le (found.filterMap Member.release?)
      used := found.any fun m => ((p.entry? m).map Entry.used).getD false }
  else none

/-- Erase the members of a closure, so that no other seed finds them. -/
def erase (p : Pairing) (c : Closure) : Pairing :=
  { p with
    retains := c.retains.foldl TombMap.erase p.retains
    releases := c.releases.foldl TombMap.erase p.releases }

end Pairing

def blocksOf (points : List Point) : List BlockId := ascending (points.map Point.block)

namespace Flat

/-- The reached node of a block that stands for itself. -/
def ownNode (f : Flat) (b : BlockId) : Except Fault (Option (Nat × Block)) := do
  let some n := f.nodeOf b | return none
  return match (← f.node n).block? with
    | some (_, code) => if f.reached n then some (n, code) else none
    | none => none

/-- What a path meets in a node on its way to a member. -/
inductive Meeting where
  | hit
  | clear
  | dead
  | barred
  deriving DecidableEq, Repr

/-- Scan the positions of a block for a member, with nothing that bars the way before it. -/
def scan (member barred : Nat → Bool) (positions : List Nat) : Meeting :=
  match positions.find? fun i => member i || barred i with
  | some i => if member i then .hit else .barred
  | none => .clear

/-- A release may sink past this position. -/
def silentAt (code : Block) (i : Nat) : Bool :=
  match code.body[i]? with
  | some i => i.silent
  | none => code.term.silent

end Flat

namespace Node

open Flat

/-- Meet a node going forward: the way is barred by any effect beyond a use, and by leaving
the region alive. -/
def meetRetain (x : Node) (f : Flat) (root : Var) (members : List Point) : Flat.Meeting :=
  let met : Flat.Meeting :=
    match x.block? with
    | some (id, code) =>
      scan (fun i => members.contains ⟨id, i⟩) (fun i => !(f.facts.effectAt root code i).harmless)
        (List.range (code.body.length + 1))
    | none => if (x.effects f root).all fun (_, e) => e == .use then .clear else .barred
  match met with
  | .clear =>
    if x.succs.isEmpty && x.traps && !x.liveEscape f root then .dead
    else if x.continues f root then .clear
    else .barred
  | m => m

/-- Meet a node going backward: anything that is not silent bars the way, and so does the
start of what the region can see. -/
def meetRelease (x : Node) (f : Flat) (members : List Point) (n : Nat) : Flat.Meeting :=
  match x.block? with
  | some (id, code) =>
    match scan (fun i => members.contains ⟨id, i⟩) (fun i => !silentAt code i)
      (List.range (code.body.length + 1)).reverse with
    | .clear => if x.blindEntry f n || x.preds.isEmpty then .barred else .clear
    | m => m
  | none => .barred

/-- A release may sink through the node, from after a position of its block. -/
def passes (x : Node) (f : Flat) (root : Var) (after : Nat → Bool) : Bool :=
  match x.block? with
  | some (_, code) =>
    ((List.range (code.body.length + 1)).filter after).all (silentAt code) && x.continues f root
  | none => false

end Node

namespace Flat

/-- After the node, every path meets a member before anything else that touches the count. -/
def everyPathMeets (f : Flat) (root : Var) (members : List Point) (start : Nat) : Except Fault Bool := do
  let first ← f.node start
  if !first.continues f root then return false
  let next (_ : Nat) (x : Node) : List Nat := if x.meetRetain f root members = .clear then x.succs else []
  (← search f.nodes next first.succs []).allM fun n => do
    return (← f.node n).meetRetain f root members != .barred

/-- A path from the member leads forward to another one. -/
def leadsToMember (f : Flat) (members : List Point) (p : Point) : Except Fault Bool := do
  if members.any fun q => q.block == p.block && p.index < q.index then return true
  let some n := f.nodeOf p.block | return false
  (← search f.nodes (fun _ x => x.succs) (← f.node n).succs []).anyM fun m => do
    return match (← f.node m).block? with
      | some (id, _) => members.any fun q => q.block == id
      | none => false

def placeIfDefined (f : Flat) (root : Var) (p : Point) : Except Fault (Option Point) := do
  return if ← f.facts.definedBefore f.routine root p then some p else none

/-- The place for one retain instead of several: the end of the nearest block that dominates
them all. -/
def mergeRetains (f : Flat) (root : Var) (retains : List Point) : Except Fault (Option Point) := do
  let blocks := blocksOf retains
  let first :: second :: rest := blocks | return none
  let some target := (second :: rest).foldlM f.facts.dom.common first | return none
  if blocks.contains target then return none
  let some (start, code) ← f.ownNode target | return none
  if !(← f.everyPathMeets root retains start) then return none
  if ← retains.anyM (f.leadsToMember retains) then return none
  f.placeIfDefined root ⟨target, code.body.length⟩

/-- The nodes after a member, if a release may sink there from it. -/
def sinksTo (f : Flat) (root : Var) (p : Point) : Except Fault (Option (List Nat)) := do
  let some n := f.nodeOf p.block | return none
  let x ← f.node n
  return if x.passes f root (p.index < ·) then some x.succs else none

/-- From every member, all paths lead to the join through silent code. -/
def membersReachJoin (f : Flat) (root : Var) (members : List Point) (join : Nat) : Except Fault Bool := do
  let starts ← members.mapM (f.sinksTo root)
  if starts.any Option.isNone then return false
  let next (n : Nat) (x : Node) : List Nat :=
    if n != join && x.passes f root fun _ => true then x.succs else []
  (← search f.nodes next (starts.filterMap id).flatten []).allM fun n => do
    return n == join || (← f.node n).passes f root fun _ => true

/-- Back from the join, every path meets a member after silent code only. -/
def joinFollowsMembers (f : Flat) (members : List Point) (join : Nat) : Except Fault Bool := do
  let last ← f.node join
  if last.blindEntry f join || last.preds.isEmpty then return false
  let next (n : Nat) (x : Node) : List Nat := if x.meetRelease f members n = .clear then x.preds else []
  (← search f.nodes next last.preds []).allM fun n => do
    return (← f.node n).meetRelease f members n != .barred

/-- The place for one release instead of several: the start of the nearest block that
post-dominates them all. Frozen releases stay. -/
def mergeReleases (f : Flat) (frozen : List (BlockId × Var)) (root : Var) (releases : List Point) :
    Except Fault (Option Point) := do
  let blocks := blocksOf releases
  let first :: second :: rest := blocks | return none
  if releases.any fun p => frozen.contains (p.block, root) then return none
  let some target := (second :: rest).foldlM f.facts.postDom.common first | return none
  if blocks.contains target then return none
  let some (join, _) ← f.ownNode target | return none
  if !(← f.membersReachJoin root releases join) then return none
  if !(← f.joinFollowsMembers releases join) then return none
  f.placeIfDefined root ⟨target, 0⟩

/-- The exchange for a closure: delete all if the root is not read in between, else merge
either side. -/
def exchange (f : Flat) (frozen : List (BlockId × Var)) (c : Closure) : Except Fault (Option Exchange) := do
  if c.used then
    let up ← f.mergeRetains c.root c.retains
    let down ← f.mergeReleases frozen c.root c.releases
    if up.isNone && down.isNone then return none
    return some {
      root := c.root
      retains := if up.isSome then c.retains else []
      releases := if down.isSome then c.releases else []
      newRetains := up.toList
      newReleases := down.toList }
  else
    return some ⟨c.root, c.retains, c.releases, [], []⟩

/-- Close the pairing around a seed and find the exchange. The members of the closure are
used up either way. -/
def matchSeed (f : Flat) (frozen : List (BlockId × Var)) (p : Pairing) (seed : Point) :
    Except Fault (Pairing × Option Exchange) :=
  match p.close seed with
  | none => .ok (p, none)
  | some c => do return (p.erase c, ← f.exchange frozen c)

end Flat

end CountMotion
