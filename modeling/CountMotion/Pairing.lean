import CountMotion.Flat
import CountMotion.TombMap

/-! Which retains are answered by which releases, found by one walk in each direction. -/
namespace CountMotion

/-- What is known of one operation: the operations that answer it on the paths from it. -/
structure Entry where
  root : Var
  partners : List Point
  /-- It was dropped on some path where it could matter, so it stays as it is. -/
  loose : Bool
  /-- The root is read between it and a partner. -/
  used : Bool
  deriving DecidableEq, Repr

/-- The entries of all operations that open a pending state, and whether one was superseded. -/
structure Ledger where
  entries : TombMap Point Entry
  nested : Bool
  deriving DecidableEq, Repr

/-- Operations of which none has been answered on the paths to a node. -/
structure Pending where
  points : List Point
  used : Bool
  deriving DecidableEq, Repr

/-- One direction of the search over nodes as they appear in `ν`: the order of their numbers,
where states come from, and what opens, answers and ends a state. -/
structure Walk (ν : Type) where
  order : List Nat
  /-- The nodes whose states flow into a node. -/
  sources : ν → List Nat
  /-- More may flow into the node than its sources show. -/
  blind : ν → Bool
  /-- A source without a state that does not count. -/
  exempt : ν → Bool
  effects : ν → List (Point × Effect)
  opens : Effect
  answers : Effect
  /-- A state that leaves the node goes where it cannot be followed. -/
  escapes : ν → Bool
  /-- A state that leaves the node no longer matters. -/
  ends : ν → Bool

namespace Pending

def merge (p q : Pending) : Pending where
  points := p.points ++ q.points.filter fun x => !p.points.contains x
  used := p.used || q.used

/-- The union of several states. -/
def mergeAll : List Pending → Option Pending
  | [] => none
  | p :: rest => some (rest.foldl merge p)

end Pending

namespace Ledger

def empty : Ledger := ⟨.empty, false⟩

def loosen (l : Ledger) (p : Option Pending) : Ledger :=
  { l with
    entries := (p.elim [] Pending.points).foldl (fun m x => m.update x fun e => { e with loose := true })
      l.entries }

/-- Answer the pending operations at a point. -/
def answer (l : Ledger) (p : Option Pending) (point : Point) : Ledger :=
  match p with
  | none => l
  | some p =>
    { l with
      entries := p.points.foldl (fun m x => m.update x fun e =>
        { e with partners := e.partners ++ [point], used := e.used || p.used }) l.entries }

/-- Start an entry for the operation at a point. A state it supersedes becomes loose. -/
def start (l : Ledger) (root : Var) (p : Option Pending) (point : Point) : Ledger :=
  let freed := l.loosen p
  { entries := freed.entries.insertNew point ⟨root, [], false, false⟩
    nested := l.nested || p.isSome }

end Ledger

namespace Walk

variable {ν : Type}

/-- One effect on the state of a path. -/
def step (w : Walk ν) (root : Var) (s : Ledger × Option Pending) (x : Point × Effect) :
    Ledger × Option Pending :=
  let (l, p) := s
  let (point, e) := x
  if e = w.opens then (l.start root p point, some ⟨[point], false⟩)
  else if e = w.answers then (l.answer p point, none)
  else if e.interferes then (l.loosen p, none)
  else if e = .use then (l, p.map fun p => { p with used := true })
  else (l, p)

/-- The state at the start of a node, given for each source its state and whether it is exempt:
the union of the states, if each source that counts has one. -/
def arrive (w : Walk ν) (l : Ledger) (sources : List (Option Pending × Bool)) (x : ν) : Ledger × Option Pending :=
  let merged := Pending.mergeAll (sources.filterMap Prod.fst)
  if w.blind x || sources.any (fun s => s.1.isNone && !s.2) then (l.loosen merged, none)
  else (l, merged)

def depart (w : Walk ν) (x : ν) (s : Ledger × Option Pending) : Ledger × Option Pending :=
  if w.escapes x then (s.1.loosen s.2, none)
  else if w.ends x then (s.1, none)
  else s

def through (w : Walk ν) (root : Var) (l : Ledger) (sources : List (Option Pending × Bool)) (x : ν) :
    Ledger × Option Pending :=
  w.depart x ((w.effects x).foldl (w.step root) (w.arrive l sources x))

end Walk

namespace Flat

/-- Retains looking for releases, in reverse postorder. What runs into a trap is dropped. -/
def topDown (f : Flat) (root : Var) : Walk (Nat × Node) where
  order := f.order
  sources x := x.2.preds
  blind x := x.2.blindEntry f x.1 || x.2.preds.isEmpty
  exempt _ := false
  effects x := x.2.effects f root
  opens := .retain
  answers := .release
  escapes x := x.2.liveEscape f root
  ends x := x.2.succs.isEmpty

/-- Releases looking for retains, in postorder. A trapping node without a state does not count. -/
def bottomUp (f : Flat) (root : Var) : Walk (Nat × Node) where
  order := f.order.reverse
  sources x := x.2.succs
  blind x := x.2.liveEscape f root
  exempt x := x.2.traps
  effects x := (x.2.effects f root).reverse
  opens := .release
  answers := .retain
  escapes x := x.2.blindEntry f x.1
  ends _ := false

/-- Follow one root through a node, given a table of the states at the ends of the nodes. -/
def visit (f : Flat) (w : Walk (Nat × Node)) (root : Var) (s : Ledger × List (Option Pending)) (n : Nat) :
    Except Fault (Ledger × List (Option Pending)) := do
  let x := (n, ← f.node n)
  let sources ← (w.sources x).mapM fun m => do return (← readAt s.2 m, w.exempt (m, ← f.node m))
  let (l, p) := w.through root s.1 sources x
  return (l, ← writeAt s.2 n p)

def follow (f : Flat) (w : Walk (Nat × Node)) (root : Var) (l : Ledger) : Except Fault Ledger := do
  return (← w.order.foldlM (f.visit w root) (l, List.replicate f.size none)).1

end Flat

/-- The ledgers of both directions. -/
structure Pairing where
  retains : TombMap Point Entry
  releases : TombMap Point Entry
  /-- A pending operation was superseded by another on its root. -/
  nested : Bool
  deriving DecidableEq, Repr

/-- Both walks for every root counted in the region. -/
def Flat.pairing (f : Flat) : Except Fault Pairing := do
  let roots ← f.roots
  let down ← roots.foldlM (fun l root => f.follow (f.topDown root) root l) .empty
  let up ← roots.foldlM (fun l root => f.follow (f.bottomUp root) root l) .empty
  return ⟨down.entries, up.entries, down.nested || up.nested⟩

end CountMotion
