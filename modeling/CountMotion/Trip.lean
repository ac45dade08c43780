import CountMotion.Flat

/-! The net count of one trip through a loop. -/
namespace CountMotion

/-- A net count so far, given up once it leaves the range from -2 to 2. -/
inductive Net where
  | known (count : Int)
  | unknown
  deriving DecidableEq, Repr

namespace Net

def add (step : Int) : Net → Net
  | known c => if (c + step).natAbs ≤ 2 then known (c + step) else unknown
  | unknown => unknown

/-- What two paths agree on. -/
def agree (a b : Net) : Net := if a = b then a else unknown

/-- What all paths agree on, nothing when there are none. -/
def agreeAll : List Net → Net
  | [] => unknown
  | a :: rest => rest.foldl agree a

end Net

/-- The walk of one root through a loop: nets at the ends of the nodes visited, nets with which
a trip ends, and whether operations alternate so far. -/
structure Trip where
  nets : List (Option Net)
  ends : List Net
  alternating : Bool
  deriving DecidableEq, Repr

namespace Trip

def start (size : Nat) : Trip := ⟨List.replicate size none, [], true⟩

/-- Whether each operation finds the count it should, and the net after all of them. -/
def count (s : Net × Bool) : Effect → Net × Bool
  | .retain => (s.1.add 1, s.2 && s.1 == .known 0)
  | .release => (s.1.add (-1), s.2 && s.1 == .known 1)
  | .observe | .mayRelease | .use | .nothing => s

/-- The net at the end of a node, and whether operations still alternate. An inner loop counts
nothing if its trips cancel, and makes the net unknown otherwise. -/
def through (f : Flat) (root : Var) (x : Node) (s : Net × Bool) : Net × Bool :=
  match x.content with
  | .loop _ _ summary =>
    match summary.root? root with
    | some y => (if y.shape = .selfCancelling then s.1 else .unknown, s.2)
    | none => s
  | .block _ _ => ((x.effects f root).map Prod.snd).foldl count s

def visit (f : Flat) (root : Var) (t : Trip) (n : Nat) : Except Fault Trip := do
  let x ← f.node n
  let before ← x.preds.mapM (readAt t.nets)
  let net : Net := if n = f.entry then .known 0 else .agreeAll (before.filterMap id)
  let (net, alternating) := through f root x (net, t.alternating)
  return {
    nets := ← writeAt t.nets n (some net)
    ends := if x.liveEscape f root then t.ends ++ [net] else t.ends
    alternating := alternating }

/-- What the ends of all trips agree on. -/
def shape (ends : List Net) : Shape :=
  match ends with
  | [] => .unknown
  | first :: _ =>
    if ends.contains .unknown then .unknown
    else if ends.all (· == first) then
      if first = .known 0 then .selfCancelling else .unbalanced
    else .unknown

end Trip

/-- The shape of a loop for one root, and whether its operations alternate. -/
def Flat.trip (f : Flat) (root : Var) : Except Fault (Shape × Bool) := do
  let t ← f.order.foldlM (Trip.visit f root) (.start f.size)
  return (Trip.shape t.ends, t.alternating && Trip.shape t.ends != .unknown)

end CountMotion
