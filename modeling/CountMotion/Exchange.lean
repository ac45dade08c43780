import CountMotion.Edit

/-! Groups of count operations on one root that are replaced together. -/
namespace CountMotion

/-- Operations on one root to remove, and the places for the operations that replace them. -/
structure Exchange where
  root : Var
  retains : List Point
  releases : List Point
  newRetains : List Point
  newReleases : List Point
  deriving DecidableEq, Repr

def Exchange.removesPair (x : Exchange) : Bool := !x.retains.isEmpty && !x.releases.isEmpty

/-- How many operations were put in and taken out, and in how many rounds. -/
structure Stats where
  moved : Nat
  removed : Nat
  rounds : Nat
  deriving DecidableEq, Repr

namespace Stats

def zero : Stats := ⟨0, 0, 0⟩

def changed (s : Stats) : Bool := 0 < s.moved || 0 < s.removed

def count (s : Stats) (x : Exchange) : Stats :=
  { s with
    moved := s.moved + (x.newRetains.length + x.newReleases.length)
    removed := s.removed + (x.retains.length + x.releases.length) }

end Stats

/-- Queue an exchange. New operations count the root's variable, in the way its storage asks. -/
def Exchange.queue (x : Exchange) (r : Routine) (e : Edits) : Except Fault Edits := do
  let kind := (← r.storageOf x.root).countKind
  let e := x.newRetains.foldl (fun e p => e.insert p (.retain x.root kind)) e
  let e := x.newReleases.foldl (fun e p => e.insert p (.release x.root kind)) e
  return (x.retains ++ x.releases).foldl Edits.delete e

end CountMotion
