import CountMotion.Effect

/-! What a loop does to counts, seen from outside. -/
namespace CountMotion

/-- The net count of one trip: zero on every way round or out, the same other number on
every way, or neither. -/
inductive Shape where
  | selfCancelling
  | unbalanced
  | unknown
  deriving DecidableEq, Repr

/-- The operations of a loop on one root, those of inner loops included. -/
structure RootSummary where
  root : Var
  points : List Point
  shape : Shape
  /-- On every path retains and releases alternate, a retain first. -/
  alternating : Bool
  /-- Some operation lies in an inner loop. -/
  nested : Bool
  deriving DecidableEq, Repr

/-- A loop condensed for the region around it. -/
structure Summary where
  roots : List RootSummary
  used : List Var
  observed : List Var
  released : List Var
  mayRelease : Bool
  returns : Bool
  deriving DecidableEq, Repr

namespace Summary

/-- The summary of a loop about which nothing is known. -/
def blackBox : Summary where
  roots := []
  used := []
  observed := []
  released := []
  mayRelease := true
  returns := false

def root? (s : Summary) (root : Var) : Option RootSummary := s.roots.find? fun x => x.root == root

/-- How the loop may observe or release the root other than by the root's own operations. -/
def interference (s : Summary) (k : Facts) (root : Var) : Option Effect :=
  if s.mayRelease then some .mayRelease
  else if s.observed.any fun v => k.mayAlias v root then some .observe
  else if s.released.any fun v => k.root v != some root && k.mayAlias v root then some .mayRelease
  else none

/-- The effect on the root of any number of trips. -/
def effectOn (s : Summary) (k : Facts) (root : Var) : Effect :=
  match s.interference k root, s.root? root with
  | some e, _ => e
  | none, some x => if x.shape = .selfCancelling then .use else .mayRelease
  | none, none => Facts.useIf (s.used.any fun v => k.mayAlias v root)

end Summary

end CountMotion
