import CountMotion.Identity

/-! Which variables may share an object. -/
namespace CountMotion

/-- A root is fresh when it is an object that owns nothing counted and stays in the routine:
nothing but its own copies can hold it. -/
structure Alias where
  counted : List Bool
  roots : List (Option Var)
  fresh : List Var
  deriving DecidableEq, Repr

namespace Routine

/-- Storage that is not known counts as counted. -/
def isCounted (r : Routine) (v : Var) : Bool := (r.storage[v]?.map Storage.counted).getD true

def instrs (r : Routine) : List Instr := r.blocks.flatMap Block.body

/-- Roots of constructed objects that own nothing counted. -/
def leaves (r : Routine) (t : Identity) : List Var :=
  r.instrs.filterMap fun
    | .construct dst args => if args.any r.isCounted then none else t.root dst
    | _ => none

/-- The variables through which an instruction lets an object out of sight. -/
def exposed : Instr → List Var
  | .construct _ args | .call _ _ args _ => args
  | .project _ source _ => [source]
  | _ => []

/-- Roots that are stored, passed, looked into or returned. -/
def escaping (r : Routine) (t : Identity) : List Var :=
  (r.instrs.flatMap exposed).filterMap t.root ++
    r.blocks.filterMap fun b => match b.term with
      | .ret value => t.root value
      | _ => none

def aliasing (r : Routine) (t : Identity) : Alias :=
  let escaping := r.escaping t
  { counted := r.storage.map Storage.counted
    roots := t.roots
    fresh := (r.leaves t).filter fun v => !escaping.contains v }

end Routine

namespace Alias

def isCounted (a : Alias) (v : Var) : Bool := a.counted[v]?.getD true

def isFresh (a : Alias) (root : Var) : Bool := a.fresh.contains root

/-- False only for variables whose objects have nothing in common. -/
def mayAlias (a : Alias) (v w : Var) : Bool :=
  a.isCounted v && a.isCounted w &&
    match a.roots[v]?.join, a.roots[w]?.join with
    | some x, some y => x == y || (!a.isFresh x && !a.isFresh y)
    | some x, none | none, some x => !a.isFresh x
    | none, none => true

end Alias

end CountMotion
