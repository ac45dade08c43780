import CountMotion.Routine.Basic

/-! Which variable a counted value comes from. -/
namespace CountMotion

/-- Where a variable gets its value. -/
inductive Origin where
  | param
  | instr (site : Point)
  deriving DecidableEq, Repr

/-- The origin of each variable and the root of each counted one. -/
structure Identity where
  origins : List (Option Origin)
  roots : List (Option Var)
  deriving DecidableEq, Repr

namespace Routine

/-- Every instruction with its place, blocks named by the number they carry. -/
def sites (r : Routine) : List (Instr × Point) :=
  r.blocks.flatMap fun b => b.body.zipIdx.map fun (i, index) => (i, ⟨b.id, index⟩)

/-- The last definition of a variable; an instruction beats a parameter. -/
def originOf (r : Routine) (v : Var) : Option Origin :=
  if v < r.storage.length then
    match (r.sites.filter fun (i, _) => i.target? == some v).getLast? with
    | some (_, site) => some (.instr site)
    | none => if r.params.contains v then some .param else none
  else none

/-- The variable that the last copy into `v` reads. -/
def sourceOf (r : Routine) (v : Var) : Option Var :=
  if v < r.storage.length then
    (r.sites.filterMap fun (i, _) => if i.target? == some v then i.copied? else none).getLast?
  else none

/-- Follow copies to a variable that is no copy. Every variable on the way needs an origin. -/
def follow (origin : Var → Option Origin) (source : Var → Option Var) : (fuel : Nat) → Var → Option Var
  | 0, _ => none
  | fuel + 1, v =>
    if (origin v).isNone then none
    else match source v with
      | some s => follow origin source fuel s
      | none => some v

/-- The variable that produced the object of a counted variable. A chain of copies longer
than the number of variables is a cycle and has no root. -/
def rootOf (r : Routine) (v : Var) : Option Var :=
  if (r.storage[v]?.map Storage.counted).getD false then
    follow r.originOf r.sourceOf (r.storage.length + 1) v
  else none

def identity (r : Routine) : Identity where
  origins := (List.range r.storage.length).map r.originOf
  roots := (List.range r.storage.length).map r.rootOf

end Routine

namespace Identity

def root (t : Identity) (v : Var) : Option Var := t.roots[v]?.join

def origin (t : Identity) (v : Var) : Option Origin := t.origins[v]?.join

end Identity

end CountMotion
