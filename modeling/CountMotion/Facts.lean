import CountMotion.Alias
import CountMotion.Loop.Forest
import CountMotion.Trapping

/-! Everything the pass knows about a routine, and a cache of it. -/
namespace CountMotion

/-- The analyses of one routine. They may be consulted after its count operations moved. -/
structure Facts where
  identity : Identity
  aliasing : Alias
  dom : DomTree
  postDom : PostDomTree
  trapping : Trapping
  forest : Forest
  deriving DecidableEq, Repr

def Routine.facts (r : Routine) : Except Fault Facts := do
  let dom ← r.domTree
  let postDom ← r.postDomTree
  let trapping ← r.trapping
  let forest ← Forest.build r dom
  return {
    identity := r.identity
    aliasing := r.aliasing r.identity
    dom := dom
    postDom := postDom
    trapping := trapping
    forest := forest }

namespace Facts

def root (k : Facts) (v : Var) : Option Var := k.identity.root v

def mayAlias (k : Facts) (v w : Var) : Bool := k.aliasing.mayAlias v w

def traps (k : Facts) (b : BlockId) : Bool := k.trapping.holds b

end Facts

/-- What a change to a routine makes stale. -/
inductive Change where
  | nothing
  | instructions
  | flow
  deriving DecidableEq, Repr

/-- Facts computed at the first request after a change, and the changes so far. -/
structure Cache where
  held : Option Facts
  log : List Change
  deriving DecidableEq, Repr

namespace Cache

def empty : Cache := ⟨none, []⟩

/-- The held facts, computed from the routine if none are held. -/
def facts (c : Cache) (r : Routine) : Except Fault (Facts × Cache) :=
  match c.held with
  | some k => .ok (k, c)
  | none => do
    let k ← r.facts
    return (k, { c with held := some k })

/-- Every change but the empty one is logged and drops what is held. -/
def invalidate (c : Cache) (change : Change) : Cache :=
  if change = .nothing then c else ⟨none, c.log ++ [change]⟩

end Cache

end CountMotion
