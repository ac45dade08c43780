import CountMotion.Routine.Basic

/-! The input contract of the pass: dense numbering, known names, counts on counted storage only. -/
namespace CountMotion

/-- One way in which a routine breaks the contract. -/
inductive Breach where
  | noBlocks
  | misnumbered (index found : Nat)
  | badEntry (entry : BlockId)
  | danglingTarget (block target : BlockId)
  | unknownVar (var : Var)
  | trivialCount (block : BlockId) (var : Var)
  deriving DecidableEq, Repr

/-- The report on a routine of the given name. -/
def Breach.message (name : String) : Breach → String
  | noBlocks => s!"function `{name}` has no blocks"
  | misnumbered index found => s!"function `{name}`: block at index {index} carries id {found}"
  | badEntry entry => s!"function `{name}`: entry block {entry} does not exist"
  | danglingTarget block target =>
    s!"function `{name}`: block {block} jumps to missing block {target}"
  | unknownVar var => s!"function `{name}`: variable v{var} has no representation"
  | trivialCount block var => s!"function `{name}`: block {block} counts trivial variable v{var}"

namespace Routine

def varBreaches (r : Routine) (vars : List Var) : List Breach :=
  (vars.filter fun v => !decide (v < r.storage.length)).map Breach.unknownVar

def instrBreaches (r : Routine) (block : BlockId) (i : Instr) : List Breach :=
  r.varBreaches (i.target?.toList ++ i.operands) ++
    (i.counts?.toList.filter fun v => r.storage[v]? == some .trivial).map (Breach.trivialCount block)

def blockBreaches (r : Routine) (index : Nat) (b : Block) : List Breach :=
  (if b.id = index then [] else [.misnumbered index b.id]) ++
    b.body.flatMap (r.instrBreaches b.id) ++
    r.varBreaches b.term.operands ++
    (b.term.targets.filter fun t => !decide (t < r.blocks.length)).map (Breach.danglingTarget b.id)

/-- Every breach of the contract, in the order in which they are reported. -/
def breaches (r : Routine) : List Breach :=
  (if r.blocks.isEmpty then [.noBlocks] else []) ++
    (if r.entry < r.blocks.length then [] else [.badEntry r.entry]) ++
    r.varBreaches r.params ++
    r.blocks.zipIdx.flatMap fun (b, index) => r.blockBreaches index b

def check (r : Routine) : Except Breach Unit :=
  match r.breaches with
  | [] => .ok ()
  | breach :: _ => .error breach

end Routine

end CountMotion
