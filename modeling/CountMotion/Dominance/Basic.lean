import CountMotion.Dominance.Tree
import CountMotion.Routine.Flow

/-! Dominance and post-dominance between the blocks of a routine. -/
namespace CountMotion

/-- The dominator tree of the reversed flow, whose root is a virtual exit numbered one past
the last block. -/
structure PostDomTree where
  tree : DomTree
  deriving DecidableEq, Repr

namespace Routine

def domTree (r : Routine) : Except Fault DomTree := DomTree.build r.flow r.backflow r.entry

/-- The blocks at which control leaves the routine. -/
def leaving (r : Routine) : List BlockId :=
  (r.blocks.zipIdx.filter fun (b, _) => b.term.leaves).map Prod.snd

/-- Reversed flow, with the virtual exit last. -/
def exitflow (r : Routine) : Graph where
  succs := r.backflow.succs ++ [r.leaving]

/-- The edges of `exitflow` seen from their ends. -/
def entryflow (r : Routine) : Graph where
  succs := ((r.blocks.zip r.flow.succs).map fun (b, succs) =>
    if b.term.leaves then succs ++ [r.blocks.length] else succs) ++ [[]]

def postDomTree (r : Routine) : Except Fault PostDomTree :=
  .mk <$> DomTree.build r.exitflow r.entryflow r.blocks.length

end Routine

namespace PostDomTree

def exit (t : PostDomTree) : Nat := t.tree.parent.length - 1

def postDominates (t : PostDomTree) (a b : BlockId) : Bool := t.tree.dominates a b

/-- The block above, none when only the virtual exit is. -/
def above (t : PostDomTree) (b : BlockId) : Option BlockId := (t.tree.above b).filter (· != t.exit)

/-- The nearest block that post-dominates both. -/
def common (t : PostDomTree) (a b : BlockId) : Option BlockId :=
  (climb t.above t.tree.parent.length a).find? fun c => t.postDominates c b

end PostDomTree

end CountMotion
