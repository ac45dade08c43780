import CountMotion.Routine.Basic
import CountMotion.Graph.Postorder

/-! Control flow of a routine as a graph of block positions. -/
namespace CountMotion.Routine

/-- Edges to existing blocks, each once, in terminator order. -/
def flow (r : Routine) : Graph where
  succs := r.blocks.map fun b => (b.term.targets.filter fun t => t < r.blocks.length).eraseDups

def backflow (r : Routine) : Graph := r.flow.flip

/-- The reachable blocks, each after the blocks first entered from it. -/
def postorder (r : Routine) : List BlockId := r.flow.postorder r.entry

end CountMotion.Routine
