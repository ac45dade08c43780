/-! Finite directed graphs given by successor lists. -/
namespace CountMotion

/-- A graph on the numbers below its size. Listed successors may lie outside. -/
structure Graph where
  succs : List (List Nat)
  deriving DecidableEq, Repr

namespace Graph

def size (g : Graph) : Nat := g.succs.length

/-- The listed successors, none for a number that is no node. -/
def next (g : Graph) (n : Nat) : List Nat := g.succs[n]?.getD []

theorem next_eq_get (g : Graph) {n : Nat} (h : n < g.size) : g.next n = g.succs.get ⟨n, h⟩ := by
  have hn : n < g.succs.length := h
  simp only [next, List.getElem?_eq_getElem hn, Option.getD_some, List.get_eq_getElem]

theorem getElem?_succs (g : Graph) {n : Nat} (h : n < g.size) : g.succs[n]? = some (g.next n) := by
  have hn : n < g.succs.length := h
  rw [next, List.getElem?_eq_getElem hn, Option.getD_some]

/-- The graph with every edge turned round; the sources of a node come in ascending order. -/
def flip (g : Graph) : Graph where
  succs := (List.range g.size).map fun v => (g.succs.zipIdx.filter fun x => x.1.contains v).map Prod.snd

end Graph

end CountMotion
