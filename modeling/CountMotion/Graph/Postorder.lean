import CountMotion.Explore
import CountMotion.Graph.Basic

/-! Depth-first postorder. -/
namespace CountMotion.Graph

/-- Finish the depth-first search whose open nodes, each with the successors still to be
looked at, are on the stack. -/
def finish (g : Graph) (stack : List (Nat × List Nat)) (seen done : List Nat) : List Nat :=
  match stack with
  | [] => done.reverse
  | (n, []) :: rest => finish g rest seen (n :: done)
  | (n, s :: later) :: rest =>
    if h : s < g.size ∧ s ∉ seen then
      finish g ((s, g.succs.get ⟨s, h.1⟩) :: (n, later) :: rest) (s :: seen) done
    else finish g ((n, later) :: rest) seen done
termination_by
  unseenWork (List.range g.size) g.next seen + tally (fun e => 1 + e.2.length) stack
decreasing_by
  · simp
  · have hs : s ∈ List.range g.size ∧ s ∉ seen := by simpa
    have := unseenWork_cons_add_le g.next hs
    rw [g.next_eq_get h.1] at this
    simp only [tally_cons, List.length_cons]
    omega
  · simp only [tally_cons, List.length_cons]
    omega

/-- The nodes reached from the entry, each after the successors that the search enters
from it; successors are taken in list order. -/
def postorder (g : Graph) (entry : Nat) : List Nat :=
  if h : entry < g.size then finish g [(entry, g.succs.get ⟨entry, h⟩)] [entry] [] else []

variable {g : Graph} {entry : Nat}

theorem postorder_of_lt (h : entry < g.size) : g.postorder entry = finish g [(entry, g.next entry)] [entry] [] := by
  rw [postorder, dif_pos h, next_eq_get g h]

theorem postorder_of_le (h : g.size ≤ entry) : g.postorder entry = [] := dif_neg (Nat.not_lt.mpr h)

end CountMotion.Graph
