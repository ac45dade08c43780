import CountMotion.Tally

/-! Exploration of a finite domain along a successor function. -/
namespace CountMotion

variable {α : Type} [DecidableEq α]

/-- The work that the unseen members of the domain can still cause. -/
def unseenWork (domain : List α) (next : α → List α) (seen : List α) : Nat :=
  tally (fun a => 2 + (next a).length) (domain.filter fun a => a ∉ seen)

private theorem filter_unseen_cons (a : α) (seen l : List α) :
    l.filter (fun b => b ∉ a :: seen) = (l.filter fun b => b ∉ seen).filter fun b => b ≠ a := by
  rw [List.filter_filter]
  apply List.filter_congr
  intro b _
  simp

/-- Seeing a member pays for its successors. -/
theorem unseenWork_cons_add_le (next : α → List α) {domain seen : List α} {a : α}
    (h : a ∈ domain ∧ a ∉ seen) :
    unseenWork domain next (a :: seen) + (2 + (next a).length) ≤ unseenWork domain next seen := by
  rw [unseenWork, filter_unseen_cons]
  exact tally_filter_ne_add_le (fun b => 2 + (next b).length) (List.mem_filter.mpr ⟨h.1, by simpa using h.2⟩)

/-- What was seen, together with all that the pending elements lead to through unseen
members of the domain. -/
def explore (domain : List α) (next : α → List α) (pending seen : List α) : List α :=
  match pending with
  | [] => seen
  | a :: rest =>
    if _ : a ∈ domain ∧ a ∉ seen then explore domain next (next a ++ rest) (a :: seen)
    else explore domain next rest seen
termination_by unseenWork domain next seen + pending.length
decreasing_by
  · have := unseenWork_cons_add_le next ‹a ∈ domain ∧ a ∉ seen›
    simp only [List.length_append, List.length_cons]
    omega
  · simp

/-- The chain of elements above one along parent links, that one first. It has at most
`fuel` links. -/
def climb (parent : α → Option α) : (fuel : Nat) → α → List α
  | 0, a => [a]
  | fuel + 1, a =>
    a :: match parent a with
      | some p => climb parent fuel p
      | none => []

end CountMotion
