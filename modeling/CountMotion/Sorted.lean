/-! Sorting by insertion; equal elements keep their order. -/
namespace CountMotion

variable {α : Type}

/-- Put an element before the first one that it may precede. -/
def insertBy (le : α → α → Bool) (a : α) : List α → List α
  | [] => [a]
  | b :: rest => if le a b then a :: b :: rest else b :: insertBy le a rest

def sortBy (le : α → α → Bool) (l : List α) : List α := l.foldr (insertBy le) []

/-- Each number once, ascending. -/
def ascending (ns : List Nat) : List Nat := sortBy (fun a b => a ≤ b) ns.eraseDups

theorem mem_insertBy {le : α → α → Bool} {a x : α} {l : List α} :
    x ∈ insertBy le a l ↔ x = a ∨ x ∈ l := by
  induction l with
  | nil => simp [insertBy]
  | cons b rest ih =>
    rw [insertBy]
    split
    · simp
    · simp [ih, or_left_comm]

theorem mem_sortBy {le : α → α → Bool} {x : α} {l : List α} : x ∈ sortBy le l ↔ x ∈ l := by
  induction l with
  | nil => simp [sortBy]
  | cons a rest ih => simpa [sortBy, mem_insertBy] using or_congr_right ih

theorem mem_ascending {x : Nat} {ns : List Nat} : x ∈ ascending ns ↔ x ∈ ns := by
  simp [ascending, mem_sortBy]

end CountMotion
