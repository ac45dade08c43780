/-! Sums over the members of a list. -/
namespace CountMotion

variable {α : Type} {f g : α → Nat}

/-- What the members of a list come to, each measured by `f`. -/
def tally (f : α → Nat) : List α → Nat
  | [] => 0
  | a :: rest => f a + tally f rest

@[simp]
theorem tally_nil (f : α → Nat) : tally f [] = 0 := rfl

@[simp]
theorem tally_cons (f : α → Nat) (a : α) (l : List α) : tally f (a :: l) = f a + tally f l := rfl

@[simp]
theorem tally_append (f : α → Nat) (l l' : List α) : tally f (l ++ l') = tally f l + tally f l' := by
  induction l with
  | nil => simp
  | cons a l ih => simp [ih, Nat.add_assoc]

theorem tally_one (l : List α) : tally (fun _ => 1) l = l.length := by
  induction l with
  | nil => rfl
  | cons a l ih => rw [tally_cons, ih, List.length_cons, Nat.add_comm]

theorem tally_map {β : Type} (f : α → Nat) (h : β → α) (l : List β) : tally f (l.map h) = tally (fun b => f (h b)) l := by
  induction l with
  | nil => rfl
  | cons b l ih => simp [ih]

theorem tally_filter_le (f : α → Nat) (p : α → Bool) (l : List α) : tally f (l.filter p) ≤ tally f l := by
  induction l with
  | nil => exact Nat.le_refl _
  | cons b rest ih =>
    rw [List.filter_cons, tally_cons]
    split
    · rw [tally_cons]
      omega
    · omega

theorem tally_filter_ne_add_le [DecidableEq α] (f : α → Nat) {a : α} {l : List α} (h : a ∈ l) :
    tally f (l.filter fun b => b ≠ a) + f a ≤ tally f l := by
  induction l with
  | nil => cases h
  | cons b rest ih =>
    rw [List.filter_cons, tally_cons]
    by_cases hb : b = a
    · subst hb
      have := tally_filter_le f (fun c => c ≠ b) rest
      simp only [ne_eq, not_true_eq_false, decide_false, Bool.false_eq_true, if_false] at this ⊢
      omega
    · have := ih ((List.mem_cons.mp h).resolve_left (Ne.symm hb))
      simp only [ne_eq, hb, not_false_eq_true, decide_true, if_true, tally_cons] at this ⊢
      omega

theorem tally_le_tally {l : List α} (h : ∀ a ∈ l, f a ≤ g a) : tally f l ≤ tally g l := by
  induction l with
  | nil => exact Nat.le_refl _
  | cons a l ih => exact Nat.add_le_add (h a (.head _)) (ih fun b hb => h b (.tail _ hb))

theorem tally_lt_tally {l : List α} (h : ∀ a ∈ l, f a ≤ g a) {a : α} (ha : a ∈ l) (hlt : f a < g a) :
    tally f l < tally g l := by
  induction l with
  | nil => cases ha
  | cons b l ih =>
    have hrest : ∀ c ∈ l, f c ≤ g c := fun c hc => h c (.tail _ hc)
    rcases List.mem_cons.mp ha with rfl | ha
    · exact Nat.add_lt_add_of_lt_of_le hlt (tally_le_tally hrest)
    · exact Nat.add_lt_add_of_le_of_lt (h b (.head _)) (ih hrest ha)

end CountMotion
