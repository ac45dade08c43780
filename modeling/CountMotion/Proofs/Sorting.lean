import CountMotion.Sorted
import CountMotion.Proofs.Total

/-! Sorted lists, and numbers in ascending order. -/
namespace CountMotion

variable {α : Type} {le : α → α → Bool} {l : List α}

theorem insertBy_perm (a : α) (l : List α) : (insertBy le a l).Perm (a :: l) := by
  induction l with
  | nil => exact .refl _
  | cons b l ih =>
    rw [insertBy]
    split
    · exact .refl _
    · exact (ih.cons b).trans (.swap a b l)

theorem sortBy_perm (l : List α) : (sortBy le l).Perm l := by
  induction l with
  | nil => exact .refl _
  | cons a l ih => exact (insertBy_perm a _).trans (ih.cons a)

private theorem insertBy_sorted (total : ∀ a b, le a b ∨ le b a) (trans : ∀ a b c, le a b → le b c → le a c) (a : α)
    (h : l.Pairwise fun a b => le a b) : (insertBy le a l).Pairwise fun a b => le a b := by
  induction l with
  | nil => simp [insertBy]
  | cons b l ih =>
    obtain ⟨hb, hl⟩ := List.pairwise_cons.mp h
    rw [insertBy]
    split
    · rename_i hab
      refine List.pairwise_cons.mpr ⟨fun y hy => ?_, h⟩
      rcases List.mem_cons.mp hy with rfl | hy
      · exact hab
      · exact trans a b y hab (hb y hy)
    · rename_i hab
      refine List.pairwise_cons.mpr ⟨fun y hy => ?_, ih hl⟩
      rcases mem_insertBy.mp hy with rfl | hy
      · exact (total b y).resolve_right hab
      · exact hb y hy

theorem sortBy_sorted (total : ∀ a b, le a b ∨ le b a) (trans : ∀ a b c, le a b → le b c → le a c) (l : List α) :
    (sortBy le l).Pairwise fun a b => le a b := by
  induction l with
  | nil => exact .nil
  | cons a l ih => exact insertBy_sorted total trans a ih

theorem nodup_ascending (ns : List Nat) : (ascending ns).Nodup :=
  (sortBy_perm _).nodup_iff.mpr (nodup_eraseDups ns)

/-- Ascending numbers rise from each to the next. -/
theorem ascending_sorted (ns : List Nat) : (ascending ns).Pairwise (· < ·) := by
  have hle : (ascending ns).Pairwise fun a b => a ≤ b :=
    (sortBy_sorted (fun a b => by simpa using Nat.le_total a b)
      (fun a b c hab hbc => by
        simp only [decide_eq_true_eq] at hab hbc ⊢
        exact Nat.le_trans hab hbc) _).imp of_decide_eq_true
  refine (hle.and (nodup_ascending ns)).imp fun {a b} h => ?_
  exact Nat.lt_of_le_of_ne h.1 h.2

theorem eq_of_sorted {l m : List Nat} (hl : l.Pairwise (· < ·)) (hm : m.Pairwise (· < ·))
    (h : ∀ n, n ∈ l ↔ n ∈ m) : l = m := by
  have hnodup : ∀ {l : List Nat}, l.Pairwise (· < ·) → l.Nodup := fun hl => hl.imp Nat.ne_of_lt
  refine List.Perm.eq_of_pairwise (fun a b _ _ hab hba => ?_) hl hm
    ((List.perm_ext_iff_of_nodup (hnodup hl) (hnodup hm)).mpr h)
  exact absurd hba (Nat.lt_asymm hab)

theorem ascending_congr {ns ms : List Nat} (h : ∀ n, n ∈ ns ↔ n ∈ ms) : ascending ns = ascending ms :=
  eq_of_sorted (ascending_sorted ns) (ascending_sorted ms) fun n => by rw [mem_ascending, mem_ascending, h]

theorem ascending_eq_filter_range {ns : List Nat} {size : Nat} {p : Nat → Bool} (h : ∀ n, n ∈ ns ↔ n < size ∧ p n) :
    ascending ns = (List.range size).filter p :=
  eq_of_sorted (ascending_sorted ns) (List.pairwise_lt_range.filter _) fun n => by
    rw [mem_ascending, h, List.mem_filter, List.mem_range]

end CountMotion
