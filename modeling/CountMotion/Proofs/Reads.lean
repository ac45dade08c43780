import CountMotion.Table
import CountMotion.Proofs.Total

/-! Reads and searches of tables that stay among the slots. -/
namespace CountMotion

variable {α : Type} {table : List α} {n : Nat}

theorem readAt_of_lt (h : n < table.length) : readAt table n = .ok table[n] :=
  readAt_eq_ok.mpr (List.getElem?_eq_getElem h)

theorem writeAt_of_lt (h : n < table.length) (a : α) : writeAt table n a = .ok (table.set n a) := if_pos h

/-- A search from slots to slots finds what exploration finds. -/
theorem search_eq_explore {next : Nat → α → List Nat} {plain : Nat → List Nat} {pending seen : List Nat}
    (hplain : ∀ n a, table[n]? = some a → plain n = next n a) (hnext : ∀ n, ∀ m ∈ plain n, m < table.length)
    (hp : ∀ n ∈ pending, n < table.length) :
    search table next pending seen = .ok (explore (List.range table.length) plain pending seen) := by
  fun_induction search table next pending seen with
  | case1 seen => rw [explore]
  | case2 seen n rest hn ih =>
    rw [ih fun m hm => hp m (.tail _ hm), explore, dif_neg fun h => h.2 hn]
  | case3 seen n rest hn h ih =>
    have hstep : plain n = next n (table.get ⟨n, h⟩) := hplain n _ (List.getElem?_eq_getElem h)
    rw [explore, dif_pos ⟨List.mem_range.mpr h, hn⟩, hstep]
    refine ih fun m hm => ?_
    rcases List.mem_append.mp hm with hm | hm
    · exact hnext n m (hstep ▸ hm)
    · exact hp m (.tail _ hm)
  | case4 seen n rest hn h => exact absurd (hp n (.head _)) h

end CountMotion
