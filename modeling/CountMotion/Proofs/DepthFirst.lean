import CountMotion.Proofs.Search

/-! The search that keeps its open nodes on a stack leaves nodes in the order in which the recursive
search does. The order against the edges tells the cycles of the graph. -/
namespace CountMotion.Graph

variable {g : Graph} {entry : Nat} {pending seen seen' order : List Nat}

/-- The recursive search through some successors in list order, some nodes being seen already. It
ends with the nodes that are seen then, and with those it entered in the order in which it left
them, each after all that was entered below it. -/
inductive Visits (g : Graph) : List Nat → List Nat → List Nat → List Nat → Prop where
  | done (seen : List Nat) : Visits g [] seen seen []
  | skip {s : Nat} {later seen seen' order : List Nat} (h : ¬ (s < g.size ∧ s ∉ seen))
      (rest : Visits g later seen seen' order) : Visits g (s :: later) seen seen' order
  | enter {s : Nat} {later seen mid seen' below after : List Nat} (h : s < g.size ∧ s ∉ seen)
      (inner : Visits g (g.next s) (s :: seen) mid below) (rest : Visits g later mid seen' after) :
      Visits g (s :: later) seen seen' (below ++ s :: after)

/-- No edge can be followed back. -/
def Acyclic (g : Graph) : Prop := ∀ a b, g.Edge a b → ¬ g.Reaches b a

namespace Visits

theorem keeps_seen (h : g.Visits pending seen seen' order) : ∀ n ∈ seen, n ∈ seen' := by
  induction h with
  | done => exact fun _ hn => hn
  | skip _ _ ih => exact ih
  | enter _ _ _ ihinner ihrest => exact fun n hn => ihrest n (ihinner n (.tail _ hn))

private theorem unseenWork_le (h : ∀ n ∈ seen, n ∈ seen') :
    unseenWork (List.range g.size) g.next seen' ≤ unseenWork (List.range g.size) g.next seen := by
  have hfilter : (List.range g.size).filter (fun n => n ∉ seen') =
      ((List.range g.size).filter fun n => n ∉ seen).filter fun n => n ∉ seen' := by
    rw [List.filter_filter]
    refine List.filter_congr fun n _ => ?_
    by_cases hn : n ∈ seen
    · simp [h n hn]
    · simp [hn]
  rw [unseenWork, hfilter]
  exact tally_filter_le ..

/-- The recursive search comes to an end, since it enters no node twice. -/
theorem total (g : Graph) (pending seen : List Nat) : ∃ seen' order, g.Visits pending seen seen' order := by
  induction hw : unseenWork (List.range g.size) g.next seen + pending.length using Nat.strongRecOn
    generalizing pending seen with
  | ind w ih =>
    cases pending with
    | nil => exact ⟨seen, [], .done seen⟩
    | cons s later =>
      rw [List.length_cons] at hw
      by_cases hs : s < g.size ∧ s ∉ seen
      · have hnew : s ∈ List.range g.size ∧ s ∉ seen := ⟨List.mem_range.mpr hs.1, hs.2⟩
        have hpaid := unseenWork_cons_add_le g.next hnew
        obtain ⟨mid, below, hinner⟩ := ih _ (by omega) (g.next s) (s :: seen) rfl
        have hleft : unseenWork (List.range g.size) g.next mid ≤ unseenWork (List.range g.size) g.next seen :=
          unseenWork_le fun n hn => hinner.keeps_seen n (.tail s hn)
        obtain ⟨seen', after, hrest⟩ := ih _ (by omega) later mid rfl
        exact ⟨seen', _, .enter hs hinner hrest⟩
      · obtain ⟨seen', order, hrest⟩ := ih _ (by omega) later seen rfl
        exact ⟨seen', order, .skip hs hrest⟩

/-- What a recursive search does from a node is done while that node is on top of the stack. -/
theorem finish_eq (h : g.Visits pending seen seen' order) (n : Nat) (rest : List (Nat × List Nat))
    (done : List Nat) :
    finish g ((n, pending) :: rest) seen done = finish g rest seen' (n :: (order.reverse ++ done)) := by
  induction h generalizing n rest done with
  | done => rw [finish]; rfl
  | skip hs _ ih => rw [finish, dif_neg hs, ih]
  | @enter s later seen mid seen' below after hs _ _ ihinner ihrest =>
    rw [finish, dif_pos hs, ← next_eq_get g hs.1, ihinner, ihrest]
    simp

end Visits

theorem visits_postorder (g : Graph) (entry : Nat) : ∃ seen, g.Visits [entry] [] seen (g.postorder entry) := by
  by_cases hentry : entry < g.size
  · obtain ⟨seen, below, hinner⟩ := Visits.total g (g.next entry) [entry]
    have hfinish := hinner.finish_eq entry [] []
    rw [finish, List.append_nil, List.reverse_cons, List.reverse_reverse] at hfinish
    rw [postorder_of_lt hentry, hfinish]
    exact ⟨seen, .enter ⟨hentry, List.not_mem_nil⟩ hinner (.done seen)⟩
  · rw [postorder_of_le (Nat.not_lt.mp hentry)]
    exact ⟨[], .skip (fun h => hentry h.1) (.done [])⟩

private theorem idxOf_lt_of_reverse {l : List Nat} {u v : Nat} (hl : l.Nodup) (hv : v ∈ l)
    (h : l.reverse.idxOf u < l.reverse.idxOf v) : l.idxOf v < l.idxOf u := by
  obtain ⟨before, after, hsplit⟩ := List.append_of_mem (List.mem_reverse.mpr hv)
  have hnodup := l.reverse_perm.nodup_iff.mpr hl
  rw [hsplit] at h hnodup
  have hu : u ∈ before := (idxOf_lt_iff_mem hnodup).mp h
  refine idxOf_lt_of_sublist hl ?_
  rw [← List.reverse_reverse l, hsplit, List.reverse_append, List.reverse_cons, List.append_assoc]
  exact ((List.singleton_sublist.mpr (List.mem_reverse.mpr hu)).cons_cons v).trans (List.sublist_append_right _ _)

theorem reaches_of_late {u v : Nat} (hu : u ∈ g.postorder entry) (he : g.Edge u v)
    (hlate : ¬ (g.postorder entry).idxOf v < (g.postorder entry).idxOf u) : g.Reaches v u := by
  have hentry : entry < g.size := by
    by_contra hout
    rw [postorder_of_le (Nat.not_lt.mp hout)] at hu
    cases hu
  have ho := postorder_order hentry
  have hu' := List.mem_reverse.mpr hu
  have hv : v ∈ g.postorder entry := List.mem_reverse.mp (ho.mem_of_edge hu' he)
  have hnodup := (List.reverse_perm _).nodup_iff.mp ho.nodup
  rcases ho.ahead u hu' v he with hlt | hclimbs
  · exact absurd (idxOf_lt_of_reverse hnodup hv hlt) hlate
  · exact hclimbs.reaches

/-- The postorder of any graph is that of the recursive search, and empty from an entry outside the
graph. It lists the nodes that the entry reaches, each once and the entry last. An edge to a node
that is not listed earlier is on a cycle, so without cycles all successors of a node come before it. -/
theorem postorder_depth_first (g : Graph) (entry : Nat) :
    (∃ seen, g.Visits [entry] [] seen (g.postorder entry)) ∧
    (g.size ≤ entry → g.postorder entry = []) ∧
    (entry < g.size → (g.postorder entry).Nodup ∧ (∀ n, n ∈ g.postorder entry ↔ g.Reaches entry n) ∧
      (g.postorder entry).getLast? = some entry) ∧
    (∀ u ∈ g.postorder entry, ∀ v ∈ g.postorder entry, g.Edge u v →
      ¬ (g.postorder entry).idxOf v < (g.postorder entry).idxOf u → g.Reaches v u) ∧
    (g.Acyclic → ∀ u ∈ g.postorder entry, ∀ v, g.Edge u v →
      v ∈ g.postorder entry ∧ (g.postorder entry).idxOf v < (g.postorder entry).idxOf u) := by
  refine ⟨visits_postorder g entry, fun hout => ?_, fun hentry => ?_,
    fun u hu v _ he hlate => reaches_of_late hu he hlate, fun hacyclic u hu v he => ?_⟩
  · exact postorder_of_le hout
  · have ho := postorder_order hentry
    refine ⟨(List.reverse_perm _).nodup_iff.mp ho.nodup, fun n => ?_, ?_⟩
    · rw [← ho.mem_iff, List.mem_reverse]
    · rw [List.getLast?_eq_head?_reverse]
      exact ho.head
  · have hearly : (g.postorder entry).idxOf v < (g.postorder entry).idxOf u := by
      by_contra hlate
      exact hacyclic u v he (reaches_of_late hu he hlate)
    exact ⟨List.idxOf_lt_length_iff.mp (Nat.lt_trans hearly (List.idxOf_lt_length_of_mem hu)), hearly⟩

/-- Two cycles, one of them an edge from a node to itself, with successors that are listed twice or
lie outside and a node that nothing leads to. -/
def twoCycles : Graph := ⟨[[1, 1, 7], [2, 3], [0], [3, 9], [1]]⟩

def twoWays : Graph := ⟨[[1, 2], [3], [3, 3], []]⟩

theorem twoWays_acyclic : twoWays.Acyclic := by
  have hrises : ∀ a b, twoWays.Edge a b → a < b := by
    intro a b he
    have ha : a < 4 := he.lt_size
    have : ∀ a < 4, ∀ b ∈ twoWays.next a, a < b := by decide
    exact this a ha b he.1
  have hreaches : ∀ a b, twoWays.Reaches a b → a ≤ b := by
    intro a b h
    induction h with
    | here => exact Nat.le_refl _
    | snoc _ he _ ih => exact Nat.le_trans ih (Nat.le_of_lt (hrises _ _ he))
  exact fun a b he hback => Nat.not_lt.mpr (hreaches b a hback) (hrises a b he)

theorem postorder_depth_first_twoCycles :
    (twoCycles.postorder 0 = [2, 3, 1, 0] ∧ (∃ seen, twoCycles.Visits [0] [] seen [2, 3, 1, 0]) ∧
      (∀ n, n ∈ [2, 3, 1, 0] ↔ twoCycles.Reaches 0 n) ∧ twoCycles.Reaches 0 2 ∧ twoCycles.Reaches 3 3) ∧
    twoCycles.postorder 7 = [] ∧
    twoWays.Acyclic ∧ twoWays.postorder 0 = [3, 1, 2, 0] ∧
      ∀ u ∈ twoWays.postorder 0, ∀ v, twoWays.Edge u v →
        v ∈ twoWays.postorder 0 ∧ (twoWays.postorder 0).idxOf v < (twoWays.postorder 0).idxOf u := by
  have horder : twoCycles.postorder 0 = [2, 3, 1, 0] := by decide +kernel
  obtain ⟨hvisits, -, hnodes, hcycles, -⟩ := postorder_depth_first twoCycles 0
  obtain ⟨-, hmem, -⟩ := hnodes (by decide)
  rw [horder] at hvisits hmem hcycles
  refine ⟨⟨horder, hvisits, hmem, ?_, ?_⟩, (postorder_depth_first twoCycles 7).2.1 (by decide), twoWays_acyclic,
    by decide +kernel, (postorder_depth_first twoWays 0).2.2.2.2 twoWays_acyclic⟩
  · exact hcycles 2 (by decide) 0 (by decide) ⟨by decide, by decide⟩ (by decide)
  · exact hcycles 3 (by decide) 3 (by decide) ⟨by decide, by decide⟩ (by decide)

end CountMotion.Graph
