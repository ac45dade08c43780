import CountMotion.Dominance.Basic
import CountMotion.Proofs.DomTree

/-! Control flow as a graph: its edges, and both dominator trees. -/
namespace CountMotion

namespace Graph

variable {g : Graph} {u v : Nat}

@[simp] theorem size_flip : g.flip.size = g.size := by simp [flip, size]

theorem zipIdx_succs (g : Graph) : g.succs.zipIdx = (List.range g.size).map fun u => (g.next u, u) := by
  refine List.ext_getElem? fun u => ?_
  rw [List.getElem?_zipIdx, List.getElem?_map]
  by_cases hu : u < g.size
  · rw [g.getElem?_succs hu, List.getElem?_range hu, Option.map_some, Option.map_some, Nat.zero_add]
  · rw [List.getElem?_eq_none (Nat.le_of_not_lt hu), List.getElem?_eq_none (by rw [List.length_range]; omega)]
    rfl

theorem next_flip (hv : v < g.size) : g.flip.next v = (List.range g.size).filter fun u => (g.next u).contains v := by
  rw [next, flip, List.getElem?_map, List.getElem?_range hv, Option.map_some, Option.getD_some, zipIdx_succs,
    List.filter_map, List.map_map]
  exact List.map_id _

theorem mem_next_flip : u ∈ g.flip.next v ↔ g.Edge u v := by
  by_cases hv : v < g.size
  · rw [next_flip hv, List.mem_filter, List.mem_range]
    constructor
    · exact fun h => ⟨List.contains_iff_mem.mp h.2, hv⟩
    · exact fun h => ⟨h.lt_size, List.contains_iff_mem.mpr h.1⟩
  · have hnext : g.flip.next v = [] := next_eq_nil (by rw [size_flip]; omega)
    rw [hnext]
    exact ⟨fun h => absurd h List.not_mem_nil, fun h => absurd h.2 hv⟩

theorem nodup_next_flip (g : Graph) (v : Nat) : (g.flip.next v).Nodup := by
  by_cases hv : v < g.size
  · rw [next_flip hv]
    exact List.nodup_range.filter _
  · rw [next_eq_nil (by rw [size_flip]; omega)]
    exact .nil

theorem mirrors_flip (g : Graph) : DomTree.Mirrors g.flip g := fun _ _ _ => mem_next_flip

end Graph

namespace Routine

variable {r : Routine} {a b : BlockId}

@[simp] theorem size_flow : r.flow.size = r.blocks.length := by simp [flow, Graph.size]

@[simp] theorem size_backflow : r.backflow.size = r.blocks.length := by simp [backflow]

theorem mem_next_flow :
    b ∈ r.flow.next a ↔ ∃ x, r.blocks[a]? = some x ∧ b ∈ x.term.targets ∧ b < r.blocks.length := by
  simp only [flow, Graph.next, List.getElem?_map]
  cases r.blocks[a]? with
  | none => simp
  | some x => simp [List.mem_eraseDups, List.mem_filter]

theorem edge_flow : r.flow.Edge a b ↔ b ∈ r.flow.next a := by
  constructor
  · exact fun h => h.1
  · intro h
    obtain ⟨x, -, -, hb⟩ := mem_next_flow.mp h
    exact ⟨h, by rwa [size_flow]⟩

theorem nodup_next_flow (r : Routine) (a : BlockId) : (r.flow.next a).Nodup := by
  simp only [flow, Graph.next, List.getElem?_map]
  cases r.blocks[a]? with
  | none => exact .nil
  | some x => exact nodup_eraseDups _

theorem mem_next_backflow : a ∈ r.backflow.next b ↔ b ∈ r.flow.next a := Graph.mem_next_flip.trans edge_flow

theorem domTree_exact (h : r.entry < r.blocks.length) :
    ∃ t, r.domTree = .ok t ∧ DomTree.Exact r.flow r.entry t :=
  DomTree.build_exact (by rwa [size_flow]) (Graph.mirrors_flip _)

theorem mem_leaving : a ∈ r.leaving ↔ ∃ x, r.blocks[a]? = some x ∧ x.term.leaves := by
  simp only [leaving, List.mem_map, List.mem_filter, Prod.exists, List.mem_zipIdx_iff_getElem?]
  constructor
  · rintro ⟨x, n, ⟨hx, hl⟩, rfl⟩
    exact ⟨x, hx, hl⟩
  · rintro ⟨x, hx, hl⟩
    exact ⟨x, a, ⟨hx, hl⟩, rfl⟩

theorem size_exitflow : r.exitflow.size = r.blocks.length + 1 := by
  have := size_backflow (r := r)
  simp only [Graph.size] at this
  simp [exitflow, Graph.size, this]

private theorem next_exitflow (h : a < r.blocks.length) : r.exitflow.next a = r.backflow.next a := by
  have := size_backflow (r := r)
  simp only [Graph.size] at this
  simp [exitflow, Graph.next, List.getElem?_append, this, h]

private theorem next_exitflow_exit : r.exitflow.next r.blocks.length = r.leaving := by
  have := size_backflow (r := r)
  simp only [Graph.size] at this
  simp [exitflow, Graph.next, this]

private theorem length_paired (r : Routine) : (r.blocks.zip r.flow.succs).length = r.blocks.length := by
  rw [List.length_zip]
  exact Nat.min_eq_left (Nat.le_of_eq size_flow.symm)

private theorem mem_next_entryflow : a ∈ r.entryflow.next b ↔ ∃ x, r.blocks[b]? = some x ∧
    (a ∈ r.flow.next b ∨ x.term.leaves ∧ a = r.blocks.length) := by
  simp only [entryflow, Graph.next, List.getElem?_append, List.length_map, length_paired]
  split
  · rename_i hb
    have hflow : b < r.flow.succs.length := by rwa [show r.flow.succs.length = _ from size_flow]
    simp only [List.getElem?_map, List.zip, List.getElem?_zipWith, List.getElem?_eq_getElem hb,
      List.getElem?_eq_getElem hflow, Option.map_some, Option.getD_some, Option.some.injEq, exists_eq_left']
    by_cases hl : (r.blocks[b]).term.leaves <;> simp [hl]
  · rename_i hb
    have hnone : r.blocks[b]? = none := List.getElem?_eq_none (Nat.le_of_not_lt hb)
    simp only [hnone, reduceCtorEq, false_and, exists_false, iff_false]
    cases b - r.blocks.length <;> simp

theorem mirrors_exitflow (r : Routine) : DomTree.Mirrors r.entryflow r.exitflow := by
  intro u v hv
  rw [size_exitflow] at hv
  rw [mem_next_entryflow, Graph.Edge, size_exitflow]
  by_cases hu : u < r.blocks.length
  · rw [next_exitflow hu, mem_next_backflow]
    constructor
    · rintro ⟨x, hx, he | ⟨-, rfl⟩⟩
      · exact ⟨he, hv⟩
      · exact absurd hu (Nat.lt_irrefl _)
    · rintro ⟨he, -⟩
      obtain ⟨x, hx, -, -⟩ := mem_next_flow.mp he
      exact ⟨x, hx, .inl he⟩
  · by_cases hexit : u = r.blocks.length
    · subst hexit
      rw [next_exitflow_exit, mem_leaving]
      constructor
      · rintro ⟨x, hx, he | ⟨hl, -⟩⟩
        · obtain ⟨-, -, -, hlt⟩ := mem_next_flow.mp he
          exact absurd hlt (Nat.lt_irrefl _)
        · exact ⟨⟨x, hx, hl⟩, hv⟩
      · rintro ⟨⟨x, hx, hl⟩, -⟩
        exact ⟨x, hx, .inr ⟨hl, rfl⟩⟩
    · have hnil : r.exitflow.next u = [] := Graph.next_eq_nil (by rw [size_exitflow]; omega)
      rw [hnil]
      constructor
      · rintro ⟨x, hx, he | ⟨-, rfl⟩⟩
        · obtain ⟨-, -, -, hlt⟩ := mem_next_flow.mp he
          exact absurd hlt hu
        · exact absurd rfl hexit
      · exact fun h => absurd h.1 List.not_mem_nil

theorem edge_exitflow (h : r.flow.Edge a b) : r.exitflow.Edge b a := by
  have hb := h.2
  have ha := h.lt_size
  rw [size_flow] at ha hb
  exact ⟨by rw [next_exitflow hb, mem_next_backflow]; exact h.1, by rw [size_exitflow]; omega⟩

theorem edge_exitflow_leaving (h : b ∈ r.leaving) : r.exitflow.Edge r.blocks.length b := by
  obtain ⟨x, hx, -⟩ := mem_leaving.mp h
  have hlt := (List.getElem?_eq_some_iff.mp hx).1
  exact ⟨by rw [next_exitflow_exit]; exact h, by rw [size_exitflow]; omega⟩

theorem edge_exitflow_cases (h : r.exitflow.Edge a b) :
    r.flow.Edge b a ∨ a = r.blocks.length ∧ b ∈ r.leaving := by
  have hmem := h.1
  have ha := h.lt_size
  rw [size_exitflow] at ha
  rcases Nat.lt_or_eq_of_le (Nat.le_of_lt_succ ha) with ha | rfl
  · rw [next_exitflow ha, mem_next_backflow, ← edge_flow] at hmem
    exact .inl hmem
  · rw [next_exitflow_exit] at hmem
    exact .inr ⟨rfl, hmem⟩

/-- Paths are paths of the reversed flow, read backward. -/
theorem path_exitflow {p : Nat → Prop} {c : BlockId} (h : r.flow.Path p b c) : r.exitflow.Path p c b := by
  induction h with
  | here hb => exact .here hb
  | snoc _ he hc ih => exact .cons hc (edge_exitflow he) ih

theorem path_from_exit {p : Nat → Prop} (hp : p r.blocks.length) (hb : b < r.blocks.length) :
    r.exitflow.Path p r.blocks.length b ↔ ∃ c ∈ r.leaving, r.flow.Path p b c := by
  constructor
  · intro h
    clear hp
    induction h with
    | here => exact absurd hb (Nat.lt_irrefl _)
    | @snoc a b _ he hpb ih =>
      rcases edge_exitflow_cases he with hedge | ⟨-, hleaves⟩
      · obtain ⟨c, hc, hpath⟩ := ih (by simpa using hedge.2)
        exact ⟨c, hc, .cons hpb hedge hpath⟩
      · exact ⟨b, hleaves, .here hpb⟩
  · rintro ⟨c, hc, hpath⟩
    exact .cons hp (edge_exitflow_leaving hc) (path_exitflow hpath)

theorem postDomTree_exact (r : Routine) :
    ∃ t, r.postDomTree = .ok ⟨t⟩ ∧ DomTree.Exact r.exitflow r.blocks.length t := by
  have hlt : r.blocks.length < r.exitflow.size := by
    rw [size_exitflow]
    omega
  obtain ⟨t, ht, hexact⟩ := DomTree.build_exact hlt (mirrors_exitflow r)
  exact ⟨t, by rw [postDomTree, ht]; rfl, hexact⟩

theorem not_path_of_postDominates {t : PostDomTree} {c : BlockId} (ht : t.tree.Exact r.exitflow r.blocks.length)
    (h : t.postDominates a b) (ha : a < r.blocks.length) (hc : c ∈ r.leaving) : ¬ r.flow.Path (· ≠ a) b c := by
  intro hpath
  rcases (ht.dominates_iff a b).mp h with rfl | ⟨-, hdom⟩
  · exact hpath.first rfl
  · exact hdom (.cons (Nat.ne_of_gt ha) (edge_exitflow_leaving hc) (path_exitflow hpath))

end Routine

namespace PostDomTree

variable {t : PostDomTree} {g : Graph} {exit : Nat}

private theorem mem_chain {a c : Nat} {fuel : Nat} (h : c ∈ climb t.above fuel a) : c ∈ climb t.tree.above fuel a := by
  induction fuel generalizing a with
  | zero => exact h
  | succ fuel ih =>
    rw [climb] at h ⊢
    rcases List.mem_cons.mp h with rfl | h
    · exact .head _
    · refine .tail _ ?_
      cases hp : t.above a with
      | none => rw [hp] at h; cases h
      | some p =>
        rw [hp] at h
        rw [(Option.filter_eq_some_iff.mp hp).1]
        exact ih h

/-- A block found as common post-dominator of all, two by two, post-dominates each of them. -/
theorem postDominates_of_common (ht : t.tree.Exact g exit) {first target : Nat} {rest : List Nat}
    (hc : rest.foldlM t.common first = some target) : ∀ b ∈ first :: rest, t.postDominates target b :=
  ht.dominates_of_folded (fun {_ b _} hmet => ⟨DomTree.mem_climb_iff_dominates.mp (mem_chain (List.mem_of_find?_eq_some hmet)),
    List.find?_some (p := fun c => t.postDominates c b) hmet⟩) hc

end PostDomTree

end CountMotion
