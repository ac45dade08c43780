import CountMotion.Facts
import CountMotion.Routine.Contract
import CountMotion.Proofs.Nesting
import CountMotion.Proofs.Splice
import CountMotion.Proofs.TrapFlags

/-! What the facts of a routine say about it, and about all routines that differ in counts only. -/
namespace CountMotion

namespace Routine

variable {r base : Routine}

/-- The routine with empty bodies: control flow and storage are told by it. -/
def frame (r : Routine) : Routine := { r with blocks := r.blocks.map fun b => { b with body := [] } }

theorem length_of_frame (h : r.frame = base.frame) : r.blocks.length = base.blocks.length := by
  simpa [frame] using congrArg (fun r => r.blocks.length) h

theorem entry_of_frame (h : r.frame = base.frame) : r.entry = base.entry := by
  simpa [frame] using congrArg Routine.entry h

theorem storage_of_frame (h : r.frame = base.frame) : r.storage = base.storage := by
  simpa [frame] using congrArg Routine.storage h

theorem flow_of_frame (h : r.frame = base.frame) : r.flow = base.flow := by
  have hframe : ∀ r : Routine, r.frame.flow = r.flow := fun r => by simp [flow, frame, Function.comp_def]
  rw [← hframe r, h, hframe]

theorem frame_bare (r : Routine) : r.bare.frame = r.frame := by
  simp [frame, bare, Block.bare, Function.comp_def]

theorem frame_of_bare (h : r.bare = base.bare) : r.frame = base.frame := by
  rw [← frame_bare r, h, frame_bare]

theorem length_of_bare (h : r.bare = base.bare) : r.blocks.length = base.blocks.length :=
  length_of_frame (frame_of_bare h)

theorem entry_of_bare (h : r.bare = base.bare) : r.entry = base.entry := entry_of_frame (frame_of_bare h)

theorem name_of_bare (h : r.bare = base.bare) : r.name = base.name := by
  simpa [bare] using congrArg Routine.name h

theorem storage_of_bare (h : r.bare = base.bare) : r.storage = base.storage := storage_of_frame (frame_of_bare h)

theorem params_of_bare (h : r.bare = base.bare) : r.params = base.params := by
  simpa [bare] using congrArg Routine.params h

theorem flow_bare (r : Routine) : r.bare.flow = r.flow := flow_of_frame r.frame_bare

theorem flow_of_bare (h : r.bare = base.bare) : r.flow = base.flow := flow_of_frame (frame_of_bare h)

theorem entry_lt_of_check (h : r.check = .ok ()) : r.entry < r.blocks.length := by
  rw [check] at h
  split at h
  · rename_i hnil
    simp only [breaches, List.append_eq_nil_iff, ite_eq_left_iff, reduceCtorEq] at hnil
    obtain ⟨⟨⟨-, hentry⟩, -⟩, -⟩ := hnil
    exact Decidable.not_not.mp hentry
  · cases h

private theorem originOf_lt {v : Var} (h : r.originOf v ≠ none) : v < r.storage.length := by
  rw [originOf] at h
  split at h
  · assumption
  · exact absurd rfl h

private theorem follow_lt {source : Var → Option Var} {fuel : Nat} {v root : Var}
    (h : follow r.originOf source fuel v = some root) : root < r.storage.length := by
  induction fuel generalizing v with
  | zero => cases h
  | succ fuel ih =>
    rw [follow] at h
    split at h
    · cases h
    · rename_i hsome
      split at h
      · exact ih h
      · obtain rfl := Option.some.inj h
        exact originOf_lt fun hnone => hsome (by rw [hnone]; rfl)

theorem root_identity_lt {v root : Var} (h : r.identity.root v = some root) : root < r.storage.length := by
  rw [Identity.root, Option.join_eq_some_iff] at h
  obtain ⟨u, -, hu⟩ := List.mem_map.mp (List.mem_of_getElem? h)
  rw [rootOf] at hu
  split at hu
  · exact follow_lt hu
  · cases hu

end Routine

/-- Facts whose flow analyses are right for a routine, and whose roots and storage are its own. -/
structure Facts.Sound (k : Facts) (r : Routine) : Prop where
  entry : r.entry < r.blocks.length
  dom : k.dom.Exact r.flow r.entry
  forest : k.forest.Exact r.flow r.entry
  root_lt : ∀ {v root}, k.root v = some root → root < r.storage.length
  counted : k.aliasing.counted = r.storage.map Storage.counted
  traps_next : ∀ {b s}, k.traps b → s ∈ r.flow.next b → k.traps s

namespace Facts.Sound

variable {k : Facts} {r base : Routine}

theorem of_frame (h : k.Sound base) (hb : r.frame = base.frame) : k.Sound r := by
  refine ⟨?_, ?_, ?_, ?_, ?_, ?_⟩
  · rw [Routine.entry_of_frame hb, Routine.length_of_frame hb]
    exact h.entry
  · rw [Routine.flow_of_frame hb, Routine.entry_of_frame hb]
    exact h.dom
  · rw [Routine.flow_of_frame hb, Routine.entry_of_frame hb]
    exact h.forest
  · rw [Routine.storage_of_frame hb]
    exact h.root_lt
  · rw [Routine.storage_of_frame hb]
    exact h.counted
  · rw [Routine.flow_of_frame hb]
    exact h.traps_next

/-- Moving count operations leaves the facts sound. -/
theorem of_bare (h : k.Sound base) (hb : r.bare = base.bare) : k.Sound r := h.of_frame (Routine.frame_of_bare hb)

end Facts.Sound

/-- A routine with an entry has sound facts. -/
theorem Routine.facts_total {r : Routine} (h : r.entry < r.blocks.length) : ∃ k, r.facts = .ok k ∧ k.Sound r := by
  obtain ⟨dom, hdom, hexact⟩ := r.domTree_exact h
  obtain ⟨post, hpost, -⟩ := r.postDomTree_exact
  obtain ⟨traps, htraps, hdoomed, -⟩ := r.trapping_settles
  obtain ⟨forest, hforest, hexactForest⟩ := Forest.build_exact h hexact
  refine ⟨⟨r.identity, r.aliasing r.identity, dom, ⟨post⟩, traps, forest⟩, ?_, ?_⟩
  · rw [facts]
    exact bind_eq_ok.mpr ⟨_, hdom, bind_eq_ok.mpr ⟨_, hpost, bind_eq_ok.mpr ⟨_, htraps, bind_eq_ok.mpr ⟨_, hforest, rfl⟩⟩⟩⟩
  · refine ⟨h, hexact, hexactForest, fun hv => root_identity_lt hv, rfl, fun {b s} hb hs => ?_⟩
    exact (hdoomed s).mpr (((hdoomed b).mp hb).edge (edge_flow.mpr hs))

theorem Routine.facts_parts {r : Routine} {k : Facts} (hk : r.facts = .ok k) :
    r.domTree = .ok k.dom ∧ r.postDomTree = .ok k.postDom ∧ r.trapping = .ok k.trapping ∧
      Forest.build r k.dom = .ok k.forest ∧ k.identity = r.identity ∧ k.aliasing = r.aliasing r.identity := by
  rw [facts] at hk
  obtain ⟨dom, hdom, hk⟩ := bind_eq_ok.mp hk
  obtain ⟨post, hpost, hk⟩ := bind_eq_ok.mp hk
  obtain ⟨traps, htraps, hk⟩ := bind_eq_ok.mp hk
  obtain ⟨forest, hforest, hk⟩ := bind_eq_ok.mp hk
  obtain rfl := Except.ok.inj hk
  exact ⟨hdom, hpost, htraps, hforest, rfl, rfl⟩

theorem Routine.facts_postDom {r : Routine} {k : Facts} (hk : r.facts = .ok k) :
    k.postDom.tree.Exact r.exitflow r.blocks.length := by
  obtain ⟨post, hpost, hexact⟩ := r.postDomTree_exact
  obtain ⟨-, hk, -⟩ := facts_parts hk
  obtain rfl := PostDomTree.mk.inj (Except.ok.inj (hpost.symm.trans hk))
  exact hexact

end CountMotion
