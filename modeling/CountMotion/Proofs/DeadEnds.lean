import CountMotion.Proofs.Lawfulness
import Mathlib.Data.Fintype.Pigeonhole

/-! Where the flags for traps and the search for quiet exits stand: both say exactly what happens on
all the ways from a block, those that never end included. -/
namespace CountMotion

namespace Graph

variable {g : Graph} {p : Nat → Prop} {a b c : Nat}

/-- Some way leads from the node back to it. -/
def Cyclic (g : Graph) (a : Nat) : Prop := ∃ b, g.Edge a b ∧ g.Reaches b a

/-- Some way from the node never ends. -/
def Endless (g : Graph) (a : Nat) : Prop := ∃ way : Nat → Nat, way 0 = a ∧ ∀ n, g.Edge (way n) (way (n + 1))

namespace Endless

/-- A way never ends where every node has a successor of the same kind. -/
theorem of_step (ha : p a) (h : ∀ b, p b → ∃ c, g.Edge b c ∧ p c) : g.Endless a := by
  choose next hedge hnext using h
  let step (b : { b // p b }) : { b // p b } := ⟨next b b.2, hnext b b.2⟩
  refine ⟨fun n => (step^[n] ⟨a, ha⟩).1, rfl, fun n => ?_⟩
  dsimp only
  rw [Function.iterate_succ_apply']
  exact hedge _ _

theorem tail (h : g.Endless a) : ∃ b, g.Edge a b ∧ g.Endless b := by
  obtain ⟨way, rfl, hway⟩ := h
  exact ⟨way 1, hway 0, fun n => way (n + 1), rfl, fun n => hway (n + 1)⟩

end Endless

private theorem reaches_of_way {way : Nat → Nat} (hway : ∀ n, g.Edge (way n) (way (n + 1))) {m n : Nat} (h : m ≤ n) :
    g.Reaches (way m) (way n) := by
  induction h with
  | refl => exact .refl ..
  | step _ ih => exact ih.edge (hway _)

/-- In a finite graph only cycles go on for ever. -/
theorem endless_iff : g.Endless a ↔ ∃ c, g.Reaches a c ∧ g.Cyclic c := by
  constructor
  · rintro ⟨way, rfl, hway⟩
    obtain ⟨m, n, hne, heq⟩ := Finite.exists_ne_map_eq_of_infinite fun n => Fin.mk (way n) (hway n).lt_size
    have heq : way m = way n := Fin.mk.inj heq
    -- the way comes back to the node that it meets twice
    have hcycle : ∀ {m n}, m < n → way m = way n → g.Cyclic (way m) := fun {m n} hlt heq =>
      ⟨way (m + 1), hway m, heq ▸ reaches_of_way hway hlt⟩
    rcases Nat.lt_or_gt_of_ne hne with hlt | hlt
    · exact ⟨way m, reaches_of_way hway (Nat.zero_le m), hcycle hlt heq⟩
    · exact ⟨way n, reaches_of_way hway (Nat.zero_le n), hcycle hlt heq.symm⟩
  · rintro ⟨c, hreach, d, he, hback⟩
    refine .of_step (p := fun b => g.Reaches b c) hreach fun b hb => ?_
    rcases hb.uncons with rfl | hnext
    · exact ⟨d, he, hback⟩
    · exact hnext

end Graph

namespace Routine

variable {r : Routine} {b c s : BlockId}

namespace Doomed

theorem lt_length (h : r.Doomed b) : b < r.blocks.length := by
  cases h with
  | trap hx => exact (List.getElem?_eq_some_iff.mp hx).1
  | next hne =>
    obtain ⟨s, hs⟩ := List.exists_mem_of_ne_nil _ hne
    exact size_flow (r := r) ▸ (edge_flow.mpr hs).lt_size

theorem not_endless (h : r.Doomed b) : ¬ r.flow.Endless b := by
  induction h with
  | trap hx htrap =>
    intro hway
    obtain ⟨s, he, -⟩ := hway.tail
    have hmem := mem_targets_of_edge he
    rw [codeAt_eq hx, htrap] at hmem
    cases hmem
  | next _ _ ih =>
    intro hway
    obtain ⟨s, he, hrest⟩ := hway.tail
    exact ih s he.1 hrest

theorem term_eq (h : r.Doomed b) (hend : ∀ s, ¬ r.flow.Edge b s) : (r.codeAt b).term = .trap := by
  cases h with
  | trap hx htrap => rw [codeAt_eq hx, htrap]
  | next hne =>
    obtain ⟨s, hs⟩ := List.exists_mem_of_ne_nil _ hne
    exact absurd (edge_flow.mpr hs) (hend s)

end Doomed

/-- A block is doomed when every way from it ends, and does so in a trap. -/
theorem doomed_iff : r.Doomed b ↔ b < r.blocks.length ∧ ¬ r.flow.Endless b ∧
    ∀ c, r.flow.Reaches b c → (∀ s, ¬ r.flow.Edge c s) → (r.codeAt c).term = .trap := by
  constructor
  · exact fun h => ⟨h.lt_length, h.not_endless, fun c hreach => (h.reaches hreach).term_eq⟩
  · rintro ⟨hlt, hends, htraps⟩
    by_contra hno
    -- otherwise some way goes on through blocks that are not doomed
    refine hends (.of_step (p := fun c => r.flow.Reaches b c ∧ ¬ r.Doomed c) ⟨.refl .., hno⟩ ?_)
    rintro c ⟨hreach, hc⟩
    by_contra hstep
    have hall : ∀ s, r.flow.Edge c s → r.Doomed s := by
      intro s he
      by_contra hs
      exact hstep ⟨s, he, hreach.edge he, hs⟩
    by_cases hnext : r.flow.next c = []
    · have hlast : ∀ s, ¬ r.flow.Edge c s := fun s he => List.not_mem_nil (hnext ▸ he.1)
      have hclt : c < r.blocks.length := size_flow (r := r) ▸ hreach.lt_size (by rwa [size_flow])
      have hx := List.getElem?_eq_getElem hclt
      exact hc (.trap hx (codeAt_eq hx ▸ htraps c hreach hlast))
    · exact hc (.next hnext fun s hs => hall s (edge_flow.mpr hs))

/-- Where control stays inside, all that keeps a block from its doom is a return or a cycle. -/
theorem Wired.doomed_iff (h : r.Wired) : r.Doomed b ↔ b < r.blocks.length ∧
    ∀ c, r.flow.Reaches b c → ¬ (r.codeAt c).term.returns ∧ ¬ r.flow.Cyclic c := by
  have hend : ∀ c, ((∀ s, ¬ r.flow.Edge c s) → (r.codeAt c).term = .trap) ↔ ¬ (r.codeAt c).term.returns := by
    intro c
    cases hterm : (r.codeAt c).term with
    | ret v =>
      have hlast : ∀ s, ¬ r.flow.Edge c s := fun s he => by
        have := mem_targets_of_edge he
        rw [hterm] at this
        cases this
      simpa [Terminator.returns] using hlast
    | trap => simp [Terminator.returns]
    | jump t => simpa [Terminator.returns] using ⟨t, h.edge (hterm ▸ .head _)⟩
    | branch v yes no => simpa [Terminator.returns] using ⟨yes, h.edge (hterm ▸ .head _)⟩
    | switch v cases fallback =>
      simpa [Terminator.returns] using ⟨fallback, h.edge (hterm ▸ List.mem_append_right _ (.head _))⟩
  rw [Routine.doomed_iff, Graph.endless_iff]
  simp only [hend, not_exists, not_and, ← forall_and]
  exact and_congr_right fun _ => forall_congr' fun c => imp_congr_right fun _ => and_comm

end Routine

theorem Effect.harmless_iff {e : Effect} : e.harmless ↔ e = .nothing ∨ e = .use := by
  cases e <;> simp [Effect.harmless]

/-- From the blocks that trap themselves, pass after pass sets flags until one sets none, at the
latest after a pass for each block and one more. The flags then mark a block exactly when no way
from it comes to a return or a cycle, so that every way ends, in a trap. An exit is quiet exactly
when, besides, no instruction on these ways does more to the root than use it. -/
theorem traps_and_quiet_exits_exact (r : Routine) (h : r.check = .ok ()) :
    ∃ k, r.facts = .ok k ∧
      (∃ passes ≤ r.blocks.length + 1, Trapping.Settles r (.start r) passes k.trapping) ∧ ∀ b,
      (k.traps b ↔ b < r.blocks.length ∧
        ∀ c, r.flow.Reaches b c → ¬ (r.codeAt c).term.returns ∧ ¬ r.flow.Cyclic c) ∧
      (k.traps b ↔ b < r.blocks.length ∧ ¬ r.flow.Endless b ∧
        ∀ c, r.flow.Reaches b c → (∀ s, ¬ r.flow.Edge c s) → (r.codeAt c).term = .trap) ∧
      ∀ root, k.quietExit r root b ↔ k.traps b ∧
        ∀ c, r.flow.Reaches b c → ∀ i ∈ (r.codeAt c).body, k.effect root i = .nothing ∨ k.effect root i = .use := by
  have hlawful := Routine.lawful_of_check h fun _ => True
  obtain ⟨k, hk, hdescribes⟩ := Routine.facts_describe hlawful.entry hlawful.numbered
  have htraps : ∀ b, k.traps b ↔ r.Doomed b := hdescribes.traps
  refine ⟨k, hk, ?_, fun b => ⟨?_, ?_, fun root => ?_⟩⟩
  · obtain ⟨t, ht, -, hsettles⟩ := r.trapping_settles
    obtain ⟨-, -, htrapping, -⟩ := Routine.facts_parts hk
    obtain rfl := Except.ok.inj (ht.symm.trans htrapping)
    exact hsettles
  · rw [htraps, hlawful.wired.doomed_iff]
  · rw [htraps, Routine.doomed_iff]
  · rw [Facts.quietExit_iff]
    refine and_congr_right fun hb => ?_
    rw [and_iff_right ((htraps b).mp hb).lt_length]
    refine forall_congr' fun c => imp_congr_right fun _ => ?_
    rw [and_iff_left (hlawful.wired.targets c)]
    simp only [Effect.harmless_iff]

/-- One way returns, one may go round for ever before it traps, and one calls and traps. -/
def threeEnds : Routine where
  name := "three_ends"
  params := [0, 1]
  blocks := [
    ⟨0, [], .switch 1 [(0, 1), (1, 2)] 4⟩,
    ⟨1, [], .branch 1 1 3⟩,
    ⟨2, [.call 2 1 [0] .readOnly], .jump 3⟩,
    ⟨3, [], .trap⟩,
    ⟨4, [.release 0 .strong], .ret 1⟩]
  entry := 0
  storage := [.reference, .trivial, .trivial]

theorem traps_and_quiet_exits_exact_threeEnds : threeEnds.check = .ok () ∧ ∃ k, threeEnds.facts = .ok k ∧
    ¬ k.traps 0 ∧ ¬ k.traps 1 ∧ k.traps 2 ∧ k.quietExit threeEnds 0 2 := by
  obtain ⟨k, hk, -, h⟩ := traps_and_quiet_exits_exact threeEnds rfl
  have hedge : ∀ {a b}, b ∈ threeEnds.flow.next a → threeEnds.flow.Edge a b := Routine.edge_flow.mpr
  have hreach : ∀ c, threeEnds.flow.Reaches 2 c → c = 2 ∨ c = 3 := by
    intro c hc
    induction hc with
    | here => exact .inl rfl
    | snoc _ he _ ih =>
      rcases ih with rfl | rfl
      · exact .inr (List.mem_singleton.mp he.1)
      · cases he.1
  have htraps : k.traps 2 := by
    refine (h 2).2.1.mpr ⟨by decide, fun hway => ?_, fun c hc hend => ?_⟩
    · obtain ⟨b, he, hrest⟩ := hway.tail
      obtain rfl := List.mem_singleton.mp he.1
      obtain ⟨c, he', -⟩ := hrest.tail
      cases he'.1
    · rcases hreach c hc with rfl | rfl
      · exact absurd (hedge (by decide)) (hend 3)
      · rfl
  refine ⟨rfl, k, hk, fun h0 => ?_, fun h1 => ?_, htraps, ((h 2).2.2 0).mpr ⟨htraps, fun c hc i hi => ?_⟩⟩
  · exact (((h 0).1.mp h0).2 4 (.edge (.refl ..) (hedge (by decide)))).1 rfl
  · exact (((h 1).1.mp h1).2 1 (.refl ..)).2 ⟨1, hedge (by decide), .refl ..⟩
  · rcases hreach c hc with rfl | rfl
    · obtain rfl := List.mem_singleton.mp hi
      simp only [Facts.effect, Facts.useIf]
      split
      · exact .inr rfl
      · exact .inl rfl
    · cases hi

end CountMotion
