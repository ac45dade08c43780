import CountMotion.Proofs.Moves
import CountMotion.Proofs.Reducible

/-! Regions with their child loops collapsed: dominators come first in the order of a region, and
where the ways to merged retains part, no way leads around or back. -/
namespace CountMotion

variable {r : Routine} {k : Facts} {region : Region} {id b c m n start : Nat} {get : Nat → Option Summary}

namespace Layout

theorem dominates_node (hk : k.Sound r) (hr : k.forest.regions[id]? = some region)
    (hb : (Layout.of r k id region (some get)).Stands b n) (hc : (Layout.of r k id region (some get)).Stands c m)
    (hdom : r.flow.Dominates r.entry b c) :
    (Layout.of r k id region (some get)).graph.Dominates (Layout.of r k id region (some get)).entry n m := by
  intro hpath
  have hheader : (Layout.of r k id region (some get)).Heads region.header _ := heads_header hk hr
  have hreach := hk.reaches_header hr
  have hway : r.flow.Path (· ≠ b) region.header c := by
    refine (lift hk hr hpath hheader hreach hc).mono ?_
    rintro x ⟨z, hz, hne⟩ rfl
    exact hne (hz.unique hb)
  have hfirst : r.flow.Dominates r.entry b region.header := fun hfirst => hdom (hfirst.trans hway)
  exact hway.first (Graph.Dominates.antisymm hreach (hk.header_dominates hr hb.1) hfirst)

theorem of_views (hk : k.Describes r) (hr : k.forest.regions[id]? = some region) (hp : r.Proper)
    (get : Nat → Option Summary) : (Layout.of r k id region (some get)).Views := by
  have hentered := of_entered hk.sound hr (some get)
  refine ⟨hentered.sound, hp, hk, hentered.entry, hentered.enter, hentered.reached, fun {b c} hb hc hreach hdom => ?_⟩
  obtain ⟨n, hn⟩ := exists_stands hb
  obtain ⟨m, hm⟩ := exists_stands hc
  rw [hn.rank, hm.rank]
  exact (searchOrder hentered.sound).idxOf_le_of_dominates ((hentered.reached hm).mpr hreach)
    (dominates_node hk.sound hr hn hm hdom)

/-- A dominator of the members guards them, where all cycles are natural loops. -/
theorem guards_of_reducible (hk : k.Sound r) (hr : k.forest.regions[id]? = some region)
    (hred : r.flow.Reducible r.entry (· ∈ region.blocks)) {members : List Point}
    (hstart : start ∈ (Layout.of r k id region (some get)).order)
    (hdom : ∀ x ∈ members, ∀ n, (Layout.of r k id region (some get)).Stands x.block n →
      (Layout.of r k id region (some get)).graph.Dominates (Layout.of r k id region (some get)).entry start n) :
    (Layout.of r k id region (some get)).Guards start members where
  reached := hstart
  ahead {_ _ x _} ha hab hlt hlt' hx hnx := not_ahead_around (of_sound hk hr _) (hdom x hx _ hnx) ha hab hlt hlt'
  back ha hab hback hsucc hsb _ _ _ := by
    have hlt := Nat.lt_of_lt_of_le (mem_succs.mp hsucc).2.2 hsb.idxOf_le
    rw [eq_entry_of_back hk hr hred ha (edge_graph.mpr hab) hback, (searchOrder (of_sound hk hr _)).idxOf_entry] at hlt
    cases hlt

end Layout

theorem Closure.guarded_of_reducible (c : Closure) (hk : k.Describes r) (hr : k.forest.regions[id]? = some region)
    (hp : r.Proper) (hred : r.flow.Reducible r.entry (· ∈ region.blocks)) :
    c.Guarded (Layout.of r k id region (some get)) := by
  intro target start code fan hm _
  have hv := Layout.of_views hk hr hp get
  obtain ⟨hplace, -, hstart⟩ := Layout.ownNode_eq_some.mp hm.own
  refine Layout.guards_of_reducible hk.sound hr hred hstart fun x hx n hn => ?_
  exact Layout.dominates_node hk.sound hr (Layout.stands_of_place hplace).1 hn (hv.dominates_of_merge hm hx).2

end CountMotion
