import CountMotion.Proofs.Entering
import CountMotion.Proofs.Forks
import Mathlib.Order.WellFounded

/-! Loops that are left without cycles once their natural loops are collapsed. -/
namespace CountMotion

namespace Graph

variable {g : Graph} {entry a b x y : Nat} {p q : Nat → Prop}

/-- All edges between these nodes lead to a dominator or up some order: no cycle is left without the former. -/
def Reducible (g : Graph) (entry : Nat) (p : Nat → Prop) : Prop :=
  ∃ rank : Nat → Nat, ∀ a b, p a → p b → g.Edge a b → g.Dominates entry b a ∨ rank a < rank b

theorem Reducible.mono (h : g.Reducible entry p) (hqp : ∀ n, q n → p n) : g.Reducible entry q := by
  obtain ⟨rank, hrank⟩ := h
  exact ⟨rank, fun a b ha hb => hrank a b (hqp a ha) (hqp b hb)⟩

def Between (g : Graph) (p : Nat → Prop) (a b n : Nat) : Prop := g.Path p a n ∧ g.Path p n b

theorem Path.between (h : g.Path p x y) (hx : g.Path p a x) (hy : g.Path p y b) : g.Path (g.Between p a b) x y := by
  induction h with
  | here => exact .here ⟨hx, hy⟩
  | snoc hxm he hp ih => exact .snoc (ih (.cons hxm.last he hy)) he ⟨(hx.trans hxm).snoc he hp, hy⟩

/-- A cycle lies in one natural loop, whose header is on it. -/
theorem Reducible.exists_header (h : g.Reducible entry p) (hr : g.Reaches entry a) (hpath : g.Path p a b)
    (he : g.Edge b a) : ∃ c, g.Header entry c ∧ p c ∧ ∀ n, g.Between p a b n → g.InLoop entry c n := by
  obtain ⟨rank, hrank⟩ := h
  -- the first node of the cycle in the order is the header
  obtain ⟨c, hc, hmin⟩ := (measure rank).wf.has_min {n | g.Between p a b n} ⟨a, .here hpath.first, hpath⟩
  have hlatch : ∀ {m}, g.Between p a b m → g.Edge m c → g.Latch entry c m := by
    intro m hm hmc
    refine ⟨hmc, hr.trans hm.1.reaches, ?_⟩
    exact (hrank m c hm.1.last hc.2.first hmc).resolve_right (hmin m hm)
  refine ⟨c, ?_, hc.2.first, fun n hn => ?_⟩
  · cases hc.1 with
    | here => exact ⟨b, hlatch ⟨hpath, .here hpath.last⟩ he⟩
    | snoc ham hmc => exact ⟨_, hlatch ⟨ham, .cons ham.last hmc hc.2⟩ hmc⟩
  · have hround : g.Path (g.Between p a b) n c :=
      (Path.snoc (hn.2.between hn.1 (.here hpath.last)) he ⟨.here hpath.first, hpath⟩).trans
        (hc.1.between (.here hpath.first) hc.2)
    obtain hall | ⟨d, hd, -, -, rfl | ⟨m, hm, hmc⟩⟩ := hround.meets (· ≠ c)
    · exact absurd rfl hall.last.2
    · exact .inl (not_not.mp hd)
    · obtain rfl := not_not.mp hd
      exact .inr ⟨hr.trans hn.1.reaches, m, hlatch hm.last.1 hmc, hm.mono fun _ hw => hw.2⟩

end Graph

variable {r : Routine} {k : Facts} {region m : Region} {id i b n s : Nat} {get : Nat → Option Summary}

theorem Forest.Exact.exists_child {f : Forest} {g : Graph} {entry : Nat} (h : f.Exact g entry)
    (hr : f.regions[id]? = some region) (hm : f.IsLoop i m) (hmem : m.header ∈ region.blocks)
    (hne : m.header ≠ region.header) : ∃ c, ∀ b, m.holds b → f.childAt id b = some c := by
  cases hc : f.childAt id m.header with
  | none =>
    have hin := h.innermost_of_childless hr hmem hc
    have hself : i ∈ f.loopsAt m.header := hm.mem_loopsAt.mpr (h.holds_header hm)
    rcases h.innermost_cases m.header with ⟨-, hempty⟩ | ⟨l, hl, -, hset⟩
    · rw [hempty] at hself
      exact absurd hself (Finset.notMem_empty i)
    · rw [hin] at hl
      obtain rfl := Option.some.inj (hr.symm.trans hl.2)
      have hi := Graph.InLoop.header_antisymm (h.natural hl).header
        (((h.natural hl).holds_iff _).mp ((h.mem_blocks hl).mp hmem).2)
        (((h.natural hm).holds_iff _).mp (hm.mem_loopsAt.mp (hset ▸ hself)))
      exact absurd hi.symm hne
  | some c =>
    obtain ⟨hp, l, hloop, hholds⟩ := h.childAt_spec hc
    exact ⟨c, fun b hb => h.childAt_eq hp hloop (h.holds_of_header hloop hm hholds hb)⟩

namespace Layout

/-- In a region without other cycles than natural loops, edges back lead to the header only. -/
theorem eq_entry_of_back (hk : k.Sound r) (hr : k.forest.regions[id]? = some region)
    (hred : r.flow.Reducible r.entry (· ∈ region.blocks)) (hn : n ∈ (Layout.of r k id region (some get)).order)
    (he : (Layout.of r k id region (some get)).graph.Edge n s)
    (hback : ¬ (Layout.of r k id region (some get)).order.idxOf n < (Layout.of r k id region (some get)).order.idxOf s) :
    s = (Layout.of r k id region (some get)).entry := by
  by_contra hne
  have hentered := of_entered hk hr (some get)
  have horder := searchOrder hentered.sound
  obtain ⟨b, t, hb, ht, hedge⟩ := exists_edge hk hr (fun b hb => (hentered.reached hb).mp hn) (edge_graph.mp he)
  have hs : s ∈ (Layout.of r k id region (some get)).order :=
    (hentered.reached ht.1).mpr (((hentered.reached hb).mp hn).edge hedge)
  have hreach := (hentered.reached ht.1).mp hs
  have hway : r.flow.Path (fun x => x ∈ region.blocks ∧ x ≠ region.header) t b := by
    refine (lift hk hr (ahead_of_back hentered.sound hn he hback).path ht hreach hb).mono ?_
    rintro x ⟨z, hz, hle⟩
    refine ⟨hz.1, fun hx => hne ?_⟩
    rw [hz.eq_entry hx, horder.idxOf_entry] at hle
    exact (List.idxOf_inj hs).mp (by rw [horder.idxOf_entry]; omega)
  obtain ⟨c, hheader, hc, hall⟩ := (hred.mono fun _ hx => hx.1).exists_header hreach hway hedge
  obtain ⟨i, m, hm, rfl⟩ := hk.forest.exists_loop hheader
  obtain ⟨c, hchild⟩ := hk.forest.exists_child hr hm hc.1 hc.2
  have hsame : ∀ {x z}, (Layout.of r k id region (some get)).Stands x z → r.flow.InLoop r.entry m.header x →
      (Layout.of r k id region (some get)).places[z]? = some (.loop c) := by
    intro x z hz hx
    rw [hz.2, placeOf]
    have : (Layout.of r k id region (some get)).child x = some c := hchild x (((hk.forest.natural hm).holds_iff x).mpr hx)
    rw [this]
  have hn' := hsame hb (hall b ⟨hway, .here hway.last⟩)
  have hs' := hsame ht.1 (hall t ⟨.here hway.first, hway⟩)
  exact ne_of_mem_next hn' (edge_graph.mp he) (node_unique hs' hn')

end Layout

end CountMotion
