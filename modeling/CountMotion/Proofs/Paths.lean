import CountMotion.Graph.Basic
import Mathlib.Data.List.Chain

/-! Paths of a finite graph, and what every path from an entry has to pass. -/
namespace CountMotion.Graph

variable {g : Graph} {p q : Nat → Prop} {a b c : Nat}

/-- Listed successors outside the graph are no edges. -/
def Edge (g : Graph) (a b : Nat) : Prop := b ∈ g.next a ∧ b < g.size

/-- A path all of whose nodes have the property, its ends included. -/
inductive Path (g : Graph) (p : Nat → Prop) (a : Nat) : Nat → Prop where
  | here : p a → Path g p a a
  | snoc {b c : Nat} : Path g p a b → g.Edge b c → p c → Path g p a c

def Reaches (g : Graph) (a b : Nat) : Prop := g.Path (fun _ => True) a b

/-- Every path from the entry to `b` passes `a`. -/
def Dominates (g : Graph) (entry a b : Nat) : Prop := ¬ g.Path (· ≠ a) entry b

theorem next_eq_nil (h : g.size ≤ a) : g.next a = [] := by
  simp [next, List.getElem?_eq_none (show g.succs.length ≤ a from h)]

theorem lt_size_of_mem_next (h : b ∈ g.next a) : a < g.size := by
  by_cases ha : a < g.size
  · exact ha
  · rw [next_eq_nil (Nat.le_of_not_lt ha)] at h
    cases h

theorem Edge.lt_size (h : g.Edge a b) : a < g.size := lt_size_of_mem_next h.1

namespace Path

theorem first (h : g.Path p a b) : p a := by
  induction h with
  | here h => exact h
  | snoc _ _ _ ih => exact ih

theorem last (h : g.Path p a b) : p b := by
  cases h with
  | here h => exact h
  | snoc _ _ h => exact h

theorem mono (h : g.Path p a b) (hpq : ∀ n, p n → q n) : g.Path q a b := by
  induction h with
  | here h => exact .here (hpq _ h)
  | snoc _ he h ih => exact .snoc ih he (hpq _ h)

theorem trans (h : g.Path p a b) (h' : g.Path p b c) : g.Path p a c := by
  induction h' with
  | here => exact h
  | snoc _ he hp ih => exact .snoc ih he hp

theorem cons (ha : p a) (he : g.Edge a b) (h : g.Path p b c) : g.Path p a c :=
  trans (.snoc (.here ha) he h.first) h

theorem uncons (h : g.Path p a c) : a = c ∨ ∃ b, g.Edge a b ∧ g.Path p b c := by
  induction h with
  | here => exact .inl rfl
  | @snoc b c _ he hc ih =>
    rcases ih with rfl | ⟨d, had, hdb⟩
    · exact .inr ⟨c, he, .here hc⟩
    · exact .inr ⟨d, had, .snoc hdb he hc⟩

theorem reaches (h : g.Path p a b) : g.Reaches a b := h.mono fun _ _ => trivial

/-- A path either keeps the property or meets a node without it, up to which it does. -/
theorem meets (h : g.Path p a b) (q : Nat → Prop) :
    g.Path (fun n => p n ∧ q n) a b ∨ ∃ c, ¬ q c ∧ g.Path p a c ∧ g.Path p c b ∧
      (c = a ∨ ∃ d, g.Path (fun n => p n ∧ q n) a d ∧ g.Edge d c) := by
  induction h with
  | here ha =>
    by_cases hq : q a
    · exact .inl (.here ⟨ha, hq⟩)
    · exact .inr ⟨a, hq, .here ha, .here ha, .inl rfl⟩
  | @snoc b c hab he hc ih =>
    obtain hall | ⟨d, hd, had, hdb, hfirst⟩ := ih
    · by_cases hq : q c
      · exact .inl (.snoc hall he ⟨hc, hq⟩)
      · exact .inr ⟨c, hq, .snoc hab he hc, .here hc, .inr ⟨b, hall, he⟩⟩
    · exact .inr ⟨d, hd, had, .snoc hdb he hc, hfirst⟩

/-- After its last visit to `c` a path stays away from `c`. -/
theorem after (h : g.Path p a b) (c : Nat) :
    g.Path (fun n => p n ∧ n ≠ c) a b ∨ b = c ∨
      ∃ d, g.Path p a c ∧ g.Edge c d ∧ g.Path (fun n => p n ∧ n ≠ c) d b := by
  induction h with
  | here ha =>
    by_cases hc : a = c
    · exact .inr (.inl hc)
    · exact .inl (.here ⟨ha, hc⟩)
  | @snoc b x hab he hx ih =>
    by_cases hc : x = c
    · exact .inr (.inl hc)
    · obtain hall | rfl | ⟨d, hac, hcd, hdb⟩ := ih
      · exact .inl (.snoc hall he ⟨hx, hc⟩)
      · exact .inr (.inr ⟨x, hab, he, .here ⟨hx, hc⟩⟩)
      · exact .inr (.inr ⟨d, hac, hcd, .snoc hdb he ⟨hx, hc⟩⟩)

theorem lt_size (h : g.Path p a b) (ha : a < g.size) : b < g.size := by
  cases h with
  | here => exact ha
  | snoc _ he _ => exact he.2

end Path

theorem path_of_chain {path : List Nat} (hpath : path.IsChain g.Edge) (hhead : path.head? = some a) (hb : b ∈ path) :
    g.Path (· ∈ path) a b := by
  induction path generalizing a with
  | nil => cases hb
  | cons c path ih =>
    obtain rfl := Option.some.inj hhead
    rcases List.mem_cons.mp hb with rfl | hb
    · exact .here (.head _)
    · cases path with
      | nil => cases hb
      | cons d path =>
        obtain ⟨he, hrest⟩ := List.isChain_cons_cons.mp hpath
        exact .cons (.head _) he ((ih hrest rfl hb).mono fun _ hn => .tail _ hn)

/-- A path is a chain of edges through nodes that have the property. -/
theorem path_iff_chain : g.Path p a b ↔ ∃ path : List Nat, path.head? = some a ∧ path.IsChain g.Edge ∧
    path.getLast? = some b ∧ ∀ n ∈ path, p n := by
  constructor
  · intro h
    induction h with
    | here ha => exact ⟨[a], rfl, .singleton a, rfl, by simpa using ha⟩
    | @snoc b c _ he hc ih =>
      obtain ⟨path, hhead, hchain, hlast, hall⟩ := ih
      refine ⟨path ++ [c], ?_, List.isChain_append.mpr ⟨hchain, .singleton c, ?_⟩, by simp, ?_⟩
      · rw [List.head?_append, hhead]
        rfl
      · intro x hx y hy
        obtain rfl := Option.some.inj (hlast.symm.trans hx)
        obtain rfl := Option.some.inj hy
        exact he
      · intro n hn
        rcases List.mem_append.mp hn with hn | hn
        · exact hall n hn
        · exact List.mem_singleton.mp hn ▸ hc
  · rintro ⟨path, hhead, hchain, hlast, hall⟩
    exact (path_of_chain hchain hhead (List.mem_of_getLast? hlast)).mono hall

theorem Reaches.refl (g : Graph) (a : Nat) : g.Reaches a a := .here trivial

theorem Reaches.trans (h : g.Reaches a b) (h' : g.Reaches b c) : g.Reaches a c := Path.trans h h'

theorem Reaches.edge (h : g.Reaches a b) (he : g.Edge b c) : g.Reaches a c := .snoc h he trivial

namespace Dominates

variable {entry : Nat}

theorem refl (g : Graph) (entry a : Nat) : g.Dominates entry a a := fun h => h.last rfl

theorem of_entry (g : Graph) (entry a : Nat) : g.Dominates entry entry a := fun h => h.first rfl

/-- A strict dominator of a node dominates every node that leads to it. -/
theorem of_edge (h : g.Dominates entry a c) (hne : a ≠ c) (he : g.Edge b c) : g.Dominates entry a b :=
  fun hb => h (.snoc hb he (Ne.symm hne))

theorem of_preds (hne : b ≠ entry) (h : ∀ c, g.Edge c b → g.Dominates entry a c) : g.Dominates entry a b := by
  intro hpath
  cases hpath with
  | here => exact hne rfl
  | snoc hpath he _ => exact h _ he hpath

theorem eq_entry (h : g.Dominates entry a entry) : a = entry := by
  by_cases ha : entry = a
  · exact ha.symm
  · exact absurd (.here ha) h

theorem reaches (h : g.Dominates entry a b) (hr : g.Reaches entry b) : g.Reaches a b := by
  obtain hall | ⟨c, hc, -, hcb, -⟩ := hr.meets (· ≠ a)
  · exact absurd (hall.mono fun _ hx => hx.2) h
  · exact Decidable.not_not.mp hc ▸ hcb

theorem reached (h : g.Dominates entry a b) (hr : g.Reaches entry b) : g.Reaches entry a := by
  obtain hall | ⟨c, hc, hac, -, -⟩ := hr.meets (· ≠ a)
  · exact absurd (hall.mono fun _ hx => hx.2) h
  · exact Decidable.not_not.mp hc ▸ hac

theorem trans (hab : g.Dominates entry a b) (hbc : g.Dominates entry b c) : g.Dominates entry a c := by
  intro hc
  obtain hall | ⟨d, hd, had, -, -⟩ := hc.meets (· ≠ b)
  · exact hbc (hall.mono fun _ h => h.2)
  · obtain rfl : d = b := Decidable.not_not.mp hd
    exact hab had

theorem antisymm (hr : g.Reaches entry a) (hab : g.Dominates entry a b)
    (hba : g.Dominates entry b a) : a = b := by
  refine Classical.byContradiction fun hne => ?_
  -- the first of the two nodes on a path is reached without the other
  obtain hall | ⟨c, hc, -, -, hfirst⟩ := hr.meets fun n => n ≠ a ∧ n ≠ b
  · exact hall.last.2.1 rfl
  · have avoid : ∀ d, c ≠ d → (d = a ∨ d = b) → g.Path (· ≠ d) entry c := by
      intro d hcd hd
      rcases hfirst with rfl | ⟨m, hm, he⟩
      · exact .here hcd
      · refine .snoc (hm.mono fun n hn => ?_) he hcd
        rcases hd with rfl | rfl
        · exact hn.2.1
        · exact hn.2.2
    have hcab : c = a ∨ c = b := by
      by_cases hca : c = a
      · exact .inl hca
      · exact .inr (Decidable.not_not.mp fun hcb => hc ⟨hca, hcb⟩)
    rcases hcab with rfl | rfl
    · exact hba (avoid b hne (.inr rfl))
    · exact hab (avoid a (Ne.symm hne) (.inl rfl))

/-- Two dominators of a reachable node are ordered by dominance. -/
theorem total (hr : g.Reaches entry c) (ha : g.Dominates entry a c) (hb : g.Dominates entry b c) :
    g.Dominates entry a b ∨ g.Dominates entry b a := by
  refine Classical.byContradiction fun hno => ?_
  obtain ⟨hab, hba⟩ := not_or.mp hno
  have toB : g.Path (· ≠ a) entry b := Classical.not_not.mp hab
  have toA : g.Path (· ≠ b) entry a := Classical.not_not.mp hba
  obtain hall | rfl | ⟨d, -, had, hdc⟩ := hr.after a
  · exact ha (hall.mono fun _ h => h.2)
  · exact hba hb
  · obtain hall | ⟨x, hx, -, hxc, -⟩ := hdc.meets (· ≠ b)
    · exact hb (.trans (.snoc toA had hall.first.2) (hall.mono fun _ h => h.2))
    · obtain rfl : x = b := Decidable.not_not.mp hx
      exact ha (toB.trans (hxc.mono fun _ h => h.2))

end Dominates

/-- The dominators of a node are what all paths to it have in common. -/
theorem dominates_iff_chain {entry : Nat} : g.Dominates entry a b ↔ ∀ path : List Nat, path.head? = some entry →
    path.IsChain g.Edge → path.getLast? = some b → a ∈ path := by
  rw [Dominates, path_iff_chain]
  constructor
  · intro h path hhead hchain hlast
    by_contra ha
    exact h ⟨path, hhead, hchain, hlast, fun n hn hna => ha (hna ▸ hn)⟩
  · rintro h ⟨path, hhead, hchain, hlast, hall⟩
    exact hall a (h path hhead hchain hlast) rfl

end CountMotion.Graph
