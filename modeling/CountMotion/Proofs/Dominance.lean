import CountMotion.Proofs.SoundFacts

/-! Both dominator trees say what all paths have in common. -/
namespace CountMotion

/-- The iteration ends in a tree that links just the nodes the entry reaches, however the cycles of
the graph are entered. The tree of a routine tells for any two blocks whether all paths to the one
pass the other. -/
theorem dominator_tree_tells_paths :
    (∀ (g preds : Graph) (entry : Nat), entry < g.size → DomTree.Mirrors preds g →
      ∃ t, DomTree.build g preds entry = .ok t ∧ t.parent.length = g.size ∧
        ∀ n, (t.parentOf n).isSome ↔ g.Reaches entry n) ∧
    ∀ r : Routine, r.check = .ok () → ∃ t, r.domTree = .ok t ∧ ∀ a b, t.dominates a b ↔
      a = b ∨ r.flow.Reaches r.entry b ∧ ∀ path : List BlockId, path.head? = some r.entry →
        path.IsChain r.flow.Edge → path.getLast? = some b → a ∈ path := by
  constructor
  · intro g preds entry hentry hmirrors
    obtain ⟨t, ht, hexact⟩ := DomTree.build_exact hentry hmirrors
    exact ⟨t, ht, hexact.size, hexact.reaches_iff⟩
  · intro r h
    obtain ⟨t, ht, hexact⟩ := r.domTree_exact (Routine.entry_lt_of_check h)
    refine ⟨t, ht, fun a b => ?_⟩
    rw [hexact.dominates_iff, Graph.dominates_iff_chain]

/-- Two blocks that lead to each other and are both entered from outside, and a block before one of
them that nothing leads to. -/
def enteredTwice : Routine where
  name := "entered_twice"
  params := [0]
  blocks := [⟨0, [], .branch 0 1 2⟩, ⟨1, [], .jump 2⟩, ⟨2, [], .branch 0 1 3⟩, ⟨3, [], .ret 0⟩, ⟨4, [], .jump 1⟩]
  entry := 0
  storage := [.trivial]

theorem dominator_tree_tells_paths_enteredTwice :
    (enteredTwice.entry < enteredTwice.flow.size ∧ DomTree.Mirrors enteredTwice.backflow enteredTwice.flow ∧
      ∃ t, DomTree.build enteredTwice.flow enteredTwice.backflow enteredTwice.entry = .ok t ∧
        t.parent.length = enteredTwice.flow.size ∧
        ∀ n, (t.parentOf n).isSome ↔ enteredTwice.flow.Reaches enteredTwice.entry n) ∧
    enteredTwice.check = .ok () ∧ enteredTwice.domTree.map (fun t => t.parent) = .ok [some 0, some 0, some 0, some 2, none] ∧
    ∃ t, enteredTwice.domTree = .ok t ∧ ∀ a b, t.dominates a b ↔
      a = b ∨ enteredTwice.flow.Reaches enteredTwice.entry b ∧
        ∀ path : List BlockId, path.head? = some enteredTwice.entry → path.IsChain enteredTwice.flow.Edge →
          path.getLast? = some b → a ∈ path :=
  ⟨⟨by decide, Graph.mirrors_flip _, dominator_tree_tells_paths.1 _ _ _ (by decide) (Graph.mirrors_flip _)⟩,
    rfl, by decide +kernel, dominator_tree_tells_paths.2 enteredTwice rfl⟩

namespace Routine

variable {r : Routine} {t : DomTree} {a b c : BlockId}

/-- Control that goes on from `b` can leave the routine, and always passes `a` before it does. Every
block comes after itself in this sense. -/
def PostDominates (r : Routine) (a b : BlockId) : Prop :=
  a = b ∨ (∃ c ∈ r.leaving, r.flow.Reaches b c) ∧ ∀ path : List BlockId, path.head? = some b →
    path.IsChain r.flow.Edge → ∀ c ∈ r.leaving, path.getLast? = some c → a ∈ path

/-- The nearest of the other blocks that post-dominate `b`. -/
structure NextPostDominator (r : Routine) (a b : BlockId) : Prop where
  block : a < r.blocks.length
  ne : a ≠ b
  after : r.PostDominates a b
  nearest : ∀ c < r.blocks.length, c ≠ b → r.PostDominates c b → r.PostDominates c a

/-- To dominate from the virtual exit in the reversed flow is to post-dominate. -/
theorem postDominates_iff (ht : t.Exact r.exitflow r.blocks.length) (ha : a < r.blocks.length)
    (hb : b < r.blocks.length) : t.dominates a b ↔ r.PostDominates a b := by
  have hpaths : (¬ ∃ c ∈ r.leaving, r.flow.Path (· ≠ a) b c) ↔ ∀ path : List BlockId, path.head? = some b →
      path.IsChain r.flow.Edge → ∀ c ∈ r.leaving, path.getLast? = some c → a ∈ path := by
    constructor
    · intro h path hhead hchain c hc hlast
      exact Graph.dominates_iff_chain.mp (fun hp => h ⟨c, hc, hp⟩) path hhead hchain hlast
    · rintro h ⟨c, hc, hp⟩
      exact Graph.dominates_iff_chain.mpr (fun path hhead hchain hlast => h path hhead hchain c hc hlast) hp
  rw [ht.dominates_iff, Graph.Dominates, path_from_exit (p := (· ≠ a)) (Nat.ne_of_gt ha) hb, hpaths,
    Graph.Reaches, path_from_exit trivial hb]
  rfl

theorem le_of_dominates (ht : t.Exact r.exitflow r.blocks.length) (h : t.dominates a b) (hne : a ≠ b) :
    a ≤ r.blocks.length := by
  obtain ⟨hr, hd⟩ := ((ht.dominates_iff a b).mp h).resolve_left hne
  obtain ⟨c, he, -⟩ := (hd.reaches hr).uncons.resolve_left hne
  have ha := he.lt_size
  rw [size_exitflow] at ha
  exact Nat.le_of_lt_succ ha

theorem eq_exit_of_dominates (ht : t.Exact r.exitflow r.blocks.length) (h : t.dominates a r.blocks.length) :
    a = r.blocks.length := by
  rcases (ht.dominates_iff _ _).mp h with rfl | ⟨-, hd⟩
  · rfl
  · exact hd.eq_entry

theorem above_eq_some_iff (ht : t.Exact r.exitflow r.blocks.length) (hb : b < r.blocks.length) :
    (PostDomTree.mk t).above b = some a ↔ r.NextPostDominator a b := by
  have hexit : (PostDomTree.mk t).exit = r.blocks.length := by
    rw [PostDomTree.exit, ht.size, size_exitflow, Nat.add_sub_cancel]
  rw [PostDomTree.above, Option.filter_eq_some_iff, hexit, ht.above_eq_some_iff, bne_iff_ne]
  constructor
  · rintro ⟨⟨hne, hd, hnearest⟩, hax⟩
    have ha : a < r.blocks.length := Nat.lt_of_le_of_ne (le_of_dominates ht hd hne) hax
    refine ⟨ha, hne, (postDominates_iff ht ha hb).mp hd, fun c hc hcb hpost => ?_⟩
    exact (postDominates_iff ht hc ha).mp (hnearest c hcb ((postDominates_iff ht hc hb).mpr hpost))
  · rintro ⟨ha, hne, hpost, hnearest⟩
    have hd := (postDominates_iff ht ha hb).mpr hpost
    refine ⟨⟨hne, hd, fun c hcb hc => ?_⟩, Nat.ne_of_lt ha⟩
    rcases Nat.lt_or_eq_of_le (le_of_dominates ht hc hcb) with hlt | rfl
    · exact (postDominates_iff ht hlt ha).mpr (hnearest c hlt hcb ((postDominates_iff ht hlt hb).mp hc))
    · -- control leaves from `b` by way of `a`, so it leaves from `a`
      obtain ⟨hr, hab⟩ := ((ht.dominates_iff a b).mp hd).resolve_left hne
      exact (ht.dominates_iff _ _).mpr (.inr ⟨hab.reached hr, .of_entry _ _ _⟩)

end Routine

/-- The tree over the reversed flow, however many blocks leave the routine and whether or not the
entry reaches them, tells which blocks control must pass before it leaves, and which of them is the
nearest. -/
theorem post_dominator_tree_tells_paths (r : Routine) : ∃ t, r.postDomTree = .ok t ∧ ∀ b < r.blocks.length,
    (∀ a < r.blocks.length, t.postDominates a b ↔ r.PostDominates a b) ∧
    (∀ a, t.above b = some a ↔ r.NextPostDominator a b) ∧
    (t.above b = none ↔ ∀ a < r.blocks.length, r.PostDominates a b → a = b) := by
  obtain ⟨t, ht, hexact⟩ := r.postDomTree_exact
  refine ⟨⟨t⟩, ht, fun b hb => ⟨fun a ha => Routine.postDominates_iff hexact ha hb,
    fun a => Routine.above_eq_some_iff hexact hb, ?_⟩⟩
  constructor
  · intro hnone a ha hpost
    by_contra hne
    have hd := (Routine.postDominates_iff hexact ha hb).mpr hpost
    obtain ⟨p, hp, hap⟩ := (hexact.dominates_cases.mp hd).resolve_left hne
    have hexit : p = (PostDomTree.mk t).exit := by simpa [PostDomTree.above, hp] using hnone
    rw [PostDomTree.exit, hexact.size, Routine.size_exitflow, Nat.add_sub_cancel] at hexit
    rw [hexit] at hap
    exact Nat.ne_of_lt ha (Routine.eq_exit_of_dominates hexact hap)
  · intro hall
    cases habove : (PostDomTree.mk t).above b with
    | none => rfl
    | some a =>
      have hnext := (Routine.above_eq_some_iff hexact hb).mp habove
      exact absurd (hall a hnext.block hnext.after) hnext.ne

/-- A branch to a return, to a block from which control cannot leave, and to a trap; a block that
nothing leads to comes before the return. -/
def unevenEnds : Routine where
  name := "uneven_ends"
  params := [0]
  blocks := [⟨0, [], .branch 0 1 2⟩, ⟨1, [], .jump 3⟩, ⟨2, [], .switch 0 [(0, 3), (1, 4)] 5⟩, ⟨3, [], .ret 0⟩,
    ⟨4, [], .jump 4⟩, ⟨5, [], .trap⟩, ⟨6, [], .jump 1⟩]
  entry := 0
  storage := [.trivial]

theorem post_dominator_tree_tells_paths_unevenEnds : 6 < unevenEnds.blocks.length ∧
    (unevenEnds.postDomTree.map fun t => (List.range 7).map t.above) =
      .ok [none, some 3, none, none, none, none, some 1] ∧
    ∃ t, unevenEnds.postDomTree = .ok t ∧
      (t.postDominates 3 6 ↔ unevenEnds.PostDominates 3 6) ∧
      (t.above 6 = some 1 ↔ unevenEnds.NextPostDominator 1 6) ∧
      (t.above 4 = none ↔ ∀ a < unevenEnds.blocks.length, unevenEnds.PostDominates a 4 → a = 4) := by
  obtain ⟨t, ht, htells⟩ := post_dominator_tree_tells_paths unevenEnds
  have h6 := htells 6 (by decide)
  exact ⟨by decide, by decide +kernel, t, ht, h6.1 3 (by decide), h6.2.1 1, (htells 4 (by decide)).2.2⟩

end CountMotion
