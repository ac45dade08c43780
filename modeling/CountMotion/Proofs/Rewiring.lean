import CountMotion.Proofs.NaturalLoop

/-! A graph in which some edges to one node lead through a new node: its paths are those of the old
graph, and so are its loops, if the edges go back as a whole or not at all. -/
namespace CountMotion.Graph

variable {g wide : Graph} {entry target a b h l s x : Nat} {source p : Nat → Prop}

/-- The edges from the sources to the target lead through a new node. -/
structure Rewires (g wide : Graph) (target : Nat) (source : Nat → Prop) : Prop where
  size : wide.size = g.size + 1
  target_lt : target < g.size
  source_edge : ∀ {x}, source x → g.Edge x target
  edge_iff : ∀ {x y}, wide.Edge x y ↔
    g.Edge x y ∧ ¬ (source x ∧ y = target) ∨ source x ∧ y = g.size ∨ x = g.size ∧ y = target

theorem Edge.ne_size (h : g.Edge a b) : a ≠ g.size := Nat.ne_of_lt h.lt_size

theorem Edge.ne_size_right (h : g.Edge a b) : b ≠ g.size := Nat.ne_of_lt h.2

namespace Rewires

variable (hw : g.Rewires wide target source)

include hw

theorem edge_to_new : wide.Edge x g.size ↔ source x := by
  rw [hw.edge_iff]
  constructor
  · rintro (⟨he, -⟩ | ⟨hs, -⟩ | ⟨-, heq⟩)
    · exact absurd rfl he.ne_size_right
    · exact hs
    · exact absurd heq.symm (Nat.ne_of_lt hw.target_lt)
  · exact fun hs => .inr (.inl ⟨hs, rfl⟩)

theorem edge_of_new : wide.Edge g.size x ↔ x = target := by
  rw [hw.edge_iff]
  constructor
  · rintro (⟨he, -⟩ | ⟨hs, -⟩ | ⟨-, heq⟩)
    · exact absurd rfl he.ne_size
    · exact absurd rfl (hw.source_edge hs).ne_size
    · exact heq
  · exact fun heq => .inr (.inr ⟨rfl, heq⟩)

theorem edge_old (ha : a ≠ g.size) (hb : b ≠ g.size) : wide.Edge a b ↔ g.Edge a b ∧ ¬ (source a ∧ b = target) := by
  rw [hw.edge_iff]
  constructor
  · rintro (h | ⟨-, heq⟩ | ⟨heq, -⟩)
    · exact h
    · exact absurd heq hb
    · exact absurd heq ha
  · exact .inl

theorem edge_other (hb : b ≠ g.size) (hbt : b ≠ target) : wide.Edge a b ↔ g.Edge a b := by
  rw [hw.edge_iff]
  constructor
  · rintro (⟨he, -⟩ | ⟨-, heq⟩ | ⟨-, heq⟩)
    · exact he
    · exact absurd heq hb
    · exact absurd heq hbt
  · exact fun he => .inl ⟨he, fun h => hbt h.2⟩

theorem edge_target : wide.Edge a target ↔ g.Edge a target ∧ ¬ source a ∨ a = g.size := by
  rw [hw.edge_iff]
  constructor
  · rintro (⟨he, hs⟩ | ⟨-, heq⟩ | ⟨heq, -⟩)
    · exact .inl ⟨he, fun h => hs ⟨h, rfl⟩⟩
    · exact absurd heq (Nat.ne_of_lt hw.target_lt)
    · exact .inr heq
  · rintro (⟨he, hs⟩ | heq)
    · exact .inl ⟨he, fun h => hs h.1⟩
    · exact .inr (.inr ⟨heq, rfl⟩)

/-- A path takes the new edges where it took one of the old ones. -/
theorem lift (hp : g.Path p a b) (hnew : p g.size) : wide.Path p a b := by
  induction hp with
  | here ha => exact .here ha
  | @snoc m c hm he hc ih =>
    by_cases hs : source m ∧ c = target
    · exact .snoc (.snoc ih (hw.edge_to_new.mpr hs.1) hnew) (hw.edge_of_new.mpr hs.2) hc
    · exact .snoc ih ((hw.edge_old he.ne_size he.ne_size_right).mpr ⟨he, hs⟩) hc

theorem drop (hp : wide.Path p a b) (ha : a ≠ g.size) :
    (b ≠ g.size → g.Path p a b) ∧ (b = g.size → ∃ s, source s ∧ g.Path p a s) := by
  induction hp with
  | here hpa => exact ⟨fun _ => .here hpa, fun heq => absurd heq ha⟩
  | @snoc m c hm he hc ih =>
    rcases hw.edge_iff.mp he with ⟨he, -⟩ | ⟨hs, rfl⟩ | ⟨rfl, rfl⟩
    · exact ⟨fun _ => .snoc (ih.1 he.ne_size) he hc, fun heq => absurd heq he.ne_size_right⟩
    · exact ⟨fun hne => absurd rfl hne, fun _ => ⟨m, hs, ih.1 (hw.source_edge hs).ne_size⟩⟩
    · obtain ⟨s, hs, hpath⟩ := ih.2 rfl
      exact ⟨fun _ => .snoc hpath (hw.source_edge hs) hc, fun heq => absurd heq (Nat.ne_of_lt hw.target_lt)⟩

theorem path_iff (ha : a ≠ g.size) (hb : b ≠ g.size) (hnew : p g.size) : wide.Path p a b ↔ g.Path p a b :=
  ⟨fun hp => (hw.drop hp ha).1 hb, fun hp => hw.lift hp hnew⟩

theorem path_to_new (ha : a ≠ g.size) (hnew : p g.size) : wide.Path p a g.size ↔ ∃ s, source s ∧ g.Path p a s := by
  refine ⟨fun hp => (hw.drop hp ha).2 rfl, ?_⟩
  rintro ⟨s, hs, hp⟩
  exact .snoc (hw.lift hp hnew) (hw.edge_to_new.mpr hs) hnew

theorem path_of_new (hb : b ≠ g.size) (hnew : p g.size) : wide.Path p g.size b ↔ g.Path p target b := by
  rw [← hw.path_iff (Nat.ne_of_lt hw.target_lt) hb hnew]
  constructor
  · intro hp
    obtain rfl | ⟨c, he, hp⟩ := hp.uncons
    · exact absurd rfl hb
    · exact hw.edge_of_new.mp he ▸ hp
  · exact .cons hnew (hw.edge_of_new.mpr rfl)

/-- Where the new node becomes the entry before the old one, nodes dominate as before. -/
theorem dominates_moved (ha : a ≠ g.size) (hb : b ≠ g.size) :
    wide.Dominates g.size a b ↔ g.Dominates target a b :=
  not_congr (hw.path_of_new hb ha.symm)

section Unmoved

variable (hentry : entry ≠ g.size)

include hentry

theorem reaches_iff (hx : x ≠ g.size) : wide.Reaches entry x ↔ g.Reaches entry x :=
  hw.path_iff hentry hx trivial

theorem reaches_new : wide.Reaches entry g.size ↔ ∃ s, source s ∧ g.Reaches entry s :=
  hw.path_to_new hentry trivial

theorem dominates_iff (ha : a ≠ g.size) (hb : b ≠ g.size) :
    wide.Dominates entry a b ↔ g.Dominates entry a b :=
  not_congr (hw.path_iff hentry hb ha.symm)

theorem dominates_new (ha : a ≠ g.size) :
    wide.Dominates entry a g.size ↔ ∀ s, source s → g.Dominates entry a s := by
  rw [Dominates, hw.path_to_new hentry ha.symm]
  constructor
  · exact fun h s hs hp => h ⟨s, hs, hp⟩
  · rintro h ⟨s, hs, hp⟩
    exact h s hs hp

theorem latch_iff (hh : h ≠ g.size) (hl : l ≠ g.size) :
    wide.Latch entry h l ↔ g.Latch entry h l ∧ ¬ (source l ∧ h = target) := by
  constructor
  · intro hlatch
    obtain ⟨he, hs⟩ := (hw.edge_old hl hh).mp hlatch.edge
    exact ⟨⟨he, (hw.reaches_iff hentry hl).mp hlatch.reached, (hw.dominates_iff hentry hh hl).mp hlatch.dominated⟩, hs⟩
  · rintro ⟨hlatch, hs⟩
    exact ⟨(hw.edge_old hl hh).mpr ⟨hlatch.edge, hs⟩, (hw.reaches_iff hentry hl).mpr hlatch.reached,
      (hw.dominates_iff hentry hh hl).mpr hlatch.dominated⟩

theorem latch_new (hh : h ≠ g.size) : wide.Latch entry h g.size ↔
    h = target ∧ (∃ s, source s ∧ g.Reaches entry s) ∧ ∀ s, source s → g.Dominates entry target s := by
  constructor
  · intro hlatch
    obtain rfl := hw.edge_of_new.mp hlatch.edge
    exact ⟨rfl, (hw.reaches_new hentry).mp hlatch.reached, (hw.dominates_new hentry hh).mp hlatch.dominated⟩
  · rintro ⟨rfl, hr, hd⟩
    exact ⟨hw.edge_of_new.mpr rfl, (hw.reaches_new hentry).mpr hr, (hw.dominates_new hentry hh).mpr hd⟩

end Unmoved

end Rewires

/-- The loops of the old graph are those of the new one. The new node is in those that hold the
target and a source. -/
structure KeepsLoops (g wide : Graph) (entry start target : Nat) (source : Nat → Prop) : Prop where
  header_iff : ∀ {h}, wide.Header start h ↔ g.Header entry h
  inLoop_iff : ∀ {h x}, h ≠ g.size → x ≠ g.size → (wide.InLoop start h x ↔ g.InLoop entry h x)
  inLoop_new : ∀ {h}, h ≠ g.size → (wide.InLoop start h g.size ↔
    g.InLoop entry h target ∧ ∃ s, source s ∧ g.Reaches entry s ∧ g.InLoop entry h s)

/-- The target dominates all the sources, or none that is reached. -/
def Uniform (g : Graph) (entry target : Nat) (source : Nat → Prop) : Prop :=
  (∀ s, source s → g.Dominates entry target s) ∨
    ∀ s, source s → g.Reaches entry s → ¬ g.Dominates entry target s

theorem Uniform.dominates (hu : g.Uniform entry target source) (hs : source s) (hr : g.Reaches entry s)
    (hd : g.Dominates entry target s) : ∀ s, source s → g.Dominates entry target s := by
  rcases hu with hall | hnone
  · exact hall
  · exact absurd hd (hnone s hs hr)

namespace Rewires

variable (hw : g.Rewires wide target source)

include hw

theorem lift_avoiding (hp : g.Path (· ≠ target) a b) (ha : a ≠ g.size) : wide.Path (· ≠ g.size) a b := by
  induction hp with
  | here => exact .here ha
  | @snoc m c _ he hc ih =>
    exact .snoc ih ((hw.edge_old he.ne_size he.ne_size_right).mpr ⟨he, fun h => hc h.2⟩) he.ne_size_right

theorem not_dominates_source (hentry : entry ≠ g.size) (hu : g.Uniform entry target source) (hs : source s)
    (hr : g.Reaches entry s) : ¬ wide.Dominates entry g.size s := by
  refine fun hdom => hdom ?_
  by_cases hd : g.Dominates entry target s
  · have hall := hu.dominates hs hr hd
    have toTarget : wide.Path (· ≠ g.size) entry target := by
      obtain hp | ⟨c, hc, -, -, hfirst⟩ := hr.meets (· ≠ target)
      · exact absurd (hp.mono fun _ hn => hn.2) hd
      · obtain rfl : c = target := Decidable.not_not.mp hc
        rcases hfirst with rfl | ⟨m, hm, he⟩
        · exact .here hentry
        · have hpm := hm.mono fun _ (hn : True ∧ _) => hn.2
          exact .snoc (hw.lift_avoiding hpm hentry)
            ((hw.edge_old he.ne_size he.ne_size_right).mpr ⟨he, fun h => hall m h.1 hpm⟩) he.ne_size_right
    obtain hp | rfl | ⟨d, -, he, hds⟩ := hr.after target
    · exact absurd (hp.mono fun _ hn => hn.2) hd
    · exact toTarget
    · have hpd := hds.mono fun _ (hn : True ∧ _) => hn.2
      have hd' := (hw.edge_old he.ne_size he.ne_size_right).mpr ⟨he, fun h => hpd.first h.2⟩
      exact toTarget.trans (.cons (Nat.ne_of_lt hw.target_lt) hd' (hw.lift_avoiding hpd he.ne_size_right))
  · exact hw.lift_avoiding (Classical.not_not.mp hd) hentry

section Unmoved

variable (hentry : entry ≠ g.size) (hu : g.Uniform entry target source)

include hentry hu

theorem header_iff : wide.Header entry h ↔ g.Header entry h := by
  constructor
  · rintro ⟨l, hl⟩
    have hh : h ≠ g.size := by
      rintro rfl
      have hs := hw.edge_to_new.mp hl.edge
      have hr := (hw.reaches_iff hentry (hw.source_edge hs).ne_size).mp hl.reached
      exact hw.not_dominates_source hentry hu hs hr hl.dominated
    by_cases hnew : l = g.size
    · subst hnew
      obtain ⟨rfl, ⟨s, hs, hr⟩, hd⟩ := (hw.latch_new hentry hh).mp hl
      exact ⟨s, hw.source_edge hs, hr, hd s hs⟩
    · exact ⟨l, ((hw.latch_iff hentry hh hnew).mp hl).1⟩
  · rintro ⟨l, hl⟩
    have hh := hl.edge.ne_size_right
    by_cases hs : source l ∧ h = target
    · obtain ⟨hs, rfl⟩ := hs
      exact ⟨g.size, (hw.latch_new hentry hh).mpr
        ⟨rfl, ⟨l, hs, hl.reached⟩, hu.dominates hs hl.reached hl.dominated⟩⟩
    · exact ⟨l, (hw.latch_iff hentry hh hl.edge.ne_size).mpr ⟨hl, hs⟩⟩

theorem inLoop_iff (hh : h ≠ g.size) (hx : x ≠ g.size) : wide.InLoop entry h x ↔ g.InLoop entry h x := by
  constructor
  · rintro (rfl | ⟨hr, l, hl, hp⟩)
    · exact .inl rfl
    have hr := (hw.reaches_iff hentry hx).mp hr
    by_cases hnew : l = g.size
    · subst hnew
      obtain ⟨rfl, -, hd⟩ := (hw.latch_new hentry hh).mp hl
      obtain ⟨s, hs, hps⟩ := (hw.path_to_new hx hh.symm).mp hp
      exact .inr ⟨hr, s, ⟨hw.source_edge hs, hr.trans hps.reaches, hd s hs⟩, hps⟩
    · exact .inr ⟨hr, l, ((hw.latch_iff hentry hh hnew).mp hl).1, (hw.path_iff hx hnew hh.symm).mp hp⟩
  · rintro (rfl | ⟨hr, l, hl, hp⟩)
    · exact .inl rfl
    have hr' := (hw.reaches_iff hentry hx).mpr hr
    have hp' := hw.lift hp hh.symm
    by_cases hs : source l ∧ h = target
    · obtain ⟨hs, rfl⟩ := hs
      have hd := hu.dominates hs hl.reached hl.dominated
      exact .inr ⟨hr', g.size, (hw.latch_new hentry hh).mpr ⟨rfl, ⟨l, hs, hl.reached⟩, hd⟩,
        .snoc hp' (hw.edge_to_new.mpr hs) hh.symm⟩
    · exact .inr ⟨hr', l, (hw.latch_iff hentry hh hl.edge.ne_size).mpr ⟨hl, hs⟩, hp'⟩

theorem inLoop_new (hh : h ≠ g.size) : wide.InLoop entry h g.size ↔
    g.InLoop entry h target ∧ ∃ s, source s ∧ g.Reaches entry s ∧ g.InLoop entry h s := by
  constructor
  · rintro (heq | ⟨hr, l, hl, hp⟩)
    · exact absurd heq.symm hh
    obtain ⟨s, hs, hrs⟩ := (hw.reaches_new hentry).mp hr
    by_cases hnew : l = g.size
    · subst hnew
      obtain ⟨rfl, -, hd⟩ := (hw.latch_new hentry hh).mp hl
      exact ⟨.inl rfl, s, hs, hrs, Latch.inLoop ⟨hw.source_edge hs, hrs, hd s hs⟩⟩
    · have hpt := (hw.path_of_new hnew hh.symm).mp hp
      have ht : g.InLoop entry h target :=
        .inr ⟨hrs.edge (hw.source_edge hs), l, ((hw.latch_iff hentry hh hnew).mp hl).1, hpt⟩
      exact ⟨ht, s, hs, hrs, ht.of_edge hpt.first hrs (hw.source_edge hs)⟩
  · rintro ⟨ht, s, hs, hrs, hin⟩
    have hr := (hw.reaches_new hentry).mpr ⟨s, hs, hrs⟩
    rcases ht with rfl | ⟨-, l, hl, hp⟩
    · have hd := hu.dominates hs hrs hin.dominated
      exact .inr ⟨hr, g.size, (hw.latch_new hentry hh).mpr ⟨rfl, ⟨s, hs, hrs⟩, hd⟩, .here hh.symm⟩
    · have hl' := (hw.latch_iff hentry hh hl.edge.ne_size).mpr ⟨hl, fun h => hp.first h.2.symm⟩
      exact .inr ⟨hr, l, hl', (hw.path_of_new hl.edge.ne_size hh.symm).mpr hp⟩

/-- Where the entry stays, sources that go back as a whole or not at all keep the loops. -/
theorem keepsLoops : g.KeepsLoops wide entry entry target source :=
  ⟨hw.header_iff hentry hu, hw.inLoop_iff hentry hu, hw.inLoop_new hentry hu⟩

end Unmoved

/-- Where the new node becomes the entry before the old one, and no source is reached, the loops are kept. -/
theorem keepsLoops_moved (hun : ∀ s, source s → ¬ g.Reaches target s) :
    g.KeepsLoops wide target g.size target source := by
  have htarget := Nat.ne_of_lt hw.target_lt
  have reaches_iff : ∀ {x}, x ≠ g.size → (wide.Reaches g.size x ↔ g.Reaches target x) :=
    fun hx => hw.path_of_new hx trivial
  have latch_iff : ∀ {h l}, wide.Latch g.size h l ↔ g.Latch target h l := by
    intro h l
    constructor
    · intro hl
      have hne : l ≠ g.size := by
        rintro rfl
        obtain rfl := hw.edge_of_new.mp hl.edge
        exact hl.dominated (.here htarget.symm)
      have hr := (reaches_iff hne).mp hl.reached
      have hh : h ≠ g.size := by
        rintro rfl
        exact hun l (hw.edge_to_new.mp hl.edge) hr
      exact ⟨((hw.edge_old hne hh).mp hl.edge).1, hr,
        fun hp => hl.dominated ((hw.path_of_new hne hh.symm).mpr hp)⟩
    · intro hl
      have hne := hl.edge.ne_size
      have hh := hl.edge.ne_size_right
      exact ⟨(hw.edge_old hne hh).mpr ⟨hl.edge, fun hs => hun l hs.1 hl.reached⟩, (reaches_iff hne).mpr hl.reached,
        fun hp => hl.dominated ((hw.path_of_new hne hh.symm).mp hp)⟩
  refine ⟨exists_congr fun l => latch_iff, ?_, ?_⟩
  · intro h x hh hx
    refine or_congr Iff.rfl (and_congr (reaches_iff hx) (exists_congr fun l => ?_))
    rw [latch_iff]
    exact and_congr_right fun hl => hw.path_iff hx hl.edge.ne_size hh.symm
  · intro h hh
    constructor
    · rintro (heq | ⟨-, l, hl, hp⟩)
      · exact absurd heq.symm hh
      · have hl := latch_iff.mp hl
        exact absurd ((hw.path_of_new hl.edge.ne_size hh.symm).mp hp) hl.dominated
    · rintro ⟨-, s, hs, hr, -⟩
      exact absurd hr (hun s hs)

end Rewires

end CountMotion.Graph
