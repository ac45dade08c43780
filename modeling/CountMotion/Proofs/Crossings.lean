import CountMotion.Proofs.Rewiring
import Mathlib.Combinatorics.Enumerative.DoubleCounting

/-! How much the loops of a graph still lack: preheaders, and exits of their own where edges out of
several loops meet. Rewiring the edges that come from one side of a loop keeps all that is there. -/
namespace CountMotion.Graph

open Finset

variable {g wide : Graph} {entry start target e h k m x y v : Nat} {P Q source : Nat → Prop}

/-- The header of the smallest loop around a node. -/
structure Inner (g : Graph) (entry h x : Nat) : Prop where
  header : g.Header entry h
  holds : g.InLoop entry h x
  least : ∀ k, g.Header entry k → g.InLoop entry k x → g.InLoop entry k h

theorem Header.lt_size (hh : g.Header entry h) : h < g.size := by
  obtain ⟨l, hl⟩ := hh
  exact hl.edge.2

theorem Header.ne_size (hh : g.Header entry h) : h ≠ g.size := Nat.ne_of_lt hh.lt_size

/-- A loop whose header lies in another loop lies inside it, be they one or two. -/
theorem InLoop.within (hk : g.InLoop entry h k) (hkk : g.Header entry k) (hx : g.InLoop entry k x) :
    g.InLoop entry h x := by
  by_cases hne : k = h
  · exact hne ▸ hx
  · exact hk.nested hne hx hkk

open Classical in
theorem exists_inner (hh : g.Header entry h) (hx : g.InLoop entry h x) : ∃ m, g.Inner entry m x := by
  obtain ⟨m, hm, hmin⟩ := exists_min_image {k ∈ range g.size | g.Header entry k ∧ g.InLoop entry k x}
    (fun k => #{y ∈ range g.size | g.InLoop entry k y}) ⟨h, by simp [hh, hx, hh.lt_size]⟩
  simp only [mem_filter, mem_range] at hm hmin
  obtain ⟨-, hmh, hmx⟩ := hm
  refine ⟨m, hmh, hmx, fun k hk hkx => ?_⟩
  rcases InLoop.header_of_common hk hmh hkx hmx with hin | hin
  · exact hin
  · -- a loop inside the smallest one is no smaller, so it holds the same nodes
    by_contra hout
    refine absurd (hmin k ⟨hk.lt_size, hk, hkx⟩) (Nat.not_le.mpr (card_lt_card ⟨?_, ?_⟩))
    · exact monotone_filter_right _ fun y _ hy => hin.within hk hy
    · intro hsub
      exact hout (mem_filter.mp (hsub (mem_filter.mpr ⟨mem_range.mpr hmh.lt_size, .inl rfl⟩))).2

open Classical in
/-- The loops left on the way to a node from these, each by a node of which it is the smallest. -/
noncomputable def crossed (g : Graph) (entry : Nat) (P : Nat → Prop) (e : Nat) : Finset Nat :=
  {h ∈ range g.size | ¬ g.InLoop entry h e ∧ ∃ x, P x ∧ g.Inner entry h x}

open Classical in
theorem mem_crossed : h ∈ g.crossed entry P e ↔ ¬ g.InLoop entry h e ∧ ∃ x, P x ∧ g.Inner entry h x := by
  rw [crossed, mem_filter, mem_range]
  exact ⟨And.right, fun hc => ⟨hc.2.choose_spec.2.header.lt_size, hc⟩⟩

/-- A loop that has these on one side and those on the other parts what they cross. -/
theorem disjoint_crossed (hk : g.Header entry k)
    (hsides : ∀ x y, P x → Q y → ¬ (g.InLoop entry k x ↔ g.InLoop entry k y)) :
    Disjoint (g.crossed entry P e) (g.crossed entry Q e) := by
  refine disjoint_left.mpr fun h hP hQ => ?_
  obtain ⟨-, x, hx, hhx⟩ := mem_crossed.mp hP
  obtain ⟨-, y, hy, hhy⟩ := mem_crossed.mp hQ
  refine hsides x y hx hy ⟨fun hin => ?_, fun hin => ?_⟩
  · exact (hhx.least k hk hin).within hhx.header hhy.holds
  · exact (hhy.least k hk hin).within hhx.header hhx.holds

open Classical in
theorem crossed_split (e : Nat) (hPQ : ∀ x, g.Edge x e ↔ P x ∨ Q x) :
    g.crossed entry (g.Edge · e) e = g.crossed entry P e ∪ g.crossed entry Q e := by
  ext h
  simp only [mem_union, mem_crossed, hPQ]
  grind

/-- A way to the node, or the start of all, leaves no loop. -/
def Entered (g : Graph) (entry : Nat) (P : Nat → Prop) (e : Nat) : Prop :=
  e = entry ∨ ∃ x, P x ∧ ∀ h, g.Inner entry h x → g.InLoop entry h e

open Classical in
/-- The most detours that a node where loops are left may still need: two for every further loop, and
one if other ways lead there. -/
noncomputable def weight (loops : Nat) (entered : Prop) : Nat :=
  if loops = 0 then 0 else 2 * (loops - 1) + if entered then 1 else 0

theorem weight_split_lt {a b : Nat} {p : Prop} (ha : 0 < a) (hb : 0 < b ∨ p) :
    weight a False + weight b True < weight (a + b) p := by
  simp only [weight]
  grind

theorem weight_split_le {a b : Nat} {p q : Prop} (hqp : q → p) (hb : a = 0 → 0 < b → p) :
    weight a q + weight b True ≤ weight (a + b) p := by
  simp only [weight]
  grind

noncomputable def load (g : Graph) (entry e : Nat) : Nat :=
  weight #(g.crossed entry (g.Edge · e) e) (g.Entered entry (g.Edge · e) e)

open Classical in
/-- The headers of loops without a preheader. -/
noncomputable def bare (g : Graph) (entry : Nat) : Finset Nat :=
  {h ∈ range g.size | g.Header entry h ∧ ∀ p, ¬ g.Preheader entry h p}

open Classical in
theorem mem_bare : h ∈ g.bare entry ↔ g.Header entry h ∧ ∀ p, ¬ g.Preheader entry h p := by
  rw [bare, mem_filter, mem_range]
  exact ⟨And.right, fun hb => ⟨hb.1.lt_size, hb⟩⟩

/-- A bound on the detours that the loops of the graph still need. -/
noncomputable def lack (g : Graph) (entry : Nat) : Nat :=
  #(g.bare entry) + ∑ e ∈ range g.size, g.load entry e

/-- The pairs of a node and a loop left on the way there. -/
noncomputable def crossings (g : Graph) (entry : Nat) : Nat :=
  ∑ e ∈ range g.size, #(g.crossed entry (g.Edge · e) e)

section Step

variable (hw : g.Rewires wide target source) (hk : g.KeepsLoops wide entry start target source)

include hk in
theorem KeepsLoops.inner_iff (hx : x ≠ g.size) : wide.Inner start h x ↔ g.Inner entry h x := by
  constructor
  · intro hi
    have hh := hk.header_iff.mp hi.header
    refine ⟨hh, (hk.inLoop_iff hh.ne_size hx).mp hi.holds, fun k hkk hin => ?_⟩
    exact (hk.inLoop_iff hkk.ne_size hh.ne_size).mp
      (hi.least k (hk.header_iff.mpr hkk) ((hk.inLoop_iff hkk.ne_size hx).mpr hin))
  · intro hi
    have hh := hi.header
    refine ⟨hk.header_iff.mpr hh, (hk.inLoop_iff hh.ne_size hx).mpr hi.holds, fun k hkk hin => ?_⟩
    have hkk := hk.header_iff.mp hkk
    exact (hk.inLoop_iff hkk.ne_size hh.ne_size).mpr (hi.least k hkk ((hk.inLoop_iff hkk.ne_size hx).mp hin))

include hk in
theorem KeepsLoops.inLoop_new_of_inner (hs : source x) (hi : g.Inner entry h x) :
    wide.InLoop start h g.size ↔ g.InLoop entry h target := by
  rw [hk.inLoop_new hi.header.ne_size]
  exact ⟨And.left, fun ht => ⟨ht, x, hs, hi.holds.reached hi.header, hi.holds⟩⟩

include hk in
theorem KeepsLoops.inLoop_target_of_inner (hi : wide.Inner start h g.size) : g.InLoop entry h target :=
  ((hk.inLoop_new (hk.header_iff.mp hi.header).ne_size).mp hi.holds).1

/-- The ways to `e'` in the new graph are those to `e` in the old, and maybe the one from the new node. -/
structure SameWays (g wide : Graph) (entry start : Nat) (P P' : Nat → Prop) (e e' : Nat) : Prop where
  old : ∀ x, P x → x ≠ g.size
  iff : ∀ x, P' x ↔ P x ∨ x = g.size ∧ P' g.size
  inLoop_iff : ∀ h x, P x → g.Inner entry h x → (wide.InLoop start h e' ↔ g.InLoop entry h e)
  inLoop_new : P' g.size → ∀ h, wide.Inner start h g.size → wide.InLoop start h e'

section SameWays

variable {P' : Nat → Prop} {e' : Nat} (hs : g.SameWays wide entry start P P' e e')

include hk hs

theorem SameWays.crossed_eq : wide.crossed start P' e' = g.crossed entry P e := by
  ext h
  rw [mem_crossed, mem_crossed]
  constructor
  · rintro ⟨hout, x, hx, hi⟩
    rcases (hs.iff x).mp hx with hpx | ⟨rfl, hp⟩
    · have hi := (hk.inner_iff (hs.old x hpx)).mp hi
      exact ⟨fun hin => hout ((hs.inLoop_iff h x hpx hi).mpr hin), x, hpx, hi⟩
    · exact absurd (hs.inLoop_new hp h hi) hout
  · rintro ⟨hout, x, hpx, hi⟩
    exact ⟨fun hin => hout ((hs.inLoop_iff h x hpx hi).mp hin), x, (hs.iff x).mpr (.inl hpx),
      (hk.inner_iff (hs.old x hpx)).mpr hi⟩

theorem SameWays.entered_iff : wide.Entered start P' e' ↔
    e' = start ∨ P' g.size ∨ ∃ x, P x ∧ ∀ h, g.Inner entry h x → g.InLoop entry h e := by
  refine or_congr Iff.rfl ⟨?_, ?_⟩
  · rintro ⟨x, hx, hall⟩
    rcases (hs.iff x).mp hx with hpx | ⟨-, hp⟩
    · refine .inr ⟨x, hpx, fun h hi => (hs.inLoop_iff h x hpx hi).mp (hall h ?_)⟩
      exact (hk.inner_iff (hs.old x hpx)).mpr hi
    · exact .inl hp
  · rintro (hp | ⟨x, hpx, hall⟩)
    · exact ⟨g.size, hp, hs.inLoop_new hp⟩
    · refine ⟨x, (hs.iff x).mpr (.inl hpx), fun h hi => ?_⟩
      have hi := (hk.inner_iff (hs.old x hpx)).mp hi
      exact (hs.inLoop_iff h x hpx hi).mpr (hall h hi)

end SameWays

include hw hk

theorem Rewires.sameWays_other (hv : v ≠ g.size) (hvt : v ≠ target) :
    g.SameWays wide entry start (g.Edge · v) (wide.Edge · v) v v where
  old := fun _ he => he.ne_size
  iff := fun x => by
    have hno : ¬ g.Edge g.size v := fun he => he.ne_size rfl
    simp only [hw.edge_other hv hvt, hno, and_false, or_false]
  inLoop_iff := fun _ _ _ hi => hk.inLoop_iff hi.header.ne_size hv
  inLoop_new := fun he => absurd (hw.edge_of_new.mp he) hvt

theorem Rewires.sameWays_new : g.SameWays wide entry start source (wide.Edge · g.size) target g.size where
  old := fun _ hs => (hw.source_edge hs).ne_size
  iff := fun x => by
    have hno : ¬ source g.size := fun hs => (hw.source_edge hs).ne_size rfl
    simp only [hw.edge_to_new, hno, and_false, or_false]
  inLoop_iff := fun _ _ hs hi => hk.inLoop_new_of_inner hs hi
  inLoop_new := fun he => absurd rfl (hw.source_edge (hw.edge_to_new.mp he)).ne_size

theorem Rewires.sameWays_target :
    g.SameWays wide entry start (fun x => g.Edge x target ∧ ¬ source x) (wide.Edge · target) target target where
  old := fun _ h => h.1.ne_size
  iff := fun x => by simp only [hw.edge_target, or_true, and_true]
  inLoop_iff := fun _ _ _ hi => hk.inLoop_iff hi.header.ne_size (Nat.ne_of_lt hw.target_lt)
  inLoop_new := fun _ _ hi =>
    (hk.inLoop_iff (hk.header_iff.mp hi.header).ne_size (Nat.ne_of_lt hw.target_lt)).mpr
      (hk.inLoop_target_of_inner hi)

theorem Rewires.load_new : wide.load start g.size = weight #(g.crossed entry source target)
    (g.size = start ∨ ∃ x, source x ∧ ∀ h, g.Inner entry h x → g.InLoop entry h target) := by
  have hs := hw.sameWays_new hk
  have hno : ¬ wide.Edge g.size g.size := fun he => (hw.source_edge (hw.edge_to_new.mp he)).ne_size rfl
  rw [load, hs.crossed_eq hk, hs.entered_iff hk]
  simp only [hno, false_or]

theorem Rewires.load_target :
    wide.load start target = weight #(g.crossed entry (fun x => g.Edge x target ∧ ¬ source x) target) True := by
  have hs := hw.sameWays_target hk
  rw [load, hs.crossed_eq hk, hs.entered_iff hk, eq_true (hw.edge_of_new.mpr rfl)]
  simp only [true_or, or_true]

theorem Rewires.load_other (hstart : start = entry ∨ entry = target ∧ start = g.size) (hv : v ≠ g.size)
    (hvt : v ≠ target) : wide.load start v = g.load entry v := by
  have hs := hw.sameWays_other hk hv hvt
  have hno : ¬ wide.Edge g.size v := fun he => hvt (hw.edge_of_new.mp he)
  have hsame : v = start ↔ v = entry := by
    rcases hstart with rfl | ⟨rfl, rfl⟩
    · exact Iff.rfl
    · exact iff_of_false hv hvt
  rw [load, load, hs.crossed_eq hk, hs.entered_iff hk, hsame]
  simp only [hno, false_or, Entered]

omit hk in
/-- Of a sum over the nodes, only the terms of the target and of the new node change. -/
theorem Rewires.sum_eq (f f' : Nat → Nat) (hsame : ∀ v, v ≠ g.size → v ≠ target → f' v = f v) :
    ∑ v ∈ range wide.size, f' v + f target = ∑ v ∈ range g.size, f v + (f' g.size + f' target) := by
  have ht : target ∈ range g.size := mem_range.mpr hw.target_lt
  have hrest : ∑ v ∈ (range g.size).erase target, f' v = ∑ v ∈ (range g.size).erase target, f v := by
    refine sum_congr rfl fun v hv => ?_
    obtain ⟨hvt, hv⟩ := mem_erase.mp hv
    exact hsame v (Nat.ne_of_lt (mem_range.mp hv)) hvt
  rw [hw.size, sum_range_succ, ← add_sum_erase _ f ht, ← add_sum_erase _ f' ht, hrest]
  omega

/-- What the loops lack changes by the preheaders, and by what the target and the new node bear. -/
theorem Rewires.lack_add (hstart : start = entry ∨ entry = target ∧ start = g.size) :
    wide.lack start + #(g.bare entry) + g.load entry target =
      g.lack entry + #(wide.bare start) + (wide.load start g.size + wide.load start target) := by
  have hsum := hw.sum_eq (g.load entry) (wide.load start) fun v hv hvt => hw.load_other hk hstart hv hvt
  simp only [lack]
  omega

end Step

section Sides

variable (hw : g.Rewires wide target source) (hk : g.KeepsLoops wide entry start target source)
  (hm : g.Header entry m)
  (hsides : ∀ x y, source x → g.Edge y target ∧ ¬ source y → ¬ (g.InLoop entry m x ↔ g.InLoop entry m y))

include hw hm hsides

theorem Rewires.card_crossed : #(g.crossed entry (g.Edge · target) target) = #(g.crossed entry source target) +
    #(g.crossed entry (fun x => g.Edge x target ∧ ¬ source x) target) := by
  rw [← card_union_of_disjoint (disjoint_crossed hm hsides)]
  refine congrArg card (crossed_split target fun x => ?_)
  constructor
  · intro he
    by_cases hs : source x
    · exact .inl hs
    · exact .inr ⟨he, hs⟩
  · rintro (hs | ⟨he, -⟩)
    · exact hw.source_edge hs
    · exact he

include hk

/-- The loops crossed on the way to the target are shared out between it and the new node. -/
theorem Rewires.crossings_eq : wide.crossings start = g.crossings entry := by
  have hsum := hw.sum_eq (fun v => #(g.crossed entry (g.Edge · v) v))
    (fun v => #(wide.crossed start (wide.Edge · v) v))
    fun v hv hvt => congrArg card ((hw.sameWays_other hk hv hvt).crossed_eq hk)
  have hcard := hw.card_crossed hm hsides
  simp only [(hw.sameWays_new hk).crossed_eq hk, (hw.sameWays_target hk).crossed_eq hk] at hsum
  simp only [crossings]
  omega

end Sides

section Kept

variable {p : Nat} (hw : g.Rewires wide target source) (hk : g.KeepsLoops wide entry start target source)

include hw hk

theorem Preheader.rewired (hm : g.Header entry m) (hp : g.Preheader entry m p) (hps : ¬ source p)
    (hnew : m = target → wide.InLoop start m g.size) : wide.Preheader start m p := by
  have hpm : g.Edge p m := (hp.edge_iff m).mpr rfl
  refine ⟨fun hin => hp.outside ((hk.inLoop_iff hm.ne_size hpm.ne_size).mp hin), fun x => ?_, fun x he => ?_⟩
  · constructor
    · intro he
      rcases hw.edge_iff.mp he with ⟨he, -⟩ | ⟨hs, -⟩ | ⟨heq, -⟩
      · exact (hp.edge_iff x).mp he
      · exact absurd hs hps
      · exact absurd heq hpm.ne_size
    · rintro rfl
      exact hw.edge_iff.mpr (.inl ⟨hpm, fun h => hps h.1⟩)
  · rcases hw.edge_iff.mp he with ⟨he, -⟩ | ⟨-, heq⟩ | ⟨rfl, heq⟩
    · exact (hp.only x he).imp_left (hk.inLoop_iff hm.ne_size he.ne_size).mpr
    · exact absurd heq hm.ne_size
    · exact .inl (hnew heq)

theorem Preheader.rewired_of_ne (hm : g.Header entry m) (hp : g.Preheader entry m p) (hmt : m ≠ target) :
    wide.Preheader start m p := by
  refine hp.rewired hw hk hm (fun hs => hmt ?_) fun heq => absurd heq hmt
  exact ((hp.edge_iff target).mp (hw.source_edge hs)).symm

end Kept

section Exit

variable (hw : g.Rewires wide target source) (hm : g.Header entry m) (hout : ¬ g.InLoop entry m target)
  (hsource : ∀ x, source x ↔ g.Edge x target ∧ g.InLoop entry m x)

include hm hout hsource

/-- Edges out of a loop to one node all go back to it, or none does. -/
theorem uniform_exit : g.Uniform entry target source := by
  by_cases hex : ∃ s, source s ∧ g.Dominates entry target s
  · obtain ⟨s, hs, hd⟩ := hex
    obtain ⟨he, hin⟩ := (hsource s).mp hs
    have hl : g.Latch entry target s := ⟨he, hin.reached hm, hd⟩
    rcases InLoop.header_of_common hm ⟨s, hl⟩ hin hl.inLoop with hmt | htm
    · exact absurd hmt hout
    · exact .inl fun s' hs' => htm.dominated.trans ((hsource s').mp hs').2.dominated
  · exact .inr fun s hs _ hd => hex ⟨s, hs, hd⟩

variable (hentry : entry ≠ g.size)

include hw hentry

theorem Rewires.keepsLoops_exit : g.KeepsLoops wide entry entry target source :=
  hw.keepsLoops hentry (uniform_exit hm hout hsource)

theorem Rewires.bare_exit (hex : ∃ x, source x) : wide.bare entry ⊆ g.bare entry := by
  intro h hb
  have hk := hw.keepsLoops_exit hm hout hsource hentry
  obtain ⟨hh, hnone⟩ := mem_bare.mp hb
  have hh := hk.header_iff.mp hh
  refine mem_bare.mpr ⟨hh, fun p hp => hnone p ?_⟩
  by_cases hht : h = target
  · subst hht
    have hps : ¬ source p := by
      intro hs
      obtain ⟨y, he, hy⟩ := ((hsource p).mp hs).2.exists_next hm
      exact hout ((hp.edge_iff y).mp he ▸ hy)
    refine hp.rewired hw hk hh hps fun _ => (hk.inLoop_new hh.ne_size).mpr ⟨.inl rfl, ?_⟩
    obtain ⟨x, hx⟩ := hex
    obtain ⟨he, hin⟩ := (hsource x).mp hx
    refine ⟨x, hx, hin.reached hm, (hp.only x he).resolve_right ?_⟩
    rintro rfl
    exact hps hx
  · exact hp.rewired_of_ne hw hk hh hht

omit hm hout hw hentry in
theorem sides_exit (hx : source x) (hy : g.Edge y target ∧ ¬ source y) :
    ¬ (g.InLoop entry m x ↔ g.InLoop entry m y) :=
  fun hiff => hy.2 ((hsource y).mpr ⟨hy.1, hiff.mp ((hsource x).mp hx).2⟩)

omit hw hentry in
theorem not_inLoop_of_inner (hx : source x) (hi : g.Inner entry h x) : ¬ g.InLoop entry h target :=
  fun ht => hout ((hi.least m hm ((hsource x).mp hx).2).within hi.header ht)

theorem Rewires.load_exit (hex : ∃ x, source x) (hshared : ∃ y, g.Edge y target ∧ ¬ g.InLoop entry m y) :
    wide.load entry g.size + wide.load entry target < g.load entry target := by
  have hk := hw.keepsLoops_exit hm hout hsource hentry
  have hnew : wide.load entry g.size = weight #(g.crossed entry source target) False := by
    rw [hw.load_new hk]
    refine congrArg _ (eq_false ?_)
    rintro (heq | ⟨x, hx, hall⟩)
    · exact hentry heq.symm
    · obtain ⟨h, hi⟩ := exists_inner hm ((hsource x).mp hx).2
      exact not_inLoop_of_inner hm hout hsource hx hi (hall h hi)
  rw [hnew, hw.load_target hk, load, hw.card_crossed hm fun _ _ => sides_exit hsource]
  apply weight_split_lt
  · obtain ⟨x, hx⟩ := hex
    obtain ⟨h, hi⟩ := exists_inner hm ((hsource x).mp hx).2
    exact card_pos.mpr ⟨h, mem_crossed.mpr ⟨not_inLoop_of_inner hm hout hsource hx hi, x, hx, hi⟩⟩
  · obtain ⟨y, he, hy⟩ := hshared
    by_cases hall : ∀ h, g.Inner entry h y → g.InLoop entry h target
    · exact .inr (.inr ⟨y, he, hall⟩)
    · obtain ⟨h, hi, ht⟩ : ∃ h, g.Inner entry h y ∧ ¬ g.InLoop entry h target := by
        simpa only [not_forall, exists_prop] using hall
      exact .inl (card_pos.mpr ⟨h, mem_crossed.mpr ⟨ht, y, ⟨he, fun hs => hy ((hsource y).mp hs).2⟩, hi⟩⟩)

/-- An exit of its own for a loop that shares one brings the loops nearer to what they need. -/
theorem Rewires.lack_exit (hex : ∃ x, source x) (hshared : ∃ y, g.Edge y target ∧ ¬ g.InLoop entry m y) :
    wide.lack entry < g.lack entry ∧ wide.crossings entry = g.crossings entry := by
  have hk := hw.keepsLoops_exit hm hout hsource hentry
  refine ⟨?_, hw.crossings_eq hk hm fun _ _ => sides_exit hsource⟩
  have hload := hw.load_exit hm hout hsource hentry hex hshared
  have hbare := card_le_card (hw.bare_exit hm hout hsource hentry hex)
  have hadd := hw.lack_add hk (.inl rfl)
  omega

end Exit

section Preheader

variable (hw : g.Rewires wide target source) (ht : g.Header entry target)
  (hsource : ∀ x, source x ↔ g.Edge x target ∧ ¬ g.InLoop entry target x) (hentry : entry ≠ g.size)
  (hstart : start = if entry = target then g.size else entry)

include hsource

theorem not_dominates_of_outside (hs : source x) (hr : g.Reaches entry x) : ¬ g.Dominates entry target x :=
  fun hd => ((hsource x).mp hs).2 (Latch.inLoop ⟨((hsource x).mp hs).1, hr, hd⟩)

include ht in
theorem exists_outside (hne : entry ≠ target) : ∃ x, source x := by
  obtain hall | ⟨c, hc, -, -, heq | ⟨d, hd, he⟩⟩ := ht.reached.meets (· ≠ target)
  · exact absurd rfl hall.last.2
  · exact absurd (heq.symm.trans (not_not.mp hc)) hne
  · obtain rfl := not_not.mp hc
    refine ⟨d, (hsource d).mpr ⟨he, fun hin => hin.dominated (hd.mono fun _ hn => hn.2)⟩⟩

include hw hentry hstart

theorem Rewires.keepsLoops_preheader : g.KeepsLoops wide entry start target source := by
  by_cases heq : entry = target
  · subst heq
    rw [hstart, if_pos rfl]
    exact hw.keepsLoops_moved fun s hs hr => not_dominates_of_outside hsource hs hr (.of_entry g entry s)
  · rw [hstart, if_neg heq]
    exact hw.keepsLoops hentry (.inr fun s hs hr => not_dominates_of_outside hsource hs hr)

include ht

theorem Rewires.preheader_new : wide.Preheader start target g.size := by
  have hk := hw.keepsLoops_preheader hsource hentry hstart
  refine ⟨fun hin => ?_, fun x => hw.edge_of_new, fun x he => ?_⟩
  · obtain ⟨-, s, hs, -, hin⟩ := (hk.inLoop_new ht.ne_size).mp hin
    exact ((hsource s).mp hs).2 hin
  · rcases hw.edge_target.mp he with ⟨he, hs⟩ | rfl
    · refine .inl ((hk.inLoop_iff ht.ne_size he.ne_size).mpr ?_)
      by_contra hout
      exact hs ((hsource x).mpr ⟨he, hout⟩)
    · exact .inr rfl

theorem Rewires.bare_preheader : wide.bare start ⊆ (g.bare entry).erase target := by
  intro h hb
  have hk := hw.keepsLoops_preheader hsource hentry hstart
  obtain ⟨hh, hnone⟩ := mem_bare.mp hb
  have hh := hk.header_iff.mp hh
  have hne : h ≠ target := by
    rintro rfl
    exact hnone g.size (hw.preheader_new ht hsource hentry hstart)
  exact mem_erase.mpr ⟨hne, mem_bare.mpr ⟨hh, fun p hp => hnone p (hp.rewired_of_ne hw hk hh hne)⟩⟩

omit ht hw hentry hstart in
theorem sides_preheader (hx : source x) (hy : g.Edge y target ∧ ¬ source y) :
    ¬ (g.InLoop entry target x ↔ g.InLoop entry target y) :=
  fun hiff => hy.2 ((hsource y).mpr ⟨hy.1, fun hin => ((hsource x).mp hx).2 (hiff.mpr hin)⟩)

theorem Rewires.load_preheader : wide.load start g.size + wide.load start target ≤ g.load entry target := by
  have hk := hw.keepsLoops_preheader hsource hentry hstart
  rw [hw.load_new hk, hw.load_target hk, load, hw.card_crossed ht fun _ _ => sides_preheader hsource]
  apply weight_split_le
  · rintro (hsize | ⟨x, hx, hall⟩)
    · refine .inl (Decidable.byContradiction fun hne => hentry ?_)
      rw [hsize, hstart, if_neg (Ne.symm hne)]
    · exact .inr ⟨x, hw.source_edge hx, hall⟩
  · intro hnil _
    by_cases heq : entry = target
    · exact .inl heq.symm
    · obtain ⟨x, hx⟩ := exists_outside ht hsource heq
      refine .inr ⟨x, hw.source_edge hx, fun h hi => ?_⟩
      by_contra hout
      exact (card_pos.mpr ⟨h, mem_crossed.mpr ⟨hout, x, hx, hi⟩⟩).ne' hnil

/-- A preheader for a loop without one brings the loops nearer to what they need. -/
theorem Rewires.lack_preheader (hnone : ∀ p, ¬ g.Preheader entry target p) :
    wide.lack start < g.lack entry ∧ wide.crossings start = g.crossings entry := by
  have hk := hw.keepsLoops_preheader hsource hentry hstart
  refine ⟨?_, hw.crossings_eq hk ht fun _ _ => sides_preheader hsource⟩
  have hcases : start = entry ∨ entry = target ∧ start = g.size := by
    by_cases heq : entry = target
    · exact .inr ⟨heq, by rw [hstart, if_pos heq]⟩
    · exact .inl (by rw [hstart, if_neg heq])
  have hbare : #(wide.bare start) < #(g.bare entry) :=
    calc #(wide.bare start) ≤ #((g.bare entry).erase target) :=
          card_le_card (hw.bare_preheader ht hsource hentry hstart)
      _ < #(g.bare entry) := card_erase_lt_of_mem (mem_bare.mpr ⟨ht, hnone⟩)
  have hload := hw.load_preheader ht hsource hentry hstart
  have hadd := hw.lack_add hk hcases
  omega

end Preheader

section Bounds

/-- Only nodes of a loop have edges to its exits. -/
def Dedicated (g : Graph) (entry : Nat) : Prop :=
  ∀ h x y e, g.Header entry h → g.Edge x e → g.InLoop entry h x → ¬ g.InLoop entry h e → g.Edge y e →
    g.InLoop entry h y

/-- With dedicated exits, at most one loop is left on the way to a node. -/
theorem Dedicated.card_crossed_le (hd : g.Dedicated entry) (e : Nat) : #(g.crossed entry (g.Edge · e) e) ≤ 1 := by
  refine card_le_one.mpr fun h hh k hk => ?_
  obtain ⟨hhe, x, hx, hhx⟩ := mem_crossed.mp hh
  obtain ⟨hke, y, hy, hky⟩ := mem_crossed.mp hk
  have hyh := hky.least h hhx.header (hd h x y e hhx.header hx hhx.holds hhe hy)
  have hxk := hhx.least k hky.header (hd k y x e hky.header hy hky.holds hke hx)
  exact InLoop.header_antisymm hhx.header hyh hxk

theorem Dedicated.crossings_le (hd : g.Dedicated entry) : g.crossings entry ≤ g.size :=
  calc g.crossings entry ≤ ∑ _ ∈ range g.size, 1 := sum_le_sum fun e _ => hd.card_crossed_le e
    _ = g.size := by rw [← card_eq_sum_ones, card_range]

open Classical in
noncomputable def headers (g : Graph) (entry : Nat) : Finset Nat := {h ∈ range g.size | g.Header entry h}

open Classical in
theorem mem_headers : h ∈ g.headers entry ↔ g.Header entry h := by
  rw [headers, mem_filter, mem_range]
  exact ⟨And.right, fun hh => ⟨hh.lt_size, hh⟩⟩

open Classical in
noncomputable def exits (g : Graph) (entry h : Nat) : Finset Nat :=
  {e ∈ range g.size | ¬ g.InLoop entry h e ∧ ∃ x, g.Edge x e ∧ g.InLoop entry h x}

open Classical in
theorem mem_exits : e ∈ g.exits entry h ↔ ¬ g.InLoop entry h e ∧ ∃ x, g.Edge x e ∧ g.InLoop entry h x := by
  rw [exits, mem_filter, mem_range]
  exact ⟨And.right, fun he => ⟨he.2.choose_spec.1.2, he⟩⟩

theorem load_le (g : Graph) (entry e : Nat) : g.load entry e ≤ 2 * #(g.crossed entry (g.Edge · e) e) := by
  simp only [load, weight]
  grind

theorem crossings_le (g : Graph) (entry : Nat) : g.crossings entry ≤ ∑ h ∈ g.headers entry, #(g.exits entry h) := by
  have hcrossed : ∀ e, g.crossed entry (g.Edge · e) e ⊆ {h ∈ g.headers entry | e ∈ g.exits entry h} := by
    intro e h hh
    obtain ⟨hout, x, hx, hi⟩ := mem_crossed.mp hh
    exact mem_filter.mpr ⟨mem_headers.mpr hi.header, mem_exits.mpr ⟨hout, x, hx, hi.holds⟩⟩
  calc g.crossings entry ≤ ∑ e ∈ range g.size, #{h ∈ g.headers entry | e ∈ g.exits entry h} :=
        sum_le_sum fun e _ => card_le_card (hcrossed e)
    _ = ∑ h ∈ g.headers entry, #{e ∈ range g.size | e ∈ g.exits entry h} :=
        sum_card_bipartiteAbove_eq_sum_card_bipartiteBelow fun e h => e ∈ g.exits entry h
    _ ≤ ∑ h ∈ g.headers entry, #(g.exits entry h) :=
        sum_le_sum fun h _ => card_le_card fun e he => (mem_filter.mp he).2

/-- The loops lack at most a preheader each, and two detours for each of their exits. -/
theorem lack_le (g : Graph) (entry : Nat) : g.lack entry ≤ ∑ h ∈ g.headers entry, (1 + 2 * #(g.exits entry h)) := by
  have hbare : #(g.bare entry) ≤ #(g.headers entry) :=
    card_le_card fun h hb => mem_headers.mpr (mem_bare.mp hb).1
  have hcrossings := g.crossings_le entry
  calc g.lack entry ≤ #(g.bare entry) + ∑ e ∈ range g.size, 2 * #(g.crossed entry (g.Edge · e) e) :=
        Nat.add_le_add_left (sum_le_sum fun e _ => load_le g entry e) _
    _ = #(g.bare entry) + 2 * g.crossings entry := by rw [crossings, mul_sum]
    _ ≤ #(g.headers entry) + 2 * ∑ h ∈ g.headers entry, #(g.exits entry h) := by omega
    _ = ∑ h ∈ g.headers entry, (1 + 2 * #(g.exits entry h)) := by
        rw [sum_add_distrib, mul_sum, card_eq_sum_ones]

end Bounds

end CountMotion.Graph
