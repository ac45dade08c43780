import CountMotion.Proofs.LastingFacts
import CountMotion.Proofs.Pendings
import CountMotion.Proofs.Views

/-! Which operations await an answer at each point of a region, in either direction. -/
namespace CountMotion

namespace Walk

variable {w : Walk Nat} {l : Ledger} {p : Option Pending} {out : Nat → Option Pending} {n : Nat} {x : Point × Effect}
  {xs before rest : List (Point × Effect)} {y : Point}

/-- States are opened and answered by count operations. -/
structure Plain (w : Walk Nat) : Prop where
  opens : w.opens = .retain ∨ w.opens = .release
  answers : w.answers = .retain ∨ w.answers = .release
  ne : w.opens ≠ w.answers

theorem Plain.after_of_harmless (hw : w.Plain) (h : x.2.harmless) :
    w.after p x = p.map fun q => ⟨q.points, x.2 == .use || q.used⟩ := by
  have hopens : x.2 ≠ w.opens := by
    intro he
    rcases hw.opens with ho | ho <;> rw [he, ho] at h <;> cases h
  have hanswers : x.2 ≠ w.answers := by
    intro he
    rcases hw.answers with ho | ho <;> rw [he, ho] at h <;> cases h
  have hquiet : ¬ x.2.interferes := by
    intro hi
    cases hx : x.2 <;> simp_all [Effect.harmless, Effect.interferes]
  rw [after, if_neg hopens, if_neg hanswers, if_neg hquiet]
  by_cases hx : x.2 = .use
  · simp [hx]
  · simp [hx, beq_false_of_ne hx]

theorem Plain.awaits_of_harmless (hw : w.Plain) (h : x.2.harmless) : Awaits (w.after p x) y ↔ Awaits p y := by
  rw [hw.after_of_harmless h]
  cases p <;> simp

theorem Plain.harmless (hw : w.Plain) (hopens : x.2 ≠ w.opens) (hanswers : x.2 ≠ w.answers)
    (hint : ¬ x.2.interferes) : x.2.harmless := by
  have := hw.ne
  rcases hw.opens with ho | ho <;> rcases hw.answers with ha | ha <;> cases hx : x.2 <;>
    simp_all [Effect.harmless, Effect.interferes]

/-- What becomes of an operation that awaits an answer at an effect. -/
theorem Plain.marks_cases (hw : w.Plain) (h : w.Marks l p x) (hy : Awaits p y) :
    l.Loose y ∨ (x.2 = w.answers ∧ l.Tied y x.1) ∨ (x.2.harmless ∧ Awaits (w.after p x) y) := by
  by_cases hopens : x.2 = w.opens
  · exact .inl ((h.opened hopens).2 y hy)
  by_cases hanswers : x.2 = w.answers
  · obtain ⟨q, hq, hmem⟩ := hy
    exact .inr (.inl ⟨hanswers, (h.answered hopens hanswers q hq y hmem).1⟩)
  by_cases hint : x.2.interferes
  · exact .inl (h.interfered hopens hanswers hint y hy)
  have hharmless := hw.harmless hopens hanswers hint
  exact .inr (.inr ⟨hharmless, (hw.awaits_of_harmless hharmless).mpr hy⟩)

theorem Plain.awaits_self (h : x.2 = w.opens) : Awaits (w.after p x) x.1 := by
  rw [after, if_pos h]
  simp

/-- What awaits an answer after an effect was opened by it, or awaited one before and was let by. -/
theorem awaits_after (h : Awaits (w.after p x) y) : (x.2 = w.opens ∧ y = x.1) ∨
    (x.2 ≠ w.opens ∧ x.2 ≠ w.answers ∧ ¬ x.2.interferes) ∧ Awaits p y := by
  rw [after] at h
  split at h
  · exact .inl ⟨‹_›, by simpa using h⟩
  split at h
  · exact absurd h (by simp)
  split at h
  · exact absurd h (by simp)
  refine .inr ⟨⟨‹_›, ‹_›, ‹_›⟩, ?_⟩
  split at h
  · cases p with
    | none => exact absurd h (by simp)
    | some q => simpa using h
  · exact h

theorem Plain.of_after {q : Pending} (hw : w.Plain) (h : w.after p x = some q) :
    x.2 = w.opens ∧ q.points = [x.1] ∨ x.2.harmless ∧ ∃ q', p = some q' ∧ q.points = q'.points := by
  by_cases hopens : x.2 = w.opens
  · rw [after, if_pos hopens] at h
    exact .inl ⟨hopens, by rw [← Option.some.inj h]⟩
  have hnext := h
  rw [after, if_neg hopens] at hnext
  split at hnext
  · cases hnext
  split at hnext
  · cases hnext
  have hharmless := hw.harmless hopens ‹_› ‹_›
  rw [hw.after_of_harmless hharmless] at h
  obtain ⟨q', hq', rfl⟩ := Option.map_eq_some_iff.mp h
  exact .inr ⟨hharmless, q', hq', rfl⟩

theorem awaits_foldl (h : Awaits (xs.foldl w.after p) y) : (y, w.opens) ∈ xs ∨ Awaits p y := by
  induction xs generalizing p with
  | nil => exact .inr h
  | cons x xs ih =>
    rcases ih h with hmem | hy
    · exact .inl (.tail _ hmem)
    · rcases awaits_after hy with ⟨hx, rfl⟩ | ⟨-, hy⟩
      · exact .inl (hx ▸ .head _)
      · exact .inr hy

theorem Plain.foldl_filter (hw : w.Plain) (xs : List (Point × Effect)) :
    (xs.filter fun x => x.2 != .nothing).foldl w.after p = xs.foldl w.after p := by
  induction xs generalizing p with
  | nil => rfl
  | cons x xs ih =>
    by_cases hx : x.2 = .nothing
    · have hskip : w.after p x = p := by
        rw [after, hx, if_neg, if_neg, if_neg, if_neg]
        · decide
        · decide
        · rcases hw.answers with h | h <;> rw [h] <;> decide
        · rcases hw.opens with h | h <;> rw [h] <;> decide
      rw [List.filter_cons_of_neg (by simp [hx]), List.foldl_cons, hskip, ih]
    · rw [List.filter_cons_of_pos (by simpa using hx), List.foldl_cons, List.foldl_cons, ih]

theorem Plain.marks_at (hw : w.Plain) (ht : w.Told out l n) (heff : w.effects n = xs.filter fun x => x.2 != .nothing)
    (hxs : xs = before ++ x :: rest) : w.Marks l (w.along out n before) x := by
  by_cases hx : x.2 = .nothing
  · refine ⟨fun he => ?_, fun _ he => ?_, fun _ _ he => by rw [hx] at he; cases he⟩
    · rcases hw.opens with h | h <;> rw [hx, h] at he <;> cases he
    · rcases hw.answers with h | h <;> rw [hx, h] at he <;> cases he
  · have hsplit : w.effects n = (before.filter fun x => x.2 != .nothing) ++ x :: rest.filter fun x => x.2 != .nothing := by
      rw [heff, hxs, List.filter_append, List.filter_cons_of_pos (by simpa using hx)]
    have := ht.marks _ x _ hsplit
    rwa [along, hw.foldl_filter] at this

end Walk

namespace Flat

variable {f : Flat} {root : Var}

theorem downWalk_plain (f : Flat) (root : Var) : (f.downWalk root).Plain := ⟨.inl rfl, .inr rfl, nofun⟩

theorem upWalk_plain (f : Flat) (root : Var) : (f.upWalk root).Plain := ⟨.inr rfl, .inl rfl, nofun⟩

/-- What both walks find for all roots. -/
def retainLedger (f : Flat) : Ledger := f.rootList.foldl (fun l root => (f.downWalk root).run root l) .empty

def releaseLedger (f : Flat) : Ledger := f.rootList.foldl (fun l root => (f.upWalk root).run root l) .empty

end Flat

namespace Layout

variable {y : Layout} {b t n n' : Nat} {root : Var} {p x : Point} {l : Ledger} {out : Nat → Option Pending}

/-- The node at which a block of the region stands. -/
def Stands (y : Layout) (b n : Nat) : Prop := b ∈ y.region.blocks ∧ y.places[n]? = some (y.placeOf b)

theorem Stands.unique (h : y.Stands b n) (h' : y.Stands b n') : n = n' := node_unique h.2 h'.2

theorem exists_stands (h : b ∈ y.region.blocks) : ∃ n, y.Stands b n := by
  obtain ⟨n, hn⟩ := List.getElem?_of_mem (mem_places.mpr ⟨b, h, rfl⟩)
  exact ⟨n, h, hn⟩

theorem locate_eq_none : Flat.locate y.residents y.places b = none ↔ b ∉ y.region.blocks := by
  rw [Option.eq_none_iff_forall_ne_some]
  constructor
  · intro h hb
    obtain ⟨n, hn⟩ := exists_stands hb
    exact h n (locate_eq_some.mpr hn)
  · exact fun h n hn => h (locate_eq_some.mp hn).1

theorem Stands.own (h : y.Stands b n) (hc : y.child b = none) : y.places[n]? = some (.block b) := by
  rw [h.2, placeOf_eq_block hc]

theorem stands_of_place (h : y.places[n]? = some (.block b)) : y.Stands b n ∧ y.child b = none := by
  obtain ⟨hmem, hc⟩ := block_mem_places (List.mem_of_getElem? h)
  exact ⟨⟨hmem, by rw [h, placeOf_eq_block hc]⟩, hc⟩

theorem Stands.eq_block {b' : Nat} (h : y.Stands b n) (hn : y.places[n]? = some (.block b')) :
    b = b' ∧ y.child b = none := by
  have hplace := h.2.symm.trans hn
  rw [placeOf] at hplace
  split at hplace
  · cases hplace
  · exact ⟨Place.block.inj (Option.some.inj hplace), ‹_›⟩

theorem Stands.eq_entry (h : y.Stands b n) (hb : b = y.region.header) : n = y.entry := by
  rw [entry, ← hb, locate_eq_some.mpr h]
  rfl

def rank (y : Layout) (b : Nat) : Nat := y.order.idxOf ((y.flat.nodeOf b).getD 0)

theorem Stands.rank (h : y.Stands b n) : y.rank b = y.order.idxOf n := by
  rw [Layout.rank, nodeOf_eq_some.mpr h]
  rfl

theorem mem_targets_of_stands (h : y.Stands b n) (ht : t ∈ (y.routine.codeAt b).term.targets) :
    t ∈ Flat.targets y.residents (y.placeOf b) := by
  refine List.mem_flatMap.mpr ⟨⟨b, y.routine.codeAt b, y.placeOf b⟩, List.mem_filter.mpr ⟨?_, by simp⟩, ht⟩
  exact List.mem_map_of_mem h.1

/-- An edge of the routine is one of the layout, or stays inside a child loop. -/
theorem Stands.edge (h : y.Stands b n) (h' : y.Stands t n') (ht : t ∈ (y.routine.codeAt b).term.targets) :
    (n' = n ∧ (y.child b).isSome) ∨ n' ∈ y.graph.next n := by
  have hmem : n' ∈ ((Flat.targets y.residents (y.placeOf b)).filterMap
      (Flat.locate y.residents y.places)).eraseDups :=
    List.mem_eraseDups.mpr (List.mem_filterMap.mpr ⟨t, mem_targets_of_stands h ht, locate_eq_some.mpr h'⟩)
  rw [next_graph, h.2]
  cases hc : y.child b with
  | none =>
    rw [placeOf_eq_block hc] at hmem ⊢
    exact .inr hmem
  | some c =>
    by_cases hn : n' = n
    · exact .inl ⟨hn, rfl⟩
    · rw [placeOf, hc] at hmem ⊢
      exact .inr (List.mem_filter.mpr ⟨hmem, by simpa using hn⟩)

/-- An edge that leaves the region goes where the root no longer matters, or is seen as an
escape. -/
theorem Stands.exit (h : y.Stands b n) (hout : t ∉ y.region.blocks) (ht : t ∈ (y.routine.codeAt b).term.targets)
    (root : Var) : y.facts.quietExit y.routine root t ∨ y.flat.liveEscape root n := by
  by_cases hq : y.facts.quietExit y.routine root t
  · exact .inl hq
  · right
    have hexit : t ∈ (y.node n (y.placeOf b)).exits := by
      refine List.mem_eraseDups.mpr (List.mem_filter.mpr ⟨mem_targets_of_stands h ht, ?_⟩)
      rw [Option.isNone_iff_eq_none, locate_eq_none]
      exact hout
    rw [Flat.liveEscape, getElem?_nodes, h.2]
    simp only [Option.map_some, Option.getD_some, Node.liveEscape, Bool.or_eq_true, List.any_eq_true, Bool.not_eq_true']
    exact .inr ⟨t, hexit, by simpa [flat] using hq⟩

def trace (y : Layout) (root : Var) (b : Nat) (js : List Nat) : List (Point × Effect) :=
  js.map fun j => (⟨b, j⟩, y.facts.effectAt root (y.routine.codeAt b) j)

def positions (y : Layout) (b : Nat) : List Nat := List.range ((y.routine.codeAt b).body.length + 1)

theorem effects_stands (h : y.Stands b n) (hc : y.child b = none) :
    y.flat.effects root n = (y.trace root b (y.positions b)).filter fun x => x.2 != .nothing := by
  rw [effects_block (h.own hc)]
  rfl

/-- The retains that await a release at a point. In a child loop nothing is opened or answered. -/
def retainsAt (y : Layout) (root : Var) (out : Nat → Option Pending) (p : Point) : Option Pending :=
  (y.flat.nodeOf p.block).bind fun n =>
    if (y.child p.block).isSome then (y.flat.downWalk root).into out n
    else (y.flat.downWalk root).along out n (y.trace root p.block ((y.positions p.block).take p.index))

/-- The releases that await a retain at a point, looking back. -/
def releasesAt (y : Layout) (root : Var) (out : Nat → Option Pending) (p : Point) : Option Pending :=
  (y.flat.nodeOf p.block).bind fun n =>
    if (y.child p.block).isSome then (y.flat.upWalk root).into out n
    else (y.flat.upWalk root).along out n (y.trace root p.block ((y.positions p.block).drop p.index)).reverse

theorem retainsAt_own (h : y.Stands p.block n) (hc : y.child p.block = none) : y.retainsAt root out p =
    (y.flat.downWalk root).along out n (y.trace root p.block ((y.positions p.block).take p.index)) := by
  rw [retainsAt, nodeOf_eq_some.mpr h, hc]
  rfl

theorem releasesAt_own (h : y.Stands p.block n) (hc : y.child p.block = none) : y.releasesAt root out p =
    (y.flat.upWalk root).along out n (y.trace root p.block ((y.positions p.block).drop p.index)).reverse := by
  rw [releasesAt, nodeOf_eq_some.mpr h, hc]
  rfl

theorem retainsAt_inner (h : y.Stands p.block n) (hc : (y.child p.block).isSome) :
    y.retainsAt root out p = (y.flat.downWalk root).into out n := by
  rw [retainsAt, nodeOf_eq_some.mpr h, Option.bind_some, if_pos hc]

theorem releasesAt_inner (h : y.Stands p.block n) (hc : (y.child p.block).isSome) :
    y.releasesAt root out p = (y.flat.upWalk root).into out n := by
  rw [releasesAt, nodeOf_eq_some.mpr h, Option.bind_some, if_pos hc]

theorem stands_of_retainsAt (h : Awaits (y.retainsAt root out p) x) : ∃ n, y.Stands p.block n := by
  rw [retainsAt] at h
  cases hn : y.flat.nodeOf p.block with
  | none => rw [hn] at h; exact absurd h (by simp)
  | some n => exact ⟨n, nodeOf_eq_some.mp hn⟩

theorem stands_of_releasesAt (h : Awaits (y.releasesAt root out p) x) : ∃ n, y.Stands p.block n := by
  rw [releasesAt] at h
  cases hn : y.flat.nodeOf p.block with
  | none => rw [hn] at h; exact absurd h (by simp)
  | some n => exact ⟨n, nodeOf_eq_some.mp hn⟩

/-- Control comes to the region only at its header, and to each of its blocks if it can. -/
structure Entered (y : Layout) : Prop where
  sound : y.Sound
  entry : y.routine.entry ∈ y.region.blocks → y.routine.entry = y.region.header
  enter : ∀ {b t}, y.routine.flow.Reaches y.routine.entry b → y.routine.flow.Edge b t → b ∉ y.region.blocks →
    t ∈ y.region.blocks → t = y.region.header
  reached : ∀ {b n}, y.Stands b n → (n ∈ y.order ↔ y.routine.flow.Reaches y.routine.entry b)

/-- The layout is a region of a routine that the facts describe, and control comes to it only
at its header. -/
structure Views (y : Layout) : Prop where
  sound : y.Sound
  proper : y.routine.Proper
  describes : y.facts.Describes y.routine
  entry : y.routine.entry ∈ y.region.blocks → y.routine.entry = y.region.header
  enter : ∀ {b t}, y.routine.flow.Reaches y.routine.entry b → y.routine.flow.Edge b t → b ∉ y.region.blocks →
    t ∈ y.region.blocks → t = y.region.header
  reached : ∀ {b n}, y.Stands b n → (n ∈ y.order ↔ y.routine.flow.Reaches y.routine.entry b)
  ranked : ∀ {b c}, b ∈ y.region.blocks → c ∈ y.region.blocks → y.routine.flow.Reaches y.routine.entry c →
    y.routine.flow.Dominates y.routine.entry b c → y.rank b ≤ y.rank c

theorem Views.entered (hv : y.Views) : y.Entered := ⟨hv.sound, hv.entry, hv.enter, hv.reached⟩

private theorem split_positions (hp : p.index ≤ (y.routine.codeAt p.block).body.length) :
    (y.positions p.block).take (p.index + 1) = (y.positions p.block).take p.index ++ [p.index] ∧
    (y.positions p.block).drop p.index = p.index :: (y.positions p.block).drop (p.index + 1) := by
  have hlt : p.index < (y.positions p.block).length := by
    rw [positions, List.length_range]
    omega
  have hget : (y.positions p.block)[p.index] = p.index := List.getElem_range _
  constructor
  · rw [List.take_add_one, List.getElem?_eq_getElem hlt, hget]
    rfl
  · rw [List.drop_eq_getElem_cons hlt, hget]

theorem trace_split (hp : p.index ≤ (y.routine.codeAt p.block).body.length) :
    y.trace root p.block (y.positions p.block) = y.trace root p.block ((y.positions p.block).take p.index) ++
      (p, y.facts.effectAt root (y.routine.codeAt p.block) p.index) ::
        y.trace root p.block ((y.positions p.block).drop (p.index + 1)) := by
  conv_lhs => rw [← List.take_append_drop p.index (y.positions p.block), (split_positions hp).2]
  rw [trace, List.map_append, List.map_cons]
  rfl

theorem retainsAt_succ (h : y.Stands p.block n) (hc : y.child p.block = none)
    (hp : p.index ≤ (y.routine.codeAt p.block).body.length) :
    y.retainsAt root out ⟨p.block, p.index + 1⟩ = (y.flat.downWalk root).after (y.retainsAt root out p)
      (p, y.facts.effectAt root (y.routine.codeAt p.block) p.index) := by
  rw [retainsAt_own (p := ⟨p.block, p.index + 1⟩) h hc, retainsAt_own h hc, (split_positions hp).1, trace,
    List.map_append, Walk.along, List.foldl_append]
  rfl

theorem releasesAt_eq (h : y.Stands p.block n) (hc : y.child p.block = none)
    (hp : p.index ≤ (y.routine.codeAt p.block).body.length) :
    y.releasesAt root out p = (y.flat.upWalk root).after (y.releasesAt root out ⟨p.block, p.index + 1⟩)
      (p, y.facts.effectAt root (y.routine.codeAt p.block) p.index) := by
  rw [releasesAt_own (p := ⟨p.block, p.index + 1⟩) h hc, releasesAt_own h hc, (split_positions hp).2, trace,
    List.map_cons, List.reverse_cons, Walk.along, List.foldl_append]
  rfl

theorem effects_inner (root : Var) {c : Nat} (h : y.places[n]? = some (.loop c)) : ∃ (q : Point) (e : Effect),
    y.flat.effects root n = [(q, e)].filter (fun x => x.2 != .nothing) ∧ e ≠ .retain ∧ e ≠ .release ∧
      e = ((y.summary c).getD .blackBox).effectOn y.facts root := by
  obtain ⟨hret, hrel⟩ := ((y.summary c).getD .blackBox).effectOn_interferes y.facts root
  refine ⟨⟨(y.facts.forest.regions[c]?.map Region.header).getD 0, 0⟩, _, ?_, hret, hrel, rfl⟩
  rw [effects_loop h]
  split
  · rename_i heq
    rw [List.filter_cons_of_neg (by simpa using heq)]
    rfl
  · rename_i hne
    rw [List.filter_cons_of_pos (by simpa using hne)]
    rfl

/-- A child loop that a pending retain can pass leaves the root as it is. -/
theorem harmless_of_retainsAt {c : Nat} (ht : (y.flat.downWalk root).Traced out l) (h : y.Stands p.block n)
    (hn : n ∈ y.order) (hc : y.child p.block = some c) (hx : Awaits (y.retainsAt root out p) x) :
    l.Loose x ∨ (((y.summary c).getD .blackBox).effectOn y.facts root).harmless := by
  have hplain := y.flat.downWalk_plain root
  obtain ⟨q, e, heff, hret, hrel, rfl⟩ := effects_inner root (show y.places[n]? = some (.loop c) by
    rw [h.2, placeOf, hc])
  rw [retainsAt_inner h (by rw [hc]; rfl)] at hx
  have hmarks := hplain.marks_at (ht.told n hn) heff (List.nil_append _).symm
  rcases hplain.marks_cases hmarks hx with hloose | ⟨hans, -⟩ | ⟨hh, -⟩
  · exact .inl hloose
  · exact absurd hans hrel
  · exact .inr hh

private theorem placeOf_inner (hc : (y.child b).isSome) : ∃ c, y.child b = some c ∧ y.placeOf b = .loop c := by
  obtain ⟨c, hchild⟩ := Option.isSome_iff_exists.mp hc
  exact ⟨c, hchild, by rw [placeOf, hchild]⟩

/-- Control goes on to a node ahead or stays in a child loop, where it does not escape. -/
theorem Entered.goes_on (hv : y.Entered) (h : y.Stands b n) (hr : y.routine.flow.Reaches y.routine.entry b)
    (he : y.routine.flow.Edge b t) (hesc : ¬ y.flat.liveEscape root n) :
    (∃ n', y.Stands t n' ∧ n' ∈ y.order ∧ ((n' = n ∧ (y.child b).isSome) ∨ n' ∈ y.flat.succs n)) ∨
      (t ∉ y.region.blocks ∧ y.facts.quietExit y.routine root t) := by
  have htarget := Routine.mem_targets_of_edge he
  by_cases hin : t ∈ y.region.blocks
  · obtain ⟨n', h'⟩ := exists_stands hin
    refine .inl ⟨n', h', (hv.reached h').mpr (hr.edge he), (h.edge h' htarget).imp_right fun hnext => ?_⟩
    have hn := (hv.reached h).mpr hr
    exact mem_succs.mpr ⟨hn, hnext, Decidable.not_not.mp fun hback => hesc (liveEscape_of_back hn hnext hback)⟩
  · exact .inr ⟨hin, (h.exit hin htarget root).resolve_right hesc⟩

/-- Control comes from a node before or stays in a child loop, where it cannot come from
elsewhere. -/
theorem Entered.comes_from (hv : y.Entered) (h : y.Stands t n) (hr : y.routine.flow.Reaches y.routine.entry b)
    (he : y.routine.flow.Edge b t) (hblind : ¬ y.flat.blindEntry n) :
    ∃ m, y.Stands b m ∧ m ∈ y.order ∧ ((n = m ∧ (y.child b).isSome) ∨ m ∈ y.flat.preds n) := by
  by_cases hin : b ∈ y.region.blocks
  · obtain ⟨m, h'⟩ := exists_stands hin
    have hm := (hv.reached h').mpr hr
    refine ⟨m, h', hm, (h'.edge h (Routine.mem_targets_of_edge he)).imp_right fun hnext => ?_⟩
    exact mem_preds.mpr ⟨hm, hnext, Decidable.not_not.mp fun hback => hblind (blindEntry_of_back hm hnext hback)⟩
  · have hentry := h.eq_entry (hv.enter hr he hin h.1)
    exact absurd (by simp [Flat.blindEntry, hentry, flat]) hblind

theorem inner_congr (h : y.Stands b n) (h' : y.Stands t n) (hc : (y.child b).isSome) : (y.child t).isSome := by
  obtain ⟨c, -, hplace⟩ := placeOf_inner hc
  by_contra hno
  have := h.2.symm.trans h'.2
  rw [hplace, placeOf_eq_block (by simpa using hno)] at this
  cases this

section Down

/-- What becomes of a retain that awaits a release, at an instruction of the region itself. -/
theorem retainsAt_step (ht : (y.flat.downWalk root).Traced out l) (h : y.Stands p.block n) (hn : n ∈ y.order)
    (hc : y.child p.block = none) (hp : p.index ≤ (y.routine.codeAt p.block).body.length)
    (hx : Awaits (y.retainsAt root out p) x) :
    l.Loose x ∨ (y.facts.effectAt root (y.routine.codeAt p.block) p.index = .release ∧ l.Tied x p) ∨
      ((y.facts.effectAt root (y.routine.codeAt p.block) p.index).harmless ∧
        Awaits (y.retainsAt root out ⟨p.block, p.index + 1⟩) x) := by
  have hplain := y.flat.downWalk_plain root
  have hmarks := hplain.marks_at (ht.told n hn) (effects_stands h hc) (trace_split hp)
  rw [← retainsAt_own h hc] at hmarks
  rw [retainsAt_succ h hc hp]
  exact hplain.marks_cases hmarks hx

private theorem awaits_along (ht : (y.flat.downWalk root).Traced out l) (h : y.Stands b n) (hn : n ∈ y.order)
    (hx : Awaits (y.retainsAt root out ⟨b, (y.routine.codeAt b).body.length⟩) x) :
    l.Loose x ∨ Awaits ((y.flat.downWalk root).along out n (y.flat.effects root n)) x := by
  have hplain := y.flat.downWalk_plain root
  cases hc : y.child b with
  | none =>
    have hterm : (y.facts.effectAt root (y.routine.codeAt b) (y.routine.codeAt b).body.length).harmless := by
      rw [Facts.effectAt, List.getElem?_eq_none (Nat.le_refl _)]
      exact y.facts.termEffect_harmless root _
    right
    rw [effects_stands h hc, Walk.along, hplain.foldl_filter]
    have hall : y.retainsAt root out ⟨b, (y.routine.codeAt b).body.length + 1⟩ = _ := retainsAt_own h hc
    rw [List.take_of_length_le (by simp [positions])] at hall
    rw [← Walk.along, ← hall,
      retainsAt_succ (p := ⟨b, (y.routine.codeAt b).body.length⟩) h hc (Nat.le_refl _)]
    exact (hplain.awaits_of_harmless hterm).mpr hx
  | some c =>
    obtain ⟨q, e, heff, hret, hrel, -⟩ := effects_inner root (show y.places[n]? = some (.loop c) by
      rw [h.2, placeOf, hc])
    rw [retainsAt_inner (p := ⟨b, _⟩) h (by rw [hc]; rfl)] at hx
    have hmarks := hplain.marks_at (ht.told n hn) heff (List.nil_append _).symm
    rcases hplain.marks_cases hmarks hx with hloose | ⟨hans, -⟩ | ⟨-, hafter⟩
    · exact .inl hloose
    · exact absurd hans hrel
    · right
      rw [heff, Walk.along, hplain.foldl_filter]
      exact hafter

/-- What becomes of a retain that awaits a release, along an edge. -/
theorem retainsAt_edge (hv : y.Views) (ht : (y.flat.downWalk root).Traced out l)
    (hr : y.routine.flow.Reaches y.routine.entry b) (he : y.routine.flow.Edge b t)
    (hx : Awaits (y.retainsAt root out ⟨b, (y.routine.codeAt b).body.length⟩) x) :
    l.Loose x ∨ Awaits (y.retainsAt root out ⟨t, 0⟩) x ∨
      (t ∉ y.region.blocks ∧ y.facts.quietExit y.routine root t) := by
  obtain ⟨n, h⟩ := stands_of_retainsAt hx
  have hn := (hv.reached h).mpr hr
  rcases awaits_along ht h hn hx with hloose | hall
  · exact .inl hloose
  by_cases hesc : y.flat.liveEscape root n
  · exact .inl ((ht.told n hn).escaped hesc x hall)
  rcases hv.entered.goes_on h hr he hesc with ⟨n', h', hn', hstay⟩ | hexit
  · have hinto : y.retainsAt root out ⟨t, 0⟩ = (y.flat.downWalk root).into out n' := by
      cases hc : y.child t with
      | none => exact retainsAt_own (p := ⟨t, 0⟩) h' hc
      | some c => exact retainsAt_inner (p := ⟨t, 0⟩) h' (by rw [hc]; rfl)
    rcases hstay with ⟨rfl, hc⟩ | hsucc
    · rw [retainsAt_inner (p := ⟨b, _⟩) h hc] at hx
      exact .inr (.inl (hinto ▸ hx))
    · have hout : Awaits (out n) x := by
        rw [ht.out_eq n hn, Walk.leave]
        have hgo : ¬ ((y.flat.downWalk root).escapes n || (y.flat.downWalk root).ends n) := by
          simp only [Flat.downWalk, Bool.or_eq_true, not_or, List.isEmpty_iff]
          exact ⟨hesc, List.ne_nil_of_mem hsucc⟩
        rw [if_neg hgo]
        exact hall
      have hsource : n ∈ (y.flat.downWalk root).sources n' := mem_preds.mpr (mem_succs.mp hsucc)
      by_cases hb : (y.flat.downWalk root).blocked out n'
      · exact .inl ((ht.told n' hn').blocked hb n hsource x hout)
      · exact .inr (.inl (hinto ▸ (Walk.awaits_into hb).mpr ⟨n, hsource, hout⟩))
  · exact .inr (.inr hexit)

/-- The region itself has the effect at the point. -/
def Own (y : Layout) (e : Effect) (root : Var) (q : Point) : Prop :=
  ∃ n ∈ y.order, y.Stands q.block n ∧ y.child q.block = none ∧
    y.facts.effectAt root (y.routine.codeAt q.block) q.index = e

theorem own_of_effects {e : Effect} (he : e = .retain ∨ e = .release) (hn : n ∈ y.order)
    (h : (x, e) ∈ y.flat.effects root n) : y.Own e root x ∧ y.rank x.block = y.order.idxOf n := by
  obtain ⟨hplace, heff⟩ := effects_own h he
  obtain ⟨hstands, hc⟩ := stands_of_place hplace
  exact ⟨⟨n, hn, hstands, hc, heff⟩, hstands.rank⟩

private theorem own_of_into (ht : (y.flat.downWalk root).Traced out l) (hn : n ∈ y.order)
    (hx : Awaits ((y.flat.downWalk root).into out n) x) :
    y.Own .retain root x ∧ y.rank x.block < y.order.idxOf n := by
  induction hk : y.order.idxOf n using Nat.strong_induction_on generalizing n with
  | _ k ih =>
    subst hk
    by_cases hb : (y.flat.downWalk root).blocked out n
    · rw [Walk.into, if_pos hb] at hx
      exact absurd hx (by simp)
    · obtain ⟨s, hs, q, hout, hmem⟩ := (Walk.awaits_into hb).mp hx
      obtain ⟨hso, -, hlt⟩ := mem_preds.mp hs
      rcases Walk.awaits_foldl ⟨q, (ht.of_out hout).2, hmem⟩ with hmem | hinto
      · obtain ⟨hret, hrank⟩ := own_of_effects (.inl rfl) hso hmem
        exact ⟨hret, by rw [hrank]; exact hlt⟩
      · obtain ⟨hret, hrank⟩ := ih _ hlt hso hinto rfl
        exact ⟨hret, Nat.lt_trans hrank hlt⟩

/-- The first point comes before the second in the order of the region. -/
def Before (y : Layout) (q p : Point) : Prop :=
  y.rank q.block < y.rank p.block ∨ (q.block = p.block ∧ q.index < p.index)

theorem before_of_retainsAt (ht : (y.flat.downWalk root).Traced out l) (h : y.Stands p.block n) (hn : n ∈ y.order)
    (hx : Awaits (y.retainsAt root out p) x) : y.Own .retain root x ∧ y.Before x p := by
  have hinto : Awaits ((y.flat.downWalk root).into out n) x → y.Own .retain root x ∧ y.Before x p := by
    intro hx
    obtain ⟨hret, hlt⟩ := own_of_into ht hn hx
    exact ⟨hret, .inl (by rw [h.rank]; exact hlt)⟩
  cases hc : y.child p.block with
  | some c =>
    rw [retainsAt_inner h (by rw [hc]; rfl)] at hx
    exact hinto hx
  | none =>
    rw [retainsAt_own h hc] at hx
    rcases Walk.awaits_foldl hx with hmem | hx
    · obtain ⟨j, hj, heq⟩ := List.mem_map.mp hmem
      obtain ⟨rfl, heff⟩ := Prod.mk.inj heq
      have hlt : j < p.index := by
        obtain ⟨i, hi, hget⟩ := List.mem_take_iff_getElem.mp hj
        have : i = j := (List.getElem_range _).symm.trans hget
        omega
      exact ⟨⟨n, hn, h, hc, heff⟩, .inr ⟨rfl, hlt⟩⟩
    · exact hinto hx

end Down

section Up

/-- What becomes of a release that awaits a retain, back over an instruction of the region
itself. -/
theorem releasesAt_step (ht : (y.flat.upWalk root).Traced out l) (h : y.Stands p.block n) (hn : n ∈ y.order)
    (hc : y.child p.block = none) (hp : p.index ≤ (y.routine.codeAt p.block).body.length)
    (hx : Awaits (y.releasesAt root out ⟨p.block, p.index + 1⟩) x) :
    l.Loose x ∨ (y.facts.effectAt root (y.routine.codeAt p.block) p.index = .retain ∧ l.Tied x p) ∨
      ((y.facts.effectAt root (y.routine.codeAt p.block) p.index).harmless ∧ Awaits (y.releasesAt root out p) x) := by
  have hplain := y.flat.upWalk_plain root
  have heff : (y.flat.upWalk root).effects n =
      (y.trace root p.block (y.positions p.block)).reverse.filter fun x => x.2 != .nothing := by
    rw [List.filter_reverse, ← effects_stands h hc]
    rfl
  have hsplit : (y.trace root p.block (y.positions p.block)).reverse =
      (y.trace root p.block ((y.positions p.block).drop (p.index + 1))).reverse ++
        (p, y.facts.effectAt root (y.routine.codeAt p.block) p.index) ::
          (y.trace root p.block ((y.positions p.block).take p.index)).reverse := by
    rw [trace_split hp]
    simp
  have hmarks := hplain.marks_at (ht.told n (List.mem_reverse.mpr hn)) heff hsplit
  rw [← releasesAt_own (p := ⟨p.block, p.index + 1⟩) h hc] at hmarks
  rw [releasesAt_eq h hc hp]
  exact hplain.marks_cases hmarks hx

private theorem awaits_along_back (ht : (y.flat.upWalk root).Traced out l) (h : y.Stands b n) (hn : n ∈ y.order)
    (hx : Awaits (y.releasesAt root out ⟨b, 0⟩) x) :
    l.Loose x ∨ Awaits ((y.flat.upWalk root).along out n ((y.flat.upWalk root).effects n)) x := by
  have hplain := y.flat.upWalk_plain root
  cases hc : y.child b with
  | none =>
    right
    rw [releasesAt_own (p := ⟨b, 0⟩) h hc, List.drop_zero] at hx
    have heff : (y.flat.upWalk root).effects n =
        (y.trace root b (y.positions b)).reverse.filter fun x => x.2 != .nothing := by
      rw [List.filter_reverse, ← effects_stands h hc]
      rfl
    rw [heff, Walk.along, hplain.foldl_filter]
    exact hx
  | some c =>
    obtain ⟨q, e, heff, hret, hrel, -⟩ := effects_inner root (show y.places[n]? = some (.loop c) by
      rw [h.2, placeOf, hc])
    have heff' : (y.flat.upWalk root).effects n = [(q, e)].filter fun x => x.2 != .nothing := by
      rw [show (y.flat.upWalk root).effects n = (y.flat.effects root n).reverse from rfl, heff, ← List.filter_reverse]
      rfl
    rw [releasesAt_inner (p := ⟨b, 0⟩) h (by rw [hc]; rfl)] at hx
    have hmarks := hplain.marks_at (ht.told n (List.mem_reverse.mpr hn)) heff' (List.nil_append _).symm
    rcases hplain.marks_cases hmarks hx with hloose | ⟨hans, -⟩ | ⟨-, hafter⟩
    · exact .inl hloose
    · exact absurd hans hret
    · right
      rw [heff', Walk.along, hplain.foldl_filter]
      exact hafter

private theorem releasesAt_end (h : y.Stands b n)
    (hx : Awaits ((y.flat.upWalk root).into out n) x) :
    Awaits (y.releasesAt root out ⟨b, (y.routine.codeAt b).body.length⟩) x := by
  have hplain := y.flat.upWalk_plain root
  cases hc : y.child b with
  | some c => rwa [releasesAt_inner (p := ⟨b, _⟩) h (by rw [hc]; rfl)]
  | none =>
    have hterm : (y.facts.effectAt root (y.routine.codeAt b) (y.routine.codeAt b).body.length).harmless := by
      rw [Facts.effectAt, List.getElem?_eq_none (Nat.le_refl _)]
      exact y.facts.termEffect_harmless root _
    rw [releasesAt_eq (p := ⟨b, _⟩) h hc (Nat.le_refl _)]
    refine (hplain.awaits_of_harmless hterm).mpr ?_
    rw [releasesAt_own (p := ⟨b, (y.routine.codeAt b).body.length + 1⟩) h hc,
      List.drop_of_length_le (by simp [positions])]
    exact hx

theorem releasesAt_entry (hv : y.Views) (ht : (y.flat.upWalk root).Traced out l)
    (hx : Awaits (y.releasesAt root out ⟨y.routine.entry, 0⟩) x) : l.Loose x := by
  obtain ⟨n, h⟩ := stands_of_releasesAt hx
  have hn := (hv.reached h).mpr (.refl ..)
  have hentry := h.eq_entry (hv.entry h.1)
  rcases awaits_along_back ht h hn hx with hloose | hall
  · exact hloose
  · refine (ht.told n (List.mem_reverse.mpr hn)).escaped ?_ x hall
    simp only [Flat.upWalk, Flat.blindEntry]
    simp [hentry, flat]

/-- What becomes of a release that awaits a retain, back along an edge. -/
theorem releasesAt_edge (hv : y.Views) (ht : (y.flat.upWalk root).Traced out l)
    (hr : y.routine.flow.Reaches y.routine.entry b) (he : y.routine.flow.Edge b t)
    (hx : Awaits (y.releasesAt root out ⟨t, 0⟩) x) :
    l.Loose x ∨ Awaits (y.releasesAt root out ⟨b, (y.routine.codeAt b).body.length⟩) x := by
  obtain ⟨n', h'⟩ := stands_of_releasesAt hx
  have hn' := (hv.reached h').mpr (hr.edge he)
  rcases awaits_along_back ht h' hn' hx with hloose | hall
  · exact .inl hloose
  by_cases hblind : y.flat.blindEntry n'
  · exact .inl ((ht.told n' (List.mem_reverse.mpr hn')).escaped hblind x hall)
  obtain ⟨n, h, hn, ⟨rfl, hc⟩ | hpred⟩ := hv.entered.comes_from h' hr he hblind
  · rw [releasesAt_inner (p := ⟨t, 0⟩) h' (inner_congr h h' hc)] at hx
    exact .inr (releasesAt_end h hx)
  · have hout : Awaits (out n') x := by
      rw [ht.out_eq n' (List.mem_reverse.mpr hn'), Walk.leave]
      have hgo : ¬ ((y.flat.upWalk root).escapes n' || (y.flat.upWalk root).ends n') := by
        simp only [Flat.upWalk, Bool.or_false]
        exact hblind
      rw [if_neg hgo]
      exact hall
    have hsource : n' ∈ (y.flat.upWalk root).sources n := mem_succs.mpr (mem_preds.mp hpred)
    by_cases hb : (y.flat.upWalk root).blocked out n
    · exact .inl ((ht.told n (List.mem_reverse.mpr hn)).blocked hb n' hsource x hout)
    · exact .inr (releasesAt_end h ((Walk.awaits_into hb).mpr ⟨n', hsource, hout⟩))

end Up

end Layout

end CountMotion
