import CountMotion.Proofs.Backing
import CountMotion.Proofs.WholeView

/-! Several releases of a closure sink to one release where their paths join. -/
namespace CountMotion

variable {y : Layout} {root : Var} {members : List Point} {join target n : Nat} {p x : Point} {i : Instr} {m : Memory}
  {above below : Nat → Prop} {frozen : List (BlockId × Var)} {code : Block}

section Zones

/-- All paths from the members lead to the join, through silent code only. -/
structure Layout.Sinks (y : Layout) (root : Var) (members : List Point) (join : Nat) (below : Nat → Prop) : Prop where
  member : ∀ {x n}, x ∈ members → y.Stands x.block n →
    (∀ j, x.index < j → j ≤ (y.routine.codeAt x.block).body.length → Flat.silentAt (y.routine.codeAt x.block) j) ∧
      y.flat.continues root n ∧ ∀ s ∈ y.flat.succs n, below s
  inner : ∀ {b n}, below n → n ≠ join → y.Stands b n → y.child b = none ∧
    (∀ j ≤ (y.routine.codeAt b).body.length, Flat.silentAt (y.routine.codeAt b) j) ∧
      y.flat.continues root n ∧ ∀ s ∈ y.flat.succs n, below s
  after : ∀ {n}, below n → ∃ x ∈ members, y.rank x.block < y.order.idxOf n

structure Layout.Gathers (y : Layout) (members : List Point) (join : Nat) (above : Nat → Prop) : Prop where
  sees : ¬ y.flat.blindEntry join
  preds : ∀ s ∈ y.flat.preds join, above s
  inner : ∀ {b n}, above n → y.Stands b n → y.child b = none ∧
    ((∃ x ∈ members, x.block = b) ∨ (¬ y.flat.blindEntry n ∧ ∀ s ∈ y.flat.preds n, above s))
  before : ∀ {n}, above n → y.order.idxOf n < y.order.idxOf join

theorem Layout.sinks_of_reach (h : y.flat.reachJoin root members join) :
    ∃ below, y.Sinks root members join below := by
  rw [Flat.reachJoin, Bool.and_eq_true, List.all_eq_true, List.all_eq_true] at h
  obtain ⟨hgo, hpass⟩ := h
  generalize hfound : explore (List.range y.flat.size) _ _ [] = found at hpass
  refine ⟨(· ∈ found), fun {x n} hx hs => ?_, fun {b n} hn hne hs => ?_, fun {n} hn => ?_⟩ <;> subst hfound
  · have hthis := hgo x hx
    have hnode := Layout.nodeOf_eq_some.mpr hs
    rw [hnode, Option.elim_some, Flat.passes] at hthis
    cases hb : y.flat.block? n with
    | none => rw [hb] at hthis; cases hthis
    | some z =>
      obtain ⟨b, code⟩ := z
      obtain ⟨hplace, rfl⟩ := Layout.block?_eq_some.mp hb
      obtain ⟨rfl, -⟩ := hs.eq_block hplace
      rw [hb] at hthis
      simp only [Bool.and_eq_true, List.all_eq_true, List.mem_filter, List.mem_range,
        decide_eq_true_eq, and_imp] at hthis
      refine ⟨fun j hlt hle => hthis.1 j (Nat.lt_succ_of_le hle) hlt, hthis.2, fun s hsucc => ?_⟩
      refine mem_explore_of_pending (List.mem_flatMap.mpr ⟨x, hx, by rw [hnode]; exact hsucc⟩) ?_
      exact Layout.mem_range_of_succs hsucc
  · have hthis := hpass n hn
    rw [Bool.or_eq_true, beq_iff_eq] at hthis
    have hpasses := hthis.resolve_left hne
    have hnext := fun s (hsucc : s ∈ y.flat.succs n) =>
      explore_closed hn List.not_mem_nil (b := s) (by simpa [hne, hpasses] using hsucc)
        (Layout.mem_range_of_succs hsucc)
    rw [Flat.passes] at hpasses
    cases hb : y.flat.block? n with
    | none => rw [hb] at hpasses; cases hpasses
    | some z =>
      obtain ⟨b', code⟩ := z
      obtain ⟨hplace, rfl⟩ := Layout.block?_eq_some.mp hb
      obtain ⟨rfl, hchild⟩ := hs.eq_block hplace
      rw [hb] at hpasses
      simp only [Bool.and_eq_true, List.all_eq_true, List.mem_filter, List.mem_range, and_true] at hpasses
      exact ⟨hchild, fun j hj => hpasses.1 j (Nat.lt_succ_of_le hj), hpasses.2, hnext⟩
  · refine explore_induct (p := fun n => ∃ x ∈ members, y.rank x.block < y.order.idxOf n) (by simp) ?_ ?_ n hn
    · intro s hs _
      obtain ⟨x, hx, hsucc⟩ := List.mem_flatMap.mp hs
      cases hnode : y.flat.nodeOf x.block with
      | none => rw [hnode] at hsucc; cases hsucc
      | some n =>
        rw [hnode] at hsucc
        refine ⟨x, hx, ?_⟩
        rw [Layout.Stands.rank (Layout.nodeOf_eq_some.mp hnode)]
        exact (Layout.mem_succs.mp hsucc).2.2
    · rintro a b - ⟨x, hx, hlt⟩ hb -
      refine ⟨x, hx, Nat.lt_trans hlt ?_⟩
      split at hb
      · exact (Layout.mem_succs.mp hb).2.2
      · cases hb

theorem Layout.gathers_of_follows (h : y.flat.followMembers members join) :
    ∃ above, y.Gathers members join above := by
  rw [Flat.followMembers, Bool.and_eq_true, Bool.and_eq_true, List.all_eq_true] at h
  obtain ⟨⟨hsees, -⟩, hopen⟩ := h
  generalize hfound : explore (List.range y.flat.size) _ _ [] = found at hopen
  refine ⟨(· ∈ found), by simpa using hsees, fun s hs => ?_, fun {b n} hn hs => ?_, fun {n} hn => ?_⟩ <;> subst hfound
  · exact mem_explore_of_pending hs (Layout.mem_range_of_preds hs)
  · have hmeets := hopen n hn
    obtain ⟨b', code, hblock⟩ : ∃ b' code, y.flat.block? n = some (b', code) := by
      cases hb : y.flat.block? n with
      | none => rw [Flat.meetRelease, hb] at hmeets; cases hmeets
      | some z => exact ⟨z.1, z.2, rfl⟩
    obtain ⟨rfl, hchild⟩ := hs.eq_block (Layout.block?_eq_some.mp hblock).1
    refine ⟨hchild, ?_⟩
    rcases y.flat.meetRelease_cases members n with hb | ⟨-, b', code', j, hblock', hmem⟩ | ⟨hclear, hsees⟩
    · rw [hb] at hmeets
      cases hmeets
    · obtain ⟨rfl, -⟩ := Prod.mk.inj (Option.some.inj (hblock.symm.trans hblock'))
      exact .inl ⟨_, hmem, rfl⟩
    · exact .inr ⟨hsees, fun s hpred =>
        explore_closed hn List.not_mem_nil (by simpa [hclear] using hpred) (Layout.mem_range_of_preds hpred)⟩
  · refine explore_induct (p := fun n => y.order.idxOf n < y.order.idxOf join) (by simp) ?_ ?_ n hn
    · exact fun s hs _ => (Layout.mem_preds.mp hs).2.2
    · intro a b _ ha hb _
      split at hb
      · exact Nat.lt_trans (Layout.mem_preds.mp hb).2.2 ha
      · cases hb

theorem Flat.silent_of_silentAt {r : Routine} (h : silentAt (r.codeAt p.block) p.index) (hi : r.instrAt? p = some i) :
    i.silent := by
  rw [Routine.instrAt?_eq] at hi
  rwa [silentAt, hi] at h

/-- The ways from some releases meet at one block, to which no other way leads. -/
structure Layout.Joins (y : Layout) (root : Var) (members : List Point) (target : BlockId) (join : Nat)
    (above below : Nat → Prop) : Prop where
  reach : y.Sinks root members join below
  gathers : y.Gathers members join above
  place : y.places[join]? = some (.block target)
  outside : ∀ x ∈ members, x.block ≠ target
  own : ∀ x ∈ members, y.Own .release root x

namespace Layout.Joins

theorem stands (h : y.Joins root members target join above below) : y.Stands target join :=
  (Layout.stands_of_place h.place).1

theorem not_above (h : y.Joins root members target join above below) (hs : y.Stands target n) : ¬ above n := by
  intro habove
  rw [hs.unique h.stands] at habove
  exact Nat.lt_irrefl _ (h.gathers.before habove)

/-- Between the members and their join, code is silent and comes after one of them. -/
theorem silentAt (h : y.Joins root members target join above below)
    (hle : p.index ≤ (y.routine.codeAt p.block).body.length)
    (hp : (∃ x ∈ members, x.block = p.block ∧ x.index < p.index) ∨ ∃ n, y.Stands p.block n ∧ below n ∧ n ≠ join) :
    Flat.silentAt (y.routine.codeAt p.block) p.index ∧ ∃ x ∈ members, y.Before x p := by
  rcases hp with ⟨x, hx, hb, hlt⟩ | ⟨n, hn, hbelow, hne⟩
  · obtain ⟨n, -, hn, -⟩ := h.own x hx
    have hsilent := (h.reach.member hx hn).1 p.index hlt (hb ▸ hle)
    rw [hb] at hsilent
    exact ⟨hsilent, x, hx, .inr ⟨hb, hlt⟩⟩
  · obtain ⟨x, hx, hlt⟩ := h.reach.after hbelow
    exact ⟨(h.reach.inner hbelow hne hn).2.1 p.index hle, x, hx, .inl (by rwa [hn.rank])⟩

theorem continues (h : y.Joins root members target join above below) {b : Nat}
    (hb : (∃ x ∈ members, x.block = b) ∨ ∃ n, y.Stands b n ∧ below n ∧ n ≠ join) :
    ∃ n, y.Stands b n ∧ y.child b = none ∧ y.flat.continues root n ∧ ∀ s ∈ y.flat.succs n, below s := by
  rcases hb with ⟨x, hx, rfl⟩ | ⟨n, hn, hbelow, hne⟩
  · obtain ⟨n, -, hn, hchild, -⟩ := h.own x hx
    exact ⟨n, hn, hchild, (h.reach.member hx hn).2⟩
  · obtain ⟨hchild, -, hcont⟩ := h.reach.inner hbelow hne hn
    exact ⟨n, hn, hchild, hcont⟩

/-- From between the members and their join, control goes on to the join or into quiet code. -/
theorem goes_on (h : y.Joins root members target join above below) (hv : y.Entered) {b t : Nat}
    (hr : y.routine.flow.Reaches y.routine.entry b) (he : y.routine.flow.Edge b t)
    (hb : (∃ x ∈ members, x.block = b) ∨ ∃ n, y.Stands b n ∧ below n ∧ n ≠ join) :
    ((∃ n, y.Stands t n ∧ below n ∧ n ≠ join) ∧ y.rank b < y.rank t) ∨ t = target ∨
      t ∉ y.region.blocks ∧ y.facts.quietExit y.routine root t := by
  obtain ⟨n, hn, hchild, hcont, hnext⟩ := h.continues hb
  have hesc : ¬ y.flat.liveEscape root n := by
    simp only [Flat.continues, Bool.and_eq_true, Bool.not_eq_true'] at hcont
    simp [hcont.1]
  rcases hv.goes_on hn hr he hesc with ⟨n', hn', -, ⟨-, hinner⟩ | hsucc⟩ | hexit
  · rw [hchild] at hinner
    cases hinner
  · by_cases hjoin : n' = join
    · subst hjoin
      exact .inr (.inl (hn'.eq_block h.place).1)
    · refine .inl ⟨⟨n', hn', hnext n' hsucc, hjoin⟩, ?_⟩
      rw [hn.rank, hn'.rank]
      exact (Layout.mem_succs.mp hsucc).2.2
  · exact .inr (.inr hexit)

/-- To the join, and to what lies between, control comes from between only. -/
theorem comes_from (h : y.Joins root members target join above below) (hv : y.Entered) {b t n : Nat}
    (hn : y.Stands t n) (hr : y.routine.flow.Reaches y.routine.entry b) (he : y.routine.flow.Edge b t)
    (hfrom : n = join ∨ (above n ∧ ∀ x ∈ members, x.block ≠ t)) : ∃ s, y.Stands b s ∧ above s := by
  obtain ⟨hchild, hblind, hpreds⟩ : y.child t = none ∧ ¬ y.flat.blindEntry n ∧ ∀ s ∈ y.flat.preds n, above s := by
    rcases hfrom with rfl | ⟨habove, hno⟩
    · exact ⟨(hn.eq_block h.place).2, h.gathers.sees, h.gathers.preds⟩
    · obtain ⟨hchild, hcase⟩ := h.gathers.inner habove hn
      exact ⟨hchild, hcase.resolve_left fun ⟨x, hx, hb⟩ => hno x hx hb⟩
  obtain ⟨s, hs, -, ⟨rfl, hinner⟩ | hpred⟩ := hv.comes_from hn hr he hblind
  · have := Layout.inner_congr hs hn hinner
    rw [hchild] at this
    cases this
  · exact ⟨s, hs, hpreds s hpred⟩

theorem begins (h : y.Joins root members target join above below) (hv : y.Entered) :
    y.routine.entry ≠ target ∧ ∀ n, y.Stands y.routine.entry n → above n → ∃ x ∈ members, x.block = y.routine.entry := by
  have hentry : ∀ {n}, y.Stands y.routine.entry n → y.flat.blindEntry n := by
    intro n hs
    have := hs.eq_entry (hv.entry hs.1)
    simp [Flat.blindEntry, this, Layout.flat]
  refine ⟨fun heq => h.gathers.sees (hentry (heq ▸ h.stands)), fun n hs habove => ?_⟩
  exact (h.gathers.inner habove hs).2.resolve_right fun hno => hno.1 (hentry hs)

end Layout.Joins

end Zones

theorem Memory.not_touches_of_silent {o : ObjId} (h : i.silent) : ¬ m.Touches o i := by
  cases i <;> first | exact not_false | cases h

namespace Closure

variable {c : Closure} {down up : Nat → Option Pending} {net : Point → Int} {on : Bool}

/-- The releases of a closure can sink to a block where their paths join. -/
structure Sinks (c : Closure) (y : Layout) (net : Point → Int) (target : BlockId) (join : Nat)
    (above below : Nat → Prop) : Prop where
  nets : y.Nets c.root net
  reach : y.Sinks c.root c.releases join below
  gathers : y.Gathers c.releases join above
  place : y.places[join]? = some (.block target)
  outside : ∀ x ∈ c.releases, x.block ≠ target
  available : y.routine.Available ⟨target, 0⟩ c.root

/-- All releases go, and one comes at the start of the target. The span is open from each of
them to there. -/
def sinkSpan (c : Closure) (y : Layout) (target : BlockId) (join : Nat) (above below : Nat → Prop) : Span where
  root := c.root
  lift := true
  opensAt := []
  closesAt := [⟨target, 0⟩]
  opensBy := c.releases
  closesBy := []
  may on p :=
    (on = true → (∃ x ∈ c.releases, x.block = p.block ∧ x.index < p.index) ∨
      (∃ n, y.Stands p.block n ∧ below n ∧ n ≠ join) ∨ p = ⟨target, 0⟩ ∨ y.facts.Quiet y.routine c.root p.block) ∧
    (on = false → p ≠ ⟨target, 0⟩ ∧ ∀ n, y.Stands p.block n → above n →
      ∃ x ∈ c.releases, x.block = p.block ∧ p.index ≤ x.index)

private theorem turnAt_sink (c : Closure) (y : Layout) (target : BlockId) (join : Nat) (above below : Nat → Prop)
    (p : Point) (on : Bool) :
    (c.sinkSpan y target join above below).turnAt p on = true ↔ on = true ∧ p ≠ ⟨target, 0⟩ := by
  cases on <;> simp [Span.turnAt, sinkSpan]

private theorem turnBy_sink (c : Closure) (y : Layout) (target : BlockId) (join : Nat) (above below : Nat → Prop)
    (p : Point) (on : Bool) :
    (c.sinkSpan y target join above below).turnBy p on = true ↔ on = true ∨ p ∈ c.releases := by
  cases on with
  | false => exact ⟨fun h => .inr (of_decide_eq_true h), fun h => decide_eq_true (h.resolve_left Bool.false_ne_true)⟩
  | true => simp [Span.turnBy, sinkSpan]

namespace Sinks

theorem joins (h : c.Sinks y net target join above below) (hc : c.Standing y down up) :
    y.Joins c.root c.releases target join above below :=
  ⟨h.reach, h.gathers, h.place, h.outside, hc.releases⟩

private theorem begins (h : c.Sinks y net target join above below) (hc : c.Standing y down up) (hv : y.Views) :
    (c.sinkSpan y target join above below).may false ⟨y.routine.entry, 0⟩ := by
  obtain ⟨hne, hbefore⟩ := (h.joins hc).begins hv.entered
  refine ⟨fun hon => absurd hon Bool.false_ne_true, fun _ => ⟨fun heq => hne (congrArg Point.block heq),
    fun n hs habove => ?_⟩⟩
  obtain ⟨x, hx, hb⟩ := hbefore n hs habove
  exact ⟨x, hx, hb, Nat.zero_le _⟩

private theorem step (h : c.Sinks y net target join above below) (hc : c.Standing y down up)
    (hmay : (c.sinkSpan y target join above below).may on p) :
    (c.sinkSpan y target join above below).may ((c.sinkSpan y target join above below).turnBy p
      ((c.sinkSpan y target join above below).turnAt p on)) ⟨p.block, p.index + 1⟩ := by
  have hfirst : ∀ {n}, (⟨p.block, n + 1⟩ : Point) ≠ ⟨target, 0⟩ := fun heq => Nat.succ_ne_zero _ (Point.mk.inj heq).2
  cases on with
  | false =>
    have hoff : (c.sinkSpan y target join above below).turnAt p false = false :=
      Bool.eq_false_iff.mpr fun hon => Bool.false_ne_true ((turnAt_sink ..).mp hon).1
    obtain ⟨-, hzone⟩ := hmay.2 rfl
    rw [hoff]
    by_cases hp : p ∈ c.releases
    · rw [(turnBy_sink ..).mpr (.inr hp)]
      exact ⟨fun _ => .inl ⟨p, hp, rfl, Nat.lt_succ_self _⟩, fun hon => absurd hon.symm Bool.false_ne_true⟩
    · have hstay : (c.sinkSpan y target join above below).turnBy p false = false :=
        Bool.eq_false_iff.mpr fun hon => hp (((turnBy_sink ..).mp hon).resolve_left Bool.false_ne_true)
      rw [hstay]
      refine ⟨fun hon => absurd hon Bool.false_ne_true, fun _ => ⟨hfirst, fun n hs habove => ?_⟩⟩
      obtain ⟨x, hx, hb, hle⟩ := hzone n hs habove
      refine ⟨x, hx, hb, Nat.lt_of_le_of_ne hle fun heq => hp ?_⟩
      rwa [show p = x from congr (congrArg Point.mk hb.symm) heq]
  | true =>
    by_cases hp : p = ⟨target, 0⟩
    · have hoff : (c.sinkSpan y target join above below).turnAt p true = false :=
        Bool.eq_false_iff.mpr fun hon => ((turnAt_sink ..).mp hon).2 hp
      have hstay : (c.sinkSpan y target join above below).turnBy p false = false := by
        refine Bool.eq_false_iff.mpr fun hon => h.outside p ?_ (by rw [hp])
        exact ((turnBy_sink ..).mp hon).resolve_left Bool.false_ne_true
      rw [hoff, hstay]
      refine ⟨fun hon => absurd hon Bool.false_ne_true, fun _ => ⟨hfirst, fun n hs habove => ?_⟩⟩
      rw [hp] at hs
      exact absurd habove ((h.joins hc).not_above hs)
    · rw [(turnAt_sink ..).mpr ⟨rfl, hp⟩, (turnBy_sink ..).mpr (.inl rfl)]
      refine ⟨fun _ => ?_, fun hon => absurd hon.symm Bool.false_ne_true⟩
      rcases hmay.1 rfl with ⟨x, hx, hb, hlt⟩ | hmid | hp' | hquiet
      · exact .inl ⟨x, hx, hb, Nat.lt_succ_of_lt hlt⟩
      · exact .inr (.inl hmid)
      · exact absurd hp' hp
      · exact .inr (.inr (.inr hquiet))

private theorem jump (h : c.Sinks y net target join above below) (hc : c.Standing y down up) (hv : y.Views) {b t : Nat}
    (hat : y.routine.At ⟨b, (y.routine.codeAt b).body.length⟩ m)
    (hmay : (c.sinkSpan y target join above below).may on ⟨b, (y.routine.codeAt b).body.length⟩)
    (he : y.routine.flow.Edge b t) :
    (c.sinkSpan y target join above below).may
      ((c.sinkSpan y target join above below).turnAt ⟨b, (y.routine.codeAt b).body.length⟩ on) ⟨t, 0⟩ := by
  by_cases hopen : on = true ∧ (⟨b, (y.routine.codeAt b).body.length⟩ : Point) ≠ ⟨target, 0⟩
  · rw [(turnAt_sink ..).mpr hopen]
    refine ⟨fun _ => ?_, fun hon => absurd hon.symm Bool.false_ne_true⟩
    have hgo := hmay.1 hopen.1
    rw [← or_assoc] at hgo
    rcases hgo with hgo | hp | hquiet
    · have hfrom : (∃ x ∈ c.releases, x.block = b) ∨ ∃ n, y.Stands b n ∧ below n ∧ n ≠ join :=
        hgo.imp_left fun ⟨x, hx, hb, _⟩ => ⟨x, hx, hb⟩
      rcases (h.joins hc).goes_on hv.entered hat.reached he hfrom with ⟨hmid, -⟩ | rfl | ⟨-, hexit⟩
      · exact .inr (.inl hmid)
      · exact .inr (.inr (.inl rfl))
      · exact .inr (.inr (.inr ⟨t, hexit, .refl ..⟩))
    · exact absurd hp hopen.2
    · exact .inr (.inr (.inr (hquiet.edge he)))
  · have hoff : (c.sinkSpan y target join above below).turnAt ⟨b, (y.routine.codeAt b).body.length⟩ on = false :=
      Bool.eq_false_iff.mpr fun hon => hopen ((turnAt_sink ..).mp hon)
    rw [hoff]
    -- no path from outside leads there
    have hno : ∀ {n}, y.Stands t n → (n = join ∨ (above n ∧ ∀ x ∈ c.releases, x.block ≠ t)) → False := by
      intro n hs hfrom
      obtain ⟨s, hs', habove⟩ := (h.joins hc).comes_from hv.entered hs hat.reached he hfrom
      cases on with
      | false =>
        obtain ⟨x, hx, rfl, hle⟩ := (hmay.2 rfl).2 s hs' habove
        obtain ⟨v, kind, hi, -⟩ := (hc.releases x hx).release_at
        exact absurd (Routine.index_lt hi) (Nat.not_lt.mpr hle)
      | true =>
        obtain ⟨rfl, -⟩ := Point.mk.inj (Decidable.not_not.mp fun hne => hopen ⟨rfl, hne⟩)
        exact (h.joins hc).not_above hs' habove
    refine ⟨fun hon => absurd hon Bool.false_ne_true, fun _ => ⟨fun heq => ?_, fun n hs habove => ?_⟩⟩
    · obtain ⟨rfl, -⟩ := Point.mk.inj heq
      exact hno (h.joins hc).stands (.inl rfl)
    · by_contra hall
      exact hno hs (.inr ⟨habove, fun x hx hb => hall ⟨x, hx, hb, Nat.zero_le _⟩⟩)

private theorem clear (h : c.Sinks y net target join above below) (hc : c.Standing y down up) (hv : y.Views)
    (hat : y.routine.At p m) (hmay : (c.sinkSpan y target join above below).may true p) (hp : p ≠ ⟨target, 0⟩)
    (hi : y.routine.instrAt? p = some i) :
    i.target? ≠ some c.root ∧ ∀ o, m.env c.root = some o → ¬ m.Touches o i := by
  have hway : ∀ (_ : (∃ x ∈ c.releases, x.block = p.block ∧ x.index < p.index) ∨
      ∃ n, y.Stands p.block n ∧ below n ∧ n ≠ join), p.block ∈ y.region.blocks →
      i.target? ≠ some c.root ∧ ∀ o, m.env c.root = some o → ¬ m.Touches o i := by
    intro hway hblock
    obtain ⟨hsilent, x, hx, hbefore⟩ := (h.joins hc).silentAt (Nat.le_of_lt (Routine.index_lt hi)) hway
    have hown := hc.releases x hx
    exact ⟨hv.target_ne (hown.reached hv).1 (hown.reached hv).2 (hown.available hv (.inr rfl)) hbefore hblock hi,
      fun o _ => Memory.not_touches_of_silent (Flat.silent_of_silentAt hsilent hi)⟩
  rcases hmay.1 rfl with ⟨x, hx, hb, hlt⟩ | ⟨n, hs, hmid⟩ | hp' | hquiet
  · exact hway (.inl ⟨x, hx, hb, hlt⟩) (hb ▸ ((hc.releases x hx).reached hv).1)
  · exact hway (.inr ⟨n, hs, hmid⟩) hs.1
  · exact absurd hp' hp
  · exact hc.clear_of_quiet hv hat hi hquiet

private theorem not_open (h : c.Sinks y net target join above below) (hc : c.Standing y down up)
    (hmay : (c.sinkSpan y target join above below).may true p) (hne : p ≠ ⟨target, 0⟩) : p ∉ c.releases := by
  intro hp
  obtain ⟨v, kind, hi, -⟩ := (hc.releases p hp).release_at
  have hloud : ∀ (_ : (∃ x ∈ c.releases, x.block = p.block ∧ x.index < p.index) ∨
      ∃ n, y.Stands p.block n ∧ below n ∧ n ≠ join), False := fun hway =>
    Bool.false_ne_true (Flat.silent_of_silentAt ((h.joins hc).silentAt (Nat.le_of_lt (Routine.index_lt hi)) hway).1 hi)
  rcases hmay.1 rfl with hx | hmid | hp' | hquiet
  · exact hloud (.inl hx)
  · exact hloud (.inr hmid)
  · exact hne hp'
  · exact (hc.releases p hp).not_quiet (.inr rfl) hquiet

/-- Letting the releases of a closure sink to their join keeps what runs show. -/
theorem valid (h : c.Sinks y net target join above below) (hc : c.Standing y down up) (hv : y.Views) :
    (c.sinkSpan y target join above below).Valid y.routine where
  nodup_opensAt := .nil
  nodup_closesAt := List.nodup_singleton _
  placed p hp := by
    obtain rfl := List.mem_singleton.mp hp
    exact ⟨hv.sound.exists_block _ (h.joins hc).stands.1, Nat.zero_le _, h.available⟩
  plain hlift := absurd hlift.symm Bool.false_ne_true
  start := h.begins hc hv
  step _ hmay _ := h.step hc hmay
  jump hat hmay he := h.jump hc hv hat hmay he
  once_at _ := ⟨fun _ => List.not_mem_nil, fun hmay hp => (hmay.2 rfl).1 (List.mem_singleton.mp hp)⟩
  once_by _ hmay := by
    refine ⟨fun hon => ?_, fun _ => List.not_mem_nil⟩
    obtain ⟨rfl, hne⟩ := (turnAt_sink ..).mp hon
    exact h.not_open hc hmay hne
  alive _ _ hp := absurd hp List.not_mem_nil
  opener hp := hc.release_env hv hp
  closer hp := absurd hp List.not_mem_nil
  two _ hp hat ho := hc.two_le_count hv h.nets hat hp ho
  clear hat hmay hon _ hi := by
    obtain ⟨rfl, hne⟩ := (turnAt_sink ..).mp hon
    have hclear := h.clear hc hv hat hmay hne hi
    exact ⟨hclear.1, fun o ho ht => absurd ht (hclear.2 o ho)⟩

end Sinks

end Closure

end CountMotion
