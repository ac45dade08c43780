import CountMotion.Proofs.ChildLoops
import CountMotion.Proofs.Preheaders

/-! A retain before a loop and a release after it may stand for the operations in it, where these cancel in
order on every trip. -/
namespace CountMotion

variable {r : Routine} {k : Facts} {root : Var} {l : Region} {id pre b t : Nat} {net : Point → Int} {points : List Point}
  {q : Point} {i : Instr} {m : Memory} {on : Bool}

/-- A loop that does not count the root on the whole, and whose ways in and out have places for
operations on it. -/
structure Facts.Liftable (k : Facts) (r : Routine) (root : Var) (id : Nat) (l : Region) (pre : Nat) (net : Point → Int)
    (points : List Point) : Prop where
  describes : k.Describes r
  proper : r.Proper
  loop : k.forest.IsLoop id l
  laps : ∀ path, r.Lap k root l path → netCount (r.turnsOf k root path) = 0
  turns : ∀ path, r.Lap k root l path → Alternates (r.turnsOf k root path)
  lapNet : r.LapNet k root l net
  calm : ∀ b ∈ l.blocks, ∀ i ∈ (r.codeAt b).body, ¬ (k.effect root i).interferes
  mem_points : ∀ q, q ∈ points ↔ q.block ∈ l.blocks ∧
    ∃ i v, r.instrAt? q = some i ∧ i.counts? = some v ∧ k.root v = some root
  ne_nil : points ≠ []
  preheader : r.flow.Preheader r.entry l.header pre
  dedicated : ∀ exit ∈ l.exits, ∀ b, r.flow.Edge b exit → b ∈ l.blocks
  available : r.Available ⟨pre, (r.codeAt pre).body.length⟩ root
  starts : ¬ r.flow.Header r.entry r.entry

/-- All operations of the loop on the root go. The span is open while those of a trip have come to
nothing so far. -/
def Facts.hoistSpan (k : Facts) (r : Routine) (root : Var) (l : Region) (pre : Nat) (net : Point → Int)
    (points : List Point) : Span where
  root := root
  lift := true
  opensAt := [⟨pre, (r.codeAt pre).body.length⟩]
  closesAt := k.placesAfter r root l
  opensBy := points.filter fun q => !r.hasRetain q
  closesBy := points.filter r.hasRetain
  may on q :=
    (on = true → (q.block ∈ l.blocks ∧ net q = 0) ∨ k.Quiet r root q.block ∨ q ∈ k.placesAfter r root l) ∧
    (on = false → (q.block ∈ l.blocks → net q = 1) ∧ q ∉ k.placesAfter r root l)

namespace Facts.Liftable

variable (h : k.Liftable r root id l pre net points)
include h

theorem natural : l.Natural r.flow r.entry := h.describes.sound.forest.natural h.loop

theorem mem_iff : b ∈ l.blocks ↔ r.flow.InLoop r.entry l.header b := h.describes.sound.mem_loop_iff h.loop

theorem header_mem : l.header ∈ l.blocks := h.mem_iff.mpr (.inl rfl)

/-! Where the new operations stand. -/

theorem header_ne : l.header ≠ r.entry := fun heq => h.starts (heq ▸ h.natural.header)

theorem pre_outside : pre ∉ l.blocks := fun hmem => h.preheader.outside (h.mem_iff.mp hmem)

theorem pre_dominates (hb : b ∈ l.blocks) : r.flow.Dominates r.entry pre b :=
  (h.preheader.dominates_iff.mpr h.header_ne).trans (h.mem_iff.mp hb).dominated

theorem pre_edge : r.flow.Edge pre l.header := (h.preheader.edge_iff _).mpr rfl

theorem pre_reached : r.flow.Reaches r.entry pre :=
  (h.pre_dominates h.header_mem).reached h.natural.header.reached

theorem exit_outside (he : t ∈ l.exits) : t ∉ l.blocks := fun hmem =>
  ((h.natural.exit_iff t).mp he).1 ((h.natural.holds_iff t).mpr (h.mem_iff.mp hmem))

theorem mem_exits (hb : b ∈ l.blocks) (he : r.flow.Edge b t) (ht : t ∉ l.blocks) : t ∈ l.exits := by
  refine (h.natural.exit_iff t).mpr ⟨fun hholds => ht ?_, b, he, ?_⟩
  · exact h.mem_iff.mpr ((h.natural.holds_iff t).mp hholds)
  · exact (h.natural.holds_iff b).mpr (h.mem_iff.mp hb)

theorem exit_ne_entry (he : t ∈ l.exits) : t ≠ r.entry := by
  rintro rfl
  obtain ⟨-, b, hedge, hb⟩ := (h.natural.exit_iff _).mp he
  have hin := (h.natural.holds_iff b).mp hb
  exact h.starts ⟨b, hedge, hin.reached h.natural.header, .of_entry _ _ _⟩

theorem exit_dominated (he : t ∈ l.exits) : r.flow.Dominates r.entry l.header t :=
  .of_preds (h.exit_ne_entry he) fun b hb => (h.mem_iff.mp (h.dedicated t he b hb)).dominated

theorem exit_reached (he : t ∈ l.exits) : r.flow.Reaches r.entry t := by
  obtain ⟨-, b, hedge, hb⟩ := (h.natural.exit_iff _).mp he
  exact (((h.natural.holds_iff b).mp hb).reached h.natural.header).edge hedge

theorem not_edge_header (he : t ∈ l.exits) : ¬ r.flow.Edge t l.header := fun hedge =>
  h.exit_outside he (h.mem_iff.mpr (Graph.Latch.inLoop ⟨hedge, h.exit_reached he, h.exit_dominated he⟩))

theorem pre_not_exit : pre ∉ l.exits := fun he => h.not_edge_header he h.pre_edge

theorem enters (hr : r.flow.Reaches r.entry b) (he : r.flow.Edge b t) (hb : b ∉ l.blocks) (ht : t ∈ l.blocks) :
    b = pre ∧ t = l.header :=
  h.preheader.of_step hr he (fun hin => hb (h.mem_iff.mpr hin)) (h.mem_iff.mp ht)

theorem available_exit (he : t ∈ l.exits) : r.Available ⟨t, 0⟩ root := by
  have hdom : r.flow.Dominates r.entry pre t := (h.pre_dominates h.header_mem).trans (h.exit_dominated he)
  rcases h.available with hparam | ⟨i, hi, hv⟩ | ⟨b, hb, hdef, hbdom⟩
  · exact .inl hparam
  · refine .inr (.inr ⟨pre, fun heq => h.pre_not_exit (heq ▸ he), ⟨i, List.mem_of_mem_take hi, hv⟩, hdom⟩)
  · refine .inr (.inr ⟨b, ?_, hdef, hbdom.trans hdom⟩)
    rintro rfl
    exact hb (Graph.Dominates.antisymm (h.exit_reached he) hbdom hdom)

/-! The code where the root no longer matters lies apart. -/

theorem not_quiet (hb : b ∈ l.blocks) : ¬ k.Quiet r root b := by
  rintro ⟨exit, hexit, hreach⟩
  exact ((h.describes.doomed hexit).reaches hreach).not_inLoop h.natural.header (h.mem_iff.mp hb)

theorem pre_not_quiet : ¬ k.Quiet r root pre := fun hq => h.not_quiet h.header_mem (hq.edge h.pre_edge)

theorem placesAfter_not_quiet (hq : q ∈ k.placesAfter r root l) : ¬ k.Quiet r root q.block := by
  obtain ⟨-, he, hlive⟩ := Facts.mem_placesAfter.mp hq
  rintro ⟨exit, hexit, hreach⟩
  cases hreach with
  | here => exact hlive hexit
  | snoc hreach hedge _ => exact h.not_quiet (h.dedicated _ he _ hedge) ⟨exit, hexit, hreach⟩

theorem not_mem_placesAfter (hb : q.block ∈ l.blocks) : q ∉ k.placesAfter r root l := fun hq =>
  h.exit_outside (Facts.mem_placesAfter.mp hq).2.1 hb

theorem pre_not_mem_placesAfter {j : Nat} : (⟨pre, j⟩ : Point) ∉ k.placesAfter r root l := fun hq =>
  h.pre_not_exit (Facts.mem_placesAfter.mp hq).2.1

/-! What happens in the loop. -/

theorem spares (hb : b ∈ l.blocks) : r.Spares root b := by
  intro j i hi hdef
  obtain ⟨rfl, -⟩ | ⟨hne, hdom⟩ : (b = pre ∧ _) ∨ (b ≠ pre ∧ r.flow.Dominates r.entry b pre) :=
    h.proper.ssa.before hi hdef h.available
  · exact h.pre_outside hb
  · exact hne (Graph.Dominates.antisymm h.pre_reached (h.pre_dominates hb) hdom).symm

theorem instr_cases (hb : q.block ∈ l.blocks) (hi : r.instrAt? q = some i) :
    (q ∈ points.filter r.hasRetain ∧ net q = 0 ∧ net ⟨q.block, q.index + 1⟩ = 1) ∨
    (q ∈ points.filter (fun q => !r.hasRetain q) ∧ net q = 1 ∧ net ⟨q.block, q.index + 1⟩ = 0) ∨
    (q ∉ points ∧ net ⟨q.block, q.index + 1⟩ = net q ∧ (k.effect root i).harmless) := by
  have hstep := h.lapNet.step h.describes.sound h.loop hb hi
  have hturn := fun {e} => h.lapNet.turn h.describes.sound h.loop h.turns hb hi (e := e)
  rcases Effect.cases_of_not_interferes (h.calm _ hb i (Routine.mem_body_of_instrAt? hi)) with hharm | heff | heff
  · have hnone := (Effect.harmless_iff_turn?.mp hharm).2
    rw [Facts.turn?_effect] at hnone
    refine .inr (.inr ⟨fun hq => ?_, by rw [hstep, hnone]; exact Int.add_zero _, hharm⟩)
    obtain ⟨-, j, v, hj, hv, hroot⟩ := (h.mem_points q).mp hq
    obtain rfl := Option.some.inj (hi.symm.trans hj)
    cases i with
    | retain w kind =>
      obtain rfl := Option.some.inj hv
      simp [Facts.turn?, hroot] at hnone
    | release w kind =>
      obtain rfl := Option.some.inj hv
      simp [Facts.turn?, hroot] at hnone
    | _ => cases hv
  · obtain ⟨v, kind, rfl, hroot⟩ := Facts.effect_eq_retain heff
    have hcount : k.turn? root (.retain v kind) = some true := if_pos hroot
    have hzero := hturn hcount
    rw [hcount] at hstep
    refine .inl ⟨List.mem_filter.mpr ⟨(h.mem_points q).mpr ⟨hb, _, v, hi, rfl, hroot⟩, ?_⟩, hzero, ?_⟩
    · rw [Routine.hasRetain, hi]
    · rw [hstep, hzero]
      rfl
  · obtain ⟨v, kind, rfl, hroot⟩ := Facts.effect_eq_release heff
    have hcount : k.turn? root (.release v kind) = some false := if_pos hroot
    have hone := hturn hcount
    rw [hcount] at hstep
    refine .inr (.inl ⟨List.mem_filter.mpr ⟨(h.mem_points q).mpr ⟨hb, _, v, hi, rfl, hroot⟩, ?_⟩, hone, ?_⟩)
    · rw [Routine.hasRetain, hi]
      rfl
    · rw [hstep, hone]
      rfl

theorem operation_at (hq : q ∈ points) : q.block ∈ l.blocks ∧ ∃ i v, r.instrAt? q = some i ∧ i.counts? = some v ∧
    ∀ m, r.At q m → m.env v = m.env root := by
  obtain ⟨hb, i, v, hi, hv, hroot⟩ := (h.mem_points q).mp hq
  exact ⟨hb, i, v, hi, hv, fun m hat =>
    h.describes.env_of_root h.proper hat hi (Instr.mem_operands_of_counts hv) hroot⟩

theorem retain_at (hq : q ∈ points.filter r.hasRetain) : q.block ∈ l.blocks ∧ ∃ v kind,
    r.instrAt? q = some (.retain v kind) ∧ ∀ m, r.At q m → m.env v = m.env root := by
  obtain ⟨hmem, hretain⟩ := List.mem_filter.mp hq
  obtain ⟨hb, i, v, hi, hv, henv⟩ := h.operation_at hmem
  obtain ⟨kind, hi⟩ := Routine.retain_of_hasRetain hi hv hretain
  exact ⟨hb, v, kind, hi, henv⟩

theorem release_at (hq : q ∈ points.filter fun q => !r.hasRetain q) : q.block ∈ l.blocks ∧ ∃ v kind,
    r.instrAt? q = some (.release v kind) ∧ ∀ m, r.At q m → m.env v = m.env root := by
  obtain ⟨hmem, hretain⟩ := List.mem_filter.mp hq
  obtain ⟨hb, i, v, hi, hv, henv⟩ := h.operation_at hmem
  obtain ⟨kind, hi⟩ := Routine.release_of_not_hasRetain hi hv hretain
  exact ⟨hb, v, kind, hi, henv⟩

theorem net_retain (hq : q ∈ points.filter r.hasRetain) : net q = 0 := by
  obtain ⟨hmem, hretain⟩ := List.mem_filter.mp hq
  obtain ⟨hb, v, kind, hi, -⟩ := h.retain_at hq
  rcases h.instr_cases hb hi with ⟨-, hzero, -⟩ | ⟨hrelease, -⟩ | ⟨hno, -⟩
  · exact hzero
  · simp [hretain] at hrelease
  · exact absurd hmem hno

theorem net_release (hq : q ∈ points.filter fun q => !r.hasRetain q) : net q = 1 := by
  obtain ⟨hmem, hrelease⟩ := List.mem_filter.mp hq
  obtain ⟨hb, v, kind, hi, -⟩ := h.release_at hq
  rcases h.instr_cases hb hi with ⟨hretain, -⟩ | ⟨-, hone, -⟩ | ⟨hno, -⟩
  · simp_all
  · exact hone
  · exact absurd hmem hno

/-- The loop comes to an operation on the root, so its object is alive before the loop. -/
theorem alive {o : ObjId} (hat : r.At ⟨pre, (r.codeAt pre).body.length⟩ m) (ho : m.env root = some o) :
    0 < m.count o := by
  obtain ⟨q, hq⟩ := List.exists_mem_of_ne_nil _ h.ne_nil
  obtain ⟨hb, i, v, hi, hv, henv⟩ := h.operation_at hq
  have hlast := h.describes.sound.path_from_header h.loop.2 hb (h.describes.sound.reaches_of_mem h.loop hb)
  have hleads : r.Leads root ⟨pre, (r.codeAt pre).body.length⟩ q :=
    ((Routine.Leads.jump .refl h.pre_edge).path (hlast.mono fun b hb => h.spares hb)).block (h.spares hb)
      (Nat.le_of_lt (Routine.index_lt hi))
  exact h.proper.alive hleads hat ho hi hv henv

/-- A release in the loop leaves a reference: the next trip comes to it again. -/
theorem two_le {o : ObjId} (hq : q ∈ points.filter fun q => !r.hasRetain q) (hat : r.At q m)
    (ho : m.env root = some o) : 2 ≤ m.count o := by
  obtain ⟨hb, v, kind, hi, henv⟩ := h.release_at hq
  have hlt := Routine.index_lt hi
  exact h.proper.two_le_of_returns (h.describes.sound.leads_in_loop h.loop (fun b => h.spares) hb hb hlt
    (Nat.le_of_lt hlt)) hat hi henv ho

/-! The span. -/

theorem turnAt_inside (hb : q.block ∈ l.blocks) : (k.hoistSpan r root l pre net points).turnAt q on = on := by
  have hopens : q ∉ (k.hoistSpan r root l pre net points).opensAt := by
    intro hq
    rw [List.mem_singleton.mp hq] at hb
    exact h.pre_outside hb
  cases on with
  | true => exact decide_eq_true (h.not_mem_placesAfter hb)
  | false => exact decide_eq_false hopens

/-- In the loop the span is open just where the operations have come to nothing. -/
theorem may_inside (hb : q.block ∈ l.blocks) :
    (k.hoistSpan r root l pre net points).may on q ↔ net q = if on then 0 else 1 := by
  cases on with
  | true =>
    refine ⟨fun hmay => ?_, fun hzero => ⟨fun _ => .inl ⟨hb, hzero⟩, nofun⟩⟩
    rcases hmay.1 rfl with ⟨-, hzero⟩ | hquiet | hafter
    · exact hzero
    · exact absurd hquiet (h.not_quiet hb)
    · exact absurd hafter (h.not_mem_placesAfter hb)
  | false => exact ⟨fun hmay => (hmay.2 rfl).1 hb, fun hone => ⟨nofun, fun _ => ⟨fun _ => hone, h.not_mem_placesAfter hb⟩⟩⟩

omit h in
theorem may_closed (hb : q.block ∉ l.blocks) (hq : q ∉ k.placesAfter r root l) :
    (k.hoistSpan r root l pre net points).may false q :=
  ⟨nofun, fun _ => ⟨fun hin => absurd hin hb, hq⟩⟩

theorem step_inside (hb : q.block ∈ l.blocks) (hmay : (k.hoistSpan r root l pre net points).may on q)
    (hi : r.instrAt? q = some i) : (k.hoistSpan r root l pre net points).may
      ((k.hoistSpan r root l pre net points).turnBy q on) ⟨q.block, q.index + 1⟩ := by
  rw [h.may_inside hb] at hmay
  rw [h.may_inside (q := ⟨q.block, q.index + 1⟩) hb]
  rcases h.instr_cases hb hi with ⟨hretain, hzero, hnext⟩ | ⟨hrelease, hone, hnext⟩ | ⟨hq, hnext, -⟩
  · cases on with
    | true =>
      have hcloses : (k.hoistSpan r root l pre net points).turnBy q true = false :=
        decide_eq_false (not_not_intro hretain)
      rw [hnext, hcloses]
      rfl
    | false =>
      rw [hzero] at hmay
      cases hmay
  · cases on with
    | true =>
      rw [hone] at hmay
      cases hmay
    | false =>
      have hopens : (k.hoistSpan r root l pre net points).turnBy q false = true := decide_eq_true hrelease
      rw [hnext, hopens]
      rfl
  · have hstays : (k.hoistSpan r root l pre net points).turnBy q on = on := by
      cases on with
      | true => exact decide_eq_true fun hmem => hq (List.mem_filter.mp hmem).1
      | false => exact decide_eq_false fun hmem => hq (List.mem_filter.mp hmem).1
    rw [hnext, hstays, hmay]

theorem turnBy_outside (hb : q.block ∉ l.blocks) : (k.hoistSpan r root l pre net points).turnBy q on = on := by
  cases on with
  | true => exact decide_eq_true fun hmem => hb (h.retain_at hmem).1
  | false => exact decide_eq_false fun hmem => hb (h.release_at hmem).1

theorem step (hmay : (k.hoistSpan r root l pre net points).may on q) (hi : r.instrAt? q = some i) :
    (k.hoistSpan r root l pre net points).may ((k.hoistSpan r root l pre net points).turnBy q
      ((k.hoistSpan r root l pre net points).turnAt q on)) ⟨q.block, q.index + 1⟩ := by
  by_cases hb : q.block ∈ l.blocks
  · rw [h.turnAt_inside hb]
    exact h.step_inside hb hmay hi
  · have hnext : (⟨q.block, q.index + 1⟩ : Point) ∉ k.placesAfter r root l := fun hafter =>
      Nat.succ_ne_zero _ (Facts.mem_placesAfter.mp hafter).1
    have hclosed : (k.hoistSpan r root l pre net points).may false ⟨q.block, q.index + 1⟩ := may_closed hb hnext
    rw [h.turnBy_outside hb]
    cases on with
    | true =>
      rcases hmay.1 rfl with ⟨hin, -⟩ | hquiet | hafter
      · exact absurd hin hb
      · have hopen : (k.hoistSpan r root l pre net points).turnAt q true = true :=
          decide_eq_true fun hafter => h.placesAfter_not_quiet hafter hquiet
        rw [hopen]
        exact ⟨fun _ => .inr (.inl hquiet), nofun⟩
      · have hcloses : (k.hoistSpan r root l pre net points).turnAt q true = false :=
          decide_eq_false (not_not_intro hafter)
        rw [hcloses]
        exact hclosed
    | false =>
      have hopens : q ∉ (k.hoistSpan r root l pre net points).opensAt := by
        intro hq
        have hlt := Routine.index_lt hi
        rw [List.mem_singleton.mp hq] at hlt
        exact Nat.lt_irrefl _ hlt
      rw [Span.turnAt, if_neg Bool.false_ne_true, decide_eq_false hopens]
      exact hclosed

theorem jump_inside (hb : b ∈ l.blocks) (he : r.flow.Edge b t)
    (hmay : (k.hoistSpan r root l pre net points).may on ⟨b, (r.codeAt b).body.length⟩) :
    (k.hoistSpan r root l pre net points).may on ⟨t, 0⟩ := by
  have hk := h.describes.sound
  rw [h.may_inside (q := ⟨b, _⟩) hb] at hmay
  by_cases ht : t ∈ l.blocks
  · rw [h.may_inside (q := ⟨t, 0⟩) ht]
    by_cases hheader : t = l.header
    · rw [← hmay, h.lapNet.closes hk h.loop h.laps hb he (.inl hheader), hheader]
      exact h.lapNet.at_header h.header_mem
    · rw [← hmay]
      exact h.lapNet.inside hk h.loop hb he ht hheader
  · have hexit := h.mem_exits hb he ht
    by_cases hlive : k.quietExit r root t
    · have hquiet : k.Quiet r root t := ⟨t, hlive, .refl ..⟩
      exact ⟨fun _ => .inr (.inl hquiet), fun _ => ⟨fun hin => absurd hin ht, fun hafter =>
        (Facts.mem_placesAfter.mp hafter).2.2 hlive⟩⟩
    · have hzero := h.lapNet.closes hk h.loop h.laps hb he (.inr ⟨ht, hlive⟩)
      cases on with
      | true => exact ⟨fun _ => .inr (.inr (Facts.mem_placesAfter.mpr ⟨rfl, hexit, hlive⟩)), nofun⟩
      | false =>
        rw [hzero] at hmay
        cases hmay

theorem jump (hr : r.flow.Reaches r.entry b) (he : r.flow.Edge b t)
    (hmay : (k.hoistSpan r root l pre net points).may on ⟨b, (r.codeAt b).body.length⟩) :
    (k.hoistSpan r root l pre net points).may
      ((k.hoistSpan r root l pre net points).turnAt ⟨b, (r.codeAt b).body.length⟩ on) ⟨t, 0⟩ := by
  by_cases hb : b ∈ l.blocks
  · rw [h.turnAt_inside (q := ⟨b, _⟩) hb]
    exact h.jump_inside hb he hmay
  · -- an edge from outside leads to an exit only where all do
    have hnext : (⟨t, 0⟩ : Point) ∉ k.placesAfter r root l := fun hafter =>
      hb (h.dedicated t (Facts.mem_placesAfter.mp hafter).2.1 b he)
    cases on with
    | true =>
      rcases hmay.1 rfl with ⟨hin, -⟩ | hquiet | hafter
      · exact absurd hin hb
      · have hopen : (k.hoistSpan r root l pre net points).turnAt ⟨b, _⟩ true = true :=
          decide_eq_true fun hafter => h.placesAfter_not_quiet hafter hquiet
        rw [hopen]
        exact ⟨fun _ => .inr (.inl (hquiet.edge he)), nofun⟩
      · have hcloses : (k.hoistSpan r root l pre net points).turnAt ⟨b, _⟩ true = false :=
          decide_eq_false (not_not_intro hafter)
        rw [hcloses]
        refine may_closed (fun ht => ?_) hnext
        obtain ⟨rfl, -⟩ := h.enters hr he hb ht
        exact h.pre_not_mem_placesAfter hafter
    | false =>
      by_cases hpre : b = pre
      · subst hpre
        obtain rfl := (h.preheader.edge_iff t).mp he
        have hopens : (k.hoistSpan r root l b net points).turnAt ⟨b, _⟩ false = true :=
          decide_eq_true (List.mem_singleton.mpr rfl)
        rw [hopens, h.may_inside (q := ⟨l.header, 0⟩) h.header_mem]
        exact h.lapNet.at_header h.header_mem
      · have hopens : (⟨b, (r.codeAt b).body.length⟩ : Point) ∉ (k.hoistSpan r root l pre net points).opensAt :=
          fun hmem => hpre (congrArg Point.block (List.mem_singleton.mp hmem))
        rw [Span.turnAt, if_neg Bool.false_ne_true, decide_eq_false hopens]
        exact may_closed (fun ht => hpre (h.enters hr he hb ht).1) hnext

/-- While the span is open, only an operation that goes touches the object of the root. -/
theorem clear (hat : r.At q m) (hmay : (k.hoistSpan r root l pre net points).may on q)
    (hon : (k.hoistSpan r root l pre net points).turnAt q on = true)
    (hq : q ∉ (k.hoistSpan r root l pre net points).closesBy) (hi : r.instrAt? q = some i) :
    i.target? ≠ some root ∧ ∀ o, m.env root = some o → ¬ m.Touches o i := by
  have harmless : ∀ o, m.env root = some o → (k.effect root i).harmless → ¬ m.Touches o i := by
    intro o ho hharm
    refine h.describes.not_touches h.proper hat ho (Effect.harmless_iff_turn?.mp hharm).1 fun hrel => ?_
    rw [hrel] at hharm
    cases hharm
  by_cases hb : q.block ∈ l.blocks
  · refine ⟨h.spares hb q.index i hi, fun o ho => harmless o ho ?_⟩
    rw [h.turnAt_inside hb] at hon
    rw [hon, h.may_inside hb] at hmay
    rcases h.instr_cases hb hi with ⟨hretain, -, -⟩ | ⟨-, hone, -⟩ | ⟨-, -, hharm⟩
    · exact absurd hretain hq
    · rw [hone] at hmay
      cases hmay
    · exact hharm
  · have hquiet : k.Quiet r root q.block := by
      cases on with
      | true =>
        rcases hmay.1 rfl with ⟨hin, -⟩ | hquiet | hafter
        · exact absurd hin hb
        · exact hquiet
        · exact absurd hafter (of_decide_eq_true hon)
      | false =>
        have hlt := Routine.index_lt hi
        rw [List.mem_singleton.mp (of_decide_eq_true hon)] at hlt
        exact absurd hlt (Nat.lt_irrefl _)
    exact ⟨hquiet.target_ne h.proper.ssa hi h.available h.pre_reached h.pre_not_quiet, fun o ho =>
      harmless o ho (hquiet.harmless (Routine.mem_body_of_instrAt? hi))⟩

/-- Lifting the operations out of the loop keeps what runs show. -/
theorem hoist_valid : (k.hoistSpan r root l pre net points).Valid r where
  nodup_opensAt := List.nodup_singleton _
  nodup_closesAt := (h.natural.nodup_exits.filter _).map fun _ _ heq => congrArg Point.block heq
  placed q hq := by
    rcases List.mem_append.mp hq with hq | hq
    · rw [List.mem_singleton.mp hq]
      exact ⟨Routine.size_flow (r := r) ▸ h.pre_edge.lt_size, Nat.le_refl _, h.available⟩
    · obtain ⟨hindex, hexit, -⟩ := Facts.mem_placesAfter.mp hq
      obtain ⟨b, index⟩ := q
      obtain rfl : index = 0 := hindex
      obtain ⟨-, a, he, -⟩ := (h.natural.exit_iff b).mp hexit
      exact ⟨Routine.size_flow (r := r) ▸ he.2, Nat.zero_le _, h.available_exit hexit⟩
  plain hlift := by cases hlift
  start := by
    refine may_closed (fun hin => ?_) fun hafter => ?_
    · exact h.header_ne (h.mem_iff.mp hin).dominated.eq_entry
    · exact h.exit_ne_entry (Facts.mem_placesAfter.mp hafter).2.1 rfl
  step _ hmay hi := h.step hmay hi
  jump hat hmay he := h.jump hat.reached he hmay
  once_at := by
    intro q m _
    refine ⟨fun hmay hq => ?_, fun hmay => (hmay.2 rfl).2⟩
    rw [List.mem_singleton.mp hq] at hmay
    rcases hmay.1 rfl with ⟨hin, -⟩ | hquiet | hafter
    · exact h.pre_outside hin
    · exact h.pre_not_quiet hquiet
    · exact h.pre_not_mem_placesAfter hafter
  once_by := by
    intro on q m _ hmay
    refine ⟨fun hon hq => ?_, fun hoff hq => ?_⟩
    · have hb := (h.release_at hq).1
      rw [h.turnAt_inside hb] at hon
      rw [hon, h.may_inside hb, h.net_release hq] at hmay
      cases hmay
    · have hb := (h.retain_at hq).1
      rw [h.turnAt_inside hb] at hoff
      rw [hoff, h.may_inside hb, h.net_retain hq] at hmay
      cases hmay
  alive hat _ hq ho := by
    rw [List.mem_singleton.mp hq] at hat
    exact h.alive hat ho
  opener hq := (h.release_at hq).2
  closer hq := (h.retain_at hq).2
  two _ hq hat ho := h.two_le hq hat ho
  clear hat hmay hon hq hi := by
    obtain ⟨htarget, hfree⟩ := h.clear hat hmay hon hq hi
    exact ⟨htarget, fun o ho ht => absurd ht (hfree o ho)⟩

end Facts.Liftable

section Lifting

variable {s : Summary} {x : RootSummary} {e : Exchange}

theorem Facts.Summed.mem_points (hk : k.Sound r) (hs : k.Summed r id s) (hr : k.forest.regions[id]? = some l)
    (hx : x ∈ s.roots) : q ∈ x.points ↔ q.block ∈ l.blocks ∧
      ∃ i v, r.instrAt? q = some i ∧ i.counts? = some v ∧ k.root v = some x.root := by
  cases hs with
  | of hr' _ _ hcompute =>
    obtain rfl := Option.some.inj (hr.symm.trans hr')
    obtain rfl := Except.ok.inj (hcompute.symm.trans (SummaryTable.compute_eq hk hr _))
    obtain ⟨root, -, rfl⟩ := List.mem_map.mp hx
    rw [Routine.instrAt?_eq]
    exact SummaryTable.mem_pointsOf

/-- A hoist is a move along a valid span. -/
theorem Summary.Lifts.along (h : s.Lifts r k l x pre e) (hk : k.Describes r) (hp : r.Proper)
    (hl : k.forest.IsLoop id l) (hs : k.Summed r id s) (hx : x ∈ s.roots)
    (hred : r.flow.Reducible r.entry (· ∈ l.blocks)) (hstarts : ¬ r.flow.Header r.entry r.entry) :
    ∃ zs, e.Along zs r := by
  obtain ⟨hhoistable, hpre, hdedicated, hdefined, -, rfl⟩ := h
  simp only [Summary.hoistable, Bool.and_eq_true, beq_iff_eq, Bool.not_eq_true', decide_eq_true_eq,
    Option.isNone_iff_eq_none] at hhoistable
  obtain ⟨⟨⟨⟨⟨hshape, halternating⟩, hnested⟩, hlen⟩, -⟩, hinterference⟩ := hhoistable
  have hnat := hk.sound.forest.natural hl
  have hright := hs.right hk hl hred x hx
  obtain ⟨net, hnet⟩ := hk.sound.exists_lapNet hl (hright.cancels hshape)
  have hlift : k.Liftable r x.root id l pre net x.points := {
    describes := hk
    proper := hp
    loop := hl
    laps := hright.cancels hshape
    turns := hright.turns halternating (by simp [hnested])
    lapNet := hnet
    calm := fun b hb i hi hint => by
      have hsome := (hs.takes hk.sound hl.2 hb hi).interference_isSome hint
      rw [hinterference] at hsome
      cases hsome
    mem_points := fun q => hs.mem_points hk.sound hl.2 hx
    ne_nil := List.ne_nil_of_length_pos (Nat.lt_of_lt_of_le Nat.two_pos hlen)
    preheader := (hnat.preheader_iff pre).mp hpre
    dedicated := fun exit he b hb =>
      (hk.sound.mem_loop_iff hl).mpr ((hnat.holds_iff b).mp (hdedicated exit he b hb))
    available := hk.available (Routine.size_flow (r := r) ▸ hnat.preheader_lt hpre) hdefined
    starts := hstarts }
  exact ⟨[k.hoistSpan r x.root l pre net x.points], by simpa using hlift.hoist_valid,
    by simp [Span.insertions, Facts.hoistSpan, Exchange.insertions],
    by simp [Span.removed, Facts.hoistSpan, Exchange.removed]⟩

end Lifting

end CountMotion
