import CountMotion.Proofs.Closures
import CountMotion.Proofs.Spans

/-! A tight closure whose root is not used in between may go as a whole. -/
namespace CountMotion

variable {k : Facts} {r : Routine} {y : Layout} {root : Var} {b t n : Nat} {p q : Point} {i : Instr} {m : Memory}
  {e : Effect}

/-- The root is left alone from here on, and the run ends in a trap. -/
def Facts.Quiet (k : Facts) (r : Routine) (root : Var) (b : Nat) : Prop :=
  ∃ exit, k.quietExit r root exit ∧ r.flow.Reaches exit b

namespace Facts.Quiet

theorem edge (h : k.Quiet r root b) (he : r.flow.Edge b t) : k.Quiet r root t := by
  obtain ⟨exit, hexit, hb⟩ := h
  exact ⟨exit, hexit, hb.edge he⟩

theorem reaches (h : k.Quiet r root b) (hr : r.flow.Reaches b t) : k.Quiet r root t := by
  obtain ⟨exit, hexit, hb⟩ := h
  exact ⟨exit, hexit, hb.trans hr⟩

theorem harmless (h : k.Quiet r root b) (hi : i ∈ (r.codeAt b).body) : (k.effect root i).harmless := by
  obtain ⟨exit, hexit, hb⟩ := h
  exact ((quietExit_iff.mp hexit).2.2 b hb).1 i hi

theorem target_ne (h : k.Quiet r root p.block) (hs : r.SSA) (hi : r.instrAt? p = some i) {x : Var}
    (ha : r.Available q x) (hr : r.flow.Reaches r.entry q.block) (hq : ¬ k.Quiet r root q.block) :
    i.target? ≠ some x := by
  intro hx
  rcases hs.before hi hx ha with ⟨hb, -⟩ | ⟨-, hdom⟩
  · exact hq (hb ▸ h)
  · exact hq (h.reaches (hdom.reaches hr))

end Facts.Quiet

theorem Facts.effectAt_of_instr (hi : r.instrAt? p = some i) :
    k.effectAt root (r.codeAt p.block) p.index = k.effect root i := by
  rw [effectAt, ← Routine.instrAt?_eq, hi]

namespace Layout

theorem Own.not_quiet (h : y.Own e root q) (he : e = .retain ∨ e = .release) :
    ¬ y.facts.Quiet y.routine root q.block := by
  intro hq
  have hat : ∃ i, y.routine.instrAt? q = some i := by
    rcases he with rfl | rfl
    · obtain ⟨v, kind, hi, -⟩ := h.retain_at
      exact ⟨_, hi⟩
    · obtain ⟨v, kind, hi, -⟩ := h.release_at
      exact ⟨_, hi⟩
  obtain ⟨i, hi⟩ := hat
  obtain ⟨n, -, -, -, heff⟩ := h
  rw [Facts.effectAt_of_instr hi] at heff
  have := hq.harmless (Routine.mem_body_of_instrAt? hi)
  rw [heff] at this
  rcases he with rfl | rfl <;> cases this

theorem Own.reached (hv : y.Views) (h : y.Own e root q) :
    q.block ∈ y.region.blocks ∧ y.routine.flow.Reaches y.routine.entry q.block := by
  obtain ⟨n, hn, hstands, -⟩ := h
  exact ⟨hstands.1, (hv.reached hstands).mp hn⟩

theorem Own.available (hv : y.Views) (h : y.Own e root q) (he : e = .retain ∨ e = .release) :
    y.routine.Available q root := by
  have hr := (h.reached hv).2
  rcases he with rfl | rfl
  · obtain ⟨v, kind, hi, hroot⟩ := h.retain_at
    exact (hv.proper.ssa.used q _ hi v (.head _)).root hv.proper.ssa hr (hv.describes.root v ▸ hroot)
  · obtain ⟨v, kind, hi, hroot⟩ := h.release_at
    exact (hv.proper.ssa.used q _ hi v (.head _)).root hv.proper.ssa hr (hv.describes.root v ▸ hroot)

theorem Views.target_ne (hv : y.Views) (hq : q.block ∈ y.region.blocks)
    (hr : y.routine.flow.Reaches y.routine.entry q.block) (ha : y.routine.Available q root) (hb : y.Before q p)
    (hp : p.block ∈ y.region.blocks) (hi : y.routine.instrAt? p = some i) : i.target? ≠ some root := by
  intro hx
  rcases hv.proper.ssa.before hi hx ha with ⟨heq, hlt⟩ | ⟨hne, hdom⟩
  · rcases hb with hb | ⟨-, hb⟩
    · rw [heq] at hb
      exact Nat.lt_irrefl _ hb
    · omega
  · rcases hb with hb | ⟨hb, -⟩
    · exact absurd (hv.ranked hp hq hr hdom) (Nat.not_le.mpr hb)
    · exact hne hb.symm

theorem Views.not_touches (hv : y.Views) (hat : y.routine.At p m) (hh : (y.facts.effect root i).harmless)
    {o : ObjId} (ho : m.env root = some o) : ¬ m.Touches o i := by
  refine hv.describes.not_touches hv.proper hat ho ?_ ?_ <;>
    cases he : y.facts.effect root i <;> simp_all [Effect.harmless, Effect.interferes]

end Layout

namespace Closure

variable {c : Closure} {down up : Nat → Option Pending}

/-- All members go. The span is open while one of the retains awaits its answer. -/
def dropSpan (c : Closure) (y : Layout) (down up : Nat → Option Pending) : Span where
  root := c.root
  lift := false
  opensAt := []
  closesAt := []
  opensBy := c.retains
  closesBy := c.releases
  may on p :=
    (on = true → (∃ x ∈ c.retains, Awaits (y.retainsAt c.root down p) x) ∨ y.facts.Quiet y.routine c.root p.block) ∧
    (on = false → ∀ x ∈ c.releases, ¬ Awaits (y.releasesAt c.root up p) x)

/-- Where a child loop lies between the members, it leaves the root alone. -/
def Calm (c : Closure) (y : Layout) (down : Nat → Option Pending) : Prop :=
  ∀ p i x, y.routine.flow.Reaches y.routine.entry p.block → (y.child p.block).isSome → x ∈ c.retains →
    Awaits (y.retainsAt c.root down p) x → y.routine.instrAt? p = some i → (y.facts.effect c.root i).harmless

namespace Standing

theorem retain_env (hc : c.Standing y down up) (hv : y.Views) (hp : p ∈ c.retains) :
    ∃ v kind, y.routine.instrAt? p = some (.retain v kind) ∧ ∀ m, y.routine.At p m → m.env v = m.env c.root := by
  obtain ⟨v, kind, hi, hroot⟩ := (hc.retains p hp).retain_at
  exact ⟨v, kind, hi, fun m hat => hv.describes.env_of_root hv.proper hat hi (.head _) hroot⟩

theorem release_env (hc : c.Standing y down up) (hv : y.Views) (hp : p ∈ c.releases) :
    ∃ v kind, y.routine.instrAt? p = some (.release v kind) ∧ ∀ m, y.routine.At p m → m.env v = m.env c.root := by
  obtain ⟨v, kind, hi, hroot⟩ := (hc.releases p hp).release_at
  exact ⟨v, kind, hi, fun m hat => hv.describes.env_of_root hv.proper hat hi (.head _) hroot⟩

theorem exists_root (hc : c.Standing y down up) : ∃ v, y.facts.root v = some c.root := by
  obtain ⟨x, hx⟩ := List.exists_mem_of_ne_nil _ hc.ne_nil
  obtain ⟨v, -, -, hroot⟩ := (hc.retains x hx).retain_at
  exact ⟨v, hroot⟩

/-- Where a retain of the closure awaits its answer, an instruction of the region itself that is
not an answer is harmless, and it goes on to await it. -/
theorem retain_awaits_own (hc : c.Standing y down up) (hv : y.Views) {x : Point} (hat : y.routine.At p m)
    (hchild : y.child p.block = none) (hx : x ∈ c.retains) (ha : Awaits (y.retainsAt c.root down p) x)
    (hi : y.routine.instrAt? p = some i) :
    p ∈ c.releases ∨ ((y.facts.effect c.root i).harmless ∧
      Awaits (y.retainsAt c.root down ⟨p.block, p.index + 1⟩) x) := by
  obtain ⟨n, hs⟩ := Layout.stands_of_retainsAt ha
  rcases Layout.retainsAt_step hc.down hs ((hv.reached hs).mpr hat.reached) hchild hat.index_le ha with
    hloose | ⟨-, htied⟩ | ⟨hh, hnext⟩
  · exact absurd hloose (hc.tight.retain x hx)
  · exact .inl (hc.tight.answers x hx p htied)
  · rw [Facts.effectAt_of_instr hi] at hh
    exact .inr ⟨hh, hnext⟩

/-- In a child loop it goes on to await it throughout. -/
theorem retain_awaits_inner {x : Point} (hchild : (y.child p.block).isSome)
    (ha : Awaits (y.retainsAt c.root down p) x) : Awaits (y.retainsAt c.root down ⟨p.block, p.index + 1⟩) x := by
  obtain ⟨n, hs⟩ := Layout.stands_of_retainsAt ha
  rw [Layout.retainsAt_inner hs hchild] at ha
  rwa [Layout.retainsAt_inner (p := ⟨p.block, p.index + 1⟩) hs hchild]

theorem retain_awaits (hc : c.Standing y down up) (hv : y.Views) (hcalm : c.Calm y down) {x : Point}
    (hat : y.routine.At p m) (hx : x ∈ c.retains) (ha : Awaits (y.retainsAt c.root down p) x)
    (hi : y.routine.instrAt? p = some i) :
    p ∈ c.releases ∨ ((y.facts.effect c.root i).harmless ∧
      Awaits (y.retainsAt c.root down ⟨p.block, p.index + 1⟩) x) := by
  cases hchild : y.child p.block with
  | none => exact hc.retain_awaits_own hv hat hchild hx ha hi
  | some l =>
    have hinner : (y.child p.block).isSome := by rw [hchild]; rfl
    exact .inr ⟨hcalm p i x hat.reached hinner hx ha hi, retain_awaits_inner hinner ha⟩

theorem target_ne (hc : c.Standing y down up) (hv : y.Views) {x : Point}
    (hp : y.routine.flow.Reaches y.routine.entry p.block) (hx : x ∈ c.retains)
    (ha : Awaits (y.retainsAt c.root down p) x) (hi : y.routine.instrAt? p = some i) : i.target? ≠ some c.root := by
  obtain ⟨n, hs⟩ := Layout.stands_of_retainsAt ha
  have hbefore := (Layout.before_of_retainsAt hc.down hs ((hv.reached hs).mpr hp) ha).2
  obtain ⟨hmem, hreach⟩ := (hc.retains x hx).reached hv
  exact hv.target_ne hmem hreach ((hc.retains x hx).available hv (.inl rfl)) hbefore hs.1 hi

/-- A release of the closure that awaits its retain after an instruction does so before it,
unless the instruction is that retain. -/
theorem release_awaits (hc : c.Standing y down up) (hv : y.Views) {x : Point} (hat : y.routine.At p m)
    (hx : x ∈ c.releases) (ha : Awaits (y.releasesAt c.root up ⟨p.block, p.index + 1⟩) x) :
    p ∈ c.retains ∨ (Awaits (y.releasesAt c.root up p) x ∧
      (y.child p.block = none → (y.facts.effectAt c.root (y.routine.codeAt p.block) p.index).harmless)) := by
  obtain ⟨n, hs⟩ : ∃ n, y.Stands p.block n := Layout.stands_of_releasesAt (p := ⟨p.block, p.index + 1⟩) ha
  cases hchild : y.child p.block with
  | some l =>
    have hinner : (y.child p.block).isSome := by rw [hchild]; rfl
    rw [Layout.releasesAt_inner (p := ⟨p.block, p.index + 1⟩) hs hinner] at ha
    exact .inr ⟨by rw [Layout.releasesAt_inner hs hinner]; exact ha, nofun⟩
  | none =>
    rcases Layout.releasesAt_step hc.up hs ((hv.reached hs).mpr hat.reached) hchild hat.index_le ha with
      hloose | ⟨-, htied⟩ | ⟨hh, hprev⟩
    · exact absurd hloose (hc.tight.release x hx)
    · exact .inl (hc.tight.asks x hx p htied)
    · exact .inr ⟨hprev, fun _ => hh⟩

theorem awaits_own_release (hc : c.Standing y down up) (hp : p ∈ c.releases) :
    Awaits (y.releasesAt c.root up p) p := by
  obtain ⟨v, kind, hi, -⟩ := (hc.releases p hp).release_at
  obtain ⟨n, -, hs, hchild, heff⟩ := hc.releases p hp
  rw [Layout.releasesAt_eq hs hchild (Nat.le_of_lt (Routine.index_lt hi))]
  exact Walk.Plain.awaits_self (w := y.flat.upWalk c.root) heff

theorem awaits_own_retain (hc : c.Standing y down up) (hp : p ∈ c.retains) :
    Awaits (y.retainsAt c.root down ⟨p.block, p.index + 1⟩) p := by
  obtain ⟨v, kind, hi, -⟩ := (hc.retains p hp).retain_at
  obtain ⟨n, -, hs, hchild, heff⟩ := hc.retains p hp
  rw [Layout.retainsAt_succ hs hchild (Nat.le_of_lt (Routine.index_lt hi))]
  exact Walk.Plain.awaits_self (w := y.flat.downWalk c.root) heff

/-- A member is no operation that the other members wait for to pass. -/
theorem retain_not_release (hc : c.Standing y down up) (hp : p ∈ c.retains) : p ∉ c.releases := by
  intro hp'
  obtain ⟨v, kind, hi, -⟩ := (hc.retains p hp).retain_at
  obtain ⟨v', kind', hi', -⟩ := (hc.releases p hp').release_at
  cases hi.symm.trans hi'

theorem clear_of_quiet (hc : c.Standing y down up) (hv : y.Views) (hat : y.routine.At p m)
    (hi : y.routine.instrAt? p = some i) (hquiet : y.facts.Quiet y.routine c.root p.block) :
    i.target? ≠ some c.root ∧ ∀ o, m.env c.root = some o → ¬ m.Touches o i := by
  obtain ⟨x, hx⟩ := List.exists_mem_of_ne_nil _ hc.ne_nil
  have hown := hc.retains x hx
  refine ⟨hquiet.target_ne hv.proper.ssa hi (hown.available hv (.inl rfl)) (hown.reached hv).2
    (hown.not_quiet (.inl rfl)), fun o ho => ?_⟩
  exact hv.not_touches hat (hquiet.harmless (Routine.mem_body_of_instrAt? hi)) ho

private theorem turnAt_drop (c : Closure) (y : Layout) (down up : Nat → Option Pending) (p : Point) (on : Bool) :
    (c.dropSpan y down up).turnAt p on = on := by
  cases on <;> simp [Span.turnAt, dropSpan]

/-- Deleting a closure whose root is not used in between keeps what runs show. -/
theorem drop_valid (hc : c.Standing y down up) (hv : y.Views) (hcalm : c.Calm y down) :
    (c.dropSpan y down up).Valid y.routine where
  nodup_opensAt := .nil
  nodup_closesAt := .nil
  placed := nofun
  plain _ := ⟨rfl, rfl⟩
  start := by
    refine ⟨nofun, fun _ x hx ha => hc.tight.release x hx ?_⟩
    exact Layout.releasesAt_entry hv hc.up ha
  step := by
    intro on p i m hat hmay hi
    rw [turnAt_drop]
    cases on with
    | true =>
      by_cases hp : p ∈ c.releases
      · refine ⟨fun h => ?_, fun _ x hx ha => ?_⟩
        · simp [Span.turnBy, dropSpan, hp] at h
        · rcases hc.release_awaits hv hat hx ha with hret | ⟨-, hharm⟩
          · exact hc.retain_not_release hret hp
          · obtain ⟨n, -, -, hchild, heff⟩ := hc.releases p hp
            have := hharm hchild
            rw [heff] at this
            cases this
      · refine ⟨fun _ => ?_, fun h => ?_⟩
        · rcases hmay.1 rfl with ⟨x, hx, ha⟩ | hquiet
          · exact .inl ⟨x, hx, ((hc.retain_awaits hv hcalm hat hx ha hi).resolve_left hp).2⟩
          · exact .inr hquiet
        · simp [Span.turnBy, dropSpan, hp] at h
    | false =>
      by_cases hp : p ∈ c.retains
      · refine ⟨fun _ => .inl ⟨p, hp, hc.awaits_own_retain hp⟩, fun h => ?_⟩
        simp [Span.turnBy, dropSpan, hp] at h
      · refine ⟨fun h => ?_, fun _ x hx ha => ?_⟩
        · simp [Span.turnBy, dropSpan, hp] at h
        · exact hmay.2 rfl x hx ((hc.release_awaits hv hat hx ha).resolve_left hp).1
  jump := by
    intro on b t m hat hmay he
    rw [turnAt_drop]
    refine ⟨fun hon => ?_, fun hoff x hx ha => ?_⟩
    · rcases hmay.1 hon with ⟨x, hx, ha⟩ | hquiet
      · rcases Layout.retainsAt_edge hv hc.down hat.reached he ha with hloose | hnext | ⟨-, hexit⟩
        · exact absurd hloose (hc.tight.retain x hx)
        · exact .inl ⟨x, hx, hnext⟩
        · exact .inr ⟨t, hexit, .refl ..⟩
      · exact .inr (hquiet.edge he)
    · rcases Layout.releasesAt_edge hv hc.up hat.reached he ha with hloose | hprev
      · exact hc.tight.release x hx hloose
      · exact hmay.2 hoff x hx hprev
  once_at _ := ⟨fun _ => List.not_mem_nil, fun _ => List.not_mem_nil⟩
  once_by := by
    intro on p m hat hmay
    rw [turnAt_drop]
    refine ⟨fun hon hp => ?_, fun hoff hp => ?_⟩
    · rcases hmay.1 hon with ⟨x, hx, ha⟩ | hquiet
      · obtain ⟨v, kind, hi, -⟩ := (hc.retains p hp).retain_at
        rcases hc.retain_awaits hv hcalm hat hx ha hi with hrel | ⟨hh, -⟩
        · exact hc.retain_not_release hp hrel
        · obtain ⟨n, -, -, -, heff⟩ := hc.retains p hp
          rw [Facts.effectAt_of_instr hi] at heff
          rw [heff] at hh
          cases hh
      · exact (hc.retains p hp).not_quiet (.inl rfl) hquiet
    · exact hmay.2 hoff p hp (hc.awaits_own_release hp)
  alive _ _ hp := absurd hp List.not_mem_nil
  opener hp := hc.retain_env hv hp
  closer hp := hc.release_env hv hp
  two hlift := by cases hlift
  clear := by
    intro on p i m hat hmay hon hp hi
    rw [turnAt_drop] at hon
    rcases hmay.1 hon with ⟨x, hx, ha⟩ | hquiet
    · have hh := ((hc.retain_awaits hv hcalm hat hx ha hi).resolve_left hp).1
      exact ⟨hc.target_ne hv hat.reached hx ha hi, fun o ho ht => absurd ht (hv.not_touches hat hh ho)⟩
    · obtain ⟨htarget, hfree⟩ := hc.clear_of_quiet hv hat hi hquiet
      exact ⟨htarget, fun o ho ht => absurd ht (hfree o ho)⟩

end Standing

end Closure

end CountMotion
