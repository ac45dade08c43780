import CountMotion.Proofs.PairSpan

/-! Where a release of a closure awaits its retain, the object has a reference to spare. -/
namespace CountMotion

variable {y : Layout} {root : Var} {b : Nat} {p : Point} {i : Instr} {m n : Memory} {net : Point → Int} {o : ObjId}

namespace Layout

/-- The block lies in a child loop that leaves the root and its count as they are. -/
def Passes (y : Layout) (root : Var) (b : Nat) : Prop :=
  ∃ c, y.child b = some c ∧ (((y.summary c).getD .blackBox).effectOn y.facts root).harmless ∧
    ∀ q i, q.block ∈ y.region.blocks → y.child q.block = some c → y.routine.instrAt? q = some i → i.target? ≠ some root

/-- What the operations of such loops have added to the count of the root so far. -/
structure Nets (y : Layout) (root : Var) (net : Point → Int) : Prop where
  own : ∀ {p}, y.child p.block = none → net p = 0
  step : ∀ {p i}, y.routine.flow.Reaches y.routine.entry p.block → p.block ∈ y.region.blocks → y.Passes root p.block →
    y.routine.instrAt? p = some i →
      ((y.facts.effect root i).harmless ∧ net ⟨p.block, p.index + 1⟩ = net p) ∨
      (y.facts.effect root i = .retain ∧ net ⟨p.block, p.index + 1⟩ = net p + 1) ∨
      (y.facts.effect root i = .release ∧ net ⟨p.block, p.index + 1⟩ = net p - 1)
  edge : ∀ {b t}, y.routine.flow.Reaches y.routine.entry b → y.routine.flow.Edge b t → b ∈ y.region.blocks →
    t ∈ y.region.blocks → y.child b = none ∨ y.Passes root b → y.child t = none ∨ y.Passes root t →
      net ⟨t, 0⟩ = net ⟨b, (y.routine.codeAt b).body.length⟩ ∨ y.facts.quietExit y.routine root t
  spare : ∀ {p i m o}, y.routine.At p m → p.block ∈ y.region.blocks → y.Passes root p.block →
    y.routine.instrAt? p = some i → y.facts.effect root i = .release → m.env root = some o → 2 ≤ m.count o

theorem nets_of_childless (h : ∀ b, y.child b = none) (root : Var) : y.Nets root fun _ => 0 where
  own _ := rfl
  step _ _ hp := by
    obtain ⟨c, hc, -⟩ := hp
    cases (h _).symm.trans hc
  edge _ _ _ _ _ _ := .inl rfl
  spare _ _ hp := by
    obtain ⟨c, hc, -⟩ := hp
    cases (h _).symm.trans hc

end Layout

namespace Memory

variable {v : Var} {kind : CountKind}

theorem count_retain (he : m.exec (.retain v kind) = .ok n) (ho : m.env v = some o) : n.count o = m.count o + 1 := by
  have hpos := Span.count_pos_of_retain he ho
  obtain ⟨n', hn', hshift⟩ := exec_retain m v kind fun a ha => by
    rwa [Option.some.inj (ha.symm.trans ho)]
  obtain rfl := Except.ok.inj (he.symm.trans hn')
  have := hshift.count o
  rw [holding, if_pos ho] at this
  exact this

theorem count_release (he : m.exec (.release v kind) = .ok n) (ho : m.env v = some o) : m.count o ≤ n.count o + 1 := by
  by_cases htwo : 2 ≤ m.count o
  · obtain ⟨n', hn', hshift⟩ := exec_release m v kind fun a ha => by
      rwa [Option.some.inj (ha.symm.trans ho)]
    obtain rfl := Except.ok.inj (he.symm.trans hn')
    have := hshift.count o
    rw [holding, if_pos ho] at this
    omega
  · omega

theorem count_release_lt (he : m.exec (.release v kind) = .ok n) (ho : m.env v = some o) : n.count o < m.count o := by
  cases exec_iff.mp he with
  | copy _ hc => cases hc
  | idle hc hnone =>
    cases hc
    cases ho.symm.trans hnone
  | @release _ _ a _ hl hd =>
    obtain ⟨ha, hpos⟩ := live_eq_some.mp hl
    obtain rfl := Option.some.inj (ho.symm.trans ha)
    rw [drop, dif_pos hpos] at hd
    split at hd
    · have := (drop_lowers hd).count o
      rw [count_emit, count_setCount (lt_of_count hpos), if_pos rfl] at this
      omega
    · have := (drop_lowers hd).count o
      rw [count_setCount (lt_of_count hpos), if_pos rfl] at this
      omega

end Memory

namespace Closure.Standing

variable {c : Closure} {down up : Nat → Option Pending} {x : Point}

/-- A child loop where a retain of the closure awaits its answer leaves the root as it is. -/
theorem passes (hc : c.Standing y down up) (hv : y.Views) (hp : y.routine.flow.Reaches y.routine.entry p.block)
    (hx : x ∈ c.retains) (ha : Awaits (y.retainsAt c.root down p) x) :
    y.child p.block = none ∨ y.Passes c.root p.block := by
  obtain ⟨n, hs⟩ := Layout.stands_of_retainsAt ha
  have hn := (hv.reached hs).mpr hp
  cases hl : y.child p.block with
  | none => exact .inl rfl
  | some l =>
    have hharm := (Layout.harmless_of_retainsAt hc.down hs hn hl ha).resolve_left (hc.tight.retain x hx)
    refine .inr ⟨l, hl, hharm, fun q i hq hql hi => ?_⟩
    have hinner : ∀ {b}, y.child b = some l → (y.child b).isSome := fun h => by rw [h]; rfl
    have hsq : y.Stands q.block n := ⟨hq, by rw [hs.2, Layout.placeOf, Layout.placeOf, hl, hql]⟩
    rw [Layout.retainsAt_inner hs (hinner hl)] at ha
    refine hc.target_ne hv ((hv.reached hsq).mp hn) hx (p := q) ?_ hi
    rwa [Layout.retainsAt_inner hsq (hinner hql)]

/-- Where a release of the closure awaits its retain, one of the retains awaits its answer, and
the object has been retained. -/
theorem release_backed (hc : c.Standing y down up) (hv : y.Views) (hn : y.Nets c.root net) (hat : y.routine.At p m)
    (hx : x ∈ c.releases) (ha : Awaits (y.releasesAt c.root up p) x) :
    y.facts.Quiet y.routine c.root p.block ∨ ((∃ z ∈ c.retains, Awaits (y.retainsAt c.root down p) z) ∧
      ∀ o, m.env c.root = some o → 2 + net p ≤ m.count o) := by
  induction hat generalizing x with
  | start => exact absurd (Layout.releasesAt_entry hv hc.up ha) (hc.tight.release x hx)
  | @instr p m m' i hat hi he ih =>
    have hkeeps := (Memory.exec_iff.mp he).keeps
    rcases hc.release_awaits hv hat hx ha with hp | ⟨hprev, hharm⟩
    · obtain ⟨v, kind, hv', henv⟩ := hc.retain_env hv hp
      obtain rfl := Option.some.inj (hi.symm.trans hv')
      obtain ⟨-, -, -, hchild, -⟩ := hc.retains p hp
      refine .inr ⟨⟨p, hp, hc.awaits_own_retain hp⟩, fun o ho => ?_⟩
      rw [hkeeps.env _ nofun] at ho
      have hpos := Span.count_pos_of_retain he ((henv m hat).trans ho)
      have := Memory.count_retain he ((henv m hat).trans ho)
      rw [hn.own (p := ⟨p.block, p.index + 1⟩) hchild]
      omega
    · rcases ih hx hprev with hquiet | ⟨⟨z, hz, haz⟩, hcount⟩
      · exact .inl hquiet
      have htarget := hc.target_ne hv hat.reached hz haz hi
      obtain ⟨node, hs⟩ := Layout.stands_of_retainsAt haz
      rcases hc.passes hv hat.reached hz haz with hchild | hpasses
      · rcases hc.retain_awaits_own hv hat hchild hz haz hi with hp | ⟨hh, hnext⟩
        · obtain ⟨-, -, -, -, heff⟩ := hc.releases p hp
          have := hharm hchild
          rw [heff] at this
          cases this
        · refine .inr ⟨⟨z, hz, hnext⟩, fun o ho => ?_⟩
          rw [hkeeps.env _ htarget] at ho
          have := hcount o ho
          have := hkeeps.count o (hv.not_touches hat hh ho)
          rw [hn.own hchild] at *
          rw [hn.own (p := ⟨p.block, p.index + 1⟩) hchild]
          omega
      · have hinner : (y.child p.block).isSome := by
          obtain ⟨l, hl, -⟩ := hpasses
          rw [hl]
          rfl
        refine .inr ⟨⟨z, hz, retain_awaits_inner hinner haz⟩, fun o ho => ?_⟩
        rw [hkeeps.env _ htarget] at ho
        have := hcount o ho
        have henv : ∀ {v}, v ∈ i.operands → y.facts.root v = some c.root → m.env v = some o := fun hmem hroot =>
          (hv.describes.env_of_root hv.proper hat hi hmem hroot).trans ho
        rcases hn.step hat.reached hs.1 hpasses hi with ⟨hh, hnet⟩ | ⟨hret, hnet⟩ | ⟨hrel, hnet⟩
        · have := hkeeps.count o (hv.not_touches hat hh ho)
          omega
        · obtain ⟨v, kind, rfl, hroot⟩ := Facts.effect_eq_retain hret
          have := Memory.count_retain he (henv (.head _) hroot)
          omega
        · obtain ⟨v, kind, rfl, hroot⟩ := Facts.effect_eq_release hrel
          have := Memory.count_release he (henv (.head _) hroot)
          omega
  | @jump b t m hat he ih =>
    obtain ⟨node, hst⟩ := Layout.stands_of_releasesAt ha
    rcases Layout.releasesAt_edge hv hc.up hat.reached he ha with hloose | hprev
    · exact absurd hloose (hc.tight.release x hx)
    rcases ih hx hprev with hquiet | ⟨⟨z, hz, haz⟩, hcount⟩
    · exact .inl (hquiet.edge he)
    rcases Layout.retainsAt_edge hv hc.down hat.reached he haz with hloose | hnext | ⟨hout, -⟩
    · exact absurd hloose (hc.tight.retain z hz)
    · obtain ⟨node', hsb⟩ := Layout.stands_of_retainsAt haz
      rcases hn.edge hat.reached he hsb.1 hst.1 (hc.passes hv hat.reached hz haz)
        (hc.passes (p := ⟨t, 0⟩) hv (hat.reached.edge he) hz hnext) with hnet | hexit
      · exact .inr ⟨⟨z, hz, hnext⟩, fun o ho => by rw [hnet]; exact hcount o ho⟩
      · exact .inl ⟨t, hexit, .refl ..⟩
    · exact absurd hst.1 hout

theorem two_le_count (hc : c.Standing y down up) (hv : y.Views) (hn : y.Nets c.root net) (hat : y.routine.At p m)
    (hp : p ∈ c.releases) (ho : m.env c.root = some o) : 2 ≤ m.count o := by
  rcases hc.release_backed hv hn hat hp (hc.awaits_own_release hp) with hquiet | ⟨-, hcount⟩
  · exact absurd hquiet ((hc.releases p hp).not_quiet (.inr rfl))
  · obtain ⟨-, -, -, hchild, -⟩ := hc.releases p hp
    have := hcount o ho
    rw [hn.own hchild] at this
    omega

end Closure.Standing

end CountMotion
