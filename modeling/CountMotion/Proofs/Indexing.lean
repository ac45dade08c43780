import CountMotion.Proofs.Freezing
import CountMotion.Proofs.Lawfulness

/-! Whatever a run looks up by number exists: a lookup of a block, node, region, variable or
position that is not there is a fault, and no run comes to one. -/
namespace CountMotion

/-- Seeds have used up closures of the pairing, one after the other. -/
inductive Pairing.UsedUp (p : Pairing) : Pairing → Prop where
  | none : UsedUp p p
  | seed {q : Pairing} {seed : Point} {c : Closure} : UsedUp p q → q.close seed = some c → UsedUp p (q.erase c)

theorem Pairing.Filed.usedUp {p q : Pairing} {f : Flat} (h : p.Filed f) (hq : p.UsedUp q) : q.Filed f := by
  induction hq with
  | none => exact h
  | seed _ _ ih => exact ih.erase _

structure Closure.Present (c : Closure) (r : Routine) : Prop where
  retains : ∀ x ∈ c.retains, ∃ v kind, r.instrAt? x = some (.retain v kind)
  releases : ∀ x ∈ c.releases, ∃ v kind, r.instrAt? x = some (.release v kind)

/-- All that a round asks of a flat region is there: nodes under the numbers that it gives for
nodes, and for every seed, whichever came before it, the members of its closure. -/
structure Flat.Answers (f : Flat) : Prop where
  indexed : f.Indexed
  pairing : ∃ p, f.pairing = .ok p ∧ ∀ q, p.UsedUp q → ∀ seed c, q.close seed = some c → c.Present f.routine
  findings : ∀ frozen, ∃ found, f.findings frozen = .ok found
  trip : ∀ root, ∃ shape alternating, f.trip root = .ok (shape, alternating)

/-- Rounds find what they ask for in every region. -/
theorem Facts.Sound.answers {r : Routine} {k : Facts} {id : Nat} {region : Region} (hk : k.Sound r)
    (hr : k.forest.regions[id]? = some region) (summary : Option (Nat → Option Summary)) :
    (Layout.of r k id region summary).flat.Answers := by
  have hcurrent : (Layout.of r k id region summary).flat.Current := Layout.flat_current hk hr
  refine ⟨hcurrent.indexed, ⟨_, Flat.pairing_eq hcurrent.indexed, fun q hq seed c hc => ?_⟩, fun frozen => ?_,
    fun root => ⟨_, _, Flat.trip_eq hcurrent.indexed root⟩⟩
  · have hdrawn := Pairing.close_drawn ((Flat.paired_filed _).usedUp hq) hc
    refine ⟨fun x hx => ?_, fun x hx => ?_⟩
    · obtain ⟨-, v, kind, hi, -⟩ := Layout.acts_retain hk hr (hdrawn.retains x hx).1
      exact ⟨v, kind, hi⟩
    · obtain ⟨-, v, kind, hi, -⟩ := Layout.acts_release hk hr (hdrawn.releases x hx).1
      exact ⟨v, kind, hi⟩
  · obtain ⟨found, -, hthin⟩ := Flat.findings_thin hcurrent frozen
    exact ⟨_, hthin⟩

/-- A routine that keeps the contract is optimized without a fault. None waits on the way either:
in a routine that gets its loops canonical, in its facts, and in any region of any routine that
rounds may make of it by moving counts. -/
theorem run_finds_all_it_names (config : Config) (r : Routine) (h : r.check = .ok ()) :
    (∃ outcome next cache, run config config.strategy r .empty = .ok (outcome, next, cache) ∧
      Runs config r outcome next) ∧
    ∀ base, r.Widens base → (∃ wider, base.canonicalizeOnce = .ok wider) ∧ ∃ k, base.facts = .ok k ∧
      ∀ s : Routine, s.bare = base.bare → ∀ id < k.forest.regions.length, ∀ summary,
        ∃ f, Flat.build s k id summary = .ok f ∧ f.Answers := by
  refine ⟨run_total config h (Cache.empty_serves r), fun base hwide => ?_⟩
  have hlaw := (Routine.lawful_of_check h fun _ => False).widens hwide
  obtain ⟨wider, hwider, -⟩ := Routine.canonicalizeOnce_total hlaw.entry
  obtain ⟨k, hfacts, hk⟩ := Routine.facts_total hlaw.entry
  refine ⟨⟨wider, hwider⟩, k, hfacts, fun s hs id hid summary => ?_⟩
  have hks := hk.of_bare hs
  have hr := List.getElem?_eq_getElem hid
  exact ⟨_, hks.build_eq hr summary, hks.answers hr summary⟩

theorem run_finds_all_it_names_countedLoop : countedLoop.check = .ok () ∧
    (∃ outcome next cache, run .default Config.default.strategy countedLoop .empty = .ok (outcome, next, cache) ∧
      Runs .default countedLoop outcome next) ∧
    ∀ base, countedLoop.Widens base → (∃ wider, base.canonicalizeOnce = .ok wider) ∧ ∃ k, base.facts = .ok k ∧
      ∀ s : Routine, s.bare = base.bare → ∀ id < k.forest.regions.length, ∀ summary,
        ∃ f, Flat.build s k id summary = .ok f ∧ f.Answers :=
  ⟨rfl, run_finds_all_it_names .default countedLoop rfl⟩

end CountMotion
