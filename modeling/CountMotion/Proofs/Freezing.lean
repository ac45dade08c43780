import CountMotion.Proofs.PassEffect

/-! A frozen round makes the exchanges of an unfrozen one, some of them without their releases. So
where unfrozen rounds come to an end, a frozen one finds nothing. -/
namespace CountMotion

variable {r next last : Routine} {k : Facts} {log : List RoundRecord} {touched frozen : Bool} {found : Findings}

/-- What is left of an exchange if its releases stay as they are. -/
def Exchange.withoutReleases (x : Exchange) : Option Exchange :=
  if x.retains.isEmpty && x.newRetains.isEmpty then none else some { x with releases := [], newReleases := [] }

/-- The exchange would merge a pinned release. -/
def Exchange.MergesPinned (pinned : List (BlockId × Var)) (x : Exchange) : Prop :=
  x.newReleases ≠ [] ∧ ∃ q ∈ x.releases, (q.block, x.root) ∈ pinned

instance (pinned : List (BlockId × Var)) (x : Exchange) : Decidable (x.MergesPinned pinned) :=
  inferInstanceAs (Decidable (_ ∧ _))

/-- What pinned releases leave of an exchange. -/
def Exchange.thin (pinned : List (BlockId × Var)) (x : Exchange) : Option Exchange :=
  if x.MergesPinned pinned then x.withoutReleases else some x

/-- The exchange for a closure whose root is read, from the places for one retain and one release. -/
def Closure.merged (c : Closure) (up down : Option Point) : Option Exchange :=
  if up.isNone && down.isNone then none
  else some {
    root := c.root
    retains := if up.isSome then c.retains else []
    releases := if down.isSome then c.releases else []
    newRetains := up.toList
    newReleases := down.toList }

section Seeds

variable {f : Flat} {pinned : List (BlockId × Var)} {c : Closure} {up down : Option Point}

theorem Flat.mergeReleases_spared {root : Var} {releases : List Point}
    (h : ¬∃ q ∈ releases, (q.block, root) ∈ pinned) :
    f.mergeReleases pinned root releases = f.mergeReleases [] root releases := by
  have hnone : ∀ pinned : List (BlockId × Var), (¬∃ q ∈ releases, (q.block, root) ∈ pinned) →
      (releases.any fun q => pinned.contains (q.block, root)) = false := by
    intro pinned h
    simpa using h
  rw [mergeReleases, mergeReleases]
  simp only [hnone pinned h, hnone [] (by simp)]

theorem Flat.mergeReleases_pinned {root : Var} {releases : List Point}
    (h : ∃ q ∈ releases, (q.block, root) ∈ pinned) : f.mergeReleases pinned root releases = .ok none := by
  have hany : (releases.any fun q => pinned.contains (q.block, root)) = true := by simpa using h
  rw [mergeReleases]
  simp only [hany, if_true]
  split <;> rfl

theorem Flat.exchange_used (hused : c.used) (hup : f.mergeRetains c.root c.retains = .ok up)
    (hdown : f.mergeReleases pinned c.root c.releases = .ok down) : f.exchange pinned c = .ok (c.merged up down) := by
  rw [exchange, if_pos hused, hup, Closure.merged]
  simp only [bind, Except.bind, hdown]
  split <;> rfl

/-- A merge of retains stays when the releases may not be merged. -/
theorem Closure.merged_thin_pinned (h : ∃ q ∈ c.releases, (q.block, c.root) ∈ pinned) :
    (c.merged up down).bind (Exchange.thin pinned) = c.merged up none := by
  cases up <;> cases down <;> simp [merged, Exchange.thin, Exchange.MergesPinned, Exchange.withoutReleases, h]

theorem Closure.merged_thin_spared (h : ¬∃ q ∈ c.releases, (q.block, c.root) ∈ pinned) :
    (c.merged up down).bind (Exchange.thin pinned) = c.merged up down := by
  cases up <;> cases down <;> simp [merged, Exchange.thin, Exchange.MergesPinned, h]

theorem Flat.exchange_thin (hf : f.Current) (pinned : List (BlockId × Var)) (c : Closure) :
    ∃ x, f.exchange [] c = .ok x ∧ f.exchange pinned c = .ok (x.bind (Exchange.thin pinned)) := by
  by_cases hused : c.used
  · obtain ⟨up, hup, -⟩ := mergeRetains_total hf c.root c.retains
    obtain ⟨down, hdown, -⟩ := mergeReleases_total hf [] c.root c.releases
    refine ⟨_, exchange_used hused hup hdown, ?_⟩
    by_cases hpinned : ∃ q ∈ c.releases, (q.block, c.root) ∈ pinned
    · rw [Closure.merged_thin_pinned hpinned]
      exact exchange_used hused hup (mergeReleases_pinned hpinned)
    · rw [Closure.merged_thin_spared hpinned]
      exact exchange_used hused hup ((mergeReleases_spared hpinned).trans hdown)
  · have hdelete : ∀ pinned, f.exchange pinned c = .ok (some ⟨c.root, c.retains, c.releases, [], []⟩) := by
      intro pinned
      rw [exchange, if_neg hused]
      rfl
    -- Pins hold for merges only: a root that is not read loses its operations all the same.
    refine ⟨_, hdelete [], (hdelete pinned).trans ?_⟩
    rw [Option.bind_some, Exchange.thin, if_neg fun h => h.1 rfl]

/-- From a seed, the same members are used up whatever is pinned. -/
theorem Flat.matchSeed_thin (hf : f.Current) (pinned : List (BlockId × Var)) (p : Pairing) (seed : Point) :
    ∃ p' x, f.matchSeed [] p seed = .ok (p', x) ∧
      f.matchSeed pinned p seed = .ok (p', x.bind (Exchange.thin pinned)) := by
  cases hclose : p.close seed with
  | none =>
    have hnone : ∀ pinned, f.matchSeed pinned p seed = .ok (p, none) := fun pinned => by rw [matchSeed, hclose]
    exact ⟨p, none, hnone [], hnone pinned⟩
  | some c =>
    obtain ⟨x, hx, hthin⟩ := exchange_thin hf pinned c
    refine ⟨p.erase c, x, ?_, ?_⟩
    · rw [matchSeed, hclose]
      simp only [hx]
      rfl
    · rw [matchSeed, hclose]
      simp only [hthin]
      rfl

/-- So two rounds, one of them with some releases pinned, go through the seeds side by side. -/
theorem Flat.findings_thin (hf : f.Current) (pinned : List (BlockId × Var)) : ∃ found, f.findings [] = .ok found ∧
    f.findings pinned = .ok { found with exchanges := found.exchanges.filterMap (Exchange.thin pinned) } := by
  have hfold : ∀ (seeds : List Point) (p : Pairing) (xs : List Exchange), ∃ p' xs',
      seeds.foldlM (fun (s : Pairing × List Exchange) seed => do
          let x ← f.matchSeed [] s.1 seed
          return (x.1, s.2 ++ x.2.toList)) (p, xs) = .ok (p', xs') ∧
        seeds.foldlM (fun (s : Pairing × List Exchange) seed => do
          let x ← f.matchSeed pinned s.1 seed
          return (x.1, s.2 ++ x.2.toList)) (p, xs.filterMap (Exchange.thin pinned)) =
            .ok (p', xs'.filterMap (Exchange.thin pinned)) := by
    intro seeds
    induction seeds with
    | nil => exact fun p xs => ⟨p, xs, rfl, rfl⟩
    | cons seed seeds ih =>
      intro p xs
      obtain ⟨p₁, x, hx, hthin⟩ := matchSeed_thin hf pinned p seed
      obtain ⟨p', xs', hxs, hys⟩ := ih p₁ (xs ++ x.toList)
      have hfound : (xs ++ x.toList).filterMap (Exchange.thin pinned) =
          xs.filterMap (Exchange.thin pinned) ++ (x.bind (Exchange.thin pinned)).toList := by
        cases x with
        | none => simp
        | some x => cases hleft : Exchange.thin pinned x <;> simp [hleft]
      refine ⟨p', xs', ?_, ?_⟩
      · rw [List.foldlM_cons]
        exact bind_eq_ok.mpr ⟨_, bind_eq_ok.mpr ⟨_, hx, rfl⟩, hxs⟩
      · rw [List.foldlM_cons]
        exact bind_eq_ok.mpr ⟨_, bind_eq_ok.mpr ⟨_, hthin, rfl⟩, hfound ▸ hys⟩
  obtain ⟨p', xs, hxs, hys⟩ := hfold f.paired.retains.keys f.paired []
  have hpairing := pairing_eq hf.indexed
  exact ⟨⟨xs, f.paired.nested⟩, bind_eq_ok.mpr ⟨_, hpairing, bind_eq_ok.mpr ⟨_, hxs, rfl⟩⟩,
    bind_eq_ok.mpr ⟨_, hpairing, bind_eq_ok.mpr ⟨_, hys, rfl⟩⟩⟩

theorem Flat.findings_frozen (hf : f.Current) (h : f.findings [] = .ok found) (hnone : found.exchanges = [])
    (pinned : List (BlockId × Var)) : f.findings pinned = .ok found := by
  obtain ⟨found', hfound, hthin⟩ := findings_thin hf pinned
  obtain rfl := Except.ok.inj (hfound.symm.trans h)
  rw [hthin, hnone, List.filterMap_nil, ← hnone]

end Seeds

namespace Rounds

variable {c c' : Rounds}

def Rests (r : Routine) (k : Facts) (frozen : Bool) : Prop :=
  ∃ c c' : Rounds, c.run r k frozen = .ok (c', r, false)

/-- Where a round that is not frozen touches nothing, no round does. -/
theorem Rests.run (hk : k.Sound r) (h : Rests r k false) (d : Rounds) (frozen : Bool) :
    ∃ d', d.run r k frozen = .ok (d', r, false) ∧ d'.changed = d.changed ∧ d'.stats.moved = d.stats.moved ∧
      d'.stats.removed = d.stats.removed := by
  obtain ⟨c, c', h⟩ := h
  obtain ⟨found, _, _, _, ⟨f, pinned, hflat, hfound, hpinned⟩, hrun, hround, -⟩ := run_total hk c false
  obtain ⟨rfl, rfl, rfl⟩ : _ = c' ∧ _ = r ∧ _ = false := by simpa using hrun.symm.trans h
  obtain rfl := hpinned rfl
  obtain ⟨found', d', next', touched, ⟨f', pinned', hflat', hfound', -⟩, hrun', hround', hchanged, -⟩ :=
    run_total hk d frozen
  obtain rfl := Except.ok.inj (hflat.symm.trans hflat')
  have hnil := hround.eq_nil rfl
  obtain ⟨-, -, -, hcurrent⟩ := hk.exists_layout hflat
  obtain rfl := Except.ok.inj ((Flat.findings_frozen hcurrent hfound hnil pinned').symm.trans hfound')
  rw [hnil] at hround'
  obtain rfl : touched = false := hround'.touched_eq
  obtain rfl := hround'.same rfl
  exact ⟨d', hrun', by simpa using hchanged, hround'.moved, hround'.removed⟩

theorem Settles.rests (hk : k.Sound r) (h : Settles k frozen c r log c' last) : k.Sound last ∧ Rests last k frozen := by
  have hrun : ∀ {c c' : Rounds} {r next : Routine} {touched : Bool}, k.Sound r →
      c.run r k frozen = .ok (c', next, touched) → k.Sound next ∧ (touched = false → next = r) := by
    intro c c' r next touched hk h
    obtain ⟨_, _, _, _, -, hrun, hround, -⟩ := run_total hk c frozen
    obtain ⟨rfl, rfl, rfl⟩ : _ = c' ∧ _ = next ∧ _ = touched := by simpa using hrun.symm.trans h
    exact ⟨hk.of_bare hround.bare, hround.same⟩
  induction h with
  | stop hstop =>
    obtain ⟨hk', hsame⟩ := hrun hk hstop
    obtain rfl := hsame rfl
    exact ⟨hk', _, _, hstop⟩
  | again hagain _ ih => exact ih (hrun hk hagain).1

theorem Finishes.rests (hk : k.Sound r) (h : Finishes k r log c last) : k.Sound last ∧ Rests last k false := by
  cases h with
  | quiet h => exact h.rests hk
  | @changed mid _ next _ _ _ h _ rest =>
    obtain ⟨hk', hrests⟩ := h.rests hk
    obtain ⟨mid', hrun, -⟩ := hrests.run hk' mid true
    cases rest with
    | stop hstop =>
      obtain ⟨rfl, rfl⟩ : mid' = c ∧ next = last := by simpa using hrun.symm.trans hstop
      exact ⟨hk', hrests⟩
    | again hagain => simp [hrun] at hagain

theorem perform_counts {f : Flat} (h : c.perform f frozen = .ok (c', found)) :
    c'.stats.rounds = c.stats.rounds + 1 ∧ c'.changed = c.changed := by
  obtain ⟨_, -, hcounted⟩ := bind_eq_ok.mp h
  obtain ⟨rfl, -⟩ := Prod.mk.inj (Except.ok.inj hcounted)
  exact ⟨rfl, rfl⟩

theorem run_counts (h : c.run r k frozen = .ok (c', next, touched)) :
    c'.stats.rounds = c.stats.rounds + 1 ∧ c'.changed = (c.changed || touched) := by
  obtain ⟨d, hpinned, hrun⟩ := bind_eq_ok.mp h
  have hpin : d.stats = c.stats ∧ d.changed = c.changed := by
    split at hpinned
    · obtain ⟨_, -, hpinned⟩ := bind_eq_ok.mp hpinned
      obtain rfl := Except.ok.inj hpinned
      exact ⟨rfl, rfl⟩
    · obtain rfl := Except.ok.inj hpinned
      exact ⟨rfl, rfl⟩
  obtain ⟨f, -, hwhole⟩ := bind_eq_ok.mp hrun
  obtain ⟨⟨mid, found⟩, hperform, hmid⟩ := bind_eq_ok.mp hwhole
  obtain ⟨e, -, hqueue⟩ := bind_eq_ok.mp hmid
  obtain ⟨made, -, hmade⟩ := bind_eq_ok.mp hqueue
  obtain ⟨rfl, hrest⟩ := Prod.mk.inj (Except.ok.inj hmade)
  obtain ⟨-, rfl⟩ := Prod.mk.inj hrest
  obtain ⟨hrounds, hchanged⟩ := perform_counts hperform
  rw [hpin.1] at hrounds
  rw [hpin.2] at hchanged
  exact ⟨hrounds, by rw [hchanged]⟩

theorem Settles.changed_eq (h : Settles k frozen c r log c' last) :
    c'.changed = (c.changed || log.any RoundRecord.touched) := by
  induction h with
  | stop hrun => simpa using (run_counts hrun).2
  | again hrun _ ih =>
    rw [ih, (run_counts hrun).2]
    simp

/-- After unfrozen rounds have settled, there is one frozen round, which touches nothing. -/
theorem Settles.frozen_once (hk : k.Sound r) (h : Settles k false c r log c' last) :
    ∃ d, c'.settle last k true = .ok (d, last) ∧ Settles k true c' last [⟨last, last, false⟩] d last ∧
      d.stats = { c'.stats with rounds := c'.stats.rounds + 1 } := by
  obtain ⟨hlast, hrests⟩ := h.rests hk
  obtain ⟨d, hrun, -, hmoved, hremoved⟩ := hrests.run hlast c' true
  refine ⟨d, ?_, .stop hrun, ?_⟩
  · rw [settle, hrun]
    rfl
  · rw [← (run_counts hrun).1]
    simp only [← hmoved, ← hremoved]

end Rounds

/-- From every seed in every region, the same members are used up whatever is pinned, and the
exchange is the same one, or is left without its releases if it would merge a pinned one. So once
the rounds over a whole routine have settled, the frozen rounds that follow if one of them touched a
block are a single round, which touches none: the routine is what the unfrozen rounds leave, and
only the count of rounds is one higher. -/
theorem frozen_phase_idle (r : Routine) (cache : Cache) (h : r.check = .ok ()) (hc : cache.Serves r) :
    ∃ k, r.facts = .ok k ∧
      (∀ id summary f, Flat.build r k id summary = .ok f → ∀ pinned,
        (∀ p seed, ∃ p' x, f.matchSeed [] p seed = .ok (p', x) ∧
          f.matchSeed pinned p seed = .ok (p', x.bind (Exchange.thin pinned))) ∧
        ∃ found, f.findings [] = .ok found ∧
          f.findings pinned = .ok { found with exchanges := found.exchanges.filterMap (Exchange.thin pinned) }) ∧
      ∃ log c last, Rounds.start.settle r k false = .ok (c, last) ∧ Rounds.Settles k false .start r log c last ∧
        c.changed = log.any RoundRecord.touched ∧
        (∃ d, c.settle last k true = .ok (d, last) ∧ Rounds.Settles k true c last [⟨last, last, false⟩] d last ∧
          d.stats = { c.stats with rounds := c.stats.rounds + 1 }) ∧
        ∃ cache', Strategy.blockOnly.optimize r cache = .ok (last, cache',
          if c.changed then { c.stats with rounds := c.stats.rounds + 1 } else c.stats) := by
  obtain ⟨k, cache', hheld, hfacts, hk⟩ := Cache.facts_total hc (Routine.entry_lt_of_check h)
  refine ⟨k, hfacts, fun id summary f hf pinned => ?_, ?_⟩
  · obtain ⟨-, -, -, hcurrent⟩ := hk.exists_layout hf
    exact ⟨Flat.matchSeed_thin hcurrent pinned, Flat.findings_thin hcurrent pinned⟩
  · obtain ⟨log, c, last, hlog, hsettle, -⟩ := Rounds.settle_total hk .start false
    obtain ⟨d, hsettle', hfrozen, hstats⟩ := hlog.frozen_once hk
    refine ⟨log, c, last, hsettle, hlog, by simpa [Rounds.start] using hlog.changed_eq,
      ⟨d, hsettle', hfrozen, hstats⟩, cache', ?_⟩
    simp only [Strategy.blockOnly, Rounds.finish, bind, Except.bind, hheld, hsettle]
    cases hchanged : c.changed with
    | false => rfl
    | true =>
      simp only [if_true, hsettle', ← hstats]
      rfl

/-- The root is retained on two ways, read where they meet, and released on two ways from there. -/
def twoDiamonds : Routine where
  name := "two_diamonds"
  params := [0, 1]
  blocks := [
    ⟨0, [], .branch 1 1 2⟩,
    ⟨1, [.retain 0 .strong], .jump 3⟩,
    ⟨2, [.retain 0 .strong], .jump 3⟩,
    ⟨3, [.call 2 0 [0] .readOnly], .branch 1 4 5⟩,
    ⟨4, [.release 0 .strong], .jump 6⟩,
    ⟨5, [.release 0 .strong], .jump 6⟩,
    ⟨6, [], .ret 1⟩]
  entry := 0
  storage := [.reference, .trivial, .trivial]

theorem frozen_phase_idle_twoDiamonds : twoDiamonds.check = .ok () ∧ Cache.empty.Serves twoDiamonds ∧
    ∃ k f p p' c last, twoDiamonds.facts = .ok k ∧ Flat.build twoDiamonds k 0 none = .ok f ∧ f.pairing = .ok p ∧
      f.matchSeed [] p ⟨1, 0⟩ = .ok (p', some ⟨0, [⟨1, 0⟩, ⟨2, 0⟩], [⟨4, 0⟩, ⟨5, 0⟩], [⟨0, 0⟩], [⟨6, 0⟩]⟩) ∧
      f.matchSeed [(4, 0)] p ⟨1, 0⟩ = .ok (p', some ⟨0, [⟨1, 0⟩, ⟨2, 0⟩], [], [⟨0, 0⟩], []⟩) ∧
      Rounds.start.settle twoDiamonds k false = .ok (c, last) ∧ c.changed ∧
      (∃ d, c.settle last k true = .ok (d, last) ∧ Rounds.Settles k true c last [⟨last, last, false⟩] d last) ∧
      ∃ cache', Strategy.blockOnly.optimize twoDiamonds .empty = .ok (last, cache', ⟨2, 4, 3⟩) := by
  have hseed : (twoDiamonds.facts.bind fun k => (Flat.build twoDiamonds k 0 none).bind fun f =>
      f.pairing.bind fun p => (f.matchSeed [] p ⟨1, 0⟩).map Prod.snd) =
      .ok (some ⟨0, [⟨1, 0⟩, ⟨2, 0⟩], [⟨4, 0⟩, ⟨5, 0⟩], [⟨0, 0⟩], [⟨6, 0⟩]⟩) := by decide +kernel
  have hrounds : (twoDiamonds.facts.bind fun k => (Rounds.start.settle twoDiamonds k false).map fun x =>
      (x.1.changed, x.1.stats)) = .ok (true, ⟨2, 4, 2⟩) := by decide +kernel
  have hserves := Cache.empty_serves twoDiamonds
  obtain ⟨k, hk, hthin, log, c, last, hsettle, -, -, ⟨d, hfrozen, hlog, -⟩, cache', hopt⟩ :=
    frozen_phase_idle twoDiamonds .empty rfl hserves
  rw [hk] at hseed hrounds
  change (Flat.build twoDiamonds k 0 none).bind _ = _ at hseed
  change (Rounds.start.settle twoDiamonds k false).map _ = _ at hrounds
  obtain ⟨f, hf, hseed⟩ := bind_eq_ok.mp hseed
  obtain ⟨p, hp, hseed⟩ := bind_eq_ok.mp hseed
  obtain ⟨p', x, hx, hy⟩ := (hthin 0 none f hf [(4, 0)]).1 p ⟨1, 0⟩
  rw [hx] at hseed
  obtain rfl : x = _ := Except.ok.inj hseed
  rw [hsettle] at hrounds
  obtain ⟨hchanged, hstats⟩ : c.changed = true ∧ c.stats = ⟨2, 4, 2⟩ := by simpa using Except.ok.inj hrounds
  rw [hchanged, hstats] at hopt
  exact ⟨rfl, hserves, k, f, p, p', c, last, hk, hf, hp, hx, hy, hsettle, hchanged, ⟨d, hfrozen, hlog⟩, cache', hopt⟩

end CountMotion
