import CountMotion.Proofs.Freezing
import CountMotion.Proofs.FreshSummaries
import CountMotion.Proofs.Lawfulness
import CountMotion.Proofs.RoughRounds

/-! A run leaves nothing for another run: where rounds come to an end, rounds with new facts and
new summaries find nothing either. -/
namespace CountMotion

variable {r next last : Routine} {k k' : Facts} {region : Region} {id : Nat} {log : List RoundRecord}
  {touched more frozen : Bool} {found : Findings}

namespace Rounds

/-- Where rounds rest, they finish at once, also with other facts that are roughly the same. -/
theorem Rests.finish (hk : k.Sound r) (h : Rests r k false) (hrough : k.rough = k'.rough) :
    ∃ d, Rounds.finish r k' = .ok (d, r) ∧ d.stats.moved = 0 ∧ d.stats.removed = 0 := by
  obtain ⟨d, hrun, hchanged, hmoved, hremoved⟩ := h.run hk start false
  rw [run_of_rough hrough] at hrun
  have hsettle : start.settle r k' false = .ok (d, r) := by
    rw [settle, hrun]
    rfl
  refine ⟨d, ?_, hmoved, hremoved⟩
  rw [Rounds.finish, hsettle]
  simp only [bind, Except.bind, hchanged]
  rfl

end Rounds

namespace Sweep

variable {s s' mid : Sweep} {t t' t₁ t₁' : SummaryTable} {found' : Findings} {hoists hoists' : List Exchange}

/-- With fresh summaries, what a round finds does not depend on which were there before it. -/
theorem Finds.unique (hk : k.Sound r) (hr : k.forest.regions[id]? = some region) (hs : s.table.Fresh r k)
    (hs' : s'.table.Fresh r k) (h : s.Finds r k id false t t₁ found hoists)
    (h' : s'.Finds r k id false t' t₁' found' hoists') : found' = found ∧ hoists' = hoists := by
  obtain ⟨hfresh, hholds⟩ := hs.summarizeChildren hk hr h.summarized
  obtain ⟨hfresh', hholds'⟩ := hs'.summarizeChildren hk hr h'.summarized
  have hfound : found' = found := by
    obtain ⟨f, hf, hfound⟩ := h.findings
    obtain ⟨f', hf', hfound'⟩ := h'.findings
    rw [hk.build_eq hr _] at hf hf'
    obtain rfl := Except.ok.inj hf
    obtain rfl := Except.ok.inj hf'
    have hflat : (Layout.of r k id region (some t'.get?)).flat = (Layout.of r k id region (some t.get?)).flat := by
      refine Layout.flat_congr (y := Layout.of r k id region (some t.get?)) rfl rfl rfl (fun _ _ => rfl) fun b c hc => ?_
      have hmem := ((hk.forest.children hr).2 c).mpr (hk.forest.childAt_spec hc).1
      exact hfresh.get?_eq hk hfresh' (hholds c hmem) (hholds' c hmem)
    rw [hflat] at hfound'
    exact Except.ok.inj (hfound'.symm.trans hfound)
  subst hfound
  obtain ⟨hfresh₁, hholds₁, xs, hxs, rfl⟩ := hfresh.hoists hk hr h.hoisted
  obtain ⟨hfresh₁', hholds₁', xs', hxs', rfl⟩ := hfresh'.hoists hk hr h'.hoisted
  have hmap : ∀ ids : List Nat, (∀ c ∈ ids, c ∈ region.children) →
      ids.mapM (t₁'.hoistsOf r k found'.roots) = ids.mapM (t₁.hoistsOf r k found'.roots) := by
    intro ids
    induction ids with
    | nil => exact fun _ => rfl
    | cons c ids ih =>
      intro hin
      have hc := hin c (.head _)
      have hget := hfresh₁.get?_eq hk hfresh₁' (hholds₁ c hc) (hholds₁' c hc)
      rw [List.mapM_cons, List.mapM_cons, ih fun d hd => hin d (.tail _ hd)]
      simp only [SummaryTable.hoistsOf, hget]
  rw [hmap _ fun _ hc => hc, hxs] at hxs'
  exact ⟨rfl, by rw [Except.ok.inj hxs']⟩

theorem round_fresh (hk : k.Sound r) (hr : k.forest.regions[id]? = some region) (ht : s.table.Fresh r k)
    (h : s.round r k id frozen = .ok (s', next, touched, more)) :
    k.Sound next ∧ s'.table.Fresh next k ∧ (touched = false → next = r) := by
  obtain ⟨t, t', found, hoists, _, _, _, _, hfinds, hrun, hround, htable, -⟩ :=
    round_total hk hr (ht.current hk) frozen
  obtain ⟨rfl, rfl, rfl, rfl⟩ : _ = s' ∧ _ = next ∧ _ = touched ∧ _ = more := by
    simpa using hrun.symm.trans h
  have hfresh := (ht.summarizeChildren hk hr hfinds.summarized).1
  have hfresh' := (hfresh.hoists hk hr hfinds.hoisted).1
  refine ⟨hk.of_bare hround.bare, ?_, hround.same⟩
  rw [htable]
  split
  · refine hfresh'.without hk (Routine.frame_of_bare hround.bare) fun b hb => ?_
    rw [hround.next_eq]
    exact Edits.applied_getElem? hb r
  · rename_i hquiet
    rw [hround.same (Bool.eq_false_iff.mpr hquiet)]
    exact hfresh'

/-- Some round in the region, with fresh summaries, touches nothing. -/
def Rests (r : Routine) (k : Facts) (id : Nat) : Prop :=
  ∃ (s s' : Sweep) (more : Bool), s.table.Fresh r k ∧ s.round r k id false = .ok (s', r, false, more)

theorem Rests.round (hk : k.Sound r) (hr : k.forest.regions[id]? = some region) (h : Rests r k id)
    (hs : s.table.Fresh r k) : ∃ s' more, s.round r k id false = .ok (s', r, false, more) ∧ s'.table.Fresh r k ∧
      s'.rounds.stats.moved = s.rounds.stats.moved ∧ s'.rounds.stats.removed = s.rounds.stats.removed := by
  obtain ⟨s₀, s₀', more₀, hs₀, h⟩ := h
  obtain ⟨t, t', found, hoists, _, _, _, _, hfinds, hrun, hround, -, -⟩ := round_total hk hr (hs₀.current hk) false
  obtain ⟨rfl, rfl, rfl, rfl⟩ : _ = s₀' ∧ _ = r ∧ _ = false ∧ _ = more₀ := by
    simpa using hrun.symm.trans h
  obtain ⟨t₁, t₁', found₁, hoists₁, s', next, touched, more, hfinds', hrun', hround', -, -⟩ :=
    round_total hk hr (hs.current hk) false
  obtain ⟨rfl, rfl⟩ := hfinds.unique hk hr hs₀ hs hfinds'
  rw [hround.eq_nil rfl] at hround'
  obtain rfl : touched = false := hround'.touched_eq
  obtain rfl := hround'.same rfl
  exact ⟨s', more, hrun', (round_fresh hk hr hs hrun').2.1, hround'.moved, hround'.removed⟩

theorem RegionSettles.fresh (hk : k.Sound r) (hr : k.forest.regions[id]? = some region) (hs : s.table.Fresh r k)
    (h : RegionSettles k id frozen s r log s' last touched) : k.Sound last ∧ s'.table.Fresh last k := by
  induction h with
  | stop h =>
    obtain ⟨hk', hs', -⟩ := round_fresh hk hr hs h
    exact ⟨hk', hs'⟩
  | again h _ ih =>
    obtain ⟨hk', hs', -⟩ := round_fresh hk hr hs h
    exact ih hk' hs'

theorem LoopSettles.fresh (hk : k.Sound r) (hid : id < k.forest.regions.length) (hs : s.table.Fresh r k)
    (h : LoopSettles k id s r log s' last touched) : k.Sound last ∧ s'.table.Fresh last k := by
  have hr := List.getElem?_eq_getElem hid
  cases h with
  | quiet h ht =>
    obtain ⟨hk', hs'⟩ := h.fresh hk hr hs
    exact ⟨hk', (hs'.summarize hk' hid ht).1⟩
  | changed h rest ht =>
    obtain ⟨hk', hs'⟩ := h.fresh hk hr hs
    obtain ⟨hk'', hs''⟩ := rest.fresh hk' hr hs'
    exact ⟨hk'', (hs''.summarize hk'' hid ht).1⟩

theorem LoopsSettle.fresh {ids : List Nat} (hk : k.Sound r) (hids : ∀ id ∈ ids, id < k.forest.regions.length)
    (hs : s.table.Fresh r k) (h : LoopsSettle k ids s r log s' last touched) : k.Sound last ∧ s'.table.Fresh last k := by
  induction h with
  | nil => exact ⟨hk, hs⟩
  | cons h _ ih =>
    obtain ⟨hk', hs'⟩ := h.fresh hk (hids _ (.head _)) hs
    exact ih hk' (fun id hid => hids id (.tail _ hid)) hs'

theorem BodySettles.fresh (hk : k.Sound r) (hs : s.table.Fresh r k) (h : BodySettles k s r log s' last touched) :
    k.Sound last ∧ s'.table.Fresh last k := by
  obtain ⟨region, hr, -⟩ := hk.forest.whole
  cases h with
  | quiet h => exact h.fresh hk hr hs
  | changed h _ rest =>
    obtain ⟨hk', hs'⟩ := h.fresh hk hr hs
    exact RegionSettles.fresh hk' hr (by exact hs') rest

theorem RegionSettles.rests (hk : k.Sound r) (hr : k.forest.regions[id]? = some region) (hs : s.table.Fresh r k)
    (h : RegionSettles k id false s r log s' last false) : last = r ∧ Rests r k id := by
  cases h with
  | stop h =>
    obtain rfl := (round_fresh hk hr hs h).2.2 rfl
    exact ⟨rfl, s, s', _, hs, h⟩

theorem LoopsSettle.rests {ids : List Nat} (hk : k.Sound r) (hids : ∀ id ∈ ids, id < k.forest.regions.length)
    (hs : s.table.Fresh r k) (h : LoopsSettle k ids s r log s' last touched) (ht : touched = false) :
    last = r ∧ s'.table.Fresh r k ∧ ∀ id ∈ ids, Rests r k id := by
  induction h with
  | nil => exact ⟨rfl, hs, fun _ hid => nomatch hid⟩
  | cons h _ ih =>
    obtain ⟨rfl, rfl⟩ := Bool.or_eq_false_iff.mp ht
    have hid := hids _ (.head _)
    obtain ⟨hk', hs'⟩ := h.fresh hk hid hs
    cases h with
    | quiet h =>
      obtain ⟨rfl, hrests⟩ := h.rests hk (List.getElem?_eq_getElem hid) hs
      obtain ⟨rfl, hlast, hall⟩ := ih hk' (fun id hid => hids id (.tail _ hid)) hs' rfl
      exact ⟨rfl, hlast, List.forall_mem_cons.mpr ⟨hrests, hall⟩⟩

theorem Settles.rests (hk : k.Sound r) (hs : s.table.Fresh r k) (h : Settles k s r log s' last) :
    k.Sound last ∧ ∀ id ∈ 0 :: k.forest.upward, Rests last k id := by
  induction h with
  | stop hids h h' hstop =>
    obtain rfl := Except.ok.inj (hk.forest.bottomUp_eq.symm.trans hids)
    obtain ⟨ht, ht'⟩ := Bool.or_eq_false_iff.mp (Bool.eq_false_iff.mpr hstop)
    obtain ⟨rfl, hmid, hloops⟩ := h.rests hk (upward_lt hk) hs ht
    subst ht'
    cases h' with
    | quiet h' =>
      obtain ⟨region, hr, -⟩ := hk.forest.whole
      obtain ⟨rfl, hbody⟩ := h'.rests hk hr hmid
      exact ⟨hk, List.forall_mem_cons.mpr ⟨hbody, hloops⟩⟩
  | again hids h h' _ _ ih =>
    obtain rfl := Except.ok.inj (hk.forest.bottomUp_eq.symm.trans hids)
    obtain ⟨hk', hs'⟩ := h.fresh hk (upward_lt hk) hs
    obtain ⟨hk'', hs''⟩ := h'.fresh hk' hs'
    exact ih hk'' hs''

/-- Where no round touches anything, a sweep goes through, also with facts that are roughly the same. -/
theorem loop_rests (hk : k.Sound r) (hid : id < k.forest.regions.length) (h : Rests r k id) (hs : s.table.Fresh r k)
    (hrough : k.rough = k'.rough) : ∃ s', s.loop r k' id = .ok (s', r, false) ∧ s'.table.Fresh r k ∧
      s'.rounds.stats.moved = s.rounds.stats.moved ∧ s'.rounds.stats.removed = s.rounds.stats.removed := by
  obtain ⟨mid, more, hround, hmid, hmoved, hremoved⟩ := h.round hk (List.getElem?_eq_getElem hid) hs
  obtain ⟨t, ht, -⟩ := SummaryTable.summarize_total hk (hmid.current hk) hid
  refine ⟨{ mid with table := t }, ?_, (hmid.summarize hk hid ht).1, hmoved, hremoved⟩
  rw [round_of_rough hrough] at hround
  rw [SummaryTable.summarize_of_rough hrough] at ht
  rw [loop, settleRegion, hround]
  simp only [bind, Except.bind, pure, Except.pure, Bool.false_eq_true, false_and, dite_false, if_false, ht]

theorem sweep_rests (hk : k.Sound r) (h : ∀ id ∈ 0 :: k.forest.upward, Rests r k id) (hs : s.table.Fresh r k)
    (hrough : k.rough = k'.rough) : ∃ s', s.sweep r k' = .ok (s', r, false) ∧
      s'.rounds.stats.moved = s.rounds.stats.moved ∧ s'.rounds.stats.removed = s.rounds.stats.removed := by
  have hforest : k'.rough.forest = k.rough.forest := congrArg Facts.forest hrough.symm
  obtain ⟨⟨mid, r', before⟩, hloops, hr', hbefore, hmid, hmoved, hremoved⟩ := foldlM_total
    (f := fun (x : Sweep × Routine × Bool) id => do
      let x' ← x.1.loop x.2.1 k' id
      return (x'.1, x'.2.1, x.2.2 || x'.2.2))
    (fun _ x => x.2.1 = r ∧ x.2.2 = false ∧ x.1.table.Fresh r k ∧
      x.1.rounds.stats.moved = s.rounds.stats.moved ∧ x.1.rounds.stats.removed = s.rounds.stats.removed)
    (l := k.forest.upward) (b := (s, r, false)) ⟨rfl, rfl, hs, rfl, rfl⟩
    (by
      rintro done id after ⟨s₁, _, _⟩ hl ⟨rfl, rfl, hfresh, hmoved, hremoved⟩
      have hmem : id ∈ k.forest.upward := by rw [← hl]; simp
      obtain ⟨s₂, hloop, hfresh', hmoved', hremoved'⟩ :=
        loop_rests hk (upward_lt hk id hmem) (h id (.tail _ hmem)) hfresh hrough
      refine ⟨(s₂, _, false), ?_, rfl, rfl, hfresh', hmoved'.trans hmoved, hremoved'.trans hremoved⟩
      simp only [bind, Except.bind, hloop]
      rfl)
  obtain rfl : r' = r := hr'
  obtain rfl : before = false := hbefore
  obtain ⟨region, hregion, -⟩ := hk.forest.whole
  obtain ⟨s', more, hround, -, hmoved', hremoved'⟩ := (h 0 (.head _)).round hk hregion hmid
  rw [round_of_rough hrough] at hround
  have hbody : mid.body r' k' = .ok (s', r', false) := by
    rw [body, settleRegion, hround]
    rfl
  refine ⟨s', ?_, hmoved'.trans hmoved, hremoved'.trans hremoved⟩
  have hids : k'.forest.bottomUp = .ok k.forest.upward := by
    rw [show k'.forest = k.forest from hforest, hk.forest.bottomUp_eq]
  exact bind_eq_ok.mpr ⟨_, hids, bind_eq_ok.mpr ⟨_, hloops, bind_eq_ok.mpr ⟨_, hbody, rfl⟩⟩⟩

theorem settle_rests (hk : k.Sound r) (h : ∀ id ∈ 0 :: k.forest.upward, Rests r k id) (hrough : k.rough = k'.rough) :
    ∃ s, (start k').settle r k' = .ok (s, r) ∧ s.rounds.stats.moved = 0 ∧ s.rounds.stats.removed = 0 := by
  have hforest : k'.rough.forest = k.rough.forest := congrArg Facts.forest hrough.symm
  have hstart : (start k').table.Fresh r k := by
    rw [start, show k'.forest = k.forest from hforest]
    exact SummaryTable.empty_fresh k r
  obtain ⟨s, hsweep, hmoved, hremoved⟩ := sweep_rests hk h hstart hrough
  refine ⟨s, ?_, hmoved, hremoved⟩
  rw [settle, hsweep]
  rfl

end Sweep

section Reruns

variable {config : Config} {outcome : Outcome} {cache : Cache} {stats : Stats}

private theorem run_of_optimize (hcheck : r.check = .ok ())
    (hon : ¬ (!config.enabled || r.name.startsWith initializerMark))
    (hopt : config.strategy.optimize r .empty = .ok (r, cache, stats)) (hmoved : stats.moved = 0)
    (hremoved : stats.removed = 0) : run config config.strategy r .empty = .ok (⟨stats, .nothing⟩, r, cache) := by
  have hchanged : stats.changed = false := by simp [Stats.changed, hmoved, hremoved]
  simp only [run, hcheck, if_neg hon, hopt, hchanged, ne_eq, not_true_eq_false, Bool.false_eq_true, if_false]
  rfl

/-- A run on what a run left changes nothing, if it has canonical loops and keeps the contract. -/
theorem Runs.rerun (hruns : Runs config r outcome next) (hcheck : next.check = .ok ())
    (hcanon : config.loops → next.canonicalize.map Prod.snd = .ok false) :
    ∃ stats cache, run config config.strategy next .empty = .ok (⟨stats, .nothing⟩, next, cache) ∧
      stats.moved = 0 ∧ stats.removed = 0 := by
  have hentry := Routine.entry_lt_of_check hcheck
  obtain ⟨k', hfacts', hk'⟩ := Routine.facts_total hentry
  have hempty : Cache.empty.facts next = .ok (k', ⟨some k', []⟩) := by
    rw [Cache.facts]
    simp only [Cache.empty, bind, Except.bind, hfacts']
    rfl
  cases hruns with
  | skipped hoff =>
    refine ⟨.zero, .empty, ?_, rfl, rfl⟩
    simp only [run, hcheck, if_pos hoff]
  | @blockOnly k log c next hon hloops hfacts hk hlog hdesc =>
    obtain ⟨hsound, hrests⟩ := hlog.rests hk
    have hrough := Routine.facts_of_bare hdesc.bare.symm hfacts hfacts'
    obtain ⟨d, hfinish, hmoved, hremoved⟩ := hrests.finish hsound hrough
    have hopt : config.strategy.optimize next .empty = .ok (next, ⟨some k', []⟩, d.stats) := by
      rw [Config.strategy, hloops]
      simp only [Bool.false_eq_true, if_false, Strategy.blockOnly, bind, Except.bind, hempty, hfinish]
      rfl
    rw [← Routine.name_of_bare hdesc.bare] at hon
    exact ⟨_, _, run_of_optimize hcheck hon hopt hmoved hremoved, hmoved, hremoved⟩
  | @loopAware base next changed k log s hon hloops hbase hwide hsame hfacts hk hlog hdesc =>
    obtain ⟨hsound, hrests⟩ := hlog.rests hk (SummaryTable.empty_fresh k base)
    have hrough := Routine.facts_of_bare hdesc.bare.symm hfacts hfacts'
    obtain ⟨d, hsettle, hmoved, hremoved⟩ := Sweep.settle_rests hsound hrests hrough
    have hnext : next.canonicalize = .ok (next, false) := by
      obtain ⟨wider, changed, hwider, -, hsame, -⟩ := Routine.canonicalize_total hentry
      have hfalse := hcanon hloops
      rw [hwider] at hfalse
      obtain rfl : changed = false := Except.ok.inj hfalse
      rw [hwider, hsame rfl]
    have hopt : config.strategy.optimize next .empty = .ok (next, ⟨some k', []⟩, d.rounds.stats) := by
      rw [Config.strategy, if_pos hloops]
      simp only [Strategy.loopAware, bind, Except.bind, hnext, Bool.false_eq_true, if_false, hempty, hsettle]
      rfl
    rw [← hwide.same.1, ← Routine.name_of_bare hdesc.bare] at hon
    exact ⟨_, _, run_of_optimize hcheck hon hopt hmoved hremoved, hmoved, hremoved⟩

/-- Runs come to a fixed point. Where a run leaves canonical loops, or does not collapse any,
another run changes nothing and reports so; only one that finds a trivial root counted, which a
run with loops collapsed may have left, is refused. -/
theorem rerun_changes_nothing (config : Config) (r : Routine) (cache : Cache) (h : r.check = .ok ())
    (hc : cache.Serves r) : ∃ outcome next cache', run config config.strategy r cache = .ok (outcome, next, cache') ∧
      ((config.loops → next.canonicalize.map Prod.snd = .ok false) →
        (∃ stats cache'', run config config.strategy next .empty = .ok (⟨stats, .nothing⟩, next, cache'') ∧
          stats.moved = 0 ∧ stats.removed = 0) ∨
        config.loops ∧ ∃ block v root,
          run config config.strategy next .empty = .error (.breach (.trivialCount block root) next .empty) ∧
          r.rootOf v = some root ∧ r.storage[root]? = some .trivial) := by
  obtain ⟨outcome, next, cache', hrun, hruns⟩ := run_total config h hc
  refine ⟨outcome, next, cache', hrun, fun hcanon => ?_⟩
  cases hcheck : next.check with
  | ok => exact .inl (hruns.rerun hcheck hcanon)
  | error breach =>
    have hmem : breach ∈ next.breaches := by
      rw [Routine.check] at hcheck
      split at hcheck
      · cases hcheck
      · rename_i hbreaches
        rw [hbreaches, ← Except.error.inj hcheck]
        exact .head _
    obtain ⟨block, root, rfl, ⟨hloops, v, hv⟩, htrivial⟩ := (hruns.lawful h).breach hmem
    rw [hruns.storage h] at htrivial
    exact .inr ⟨hloops, block, v, root, by rw [run, hcheck], hv, htrivial⟩

theorem rerun_changes_nothing_countedLoop : countedLoop.check = .ok () ∧ Cache.empty.Serves countedLoop ∧
    ∃ outcome next cache', run .default Config.default.strategy countedLoop .empty = .ok (outcome, next, cache') ∧
      ((Config.default.loops → next.canonicalize.map Prod.snd = .ok false) →
        (∃ stats cache'', run .default Config.default.strategy next .empty = .ok (⟨stats, .nothing⟩, next, cache'') ∧
          stats.moved = 0 ∧ stats.removed = 0) ∨
        Config.default.loops ∧ ∃ block v root,
          run .default Config.default.strategy next .empty = .error (.breach (.trivialCount block root) next .empty) ∧
          countedLoop.rootOf v = some root ∧ countedLoop.storage[root]? = some .trivial) :=
  ⟨rfl, Cache.empty_serves _, rerun_changes_nothing .default countedLoop .empty rfl (Cache.empty_serves _)⟩

/-- A second run may be refused, though the loops are canonical. -/
theorem rerun_refused : copiedTrivial.check = .ok () ∧ ∃ outcome next cache,
    run .default Config.default.strategy copiedTrivial .empty = .ok (outcome, next, cache) ∧
      next.canonicalize.map Prod.snd = .ok false ∧
      run .default Config.default.strategy next .empty = .error (.breach (.trivialCount 0 0) next .empty) := by
  have hruns : (run .default Config.default.strategy copiedTrivial .empty).map (fun (_, next, _) =>
      (next.canonicalize.map Prod.snd, decide (run .default Config.default.strategy next .empty =
        .error (.breach (.trivialCount 0 0) next .empty)))) = .ok (.ok false, true) := by decide +kernel
  refine ⟨rfl, ?_⟩
  cases hrun : run .default Config.default.strategy copiedTrivial .empty with
  | error failure =>
    rw [hrun] at hruns
    cases hruns
  | ok x =>
    rw [hrun] at hruns
    obtain ⟨hcanon, hrefused⟩ := Prod.mk.inj (Except.ok.inj hruns)
    exact ⟨x.1, x.2.1, x.2.2, rfl, hcanon, of_decide_eq_true hrefused⟩

end Reruns

end CountMotion
