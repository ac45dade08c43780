import CountMotion.Pass
import CountMotion.Proofs.Canonicalizing
import CountMotion.Proofs.Driving

/-! What a run of the pass changes and what it costs: count operations only, in no more
rounds than the weight of the routine. -/
namespace CountMotion

variable {r : Routine} {k : Facts} {cache : Cache}

/-- Every round that touches a block lowers the weight of the count operations by depth, so the
loops that drive the rounds, over the whole routine as over its regions, come to an end, and
touch a block at most as often as the weight they start from. -/
theorem touching_rounds_lower_weight (r : Routine) (h : r.check = .ok ()) :
    (∃ k log c last, r.facts = .ok k ∧ Rounds.Finishes k r log c last ∧ Rounds.finish r k = .ok (c, last) ∧
      (∀ x ∈ log, x.touched → k.forest.weight x.after < k.forest.weight x.before) ∧
      log.countP RoundRecord.touched ≤ k.forest.weight r) ∧
    ∃ base changed k log s last, r.canonicalize = .ok (base, changed) ∧ base.facts = .ok k ∧
      Sweep.Settles k (.start k) base log s last ∧ (Sweep.start k).settle base k = .ok (s, last) ∧
      (∀ x ∈ log, x.touched → k.forest.weight x.after < k.forest.weight x.before) ∧
      log.countP RoundRecord.touched ≤ k.forest.weight base := by
  have hentry := Routine.entry_lt_of_check h
  constructor
  · obtain ⟨k, hfacts, hk⟩ := Routine.facts_total hentry
    obtain ⟨log, c, last, hlog, hfinish, hdesc⟩ := Rounds.finish_total hk
    exact ⟨k, log, c, last, hfacts, hlog, hfinish, fun x hx ht => hdesc.falls hx ht,
      Nat.le_trans (Nat.le_add_right _ _) hdesc.countP_add_le⟩
  · obtain ⟨base, changed, hbase, hentry', -⟩ := Routine.canonicalize_total hentry
    obtain ⟨k, hfacts, hk⟩ := Routine.facts_total hentry'
    obtain ⟨log, s, last, hlog, hsettle, hdesc⟩ :=
      Sweep.settle_total (s := .start k) hk (SummaryTable.empty_current k.forest base k)
    exact ⟨base, changed, k, log, s, last, hbase, hfacts, hlog, hsettle, fun x hx ht => hdesc.falls hx ht,
      Nat.le_trans (Nat.le_add_right _ _) hdesc.countP_add_le⟩

/-- A loop that retains and releases its argument on every trip, around a call that reads it. -/
def countedLoop : Routine where
  name := "counted_loop"
  params := [0, 1]
  blocks := [
    ⟨0, [], .jump 1⟩,
    ⟨1, [.retain 0 .strong, .call 2 1 [0] .readOnly, .release 0 .strong], .branch 1 1 2⟩,
    ⟨2, [.release 0 .strong], .ret 1⟩]
  entry := 0
  storage := [.reference, .trivial, .trivial]

theorem touching_rounds_lower_weight_countedLoop : countedLoop.check = .ok () ∧
    (∃ k log c last, countedLoop.facts = .ok k ∧ Rounds.Finishes k countedLoop log c last ∧
      Rounds.finish countedLoop k = .ok (c, last) ∧
      (∀ x ∈ log, x.touched → k.forest.weight x.after < k.forest.weight x.before) ∧
      log.countP RoundRecord.touched ≤ k.forest.weight countedLoop) ∧
    ∃ base changed k log s last, countedLoop.canonicalize = .ok (base, changed) ∧ base.facts = .ok k ∧
      Sweep.Settles k (.start k) base log s last ∧ (Sweep.start k).settle base k = .ok (s, last) ∧
      (∀ x ∈ log, x.touched → k.forest.weight x.after < k.forest.weight x.before) ∧
      log.countP RoundRecord.touched ≤ k.forest.weight base :=
  ⟨rfl, touching_rounds_lower_weight countedLoop rfl⟩

/-- A cache that holds nothing, or the facts of the routine. -/
def Cache.Serves (cache : Cache) (r : Routine) : Prop := ∀ k, cache.held = some k → r.facts = .ok k

theorem Cache.empty_serves (r : Routine) : Cache.empty.Serves r := fun _ hk => nomatch hk

theorem Cache.facts_total (hc : cache.Serves r) (h : r.entry < r.blocks.length) :
    ∃ k cache', cache.facts r = .ok (k, cache') ∧ r.facts = .ok k ∧ k.Sound r := by
  obtain ⟨k, hk, hsound⟩ := Routine.facts_total h
  rw [Cache.facts]
  cases hheld : cache.held with
  | some k' =>
    obtain rfl := Except.ok.inj ((hc k' hheld).symm.trans hk)
    exact ⟨k', cache, rfl, hk, hsound⟩
  | none =>
    refine ⟨k, { cache with held := some k }, ?_, hk, hsound⟩
    simp only [bind, Except.bind, hk]
    rfl

theorem Strategy.blockOnly_descends (hc : cache.Serves r) (h : r.entry < r.blocks.length) :
    ∃ k log c next cache', blockOnly.optimize r cache = .ok (next, cache', c.stats) ∧ r.facts = .ok k ∧ k.Sound r ∧
      Rounds.Finishes k r log c next ∧ k.Descends r .zero log next c.stats := by
  obtain ⟨k, cache', hfacts, hkr, hk⟩ := Cache.facts_total hc h
  obtain ⟨log, c, last, hlog, hfinish, hdesc⟩ := Rounds.finish_total hk
  refine ⟨k, log, c, last, cache', ?_, hkr, hk, hlog, hdesc⟩
  simp only [blockOnly, bind, Except.bind, hfacts, hfinish]
  rfl

theorem Strategy.loopAware_descends (hc : cache.Serves r) (h : r.entry < r.blocks.length) :
    ∃ base changed k log s next cache', r.canonicalize = .ok (base, changed) ∧ r.Widens base ∧
      (changed = false → base = r) ∧ loopAware.optimize r cache = .ok (next, cache', s.rounds.stats) ∧
      base.facts = .ok k ∧ k.Sound base ∧ Sweep.Settles k (.start k) base log s next ∧
      k.Descends base .zero log next s.rounds.stats := by
  obtain ⟨base, changed, hbase, hentry, hsame, hwide⟩ := Routine.canonicalize_total h
  have hserves : (if changed then cache.invalidate .flow else cache).Serves base := by
    cases changed with
    | true => exact fun k hk => by cases hk
    | false => exact hsame rfl ▸ hc
  obtain ⟨k, cache', hfacts, hkbase, hk⟩ := Cache.facts_total hserves hentry
  obtain ⟨log, s, last, hlog, hsettle, hdesc⟩ :=
    Sweep.settle_total (s := .start k) hk (SummaryTable.empty_current k.forest base k)
  refine ⟨base, changed, k, log, s, last, cache', hbase, hwide, hsame, ?_, hkbase, hk, hlog, hdesc⟩
  simp only [loopAware, bind, Except.bind, hbase, hfacts, hsettle]
  rfl

theorem Strategy.blockOnly_total (hc : cache.Serves r) (h : r.entry < r.blocks.length) :
    ∃ next cache' stats, blockOnly.optimize r cache = .ok (next, cache', stats) ∧ next.bare = r.bare := by
  obtain ⟨k, log, c, next, cache', hrun, -, -, -, hdesc⟩ := blockOnly_descends hc h
  exact ⟨next, cache', c.stats, hrun, hdesc.bare⟩

theorem Strategy.loopAware_total (hc : cache.Serves r) (h : r.entry < r.blocks.length) :
    ∃ base changed next cache' stats, r.canonicalize = .ok (base, changed) ∧
      loopAware.optimize r cache = .ok (next, cache', stats) ∧ next.bare = base.bare := by
  obtain ⟨base, changed, k, log, s, next, cache', hbase, -, -, hrun, -, -, -, hdesc⟩ := loopAware_descends hc h
  exact ⟨base, changed, next, cache', s.rounds.stats, hbase, hrun, hdesc.bare⟩

/-- The routine whose count operations a run moves: the given one, with canonical loops if the
strategy works on loops. A routine that is left alone keeps the loops it has. -/
def Config.base (config : Config) (r : Routine) : Except Fault Routine :=
  if !config.enabled || r.name.startsWith initializerMark then .ok r
  else if config.loops then Prod.fst <$> r.canonicalize
  else .ok r

/-- What a change of a routine, with the counts of the run that made it, makes stale. -/
def Routine.changeTo (r next : Routine) (stats : Stats) : Change :=
  if next.blocks.length ≠ r.blocks.length then .flow else if stats.changed then .instructions else .nothing

/-- The runs on a routine that keeps the contract, with their outcomes: it is left alone, or one
of the strategies drives rounds over it to their end. -/
inductive Runs (config : Config) (r : Routine) : Outcome → Routine → Prop where
  | skipped (h : !config.enabled || r.name.startsWith initializerMark) : Runs config r ⟨.zero, .nothing⟩ r
  | blockOnly {k : Facts} {log : List RoundRecord} {c : Rounds} {next : Routine}
      (h : ¬ (!config.enabled || r.name.startsWith initializerMark)) (hloops : config.loops = false)
      (hfacts : r.facts = .ok k) (hk : k.Sound r) (hlog : Rounds.Finishes k r log c next)
      (hdesc : k.Descends r .zero log next c.stats) : Runs config r ⟨c.stats, r.changeTo next c.stats⟩ next
  | loopAware {base next : Routine} {changed : Bool} {k : Facts} {log : List RoundRecord} {s : Sweep}
      (h : ¬ (!config.enabled || r.name.startsWith initializerMark)) (hloops : config.loops)
      (hbase : r.canonicalize = .ok (base, changed)) (hwide : r.Widens base) (hsame : changed = false → base = r)
      (hfacts : base.facts = .ok k) (hk : k.Sound base) (hlog : Sweep.Settles k (.start k) base log s next)
      (hdesc : k.Descends base .zero log next s.rounds.stats) :
      Runs config r ⟨s.rounds.stats, r.changeTo next s.rounds.stats⟩ next

theorem run_total (config : Config) (h : r.check = .ok ()) (hc : cache.Serves r) : ∃ outcome next cache',
    run config config.strategy r cache = .ok (outcome, next, cache') ∧ Runs config r outcome next := by
  have hentry := Routine.entry_lt_of_check h
  simp only [run, h]
  split
  · exact ⟨_, r, cache, rfl, .skipped ‹_›⟩
  · rename_i hon
    rw [Config.strategy]
    by_cases hloops : config.loops
    · obtain ⟨base, changed, k, log, s, next, cache', hbase, hwide, hsame, hrun, hfacts, hk, hlog, hdesc⟩ :=
        Strategy.loopAware_descends hc hentry
      rw [if_pos hloops, hrun]
      exact ⟨_, next, _, rfl, .loopAware hon hloops hbase hwide hsame hfacts hk hlog hdesc⟩
    · obtain ⟨k, log, c, next, cache', hrun, hfacts, hk, hlog, hdesc⟩ := Strategy.blockOnly_descends hc hentry
      rw [if_neg hloops, hrun]
      exact ⟨_, next, _, rfl, .blockOnly hon (by simpa using hloops) hfacts hk hlog hdesc⟩

/-- Every run is a number of rounds on its base, with the facts of the base. -/
theorem Runs.descends {config : Config} {outcome : Outcome} {next : Routine} (h : Runs config r outcome next)
    (hentry : r.entry < r.blocks.length) : ∃ base k log, config.base r = .ok base ∧ r.Widens base ∧
      base.facts = .ok k ∧ k.Sound base ∧ k.Descends base .zero log next outcome.stats := by
  cases h with
  | skipped h =>
    obtain ⟨k, hfacts, hk⟩ := Routine.facts_total hentry
    exact ⟨r, k, [], by rw [Config.base, if_pos h], .refl r, hfacts, hk, .nil r _⟩
  | blockOnly h hloops hfacts hk _ hdesc =>
    exact ⟨r, _, _, by rw [Config.base, if_neg h, hloops]; rfl, .refl r, hfacts, hk, hdesc⟩
  | loopAware h hloops hbase hwide _ hfacts hk _ hdesc =>
    exact ⟨_, _, _, by rw [Config.base, if_neg h, if_pos hloops, hbase]; rfl, hwide, hfacts, hk, hdesc⟩

/-- A run moves count operations and nothing else: without them, the routine is the one that it
started from, with the same name, parameters, storage, entry, blocks, terminators and, block
by block, the same other instructions in the same order. -/
theorem run_moves_counts_only (config : Config) (r : Routine) (cache : Cache) (h : r.check = .ok ())
    (hc : cache.Serves r) : ∃ base outcome next cache', config.base r = .ok base ∧
      run config config.strategy r cache = .ok (outcome, next, cache') ∧ next.bare = base.bare := by
  have hentry := Routine.entry_lt_of_check h
  simp only [run, h, Config.base]
  split
  · exact ⟨r, _, r, cache, rfl, rfl, rfl⟩
  · rw [Config.strategy]
    split
    · obtain ⟨base, changed, next, cache', stats, hbase, hrun, hbare⟩ := Strategy.loopAware_total hc hentry
      rw [hbase, hrun]
      exact ⟨base, _, next, _, rfl, rfl, hbare⟩
    · obtain ⟨next, cache', stats, hrun, hbare⟩ := Strategy.blockOnly_total hc hentry
      rw [hrun]
      exact ⟨r, _, next, _, rfl, rfl, hbare⟩

theorem run_moves_counts_only_countedLoop : countedLoop.check = .ok () ∧ Cache.empty.Serves countedLoop ∧
    ∃ base outcome next cache', Config.default.base countedLoop = .ok base ∧
      run .default Config.default.strategy countedLoop .empty = .ok (outcome, next, cache') ∧
      next.bare = base.bare :=
  ⟨rfl, Cache.empty_serves _, run_moves_counts_only .default countedLoop .empty rfl (Cache.empty_serves _)⟩

/-- The initializer of a global, with a loop that has no preheader and shares its exit. -/
def loopInInitializer : Routine where
  name := "globalinit_x"
  params := [0]
  blocks := [⟨0, [], .branch 0 1 2⟩, ⟨1, [], .branch 0 1 2⟩, ⟨2, [], .ret 0⟩]
  entry := 0
  storage := [.trivial]

/-- A run of the loop-aware strategy need not leave the blocks that canonical loops have. -/
theorem run_leaves_initializer_loops : loopInInitializer.check = .ok () ∧ Config.default.strategy.name = "loop-aware" ∧
    ∃ base, loopInInitializer.canonicalize = .ok (base, true) ∧ base.blocks.length = 5 ∧
      ∃ outcome next cache, run .default Config.default.strategy loopInInitializer .empty = .ok (outcome, next, cache) ∧
        next.blocks.length = 3 ∧ next.bare ≠ base.bare := by
  let canonical : Routine := { loopInInitializer with
    blocks := [⟨0, [], .branch 0 3 2⟩, ⟨1, [], .branch 0 1 4⟩, ⟨2, [], .ret 0⟩, ⟨3, [], .jump 1⟩, ⟨4, [], .jump 2⟩] }
  have hcanonical : loopInInitializer.canonicalize = .ok (canonical, true) := by decide +kernel
  have hrun : run .default Config.default.strategy loopInInitializer .empty =
      .ok (⟨.zero, .nothing⟩, loopInInitializer, .empty) := by decide +kernel
  exact ⟨rfl, rfl, canonical, hcanonical, rfl, _, _, _, hrun, rfl, by decide⟩

end CountMotion
