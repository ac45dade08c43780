import CountMotion.Proofs.PassEffect

/-! Runs that share a cache: what each reports is what it changed, and the cache never holds
facts of another routine. -/
namespace CountMotion

variable {r base next last : Routine} {k : Facts} {cache cache' : Cache} {a b c : Stats} {xs : List Exchange}
  {touched : Bool} {log : List RoundRecord} {config : Config} {outcome : Outcome}

namespace Facts

theorem Round.removed_lt (h : k.Round r a xs next b touched) (ht : touched) : a.removed < b.removed := by
  obtain ⟨x, hx⟩ := List.exists_mem_of_ne_nil xs (h.ne_nil ht)
  have hne : x.removed ≠ [] := by
    intro hnil
    have hlow := h.lowers x hx
    rw [Exchange.Lowers, hnil] at hlow
    exact Nat.not_lt_zero _ hlow
  have hpos : 0 < (xs.flatMap Exchange.removed).length :=
    List.length_pos_of_mem (List.mem_flatMap.mpr ⟨x, hx, List.head_mem hne⟩)
  rw [h.removed]
  exact Nat.lt_add_of_pos_right hpos

/-- Rounds leave the routine and their counts as they are, or lower the weight and count it. -/
theorem Descends.still_or_falls (h : k.Descends r a log last c) :
    last = r ∧ c.moved = a.moved ∧ c.removed = a.removed ∨
      k.forest.weight last < k.forest.weight r ∧ a.removed < c.removed := by
  induction h with
  | nil => exact .inl ⟨rfl, rfl, rfl⟩
  | @cons r next last a b c xs touched log hr _ ih =>
    cases touched with
    | false =>
      obtain rfl := hr.eq_nil rfl
      rw [hr.same rfl, hr.moved, hr.removed] at ih
      exact ih
    | true =>
      have hfalls := hr.falls rfl
      have hcounts := hr.removed_lt rfl
      rcases ih with ⟨rfl, -, hremoved⟩ | ⟨hlt, hmore⟩
      · exact .inr ⟨hfalls, hremoved ▸ hcounts⟩
      · exact .inr ⟨Nat.lt_trans hlt hfalls, Nat.lt_trans hcounts hmore⟩

theorem Descends.changed_iff (h : k.Descends r .zero log last c) : c.changed ↔ last ≠ r := by
  simp only [Stats.changed, Bool.or_eq_true, decide_eq_true_eq]
  rcases h.still_or_falls with ⟨rfl, hmoved, hremoved⟩ | ⟨hlt, hremoved⟩
  · rw [hmoved, hremoved]
    simp [Stats.zero]
  · have hne : last ≠ r := by
      rintro rfl
      exact Nat.lt_irrefl _ hlt
    exact ⟨fun _ => hne, fun _ => .inr hremoved⟩

end Facts

namespace Routine

theorem Widens.eq_or_longer (h : r.Widens base) : base = r ∨ r.blocks.length < base.blocks.length := by
  induction h with
  | refl => exact .inl rfl
  | @step r wider base hd _ ih =>
    have hlength : wider.blocks.length = r.blocks.length + 1 := by
      obtain ⟨target, sources, -, rfl | ⟨-, rfl⟩⟩ := hd.detoured
      · exact length_detoured
      · exact length_detoured
    rcases ih with rfl | hlt
    · exact .inr (hlength ▸ Nat.lt_succ_self _)
    · exact .inr (by omega)

theorem changeTo_eq_flow {stats : Stats} : r.changeTo next stats = .flow ↔ next.blocks.length ≠ r.blocks.length := by
  rw [changeTo]
  split
  · exact iff_of_true rfl ‹_›
  · split
    · exact iff_of_false nofun ‹_›
    · exact iff_of_false nofun ‹_›

theorem changeTo_eq_nothing {stats : Stats} :
    r.changeTo next stats = .nothing ↔ next.blocks.length = r.blocks.length ∧ ¬ stats.changed := by
  rw [changeTo]
  split
  · exact iff_of_false nofun fun h => absurd h.1 ‹_›
  · split
    · exact iff_of_false nofun fun h => absurd ‹_› h.2
    · exact iff_of_true rfl ⟨Decidable.not_not.mp ‹_›, ‹_›⟩

end Routine

namespace Runs

theorem change_eq_flow (h : Runs config r outcome next) :
    outcome.change = .flow ↔ next.blocks.length ≠ r.blocks.length := by
  cases h with
  | skipped => exact iff_of_false nofun fun hne => hne rfl
  | blockOnly => exact Routine.changeTo_eq_flow
  | loopAware => exact Routine.changeTo_eq_flow

/-- Where the number of blocks stays, so does the flow, and the counts tell of every change of a body. -/
theorem change_eq_nothing (h : Runs config r outcome next) : outcome.change = .nothing ↔ next = r := by
  cases h with
  | skipped => exact iff_of_true rfl rfl
  | blockOnly _ _ _ _ _ hdesc =>
    rw [Routine.changeTo_eq_nothing, hdesc.changed_iff, not_not]
    exact ⟨fun h => h.2, fun h => ⟨by rw [h], h⟩⟩
  | @loopAware base next changed k log s _ _ _ hwide _ _ _ _ hdesc =>
    rw [Routine.changeTo_eq_nothing, hdesc.changed_iff, not_not]
    have hlength := Routine.length_of_bare hdesc.bare
    rcases hwide.eq_or_longer with rfl | hlt
    · exact ⟨fun h => h.2, fun h => ⟨by rw [h], h⟩⟩
    · refine iff_of_false (fun h => ?_) fun h => ?_
      · exact absurd h.1 (by omega)
      · subst h
        omega

theorem change_eq_instructions (h : Runs config r outcome next) :
    outcome.change = .instructions ↔ next ≠ r ∧ next.blocks.length = r.blocks.length := by
  have hlength : next.blocks.length = r.blocks.length ↔ outcome.change ≠ .flow := by
    rw [ne_eq, h.change_eq_flow, not_not]
  rw [ne_eq, ← h.change_eq_nothing, hlength]
  cases outcome.change <;> simp

end Runs

namespace Cache

theorem Serves.facts (hc : cache.Serves r) (h : cache.facts r = .ok (k, cache')) : cache'.Serves r := by
  rw [Cache.facts] at h
  cases hheld : cache.held with
  | some held =>
    rw [hheld] at h
    obtain ⟨-, rfl⟩ := Prod.mk.inj (Except.ok.inj h)
    exact hc
  | none =>
    rw [hheld] at h
    obtain ⟨k', hk, h⟩ := bind_eq_ok.mp h
    obtain ⟨-, rfl⟩ := Prod.mk.inj (Except.ok.inj h)
    intro k'' hk''
    rw [← Option.some.inj hk'']
    exact hk

theorem Serves.invalidate {change : Change} (h : change = .nothing → cache.Serves r) :
    (cache.invalidate change).Serves r := by
  rw [Cache.invalidate]
  split
  · exact h ‹_›
  · exact fun _ hk => nomatch hk

end Cache

namespace Strategy

theorem blockOnly_serves {stats : Stats} (hc : cache.Serves r)
    (h : blockOnly.optimize r cache = .ok (next, cache', stats)) : cache'.Serves r := by
  obtain ⟨⟨k, mid⟩, hfacts, h⟩ := bind_eq_ok.mp h
  obtain ⟨⟨c, last⟩, -, h⟩ := bind_eq_ok.mp h
  obtain ⟨-, rfl, -⟩ : last = next ∧ mid = cache' ∧ c.stats = stats := by simpa using Except.ok.inj h
  exact hc.facts hfacts

theorem loopAware_serves {stats : Stats} {changed : Bool} (hc : cache.Serves r)
    (hbase : r.canonicalize = .ok (base, changed)) (hsame : changed = false → base = r)
    (h : loopAware.optimize r cache = .ok (next, cache', stats)) : cache'.Serves base := by
  obtain ⟨⟨base', changed'⟩, hbase', h⟩ := bind_eq_ok.mp h
  obtain ⟨rfl, rfl⟩ := Prod.mk.inj (Except.ok.inj (hbase'.symm.trans hbase))
  obtain ⟨⟨k, mid⟩, hfacts, h⟩ := bind_eq_ok.mp h
  obtain ⟨⟨s, last⟩, -, h⟩ := bind_eq_ok.mp h
  obtain ⟨-, rfl, -⟩ : last = next ∧ mid = cache' ∧ s.rounds.stats = stats := by simpa using Except.ok.inj h
  refine Cache.Serves.facts ?_ hfacts
  cases changed' with
  | true => exact fun _ hk => nomatch hk
  | false => exact hsame rfl ▸ hc

end Strategy

/-- What a run that returns has done: nothing, or what its strategy does, which it reports to the cache. -/
theorem run_eq_ok {strategy : Strategy} (h : run config strategy r cache = .ok (outcome, next, cache')) :
    (!config.enabled || r.name.startsWith initializerMark) ∧ next = r ∧ cache' = cache ∨
      ¬ (!config.enabled || r.name.startsWith initializerMark) ∧ ∃ mid,
        strategy.optimize r cache = .ok (next, mid, outcome.stats) ∧ cache' = mid.invalidate outcome.change := by
  rw [run] at h
  split at h
  · cases h
  · split at h
    · obtain ⟨-, rfl, rfl⟩ : _ ∧ r = next ∧ cache = cache' := by simpa using Except.ok.inj h
      exact .inl ⟨‹_›, rfl, rfl⟩
    · split at h
      · cases h
      · rename_i hopt
        obtain ⟨rfl, rfl, rfl⟩ : _ ∧ _ = next ∧ _ = cache' := by simpa using Except.ok.inj h
        exact .inr ⟨‹_›, _, hopt, rfl⟩

theorem Runs.serves (hc : cache.Serves r) (h : Runs config r outcome next)
    (hrun : run config config.strategy r cache = .ok (outcome, next, cache')) : cache'.Serves next := by
  obtain ⟨-, rfl, rfl⟩ | ⟨hon, mid, hopt, rfl⟩ := run_eq_ok hrun
  · exact hc
  · refine .invalidate fun hnothing => ?_
    have hnext := h.change_eq_nothing.mp hnothing
    rw [hnext]
    cases h with
    | skipped hoff => exact absurd hoff hon
    | blockOnly _ hloops =>
      rw [Config.strategy, hloops] at hopt
      exact Strategy.blockOnly_serves hc hopt
    | loopAware _ hloops hbase hwide hsame _ _ _ hdesc =>
      rw [Config.strategy, if_pos hloops] at hopt
      have hserves := Strategy.loopAware_serves hc hbase hsame hopt
      have hlength := Routine.length_of_bare hdesc.bare
      rcases hwide.eq_or_longer with rfl | hlt
      · exact hserves
      · rw [hnext] at hlength
        omega

/-- A routine and the cache that all runs on it share. -/
structure Session where
  routine : Routine
  cache : Cache

/-- A call of the pass: what it found, what it reported and what it left. -/
structure CallRecord where
  before : Session
  report : Except Failure Outcome
  after : Session

namespace Session

/-- One run. A run that is refused tells what it leaves; a fault leaves nothing to go on with. -/
def call (s : Session) (config : Config) (strategy : Strategy) : CallRecord :=
  match run config strategy s.routine s.cache with
  | .ok (outcome, next, cache) => ⟨s, .ok outcome, ⟨next, cache⟩⟩
  | .error (.breach cause next cache) => ⟨s, .error (.breach cause next cache), ⟨next, cache⟩⟩
  | .error (.fault cause) => ⟨s, .error (.fault cause), s⟩

/-- Run after run, each on what the last one left. -/
def history (s : Session) : List (Config × Strategy) → List CallRecord
  | [] => []
  | (config, strategy) :: calls =>
    let record := s.call config strategy
    record :: record.after.history calls

def Fresh (s : Session) : Prop := s.cache.held = none ∨ ∃ k, s.cache.held = some k ∧ s.routine.facts = .ok k

theorem fresh_iff {s : Session} : s.Fresh ↔ s.cache.Serves s.routine := by
  rw [Fresh, Cache.Serves]
  cases s.cache.held with
  | none => simp
  | some k => simp

end Session

/-- A call that is refused leaves everything as it is. Any other reports what it changed, and
leaves a cache that is empty or holds the facts of what it left. -/
structure CallRecord.Honest (x : CallRecord) : Prop where
  fresh : x.after.Fresh
  refused : ∀ breach, x.before.routine.check = .error breach →
    x.report = .error (.breach breach x.after.routine x.after.cache) ∧ x.after = x.before
  reported : x.before.routine.check = .ok () → ∃ outcome, x.report = .ok outcome ∧
    (outcome.change = .nothing ↔ x.after.routine = x.before.routine) ∧
    (outcome.change = .flow ↔ x.after.routine.blocks.length ≠ x.before.routine.blocks.length) ∧
    (outcome.change = .instructions ↔ x.after.routine ≠ x.before.routine ∧
      x.after.routine.blocks.length = x.before.routine.blocks.length)

theorem Session.call_honest {s : Session} (hs : s.Fresh) (config : Config) : (s.call config config.strategy).Honest := by
  rw [fresh_iff] at hs
  cases hcheck : s.routine.check with
  | error breach =>
    have hrun : run config config.strategy s.routine s.cache = .error (.breach breach s.routine s.cache) := by
      rw [run, hcheck]
    have hcall : s.call config config.strategy = ⟨s, .error (.breach breach s.routine s.cache), s⟩ := by
      rw [call, hrun]
    rw [hcall]
    refine ⟨fresh_iff.mpr hs, fun breach' h => ?_, fun h => ?_⟩
    · rw [Except.error.inj (hcheck.symm.trans h)]
      exact ⟨rfl, rfl⟩
    · cases hcheck.symm.trans h
  | ok =>
    obtain ⟨outcome, next, cache, hrun, hruns⟩ := run_total config hcheck hs
    have hcall : s.call config config.strategy = ⟨s, .ok outcome, ⟨next, cache⟩⟩ := by rw [call, hrun]
    rw [hcall]
    refine ⟨fresh_iff.mpr (hruns.serves hs hrun), fun breach h => ?_, fun _ => ⟨outcome, rfl, ?_⟩⟩
    · cases hcheck.symm.trans h
    · exact ⟨hruns.change_eq_nothing, hruns.change_eq_flow, hruns.change_eq_instructions⟩

theorem Session.history_honest {s : Session} (hs : s.Fresh) {calls : List (Config × Strategy)}
    (hcalls : ∀ call ∈ calls, call.2 = .loopAware ∨ call.2 = .blockOnly) : ∀ x ∈ s.history calls, x.Honest := by
  induction calls generalizing s with
  | nil => exact fun x hx => absurd hx List.not_mem_nil
  | cons call calls ih =>
    obtain ⟨config, strategy⟩ := call
    have hhonest : (s.call config strategy).Honest := by
      rcases hcalls _ (.head _) with h | h
      · obtain rfl : strategy = .loopAware := h
        exact s.call_honest hs ⟨config.enabled, true⟩
      · obtain rfl : strategy = .blockOnly := h
        exact s.call_honest hs ⟨config.enabled, false⟩
    intro x hx
    rcases List.mem_cons.mp hx with rfl | hx
    · exact hhonest
    · exact ih hhonest.fresh (fun c hc => hcalls c (.tail _ hc)) x hx

/-- Whatever runs follow each other on one cache, from an empty one and any routine, each of them
reports what it changed, and the cache never holds facts of another routine. -/
theorem session_stays_honest (r : Routine) (calls : List (Config × Strategy))
    (hcalls : ∀ call ∈ calls, call.2 = .loopAware ∨ call.2 = .blockOnly) :
    ∀ x ∈ Session.history ⟨r, .empty⟩ calls, x.Honest :=
  Session.history_honest (.inl rfl) hcalls

theorem session_stays_honest_countedLoop :
    ((Session.history ⟨countedLoop, .empty⟩ [(.default, .loopAware), (.default, .blockOnly)]).map fun x =>
      x.report.map Outcome.change) = [.ok .instructions, .ok .nothing] ∧
    ∀ x ∈ Session.history ⟨countedLoop, .empty⟩ [(.default, .loopAware), (.default, .blockOnly)], x.Honest :=
  ⟨by decide +kernel, session_stays_honest countedLoop _ (by simp)⟩

end CountMotion
