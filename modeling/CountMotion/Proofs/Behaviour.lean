import CountMotion.Proofs.PassEffect
import CountMotion.Proofs.RegionRounds
import CountMotion.Proofs.Rerouting

/-! What runs show before and after the pass. -/
namespace CountMotion

namespace Routine

variable {r : Routine} {script : List Bool} {n : Nat} {c : Stage}

/-- What holds at the start of the blocks, and is enough to run them, holds on every script. -/
theorem safe_of_invariant (inv : BlockId → Memory → Prop) (start : inv r.entry r.boot)
    (step : ∀ b m, inv b m → (∀ i ≤ (r.codeAt b).body.length, ∃ m', m.execAll ((r.codeAt b).body.take i) = .ok m' ∧
      r.Tidy m') ∧ ∀ m', m.execAll (r.codeAt b).body = .ok m' → ∀ t ∈ (r.codeAt b).term.targets, inv t m') :
    r.Safe := by
  suffices h : ∀ script n c, r.play script n = .ok (.inl c) → inv c.block c.mem from
    fun script n c hc => (step c.block c.mem (h script n c hc)).1
  intro script n
  induction n with
  | zero =>
    rintro c hc
    cases hc
    exact start
  | succ n ih =>
    intro c hc
    obtain ⟨c', hc', hadv⟩ := of_play_succ hc
    obtain ⟨hexec, hgo⟩ := of_advance hadv
    exact (step c'.block c'.mem (ih c' hc')).2 c.mem hexec c.block (Terminator.mem_targets_of_go hgo)

theorem not_yields_of_error {o : ObjId} (h : r.play script n = .error o) (events : List Event) :
    ¬ r.Yields script events := by
  have hstays : ∀ {x : Except ObjId (Stage ⊕ List Event)} {k : Nat}, r.play script k = x →
      (∀ c, x ≠ .ok (.inl c)) → ∀ j, r.play script (k + j) = x := by
    intro x k hk hx j
    induction j with
    | zero => exact hk
    | succ j ih =>
      rw [← Nat.add_assoc, play, ih]
      cases x with
      | error o => rfl
      | ok x =>
        cases x with
        | inl c => exact absurd rfl (hx c)
        | inr events => rfl
  rintro ⟨k, hk⟩
  have herror := hstays h (fun _ hc => by cases hc) k
  have hends := hstays hk (fun _ hc => by cases hc) n
  rw [Nat.add_comm] at hends
  cases herror.symm.trans hends

theorem ssa_of_params (once : r.Once)
    (used : ∀ x ∈ r.blocks, ∀ v ∈ x.body.flatMap Instr.operands ++ x.term.operands, v ∈ r.params) : r.SSA := by
  refine .of_local once fun x hx => ⟨fun n hn v hv => ?_, fun v hv => ?_⟩
  · have hmem := List.mem_flatMap.mpr ⟨_, List.getElem_mem hn, hv⟩
    exact List.mem_append_left _ (used x hx v (List.mem_append_left _ hmem))
  · exact List.mem_append_left _ (used x hx v (List.mem_append_right _ hv))

end Routine

/-- Two branches that retain an argument. They lead to a release, which goes back to a header, or
to the end. -/
def retainedTwice (next header : BlockId) : Routine where
  name := "retained_twice"
  params := [0, 1]
  blocks := [
    ⟨0, [], .branch 1 1 2⟩,
    ⟨1, [.retain 0 .strong, .call 2 1 [0] .readOnly], .branch 1 3 4⟩,
    ⟨2, [.retain 0 .strong, .call 3 1 [0] .readOnly], .jump next⟩,
    ⟨3, [.release 0 .strong], .jump header⟩,
    ⟨4, [.release 0 .strong, .release 0 .strong], .ret 1⟩]
  entry := 0
  storage := [.reference, .trivial, .trivial, .trivial]

section Argument

private def argument (n : Nat) (events : List Event) : Memory :=
  ⟨[⟨n, []⟩], fun v => if v = 0 then some 0 else none, events⟩

private inductive Counts : Nat → List Instr → Nat → Prop where
  | nil (n : Nat) : Counts n [] n
  | cons {n k l : Nat} {i : Instr} {rest : List Instr}
      (h : ∀ events, ∃ events', (argument n events).exec i = .ok (argument k events')) (hrest : Counts k rest l) :
      Counts n (i :: rest) l

private theorem Counts.retain {n l : Nat} {kind : CountKind} {rest : List Instr} (h : Counts (n + 2) rest l) :
    Counts (n + 1) (.retain 0 kind :: rest) l := .cons (fun events => ⟨events, rfl⟩) h

private theorem Counts.release {n l : Nat} {kind : CountKind} {rest : List Instr} (h : Counts n rest l) :
    Counts (n + 1) (.release 0 kind :: rest) l := by
  refine .cons (fun events => ?_) h
  cases n with
  | zero =>
    refine ⟨events ++ [.dealloc 0], ?_⟩
    simp [Memory.exec, bind, Except.bind, Memory.live, Memory.drop, argument, Memory.count, Memory.setCount,
      Memory.fields, Memory.emit]
  | succ n =>
    refine ⟨events, ?_⟩
    simp [Memory.exec, bind, Except.bind, Memory.live, Memory.drop, argument, Memory.count, Memory.setCount]

private theorem Counts.call {n l dst callee : Nat} {rest : List Instr} (h : Counts (n + 1) rest l) :
    Counts (n + 1) (.call (dst + 1) callee [0] .readOnly :: rest) l := by
  refine .cons (fun events => ⟨events ++ [.call callee [0]], ?_⟩) h
  have henv : (fun v => if v = dst + 1 then none else if v = 0 then some 0 else none) =
      fun v : Var => if v = 0 then some 0 else none := by
    funext v
    split
    · rename_i hv
      rw [hv, if_neg (Nat.succ_ne_zero dst)]
    · rfl
  simp [Memory.exec, bind, Except.bind, pure, Except.pure, Memory.lives, Memory.live, argument, Memory.count,
    Memory.emit, Memory.hold, henv]

private theorem Counts.execAll {n l : Nat} {body : List Instr} (h : Counts n body l) (events : List Event) :
    (∀ i, ∃ k events', (argument n events).execAll (body.take i) = .ok (argument k events')) ∧
      ∃ events', (argument n events).execAll body = .ok (argument l events') := by
  induction h generalizing events with
  | nil n => exact ⟨fun i => ⟨n, events, by rw [List.take_nil]; rfl⟩, events, rfl⟩
  | @cons n k l i rest h _ ih =>
    obtain ⟨mid, hmid⟩ := h events
    obtain ⟨hall, last, hlast⟩ := ih mid
    have hcons : ∀ body, (argument n events).execAll (i :: body) = (argument k mid).execAll body := by
      intro body
      rw [Memory.execAll, List.foldlM_cons, hmid]
      rfl
    refine ⟨fun j => ?_, last, (hcons rest).trans hlast⟩
    cases j with
    | zero => exact ⟨n, events, rfl⟩
    | succ j =>
      obtain ⟨k', events', hj⟩ := hall j
      exact ⟨k', events', (hcons (rest.take j)).trans hj⟩

theorem retainedTwice_safe {next header : BlockId} (hn : next = 3 ∨ next = 4) (hh : header = 0 ∨ header = 1) :
    (retainedTwice next header).Safe := by
  have htidy : ∀ n events, (retainedTwice next header).Tidy (argument n events) := by
    intro n events v hv
    refine if_neg ?_
    rintro rfl
    cases hv
  have hblock : ∀ b ≤ 4, ∃ l, Counts (if b < 3 then 1 else 2) ((retainedTwice next header).codeAt b).body l ∧
      ∀ t ∈ ((retainedTwice next header).codeAt b).term.targets, t ≤ 4 ∧ l = if t < 3 then 1 else 2 := by
    intro b hb
    match b, hb with
    | 0, _ => exact ⟨1, .nil 1, show ∀ t ∈ [1, 2], _ by decide⟩
    | 1, _ => exact ⟨2, .retain (.call (.nil 2)), show ∀ t ∈ [3, 4], _ by decide⟩
    | 2, _ =>
      refine ⟨2, .retain (.call (.nil 2)), fun t ht => ?_⟩
      obtain rfl := List.mem_singleton.mp ht
      rcases hn with rfl | rfl <;> decide
    | 3, _ =>
      refine ⟨1, .release (.nil 1), fun t ht => ?_⟩
      obtain rfl := List.mem_singleton.mp ht
      rcases hh with rfl | rfl <;> decide
    | 4, _ => exact ⟨0, .release (.release (.nil 0)), fun _ ht => absurd ht List.not_mem_nil⟩
  refine Routine.safe_of_invariant
    (fun b m => b ≤ 4 ∧ ∃ events, m = argument (if b < 3 then 1 else 2) events) ⟨Nat.zero_le 4, [], ?_⟩ ?_
  · simp [Routine.boot, retainedTwice, Routine.receive, Memory.alloc, Memory.hold, Storage.counted, argument]
  · rintro b m ⟨hb, events, rfl⟩
    obtain ⟨l, hcounts, htargets⟩ := hblock b hb
    obtain ⟨hall, last, hlast⟩ := hcounts.execAll events
    refine ⟨fun i _ => ?_, fun m' hm' t ht => ?_⟩
    · obtain ⟨k, events', hk⟩ := hall i
      exact ⟨_, hk, htidy k events'⟩
    · obtain rfl := Except.ok.inj (hlast.symm.trans hm')
      obtain ⟨ht4, rfl⟩ := htargets t ht
      exact ⟨ht4, last, rfl⟩

end Argument

private def breaksOn (config : Config) (r : Routine) (script : List Bool) (n : Nat) : Bool :=
  match r.play script n, run config config.strategy r .empty with
  | .ok (.inr _), .ok (_, next, _) =>
    match next.play script n with
    | .error _ => true
    | .ok _ => false
  | _, _ => false

private theorem of_breaksOn {config : Config} {r : Routine} {script : List Bool} {n : Nat}
    (h : breaksOn config r script n) : ∃ script events outcome next cache, r.Yields script events ∧
      run config config.strategy r .empty = .ok (outcome, next, cache) ∧ ¬ next.Yields script events := by
  rw [breaksOn] at h
  split at h
  · rename_i events outcome next cache hends hrun
    split at h
    · exact ⟨script, events, outcome, next, cache, ⟨n, hends⟩, hrun, Routine.not_yields_of_error ‹_› events⟩
    · cases h
  · cases h

private theorem retainedTwice_ssa {next header : BlockId} : (retainedTwice next header).SSA :=
  Routine.ssa_of_params (show [0, 1, 2, 3].Nodup by decide) (by simp [retainedTwice, Instr.operands, Terminator.operands])

/-- The rounds over the whole routine keep what runs show if the retains of each root are even. -/
theorem blockOnly_keeps_behaviour (config : Config) (r : Routine) (cache : Cache) (hloops : config.loops = false)
    (h : r.check = .ok ()) (hc : cache.Serves r) (hssa : r.SSA) (hsafe : r.Safe) (heven : r.Even) :
    ∃ outcome next cache', run config config.strategy r cache = .ok (outcome, next, cache') ∧ next.Safe ∧
      ∀ script events, r.Yields script events → next.Yields script events := by
  obtain ⟨outcome, next, cache', hrun, hruns⟩ := run_total config h hc
  refine ⟨outcome, next, cache', hrun, ?_⟩
  have hlawful := Routine.lawful_of_check h fun _ => False
  cases hruns with
  | skipped _ => exact ⟨hsafe, fun _ _ => id⟩
  | blockOnly _ _ hfacts _ hlog _ =>
    obtain ⟨k, hk, hdescribes⟩ := Routine.facts_describe hlawful.entry hlawful.numbered
    obtain rfl := Except.ok.inj (hk.symm.trans hfacts)
    have hkeeps := hlog.keeps ⟨hdescribes, hlawful.proper hssa hsafe, heven⟩
    exact ⟨hkeeps.fit.proper.safe, fun _ _ => hkeeps.yields⟩
  | loopAware _ hon =>
    rw [hloops] at hon
    cases hon

private theorem retainedTwice_even : (retainedTwice 3 0).Even := by
  have hnext : ∀ {a d}, (retainedTwice 3 0).flow.Edge a d → a = 0 ∨ d = 0 ∨ d = 3 ∨ d = 4 := fun {a d} he =>
    have hall : ∀ a < 5, ∀ d ∈ ((retainedTwice 3 0).codeAt a).term.targets, a = 0 ∨ d = 0 ∨ d = 3 ∨ d = 4 := by decide
    hall a he.lt_size d (Routine.mem_targets_of_edge he)
  have hplace : ∀ {root b}, (retainedTwice 3 0).Retains root b → b = 1 ∨ b = 2 := by
    rintro root b ⟨v, kind, hi, -⟩
    match b with
    | 0 => cases hi
    | 1 => exact .inl rfl
    | 2 => exact .inr rfl
    | 3 => simp [retainedTwice, Routine.codeAt] at hi
    | 4 => simp [retainedTwice, Routine.codeAt] at hi
    | b + 5 => cases hi
  intro root a b d ha hb _ _ he hp
  have hpath : ∀ {n}, (retainedTwice 3 0).flow.Path (· ≠ 0) d n → n = 3 ∨ n = 4 := by
    intro n hp
    induction hp with
    | here hd =>
      rcases hnext he with rfl | rfl | hd'
      · exact absurd (hplace ha) (by decide)
      · exact absurd rfl hd
      · exact hd'
    | snoc _ he hn ih =>
      rcases hnext he with rfl | rfl | hn'
      · exact absurd ih (by decide)
      · exact absurd rfl hn
      · exact hn'
  have hends := hpath (hp.mono fun n hn => ?_)
  · rcases hplace ha with rfl | rfl <;> exact absurd hends (by decide)
  · rintro rfl
    exact hn ⟨Graph.Dominates.of_entry _ _ _, Graph.Dominates.of_entry _ _ _⟩

theorem blockOnly_keeps_behaviour_retainedTwice : (retainedTwice 3 0).check = .ok () ∧
    Cache.empty.Serves (retainedTwice 3 0) ∧ (retainedTwice 3 0).SSA ∧ (retainedTwice 3 0).Safe ∧
    (retainedTwice 3 0).Even ∧ ∃ outcome next cache,
      run ⟨true, false⟩ (Config.strategy ⟨true, false⟩) (retainedTwice 3 0) .empty = .ok (outcome, next, cache) ∧
      next.Safe ∧ ∀ script events, (retainedTwice 3 0).Yields script events → next.Yields script events :=
  have hsafe := retainedTwice_safe (.inl rfl) (.inl rfl)
  ⟨rfl, Cache.empty_serves _, retainedTwice_ssa, hsafe, retainedTwice_even,
    blockOnly_keeps_behaviour ⟨true, false⟩ _ .empty rfl rfl (Cache.empty_serves _) retainedTwice_ssa hsafe retainedTwice_even⟩

/-- Retains of which one stands in a loop are merged as well. Then it runs once, and the releases
of the loop run as often as before. -/
theorem blockOnly_breaks_behaviour : (retainedTwice 4 1).check = .ok () ∧ (retainedTwice 4 1).SSA ∧
    (retainedTwice 4 1).Safe ∧ ∃ script events outcome next cache, (retainedTwice 4 1).Yields script events ∧
      run ⟨true, false⟩ (Config.strategy ⟨true, false⟩) (retainedTwice 4 1) .empty = .ok (outcome, next, cache) ∧
      ¬ next.Yields script events :=
  ⟨rfl, retainedTwice_ssa, retainedTwice_safe (.inr rfl) (.inr rfl),
    of_breaksOn (show breaksOn ⟨true, false⟩ (retainedTwice 4 1) [true, true, false] 5 by decide +kernel)⟩

/-- The rounds in the loops and around them keep what runs show if all cycles are natural loops and,
once these are canonical, the routine does not start in one. -/
theorem loopAware_keeps_behaviour (config : Config) (r : Routine) (cache : Cache) (hloops : config.loops = true)
    (h : r.check = .ok ()) (hc : cache.Serves r) (hssa : r.SSA) (hsafe : r.Safe)
    (hred : r.flow.Reducible r.entry fun _ => True)
    (hstart : ∀ base changed, r.canonicalize = .ok (base, changed) → ¬ base.flow.Header base.entry base.entry) :
    ∃ outcome next cache', run config config.strategy r cache = .ok (outcome, next, cache') ∧ next.Safe ∧
      ∀ script events, r.Yields script events → next.Yields script events := by
  obtain ⟨outcome, next, cache', hrun, hruns⟩ := run_total config h hc
  refine ⟨outcome, next, cache', hrun, ?_⟩
  cases hruns with
  | skipped _ => exact ⟨hsafe, fun _ _ => id⟩
  | blockOnly _ hoff =>
    rw [hloops] at hoff
    cases hoff
  | loopAware _ _ hbase _ _ hfacts _ hlog _ =>
    have hready := Routine.canonicalize_keeps ⟨Routine.lawful_of_check h _, hssa, hsafe, hred⟩ hbase
    obtain ⟨hlawful, hssa', hsafe', hred'⟩ := hready.fit
    obtain ⟨k, hk, hdescribes⟩ := Routine.facts_describe hlawful.entry hlawful.numbered
    obtain rfl := Except.ok.inj (hk.symm.trans hfacts)
    have hkeeps := hlog.keeps ⟨hdescribes, hlawful.proper hssa' hsafe', hred', hstart _ _ hbase⟩
      (SummaryTable.empty_fresh k _)
    exact ⟨hkeeps.fit.proper.safe, fun _ _ hy => hkeeps.yields (hready.yields hy)⟩

private theorem retainedTwice_reducible : (retainedTwice 3 0).flow.Reducible 0 fun _ => True := by
  refine ⟨id, fun a b _ _ he => ?_⟩
  have hall : ∀ a < 5, ∀ b ∈ ((retainedTwice 3 0).codeAt a).term.targets, b = 0 ∨ a < b := by decide
  rcases hall a he.lt_size b (Routine.mem_targets_of_edge he) with rfl | hlt
  · exact .inl (.of_entry _ _ _)
  · exact .inr hlt

private theorem retainedTwice_starts (base : Routine) (changed : Bool)
    (h : (retainedTwice 3 0).canonicalize = .ok (base, changed)) : ¬ base.flow.Header base.entry base.entry := by
  have hall : ∀ x ∈ (retainedTwice 3 0).canonicalize.toOption, ∀ b < x.1.blocks.length,
      x.1.entry ∉ (x.1.codeAt b).term.targets := by
    decide +kernel
  rw [h] at hall
  rintro ⟨l, hl⟩
  exact hall _ rfl l (Routine.size_flow ▸ hl.edge.lt_size) (Routine.mem_targets_of_edge hl.edge)

theorem loopAware_keeps_behaviour_retainedTwice : (retainedTwice 3 0).check = .ok () ∧
    Cache.empty.Serves (retainedTwice 3 0) ∧ (retainedTwice 3 0).SSA ∧ (retainedTwice 3 0).Safe ∧
    (retainedTwice 3 0).flow.Reducible 0 (fun _ => True) ∧
    (∀ base changed, (retainedTwice 3 0).canonicalize = .ok (base, changed) → ¬ base.flow.Header base.entry base.entry) ∧
    ∃ outcome next cache,
      run .default Config.default.strategy (retainedTwice 3 0) .empty = .ok (outcome, next, cache) ∧
      next.Safe ∧ ∀ script events, (retainedTwice 3 0).Yields script events → next.Yields script events :=
  have hsafe := retainedTwice_safe (.inl rfl) (.inl rfl)
  ⟨rfl, Cache.empty_serves _, retainedTwice_ssa, hsafe, retainedTwice_reducible, retainedTwice_starts,
    loopAware_keeps_behaviour .default _ .empty rfl rfl (Cache.empty_serves _) retainedTwice_ssa hsafe
      retainedTwice_reducible retainedTwice_starts⟩

/-- A cycle with two entries is no loop of the forest, and the same merge is made. -/
theorem loopAware_breaks_behaviour : (retainedTwice 3 1).check = .ok () ∧ (retainedTwice 3 1).SSA ∧
    (retainedTwice 3 1).Safe ∧ ∃ script events outcome next cache, (retainedTwice 3 1).Yields script events ∧
      run .default Config.default.strategy (retainedTwice 3 1) .empty = .ok (outcome, next, cache) ∧
      ¬ next.Yields script events :=
  ⟨rfl, retainedTwice_ssa, retainedTwice_safe (.inl rfl) (.inr rfl),
    of_breaksOn (show breaksOn .default (retainedTwice 3 1) [true, true, false] 5 by decide +kernel)⟩

end CountMotion
