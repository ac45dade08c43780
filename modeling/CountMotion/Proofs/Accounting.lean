import CountMotion.Proofs.PassEffect

/-! The counts that a run reports: what they say of the operations before and after is exact. -/
namespace CountMotion

variable {r next base last : Routine} {k : Facts} {xs : List Exchange} {a b c : Stats} {touched : Bool}
  {log : List RoundRecord}

namespace Routine

theorem countOps_detoured (r : Routine) (target : Nat) (sources : List Nat) :
    (r.detoured target sources).countOps = r.countOps := by
  have hbody : ∀ bs : List Block, tally Block.countOps bs =
      tally (fun y => y.2.countP Instr.isCount) (bs.map fun x => (x.id, x.body)) := by
    intro bs
    rw [tally_map]
    rfl
  rw [countOps, countOps, hbody, bodies_detoured, tally_append, ← hbody]
  rfl

theorem Widens.countOps (h : r.Widens base) : base.countOps = r.countOps := by
  induction h with
  | refl => rfl
  | step hd _ ih =>
    obtain ⟨target, sources, -, rfl | ⟨-, rfl⟩⟩ := hd.detoured
    · exact ih.trans (countOps_detoured ..)
    · exact ih.trans (countOps_detoured ..)

end Routine

namespace Facts

/-- A round takes out and puts in what its exchanges name. -/
theorem Round.countOps_eq (h : k.Round r a xs next b touched) :
    next.countOps + (xs.flatMap Exchange.removed).length = r.countOps + (xs.flatMap Exchange.added).length := by
  have hweigh := h.edits_fit.weigh_applied fun _ => 1
  rw [tally_one, tally_one, ← h.next_eq, ← Routine.countOps_eq_weigh, ← Routine.countOps_eq_weigh] at hweigh
  rw [← Exchange.map_edits_inserts xs r, List.length_map]
  exact hweigh

theorem Round.length_added_le (h : k.Round r a xs next b touched) :
    (xs.flatMap Exchange.added).length ≤ (xs.flatMap Exchange.removed).length := by
  have hpays := h.pays
  clear h
  induction xs with
  | nil => exact Nat.le_refl 0
  | cons x xs ih =>
    simp only [List.flatMap_cons, List.length_append]
    exact Nat.add_le_add (hpays x (.head _)) (ih fun y hy => hpays y (.tail _ hy))

/-- Over any number of rounds, what went out and what came in make up the difference. -/
theorem Descends.accounts (h : k.Descends r a log last c) :
    last.countOps + c.removed + a.moved = r.countOps + c.moved + a.removed := by
  induction h with
  | nil r a => omega
  | cons hr _ ih =>
    have hcount := hr.countOps_eq
    have hmoved := hr.moved
    have hremoved := hr.removed
    omega

theorem Descends.countOps_le (h : k.Descends r a log last c) : last.countOps ≤ r.countOps := by
  induction h with
  | nil => exact Nat.le_refl _
  | cons hr _ ih =>
    have hcount := hr.countOps_eq
    have hpays := hr.length_added_le
    omega

end Facts

/-- The reported counts are exact: the operations left and those removed are together the
operations at the start and those put in, and no run adds to their number. -/
theorem run_accounts_exactly (config : Config) (r : Routine) (cache : Cache) (h : r.check = .ok ())
    (hc : cache.Serves r) : ∃ outcome next cache', run config config.strategy r cache = .ok (outcome, next, cache') ∧
      next.countOps + outcome.stats.removed = r.countOps + outcome.stats.moved ∧ next.countOps ≤ r.countOps := by
  obtain ⟨outcome, next, cache', hrun, hruns⟩ := run_total config h hc
  obtain ⟨base, k, log, -, hwide, -, -, hdesc⟩ := hruns.descends (Routine.entry_lt_of_check h)
  rw [← hwide.countOps]
  exact ⟨outcome, next, cache', hrun, hdesc.accounts, hdesc.countOps_le⟩

theorem run_accounts_exactly_countedLoop : countedLoop.check = .ok () ∧ Cache.empty.Serves countedLoop ∧
    ∃ outcome next cache', run .default Config.default.strategy countedLoop .empty = .ok (outcome, next, cache') ∧
      next.countOps + outcome.stats.removed = countedLoop.countOps + outcome.stats.moved ∧
      next.countOps ≤ countedLoop.countOps :=
  ⟨rfl, Cache.empty_serves _, run_accounts_exactly .default countedLoop .empty rfl (Cache.empty_serves _)⟩

end CountMotion
