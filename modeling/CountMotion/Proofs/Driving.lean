import CountMotion.Proofs.RoundEffect

/-! The loops that drive the rounds, as they run with nothing but their own conditions to stop
them. Each of them comes to an end, and with the result that the guarded functions compute. -/
namespace CountMotion

/-- A round of a run: the routine before and after it, and whether it touched a block. -/
structure RoundRecord where
  before : Routine
  after : Routine
  touched : Bool

variable {k : Facts} {r mid last : Routine} {log log' : List RoundRecord} {a b c : Stats}

/-- One record after the other, each of a round that starts where the last one ended, and with
its counts. -/
inductive Facts.Descends (k : Facts) : Routine → Stats → List RoundRecord → Routine → Stats → Prop where
  | nil (r : Routine) (a : Stats) : Descends k r a [] r a
  | cons {r next last : Routine} {a b c : Stats} {xs : List Exchange} {touched : Bool} {log : List RoundRecord}
      (h : k.Round r a xs next b touched) (rest : Descends k next b log last c) :
      Descends k r a (⟨r, next, touched⟩ :: log) last c

namespace Facts.Descends

theorem single {next : Routine} {xs : List Exchange} {touched : Bool} (h : k.Round r a xs next b touched) :
    k.Descends r a [⟨r, next, touched⟩] next b :=
  .cons h (.nil next b)

theorem append (h : k.Descends r a log mid b) (h' : k.Descends mid b log' last c) :
    k.Descends r a (log ++ log') last c := by
  induction h with
  | nil => exact h'
  | cons hr _ ih => exact .cons hr (ih h')

theorem bare (h : k.Descends r a log last c) : last.bare = r.bare := by
  induction h with
  | nil => rfl
  | cons hr _ ih => exact ih.trans hr.bare

theorem falls (h : k.Descends r a log last c) {x : RoundRecord} (hx : x ∈ log) (ht : x.touched) :
    k.forest.weight x.after < k.forest.weight x.before := by
  induction h with
  | nil => cases hx
  | cons hr _ ih =>
    rcases List.mem_cons.mp hx with rfl | hx
    · exact hr.falls ht
    · exact ih hx

/-- The rounds that touch a block are paid for by the weight at the start. -/
theorem countP_add_le (h : k.Descends r a log last c) :
    log.countP RoundRecord.touched + k.forest.weight last ≤ k.forest.weight r := by
  induction h with
  | nil => simp
  | @cons r next last a b c xs touched log hr _ ih =>
    rw [List.countP_cons]
    cases touched with
    | false =>
      rw [hr.same rfl] at ih
      simpa using ih
    | true =>
      have := hr.falls rfl
      simp only [if_true]
      omega

theorem weight_lt (h : k.Descends r a log last c) (ht : log.any RoundRecord.touched) :
    k.forest.weight last < k.forest.weight r := by
  have hpos : 0 < log.countP RoundRecord.touched := List.countP_pos_iff.mpr (List.any_eq_true.mp ht)
  have := h.countP_add_le
  omega

end Facts.Descends

/-- Rounds over the whole routine until one touches nothing. -/
inductive Rounds.Settles (k : Facts) (frozen : Bool) :
    Rounds → Routine → List RoundRecord → Rounds → Routine → Prop where
  | stop {c c' : Rounds} {r next : Routine} (h : c.run r k frozen = .ok (c', next, false)) :
      Settles k frozen c r [⟨r, next, false⟩] c' next
  | again {c mid c' : Rounds} {r next last : Routine} {log : List RoundRecord}
      (h : c.run r k frozen = .ok (mid, next, true)) (rest : Settles k frozen mid next log c' last) :
      Settles k frozen c r (⟨r, next, true⟩ :: log) c' last

/-- Unfrozen rounds, and then frozen ones if anything changed. -/
inductive Rounds.Finishes (k : Facts) (r : Routine) : List RoundRecord → Rounds → Routine → Prop where
  | quiet {c : Rounds} {last : Routine} {log : List RoundRecord} (h : Settles k false .start r log c last)
      (hc : c.changed = false) : Finishes k r log c last
  | changed {mid c : Rounds} {next last : Routine} {log log' : List RoundRecord}
      (h : Settles k false .start r log mid next) (hc : mid.changed)
      (rest : Settles k true mid next log' c last) : Finishes k r (log ++ log') c last

namespace Rounds

theorem settle_total (hk : k.Sound r) (c : Rounds) (frozen : Bool) : ∃ log c' last,
    Settles k frozen c r log c' last ∧ c.settle r k frozen = .ok (c', last) ∧
      k.Descends r c.stats log last c'.stats := by
  induction hw : r.countOps using Nat.strongRecOn generalizing r c with
  | ind n ih =>
    obtain ⟨_, mid, next, touched, -, hrun, hround, -, hcount, -⟩ := run_total hk c frozen
    rw [settle, hrun]
    cases touched with
    | false => exact ⟨_, mid, next, .stop hrun, rfl, .single hround⟩
    | true =>
      obtain ⟨log, c', last, hrest, hsettle, hdesc⟩ :=
        ih next.countOps (hw ▸ hcount rfl) (hk.of_bare hround.bare) mid rfl
      refine ⟨_, c', last, .again hrun hrest, ?_, .cons hround hdesc⟩
      simp only [bind, Except.bind, hcount rfl, and_self, dite_true]
      exact hsettle

theorem finish_total (hk : k.Sound r) : ∃ log c last,
    Finishes k r log c last ∧ finish r k = .ok (c, last) ∧ k.Descends r .zero log last c.stats := by
  obtain ⟨log, mid, next, hlog, hsettle, hdesc⟩ := settle_total hk start false
  rw [finish, hsettle]
  simp only [bind, Except.bind]
  cases hc : mid.changed with
  | false => exact ⟨log, mid, next, .quiet hlog hc, rfl, hdesc⟩
  | true =>
    obtain ⟨log', c, last, hlog', hsettle', hdesc'⟩ := settle_total (hk.of_bare hdesc.bare) mid true
    exact ⟨_, c, last, .changed hlog hc hlog', hsettle', hdesc.append hdesc'⟩

end Rounds

namespace Sweep

/-- Rounds in a region while they touch a block and ask for more; tells whether any touched one. -/
inductive RegionSettles (k : Facts) (id : Nat) (frozen : Bool) :
    Sweep → Routine → List RoundRecord → Sweep → Routine → Bool → Prop where
  | stop {s s' : Sweep} {r next : Routine} {touched more : Bool}
      (h : s.round r k id frozen = .ok (s', next, touched, more)) (hstop : ¬ (touched ∧ more)) :
      RegionSettles k id frozen s r [⟨r, next, touched⟩] s' next touched
  | again {s mid s' : Sweep} {r next last : Routine} {log : List RoundRecord} {touched : Bool}
      (h : s.round r k id frozen = .ok (mid, next, true, true))
      (rest : RegionSettles k id frozen mid next log s' last touched) :
      RegionSettles k id frozen s r (⟨r, next, true⟩ :: log) s' last true

/-- A loop: unfrozen rounds, frozen ones if anything changed, and then its summary. -/
inductive LoopSettles (k : Facts) (id : Nat) :
    Sweep → Routine → List RoundRecord → Sweep → Routine → Bool → Prop where
  | quiet {s s' : Sweep} {r last : Routine} {log : List RoundRecord} {t : SummaryTable}
      (h : RegionSettles k id false s r log s' last false) (ht : s'.table.summarize last k id = .ok t) :
      LoopSettles k id s r log { s' with table := t } last false
  | changed {s mid s' : Sweep} {r next last : Routine} {log log' : List RoundRecord} {touched : Bool}
      {t : SummaryTable} (h : RegionSettles k id false s r log mid next true)
      (rest : RegionSettles k id true mid next log' s' last touched) (ht : s'.table.summarize last k id = .ok t) :
      LoopSettles k id s r (log ++ log') { s' with table := t } last true

inductive LoopsSettle (k : Facts) : List Nat → Sweep → Routine → List RoundRecord → Sweep → Routine → Bool → Prop where
  | nil (s : Sweep) (r : Routine) : LoopsSettle k [] s r [] s r false
  | cons {id : Nat} {ids : List Nat} {s mid s' : Sweep} {r next last : Routine} {log log' : List RoundRecord}
      {touched touched' : Bool} (h : LoopSettles k id s r log mid next touched)
      (rest : LoopsSettle k ids mid next log' s' last touched') :
      LoopsSettle k (id :: ids) s r (log ++ log') s' last (touched || touched')

/-- The routine around its loops: unfrozen rounds, and then frozen ones if anything changed. -/
inductive BodySettles (k : Facts) : Sweep → Routine → List RoundRecord → Sweep → Routine → Bool → Prop where
  | quiet {s s' : Sweep} {r last : Routine} {log : List RoundRecord}
      (h : RegionSettles k 0 false s r log s' last false) : BodySettles k s r log s' last false
  | changed {s mid s' : Sweep} {r next last : Routine} {log log' : List RoundRecord} {touched : Bool} {c : Rounds}
      (h : RegionSettles k 0 false s r log mid next true) (hpin : mid.rounds.pin next k = .ok c)
      (rest : RegionSettles k 0 true { mid with rounds := c } next log' s' last touched) :
      BodySettles k s r (log ++ log') s' last true

/-- Sweeps over all loops and the routine around them until one changes nothing. -/
inductive Settles (k : Facts) : Sweep → Routine → List RoundRecord → Sweep → Routine → Prop where
  | stop {s mid s' : Sweep} {r next last : Routine} {log log' : List RoundRecord} {touched touched' : Bool}
      {ids : List Nat} (hids : k.forest.bottomUp = .ok ids) (h : LoopsSettle k ids s r log mid next touched)
      (h' : BodySettles k mid next log' s' last touched') (hstop : ¬ (touched || touched')) :
      Settles k s r (log ++ log') s' last
  | again {s mid mid' s' : Sweep} {r next next' last : Routine} {log log' log'' : List RoundRecord}
      {touched touched' : Bool} {ids : List Nat} (hids : k.forest.bottomUp = .ok ids)
      (h : LoopsSettle k ids s r log mid next touched) (h' : BodySettles k mid next log' mid' next' touched') (hmore : touched || touched')
      (rest : Settles k mid' next' log'' s' last) : Settles k s r (log ++ log' ++ log'') s' last

variable {s : Sweep} {id : Nat} {region : Region}

theorem settleRegion_total (hk : k.Sound r) (hr : k.forest.regions[id]? = some region) (ht : s.table.Current r k)
    (frozen : Bool) : ∃ log s' last touched, RegionSettles k id frozen s r log s' last touched ∧
      s.settleRegion r k id frozen = .ok (s', last, touched) ∧
      k.Descends r s.rounds.stats log last s'.rounds.stats ∧
      s'.table.Current last k ∧ log.any RoundRecord.touched = touched := by
  induction hw : k.forest.weight r using Nat.strongRecOn generalizing r s with
  | ind n ih =>
    obtain ⟨_, _, _, _, mid, next, touched, more, -, hrun, hround, -, hcur⟩ := round_total hk hr ht frozen
    rw [settleRegion, hrun]
    simp only [bind, Except.bind]
    by_cases hgo : touched ∧ more
    · obtain ⟨rfl, rfl⟩ := hgo
      obtain ⟨log, s', last, touched', hrest, hsettle, hdesc, hcur', -⟩ :=
        ih _ (hw ▸ hround.falls rfl) (hk.of_bare hround.bare) hcur rfl
      refine ⟨_, s', last, true, .again hrun hrest, ?_, .cons hround hdesc, hcur', by simp⟩
      simp only [hround.falls rfl, and_self, dite_true, hsettle]
      rfl
    · refine ⟨_, mid, next, touched, .stop hrun hgo, ?_, .single hround, hcur, by simp⟩
      rw [dif_neg fun h => hgo h.1]
      rfl

theorem loop_total (hk : k.Sound r) (hid : id < k.forest.regions.length) (ht : s.table.Current r k) :
    ∃ log s' last touched, LoopSettles k id s r log s' last touched ∧ s.loop r k id = .ok (s', last, touched) ∧
      k.Descends r s.rounds.stats log last s'.rounds.stats ∧ s'.table.Current last k ∧
      log.any RoundRecord.touched = touched := by
  have hr := List.getElem?_eq_getElem hid
  obtain ⟨log, mid, next, touched, hlog, hsettle, hdesc, hcur, hany⟩ := settleRegion_total hk hr ht false
  have hk' := hk.of_bare hdesc.bare
  rw [loop, hsettle]
  cases touched with
  | false =>
    obtain ⟨t, ht', hcur'⟩ := SummaryTable.summarize_total hk' hcur hid
    refine ⟨log, _, next, false, .quiet hlog ht', ?_, hdesc, hcur', hany⟩
    simp only [bind, Except.bind, pure, Except.pure, Bool.false_eq_true, if_false, ht']
  | true =>
    obtain ⟨log', s', last, touched', hlog', hsettle', hdesc', hcur', -⟩ := settleRegion_total hk' hr hcur true
    obtain ⟨t, ht', hcur''⟩ := SummaryTable.summarize_total (hk'.of_bare hdesc'.bare) hcur' hid
    refine ⟨_, _, last, true, .changed hlog hlog' ht', ?_, hdesc.append hdesc', hcur'', by simp [hany]⟩
    simp only [bind, Except.bind, pure, Except.pure, if_true, hsettle', ht']

theorem body_total (hk : k.Sound r) (ht : s.table.Current r k) :
    ∃ log s' last touched, BodySettles k s r log s' last touched ∧ s.body r k = .ok (s', last, touched) ∧
      k.Descends r s.rounds.stats log last s'.rounds.stats ∧ s'.table.Current last k ∧
      log.any RoundRecord.touched = touched := by
  obtain ⟨region, hr, -⟩ := hk.forest.whole
  obtain ⟨log, mid, next, touched, hlog, hsettle, hdesc, hcur, hany⟩ := settleRegion_total hk hr ht false
  rw [body, hsettle]
  cases touched with
  | false => exact ⟨log, mid, next, false, .quiet hlog, rfl, hdesc, hcur, hany⟩
  | true =>
    have hk' := hk.of_bare hdesc.bare
    obtain ⟨pinned, hpin⟩ := Rounds.pin_total hk' mid.rounds
    obtain ⟨log', s', last, touched', hlog', hsettle', hdesc', hcur', -⟩ :=
      settleRegion_total (s := { mid with rounds := { mid.rounds with pinned := pinned } }) hk' hr hcur true
    refine ⟨_, s', last, true, .changed hlog hpin hlog', ?_, hdesc.append hdesc', hcur', by simp [hany]⟩
    simp only [bind, Except.bind, if_true, hpin, hsettle']
    rfl

private theorem loops_total {ids : List Nat} (hk : k.Sound r) (hids : ∀ id ∈ ids, id < k.forest.regions.length)
    (ht : s.table.Current r k) (before : Bool) : ∃ log s' last touched, LoopsSettle k ids s r log s' last touched ∧
      ids.foldlM (fun (x : Sweep × Routine × Bool) id => do
        let (s, r, changed) ← x.1.loop x.2.1 k id
        return (s, r, x.2.2 || changed)) (s, r, before) = .ok (s', last, before || touched) ∧
      k.Descends r s.rounds.stats log last s'.rounds.stats ∧ s'.table.Current last k ∧
      log.any RoundRecord.touched = touched := by
  induction ids generalizing s r before with
  | nil => exact ⟨[], s, r, false, .nil s r, by simp [pure, Except.pure], .nil r _, ht, rfl⟩
  | cons id ids ih =>
    obtain ⟨log, mid, next, touched, hlog, hloop, hdesc, hcur, hany⟩ := loop_total hk (hids id (.head _)) ht
    obtain ⟨log', s', last, touched', hlog', hfold, hdesc', hcur', hany'⟩ :=
      ih (hk.of_bare hdesc.bare) (fun i hi => hids i (.tail _ hi)) hcur (before || touched)
    refine ⟨_, s', last, _, .cons hlog hlog', ?_, hdesc.append hdesc', hcur', by simp [hany, hany']⟩
    rw [List.foldlM_cons]
    simp only [hloop, bind, Except.bind, pure, Except.pure] at hfold ⊢
    rw [hfold, Bool.or_assoc]

theorem upward_lt (hk : k.Sound r) : ∀ id ∈ k.forest.upward, id < k.forest.regions.length := by
  intro id hid
  exact Forest.lt_of_mem_innerFirst hk.forest.regions_pos (List.dropLast_subset _ hid)

theorem settle_total (hk : k.Sound r) (ht : s.table.Current r k) : ∃ log s' last,
    Settles k s r log s' last ∧ s.settle r k = .ok (s', last) ∧
      k.Descends r s.rounds.stats log last s'.rounds.stats := by
  induction hw : k.forest.weight r using Nat.strongRecOn generalizing r s with
  | ind n ih =>
    obtain ⟨log, mid, next, touched, hlog, hloops, hdesc, hcur, hany⟩ := loops_total hk (upward_lt hk) ht false
    obtain ⟨log', mid', next', touched', hlog', hbody, hdesc', hcur', hany'⟩ := body_total (hk.of_bare hdesc.bare) hcur
    have hboth := hdesc.append hdesc'
    have hsweep : s.sweep r k = .ok (mid', next', touched || touched') := by
      rw [Bool.false_or] at hloops
      exact bind_eq_ok.mpr ⟨_, hk.forest.bottomUp_eq, bind_eq_ok.mpr ⟨_, hloops, bind_eq_ok.mpr ⟨_, hbody, rfl⟩⟩⟩
    rw [settle, hsweep]
    simp only [bind, Except.bind]
    by_cases hgo : touched || touched'
    · have hlt := hboth.weight_lt (by simpa [List.any_append, hany, hany'] using hgo)
      obtain ⟨log'', s', last, hrest, hsettle, hdesc''⟩ := ih _ (hw ▸ hlt) (hk.of_bare hboth.bare) hcur' rfl
      refine ⟨_, s', last, .again hk.forest.bottomUp_eq hlog hlog' hgo hrest, ?_, hboth.append hdesc''⟩
      rw [dif_pos ⟨hgo, hlt⟩]
      exact hsettle
    · refine ⟨_, mid', next', .stop hk.forest.bottomUp_eq hlog hlog' hgo, ?_, hboth⟩
      rw [dif_neg fun h => hgo h.1]
      rfl

end Sweep

end CountMotion
