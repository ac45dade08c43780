import CountMotion.Sweep
import CountMotion.Proofs.Hoisting
import CountMotion.Proofs.Unused

/-! What one round does: it makes exchanges, which move count operations only, and lowers the
weight if it touches a block. -/
namespace CountMotion

variable {r next : Routine} {k : Facts} {xs : List Exchange} {w : Nat → Nat} {id : Nat} {region : Region}
  {s s' : Stats} {touched : Bool}

/-- A round makes exchanges that fit the routine and share no operation. Each lowers the weight
and puts in no more operations than it takes out, and the counts tell how many. -/
structure Facts.Round (k : Facts) (r : Routine) (s : Stats) (xs : List Exchange) (next : Routine) (s' : Stats)
    (touched : Bool) : Prop where
  fits : ∀ x ∈ xs, x.Fits r k
  nodup : (xs.flatMap Exchange.removed).Nodup
  lowers : ∀ x ∈ xs, x.Lowers k.forest.price
  pays : ∀ x ∈ xs, x.added.length ≤ x.removed.length
  next_eq : next = (Exchange.edits xs r).applied r
  touched_eq : touched = !(Exchange.edits xs r).touched.isEmpty
  moved : s'.moved = s.moved + (xs.flatMap Exchange.added).length
  removed : s'.removed = s.removed + (xs.flatMap Exchange.removed).length

theorem Facts.price_weighs (k : Facts) : k.Weighs k.forest.price where
  pos _ := Nat.lt_add_right _ Nat.one_pos
  mono _ _ h := Nat.add_le_add_left h 1

theorem Facts.weighs_one (k : Facts) : k.Weighs fun _ => 1 where
  pos _ := Nat.one_pos
  mono _ _ _ := Nat.le_refl 1

theorem Edits.applied_of_untouched {e : Edits} (h : e.touched = []) (r : Routine) : e.applied r = r := by
  have : (fun b (x : Block) => { x with body := e.newBody b x.body }) = fun _ x => x := by
    funext b x
    rw [newBody_of_untouched (by rw [h]; exact List.not_mem_nil)]
  rw [applied, this]
  simp [List.mapIdx_eq_zipIdx_map]

namespace Facts.Round

theorem edits_fit (h : k.Round r s xs next s' touched) : (Exchange.edits xs r).Fits r :=
  Exchange.edits_fit h.fits h.nodup

theorem bare (h : k.Round r s xs next s' touched) : next.bare = r.bare := by
  rw [h.next_eq]
  exact h.edits_fit.bare_applied

theorem same (h : k.Round r s xs next s' touched) (ht : touched = false) : next = r := by
  rw [h.next_eq]
  refine Edits.applied_of_untouched ?_ r
  simpa using h.touched_eq.symm.trans ht

theorem ne_nil (h : k.Round r s xs next s' touched) (ht : touched) : xs ≠ [] :=
  Exchange.ne_nil_of_touched (by simpa using h.touched_eq.symm.trans ht)

theorem eq_nil (h : k.Round r s xs next s' touched) (ht : touched = false) : xs = [] := by
  by_contra hne
  have hlt := Exchange.weigh_applied_lt h.fits h.nodup h.lowers hne
  rw [← h.next_eq, h.same ht] at hlt
  exact Nat.lt_irrefl _ hlt

theorem falls (h : k.Round r s xs next s' touched) (ht : touched) :
    k.forest.weight next < k.forest.weight r := by
  rw [h.next_eq]
  exact Exchange.weigh_applied_lt h.fits h.nodup h.lowers (h.ne_nil ht)

end Facts.Round

theorem Exchange.moved_foldl_count (xs : List Exchange) (s : Stats) :
    (xs.foldl Stats.count s).moved = s.moved + (xs.flatMap added).length := by
  induction xs generalizing s with
  | nil => rfl
  | cons x xs ih =>
    rw [List.foldl_cons, ih, List.flatMap_cons, List.length_append]
    simp only [Stats.count, added, List.length_append]
    omega

theorem Exchange.removed_foldl_count (xs : List Exchange) (s : Stats) :
    (xs.foldl Stats.count s).removed = s.removed + (xs.flatMap removed).length := by
  induction xs generalizing s with
  | nil => rfl
  | cons x xs ih =>
    rw [List.foldl_cons, ih, List.flatMap_cons, List.length_append]
    simp only [Stats.count, removed, List.length_append]
    omega

theorem Exchange.Lowers.length_lt {x : Exchange} (h : x.Lowers fun _ => 1) : x.added.length < x.removed.length := by
  simpa only [Lowers, tally_one] using h

/-- Exchanges that fit and share nothing can be queued and made. -/
theorem Exchange.make_total (hfit : ∀ x ∈ xs, x.Fits r k) (hn : (xs.flatMap removed).Nodup) :
    queueAll xs r .empty = .ok (edits xs r) ∧
      (edits xs r).flush r = .ok ((edits xs r).applied r, (edits xs r).touched, .empty) := by
  refine ⟨?_, (edits_fit hfit hn).flush_eq⟩
  rw [queueAll_eq fun x hx => (hfit x hx).root]
  simp [edits, Edits.empty]

/-- What a round over the whole routine finds; one that is not frozen leaves nothing alone. -/
def Rounds.Finds (r : Routine) (k : Facts) (frozen : Bool) (found : Findings) : Prop :=
  ∃ f pinned, Flat.whole r k = .ok f ∧ f.findings pinned = .ok found ∧ (frozen = false → pinned = [])

theorem Rounds.pin_total (hk : k.Sound r) (c : Rounds) : ∃ pinned, c.pin r k = .ok { c with pinned := pinned } := by
  have hentry : r.entry < r.flow.size := by
    rw [Routine.size_flow]
    exact hk.entry
  have hlt : ∀ b ∈ r.postorder, b < r.blocks.length := by
    intro b hb
    rw [← Routine.size_flow]
    exact (Graph.postorder_order hentry).inside b (List.mem_reverse.mpr hb)
  obtain ⟨found, hfound, -⟩ := mapM_forall (f := releasesIn r k) (p := fun _ _ => True)
    (l := r.postorder.filter fun b => k.postDom.postDominates b r.entry) fun b hb => by
      rw [releasesIn, Routine.block_eq (hlt b (List.mem_filter.mp hb).1)]
      exact ⟨_, rfl, trivial⟩
  exact ⟨found.flatten, bind_eq_ok.mpr ⟨found, hfound, rfl⟩⟩

theorem Rounds.pinned_total (hk : k.Sound r) (c : Rounds) (frozen : Bool) :
    ∃ pinned, (if frozen && !c.hasPinned then c.pin r k else .ok c) = .ok { c with pinned := pinned } := by
  split
  · exact pin_total hk c
  · exact ⟨c.pinned, rfl⟩

/-- A round over the whole routine. It puts no operation on a trivial root. -/
theorem Rounds.run_total (hk : k.Sound r) (c : Rounds) (frozen : Bool) :
    ∃ found c' next touched, Finds r k frozen found ∧ c.run r k frozen = .ok (c', next, touched) ∧
      k.Round r c.stats found.exchanges next c'.stats touched ∧ c'.changed = (c.changed || touched) ∧
      (touched → next.countOps < r.countOps) ∧
      ∀ x ∈ found.exchanges, r.storage[x.root]? = some .trivial → x.added = [] := by
  obtain ⟨region, hr, -⟩ := hk.forest.whole
  have hflat : Flat.whole r k = .ok (Layout.whole r k region).flat :=
    hk.build_eq hr none
  obtain ⟨pinned, hpinned⟩ := pinned_total hk c frozen
  obtain ⟨found, hfound, hfit, hlow, hn⟩ := (hk.whole_view hr).findings (if frozen then pinned else [])
  have hfinds : Finds r k frozen found := ⟨_, _, hflat, hfound, fun hf => by rw [hf]; rfl⟩
  obtain ⟨hqueue, hflush⟩ := Exchange.make_total hfit hn
  rw [run, hpinned]
  simp only [bind, Except.bind, perform]
  rw [hflat]
  simp only
  rw [hfound]
  simp only [pure, Except.pure]
  rw [hqueue]
  simp only
  rw [hflush]
  refine ⟨found, _, _, _, hfinds, rfl, ⟨hfit, hn, fun x hx => hlow x hx _ k.price_weighs, fun x hx => ?_, rfl, rfl,
    Exchange.moved_foldl_count _ _, Exchange.removed_foldl_count _ _⟩, rfl, fun htouched => ?_, fun x hx htrivial => ?_⟩
  · exact Nat.le_of_lt (hlow x hx _ k.weighs_one).length_lt
  · rw [Routine.countOps_eq_weigh, Routine.countOps_eq_weigh]
    exact Exchange.weigh_applied_lt hfit hn (fun x hx => hlow x hx _ k.weighs_one)
      (Exchange.ne_nil_of_touched (by simpa using htouched))
  · exact (Layout.whole_idle hk hr).findings (hk.whole_view hr) hfound hx htrivial

/-- What a round in a region finds, from the summaries of its child loops. -/
structure Sweep.Finds (s : Sweep) (r : Routine) (k : Facts) (id : Nat) (frozen : Bool) (t t' : SummaryTable)
    (found : Findings) (hoists : List Exchange) : Prop where
  summarized : s.table.summarizeChildren r k id = .ok t
  findings : ∃ f, Flat.build r k id (some t.get?) = .ok f ∧
    f.findings (if frozen then s.rounds.pinned else []) = .ok found
  hoisted : t.hoists r k id found.roots = .ok (t', hoists)

/-- A round in a region, with the hoists out of its child loops. -/
theorem Sweep.round_total (hk : k.Sound r) (hr : k.forest.regions[id]? = some region) {s : Sweep}
    (ht : s.table.Current r k) (frozen : Bool) :
    ∃ t t' found hoists s' next touched more, s.Finds r k id frozen t t' found hoists ∧
      s.round r k id frozen = .ok (s', next, touched, more) ∧
      k.Round r s.rounds.stats (found.exchanges ++ hoists) next s'.rounds.stats touched ∧
      s'.table = (if touched then t'.without k (Exchange.edits (found.exchanges ++ hoists) r).touched else t') ∧
      s'.table.Current next k := by
  obtain ⟨t, hsum, hcur⟩ := SummaryTable.summarizeChildren_total hk ht hr
  have hflat := hk.build_eq hr (some t.get?)
  obtain ⟨found, hfound, hfit, hlow, hn⟩ :=
    (hk.region_view hr t.get?).findings (if frozen then s.rounds.pinned else [])
  obtain ⟨t', hoists, hhoist, hcur', hfit', hlow', hpays', hspared, hn', -⟩ :=
    SummaryTable.hoists_total hk hcur hr found.roots
  have hfinds : s.Finds r k id frozen t t' found hoists := ⟨hsum, ⟨_, hflat, hfound⟩, hhoist⟩
  have hall : ∀ x ∈ found.exchanges ++ hoists, x.Fits r k := fun x hx =>
    (List.mem_append.mp hx).elim (hfit x) (hfit' x)
  have hnodup : ((found.exchanges ++ hoists).flatMap Exchange.removed).Nodup := by
    rw [List.flatMap_append]
    refine List.nodup_append.mpr ⟨hn, hn', ?_⟩
    rintro p hp _ hp' rfl
    obtain ⟨x, hx, hpx⟩ := List.mem_flatMap.mp hp
    obtain ⟨y, hy, hpy⟩ := List.mem_flatMap.mp hp'
    refine (hfit x hx).apart (hfit' y hy) (fun heq => ?_) hpx hpy
    refine hspared y hy (List.mem_eraseDups.mpr ?_)
    rw [← heq]
    exact List.mem_map_of_mem hx
  obtain ⟨hqueue, hflush⟩ := Exchange.make_total hall hnodup
  rw [Sweep.round, hsum]
  simp only [bind, Except.bind]
  rw [hflat]
  simp only [Rounds.perform, bind, Except.bind]
  rw [hfound]
  simp only [pure, Except.pure]
  rw [hhoist]
  simp only
  rw [hqueue]
  simp only
  rw [hflush]
  simp only
  rw [SummaryTable.invalidate_if _ hk]
  have hround : k.Round r s.rounds.stats (found.exchanges ++ hoists)
      ((Exchange.edits (found.exchanges ++ hoists) r).applied r)
      (hoists.foldl Stats.count
        { found.exchanges.foldl Stats.count s.rounds.stats with rounds := s.rounds.stats.rounds + 1 })
      (!(Exchange.edits (found.exchanges ++ hoists) r).touched.isEmpty) := by
    refine ⟨hall, hnodup, fun x hx => ?_, fun x hx => ?_, rfl, rfl, ?_, ?_⟩
    · exact (List.mem_append.mp hx).elim (fun hx => hlow x hx _ k.price_weighs) (hlow' x)
    · exact (List.mem_append.mp hx).elim
        (fun hx => Nat.le_of_lt (hlow x hx _ k.weighs_one).length_lt) (hpays' x)
    · rw [Exchange.moved_foldl_count, List.flatMap_append, List.length_append, ← Nat.add_assoc]
      exact congrArg (· + _) (Exchange.moved_foldl_count ..)
    · rw [Exchange.removed_foldl_count, List.flatMap_append, List.length_append, ← Nat.add_assoc]
      exact congrArg (· + _) (Exchange.removed_foldl_count ..)
  refine ⟨t, t', found, hoists, _, _, _, _, hfinds, rfl, hround, rfl, ?_⟩
  dsimp only
  split
  · exact SummaryTable.without_current hk hcur' fun b hb => Edits.applied_getElem? hb r
  · rename_i hquiet
    rw [hround.same (by simpa using hquiet)]
    exact hcur'

end CountMotion
