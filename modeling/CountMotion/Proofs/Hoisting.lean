import CountMotion.Hoist
import CountMotion.Proofs.Summaries

/-! Hoists fit the routine, share no operation, and lower the weight by depth. -/
namespace CountMotion

variable {r : Routine} {k : Facts} {loop : Region} {s : Summary} {x : RootSummary} {t : SummaryTable} {id c : Nat}

def Routine.hasRetain (r : Routine) (p : Point) : Bool :=
  match r.instrAt? p with
  | some (.retain _ _) => true
  | _ => false

theorem Routine.retainsAt_eq {p : Point} (h : p.block < r.blocks.length) : r.retainsAt p = .ok (r.hasRetain p) := by
  obtain ⟨b, hb⟩ : ∃ b, r.blocks[p.block]? = some b := ⟨_, List.getElem?_eq_getElem h⟩
  rw [retainsAt, block, hb, hasRetain, instrAt?, hb]
  rfl

theorem Routine.retain_of_hasRetain {p : Point} {i : Instr} {v : Var} (hi : r.instrAt? p = some i)
    (hv : i.counts? = some v) (h : r.hasRetain p) : ∃ kind, r.instrAt? p = some (.retain v kind) := by
  rw [hasRetain, hi] at h
  cases i with
  | retain w kind => exact ⟨kind, Option.some.inj hv ▸ hi⟩
  | _ => cases h

theorem Routine.release_of_not_hasRetain {p : Point} {i : Instr} {v : Var} (hi : r.instrAt? p = some i)
    (hv : i.counts? = some v) (h : !r.hasRetain p) : ∃ kind, r.instrAt? p = some (.release v kind) := by
  rw [hasRetain, hi] at h
  cases i with
  | release w kind => exact ⟨kind, Option.some.inj hv ▸ hi⟩
  | retain => cases h
  | _ => cases hv

/-- The weight that the rounds over regions lower. -/
def Forest.price (f : Forest) (b : Nat) : Nat := 1 + f.depthAt b

private theorem tally_lt_of_lt {w : Point → Nat} {as qs : List Point} (hne : as ≠ []) (hlen : as.length ≤ qs.length)
    (h : ∀ a ∈ as, ∀ q ∈ qs, w a < w q) : tally w as < tally w qs := by
  induction as generalizing qs with
  | nil => exact absurd rfl hne
  | cons a as ih =>
    cases qs with
    | nil => exact absurd hlen (Nat.not_succ_le_zero _)
    | cons q qs =>
      have haq := h a (.head _) q (.head _)
      rw [tally_cons, tally_cons]
      by_cases has : as = []
      · subst has
        rw [tally_nil]
        omega
      · have := ih has (Nat.le_of_succ_le_succ hlen) fun a' ha' q' hq' => h a' (.tail _ ha') q' (.tail _ hq')
        omega

/-- What a hoist takes from the summary of a root. -/
structure Summary.Hoists (x : RootSummary) (r : Routine) (k : Facts) (e : Exchange) : Prop where
  root : e.root = x.root
  fits : e.Fits r k
  lowers : e.Lowers k.forest.price
  pays : e.added.length ≤ e.removed.length
  points : ∀ p ∈ e.removed, p ∈ x.points

/-- Where a hoist puts its releases: after each exit where the root still matters. -/
def Facts.placesAfter (k : Facts) (r : Routine) (root : Var) (loop : Region) : List Point :=
  (loop.exits.filter fun e => !k.quietExit r root e).map fun e => ⟨e, 0⟩

theorem Facts.mem_placesAfter {root : Var} {q : Point} : q ∈ k.placesAfter r root loop ↔
    q.index = 0 ∧ q.block ∈ loop.exits ∧ ¬ k.quietExit r root q.block := by
  obtain ⟨b, index⟩ := q
  simp only [placesAfter, List.mem_map, List.mem_filter, Bool.not_eq_true', Bool.not_eq_true, Point.mk.injEq]
  constructor
  · rintro ⟨e, ⟨he, hlive⟩, rfl, rfl⟩
    exact ⟨rfl, he, hlive⟩
  · rintro ⟨rfl, he, hlive⟩
    exact ⟨b, ⟨he, hlive⟩, rfl, rfl⟩

/-- When a hoist is made, and what it exchanges: all operations of the loop on the root for one
before it and one after each of its exits. -/
structure Summary.Lifts (s : Summary) (r : Routine) (k : Facts) (loop : Region) (x : RootSummary) (p : Nat)
    (e : Exchange) : Prop where
  hoistable : s.hoistable k x
  preheader : loop.preheader = some p
  dedicated : ∀ exit ∈ loop.exits, ∀ u, r.flow.Edge u exit → loop.holds u
  defined : k.definedBefore r x.root ⟨p, (r.codeAt p).body.length⟩ = .ok true
  pays : 1 + (k.placesAfter r x.root loop).length ≤ x.points.length
  eq : e = ⟨x.root, x.points.filter r.hasRetain, x.points.filter fun q => !r.hasRetain q,
    [⟨p, (r.codeAt p).body.length⟩], k.placesAfter r x.root loop⟩

theorem Summary.Lifts.hoists {p : Nat} {e : Exchange} (h : s.Lifts r k loop x p e) (hk : k.Sound r)
    (hl : k.forest.IsLoop id loop) (hs : s.Current r k loop) (hx : x ∈ s.roots) : Hoists x r k e := by
  obtain ⟨-, hp, hded, -, hpays, rfl⟩ := h
  have hexits : ∀ a ∈ k.placesAfter r x.root loop, a.block ∈ loop.exits ∧
      ∀ u, r.flow.Edge u a.block → loop.holds u := fun a ha =>
    have hexit := (Facts.mem_placesAfter.mp ha).2.1
    ⟨hexit, hded a.block hexit⟩
  generalize k.placesAfter r x.root loop = after at *
  have hnat := hk.forest.natural hl
  have hplt : p < r.blocks.length := by
    rw [← Routine.size_flow]
    exact hnat.preheader_lt hp
  have halt : ∀ a ∈ after, a.block < r.blocks.length := by
    intro a ha
    obtain ⟨-, u, hue, -⟩ := (hnat.exit_iff a.block).mp (hexits a ha).1
    rw [← Routine.size_flow]
    exact hue.2
  have hperm := List.filter_append_perm r.hasRetain x.points
  have hlen : 1 + after.length ≤ (x.points.filter r.hasRetain ++ x.points.filter fun q => !r.hasRetain q).length := by
    rw [hperm.length_eq]
    exact hpays
  refine ⟨rfl, ⟨?_, fun q hq => ?_, fun q hq => ?_, ?_, ?_, fun q hq => ?_⟩, ?_,
    by simpa [Exchange.added, Exchange.removed, Nat.add_comm] using hlen, fun q hq => hperm.mem_iff.mp hq⟩
  · obtain ⟨q, hq⟩ : ∃ q, q ∈ x.points := List.exists_mem_of_length_pos (by omega)
    obtain ⟨i, v, -, -, hv⟩ := hs.counts x hx q hq
    exact hk.root_lt hv
  · obtain ⟨hmem, hretain⟩ := List.mem_filter.mp hq
    obtain ⟨i, v, hi, hv, hroot⟩ := hs.counts x hx q hmem
    obtain ⟨kind, hi⟩ := Routine.retain_of_hasRetain hi hv hretain
    exact ⟨v, kind, hi, hroot⟩
  · obtain ⟨hmem, hretain⟩ := List.mem_filter.mp hq
    obtain ⟨i, v, hi, hv, hroot⟩ := hs.counts x hx q hmem
    obtain ⟨kind, hi⟩ := Routine.release_of_not_hasRetain hi hv hretain
    exact ⟨v, kind, hi, hroot⟩
  · exact (hs.nodup x hx).filter _
  · exact (hs.nodup x hx).filter _
  · rcases List.mem_append.mp hq with hq | hq
    · rw [List.mem_singleton.mp hq]
      exact hplt
    · exact halt q hq
  · -- every new place lies less deep than every operation that goes
    have hdeep : ∀ q ∈ x.points, ∀ a : Point, (a.block = p ∨ a ∈ after) →
        k.forest.price a.block < k.forest.price q.block := by
      intro q hq a ha
      have hin : loop.holds q.block := List.contains_iff_mem.mpr (hs.inside x hx q hq)
      have hlt : k.forest.loopsAt a.block ⊂ k.forest.loopsAt q.block := by
        rcases ha with rfl | ha
        · exact hk.forest.loopsAt_preheader hl hp hin
        · exact hk.forest.loopsAt_exit hl (hexits a ha).1 (hexits a ha).2 hin
      rw [Forest.price, Forest.price, hk.forest.depthAt_eq, hk.forest.depthAt_eq]
      exact Nat.add_lt_add_left (Finset.card_lt_card hlt) 1
    refine tally_lt_of_lt (by simp [Exchange.added]) ?_ fun place hplace q hq =>
      hdeep q (hperm.subset hq) place ?_
    · simpa [Exchange.added, Exchange.removed, Nat.add_comm] using hlen
    rcases List.mem_append.mp hplace with hplace | hplace
    · exact .inl (by rw [List.mem_singleton.mp hplace])
    · exact .inr hplace

theorem Summary.hoist_total (hk : k.Sound r) (hl : k.forest.IsLoop id loop) (hs : s.Current r k loop)
    (hx : x ∈ s.roots) : ∃ o, s.hoist r k loop x = .ok o ∧ ∀ e, o = some e → ∃ p, s.Lifts r k loop x p e := by
  have hinside : ∀ q ∈ x.points, q.block < r.blocks.length := fun q hq => hk.blocks_lt hl.2 (hs.inside x hx q hq)
  have none_lifts : ∀ e, (none : Option Exchange) = some e → ∃ p, s.Lifts r k loop x p e := fun e he => by cases he
  have hflagged : x.points.mapM (fun p => do return (p, ← r.retainsAt p)) =
      .ok (x.points.map fun p => (p, r.hasRetain p)) :=
    mapM_total fun q hq => by rw [Routine.retainsAt_eq (hinside q hq)]; rfl
  rw [hoist]
  split
  · exact ⟨none, rfl, none_lifts⟩
  rename_i hcond
  have hhoistable : s.hoistable k x := by simpa using hcond
  obtain ⟨canonical, hcanon⟩ : ∃ c, k.forest.canonical loop = .ok c := ⟨_, hk.forest.canonical_eq hl⟩
  rw [hcanon]
  cases canonical with
  | false => exact ⟨none, rfl, none_lifts⟩
  | true =>
    obtain ⟨⟨p, hp⟩, hded⟩ := (hk.forest.canonical_iff hl).mp hcanon
    have hplt : p < r.blocks.length := by
      rw [← Routine.size_flow]
      exact (hk.forest.natural hl).preheader_lt hp
    obtain ⟨x', hx'⟩ : ∃ b, r.blocks[p]? = some b := ⟨_, List.getElem?_eq_getElem hplt⟩
    obtain ⟨defined, hdef⟩ := Facts.definedBefore_total (k := k) (p := ⟨p, (r.codeAt p).body.length⟩) x.root hx'
      (by rw [Routine.codeAt_eq hx'])
    simp only [bind, Except.bind, hp, Bool.not_true, Bool.false_eq_true, if_false] at hflagged ⊢
    rw [hflagged]
    simp only
    split
    · exact ⟨none, rfl, none_lifts⟩
    rw [Routine.block_eq hplt]
    simp only
    rw [hdef]
    simp only
    split
    · exact ⟨none, rfl, none_lifts⟩
    rename_i hdefined
    split
    · exact ⟨none, rfl, none_lifts⟩
    rename_i hpays
    have hsplit : ∀ keep : Bool → Bool, ((x.points.map fun p => (p, r.hasRetain p)).filter fun y => keep y.2).map
        Prod.fst = x.points.filter fun q => keep (r.hasRetain q) := by
      intro keep
      simp [List.filter_map, Function.comp_def]
    refine ⟨_, rfl, fun e he => ?_⟩
    obtain rfl := Option.some.inj he
    rw [hsplit fun b => b, hsplit fun b => !b]
    obtain rfl : defined = true := by simpa using hdefined
    exact ⟨p, hhoistable, hp, hded, hdef, Nat.le_of_not_lt hpays, rfl⟩

private def Apart (x y : Exchange) : Prop := ∀ p ∈ x.removed, p ∉ y.removed

/-- The exchange is a hoist out of the loop, by its summary in the table. -/
def SummaryTable.HoistOf (t : SummaryTable) (r : Routine) (k : Facts) (c : Nat) (e : Exchange) : Prop :=
  ∃ l s x p, k.forest.IsLoop c l ∧ t.get? c = some s ∧ x ∈ s.roots ∧ s.Lifts r k l x p e

structure HoistsFrom (r : Routine) (k : Facts) (t : SummaryTable) (touched : List Var) (c : Nat)
    (xs : List Exchange) : Prop where
  hoists : ∀ x ∈ xs, t.HoistOf r k c x
  fits : ∀ x ∈ xs, x.Fits r k
  lowers : ∀ x ∈ xs, x.Lowers k.forest.price
  pays : ∀ x ∈ xs, x.added.length ≤ x.removed.length
  spared : ∀ x ∈ xs, x.root ∉ touched
  inside : ∀ x ∈ xs, ∀ p ∈ x.removed, ∀ l, k.forest.IsLoop c l → l.holds p.block
  apart : xs.Pairwise Apart

theorem SummaryTable.hoistsOf_total (hk : k.Sound r) (ht : t.Current r k) (hl : k.forest.IsLoop c loop)
    (touched : List Var) : ∃ xs, t.hoistsOf r k touched c = .ok xs ∧ HoistsFrom r k t touched c xs := by
  rw [hoistsOf, Forest.region, hl.2]
  simp only [bind, Except.bind]
  cases hs : t.get? c with
  | none => exact ⟨[], rfl, by simp, by simp, by simp, by simp, by simp, by simp, .nil⟩
  | some s =>
    obtain ⟨region, hr, hcur⟩ := ht c s hs
    obtain rfl := Option.some.inj (hl.2.symm.trans hr)
    obtain ⟨tried, htried, hall⟩ := mapM_forall (f := s.hoist r k loop)
      (p := fun x o => x ∈ s.roots ∧ x.root ∉ touched ∧ ∀ e, o = some e → ∃ p, s.Lifts r k loop x p e)
      (l := s.roots.filter fun x => !touched.contains x.root) (fun x hx => by
        obtain ⟨hmem, hfree⟩ := List.mem_filter.mp hx
        obtain ⟨o, ho, hspec⟩ := Summary.hoist_total hk hl hcur hmem
        exact ⟨o, ho, hmem, by simpa using hfree, hspec⟩)
    simp only
    rw [htried]
    refine ⟨tried.filterMap fun o => o, rfl, ?_⟩
    have hfrom : ∀ e ∈ tried.filterMap (fun o => o), ∃ x ∈ s.roots, x.root ∉ touched ∧
        (∃ p, s.Lifts r k loop x p e) ∧ Summary.Hoists x r k e := by
      intro e he
      obtain ⟨o, ho, rfl⟩ := List.mem_filterMap.mp he
      obtain ⟨x, -, hx, hfree, hspec⟩ := exists_of_mem_forall₂ hall ho
      obtain ⟨p, hp⟩ := hspec e rfl
      exact ⟨x, hx, hfree, ⟨p, hp⟩, hp.hoists hk hl hcur hx⟩
    refine ⟨fun e he => ?_, fun e he => ?_, fun e he => ?_, fun e he => ?_, fun e he => ?_, fun e he p hp l hl' => ?_, ?_⟩
    · obtain ⟨x, hx, -, ⟨p, hp⟩, -⟩ := hfrom e he
      exact ⟨loop, s, x, p, hl, hs, hx, hp⟩
    · obtain ⟨x, -, -, -, hh⟩ := hfrom e he
      exact hh.fits
    · obtain ⟨x, -, -, -, hh⟩ := hfrom e he
      exact hh.lowers
    · obtain ⟨x, -, -, -, hh⟩ := hfrom e he
      exact hh.pays
    · obtain ⟨x, -, hfree, -, hh⟩ := hfrom e he
      rw [hh.root]
      exact hfree
    · obtain ⟨x, hx, -, -, hh⟩ := hfrom e he
      obtain rfl := hl.unique hl'
      exact List.contains_iff_mem.mpr (hcur.inside x hx p (hh.points p hp))
    · have hroots : (s.roots.filter fun x => !touched.contains x.root).Pairwise fun x y => x.root ≠ y.root :=
        ((List.pairwise_map.mp hcur.roots).imp Nat.ne_of_lt).sublist List.filter_sublist
      have hpair := pairwise_of_forall₂ (s := fun o o' => ∀ e ∈ o, ∀ e' ∈ o', Apart e e') hall hroots
        fun x _ y _ hne o o' ho ho' e he e' he' q hq => by
          obtain ⟨p, hp⟩ := ho.2.2 e he
          obtain ⟨p', hp'⟩ := ho'.2.2 e' he'
          have hx := hp.hoists hk hl hcur ho.1
          have hy := hp'.hoists hk hl hcur ho'.1
          exact hx.fits.apart hy.fits (by rw [hx.root, hy.root]; exact hne) hq
      exact List.pairwise_filterMap.mpr hpair

theorem SummaryTable.hoists_total (hk : k.Sound r) (ht : t.Current r k) (hr : k.forest.regions[id]? = some loop)
    (touched : List Var) : ∃ t' xs, t.hoists r k id touched = .ok (t', xs) ∧ t'.Current r k ∧
      (∀ x ∈ xs, x.Fits r k) ∧ (∀ x ∈ xs, x.Lowers k.forest.price) ∧
      (∀ x ∈ xs, x.added.length ≤ x.removed.length) ∧ (∀ x ∈ xs, x.root ∉ touched) ∧
      (xs.flatMap Exchange.removed).Nodup ∧
      ∀ x ∈ xs, ∃ c, k.forest.parentOf c = some id ∧ t'.HoistOf r k c x := by
  obtain ⟨t', ht', hcur⟩ := summarizeChildren_total hk ht hr
  obtain ⟨hnodup, hchild⟩ := hk.forest.children hr
  obtain ⟨found, hfound, hall⟩ := mapM_forall (f := t'.hoistsOf r k touched)
    (p := HoistsFrom r k t' touched) (l := loop.children) (fun c hc => by
      obtain ⟨l, hl⟩ := hk.forest.isLoop_of_parentOf ((hchild c).mp hc)
      exact hoistsOf_total hk hcur hl touched)
  have hmem : ∀ x ∈ found.flatten, ∃ c ∈ loop.children, ∃ xs, HoistsFrom r k t' touched c xs ∧ x ∈ xs := by
    intro x hx
    obtain ⟨xs, hxs, hx⟩ := List.mem_flatten.mp hx
    obtain ⟨c, hmem, hc⟩ := exists_of_mem_forall₂ hall hxs
    exact ⟨c, hmem, xs, hc, hx⟩
  refine ⟨t', found.flatten, ?_, hcur, fun x hx => ?_, fun x hx => ?_, fun x hx => ?_, fun x hx => ?_, ?_,
    fun x hx => ?_⟩
  · rw [hoists, ht', Forest.region, hr]
    simp only [bind, Except.bind]
    rw [hfound]
    rfl
  · obtain ⟨c, -, xs, hc, hx⟩ := hmem x hx
    exact hc.fits x hx
  · obtain ⟨c, -, xs, hc, hx⟩ := hmem x hx
    exact hc.lowers x hx
  · obtain ⟨c, -, xs, hc, hx⟩ := hmem x hx
    exact hc.pays x hx
  · obtain ⟨c, -, xs, hc, hx⟩ := hmem x hx
    exact hc.spared x hx
  · rw [List.nodup_flatMap]
    refine ⟨fun x hx => ?_, ?_⟩
    · obtain ⟨c, -, xs, hc, hx⟩ := hmem x hx
      exact (hc.fits x hx).nodup_removed
    · refine (List.pairwise_flatten.mpr ⟨fun xs hxs => ?_, ?_⟩ : found.flatten.Pairwise Apart)
      · obtain ⟨c, -, hc⟩ := exists_of_mem_forall₂ hall hxs
        exact hc.apart
      · refine pairwise_of_forall₂ hall hnodup fun c hc c' hc' hne xs ys hxs hys x hx y hy p hp hp' => ?_
        obtain ⟨l, hl⟩ := hk.forest.isLoop_of_parentOf ((hchild c).mp hc)
        obtain ⟨l', hl'⟩ := hk.forest.isLoop_of_parentOf ((hchild c').mp hc')
        exact hk.forest.children_apart ((hchild c).mp hc) ((hchild c').mp hc') hne hl hl'
          (hxs.inside x hx p hp l hl) (hys.inside y hy p hp' l' hl')
  · obtain ⟨c, hmem, xs, hc, hx⟩ := hmem x hx
    exact ⟨c, (hchild c).mp hmem, hc.hoists x hx⟩

end CountMotion
