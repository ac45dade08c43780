import CountMotion.Proofs.FixedPoint
import CountMotion.Proofs.HoistSpan
import CountMotion.Proofs.WholeRounds

/-! Rounds in the regions of a routine keep what runs show, if all its cycles are natural loops. -/
namespace CountMotion

variable {r next last : Routine} {k : Facts} {region : Region} {id : Nat} {log : List RoundRecord}
  {touched more frozen : Bool} {found : Findings}

/-- All cycles are natural loops, and the routine does not start in one. -/
structure Routine.Orderly (r : Routine) : Prop where
  reducible : r.flow.Reducible r.entry fun _ => True
  starts : ¬ r.flow.Header r.entry r.entry

structure Routine.Steady (r : Routine) (k : Facts) : Prop where
  describes : k.Describes r
  proper : r.Proper
  orderly : r.Orderly

namespace Sweep

variable {s s' : Sweep} {t t' : SummaryTable} {hoists : List Exchange}

/-- What a round finds in a region, and what it lifts out of the loops there, are moves along valid spans. -/
theorem Finds.along (h : s.Finds r k id frozen t t' found hoists) (hr : r.Steady k)
    (hregion : k.forest.regions[id]? = some region) (hs : s.table.Fresh r k) :
    ∀ x ∈ found.exchanges ++ hoists, ∃ zs, x.Along zs r := by
  obtain ⟨hk, hp, hred, hstarts⟩ := hr
  obtain ⟨hfresh, hholds⟩ := hs.summarizeChildren hk.sound hregion h.summarized
  have hinside : r.flow.Reducible r.entry (· ∈ region.blocks) := hred.mono fun _ _ => trivial
  intro x hx
  rcases List.mem_append.mp hx with hx | hx
  · obtain ⟨f, hf, hfound⟩ := h.findings
    have hsound := Layout.of_sound hk.sound hregion (some t.get?)
    obtain rfl := Except.ok.inj (hf.symm.trans (hk.sound.build_eq hregion _))
    have hbelow : k.SummedBelow r id t.get? := fun c hc => by
      obtain ⟨s', hs'⟩ := Option.isSome_iff_exists.mp (hholds c (((hk.sound.forest.children hregion).2 c).mpr hc))
      exact ⟨s', hs', hfresh.summed c s' hs'⟩
    obtain ⟨c, down, up, hc, hx⟩ := Layout.standing_of_found hsound hfound hx
    obtain ⟨net, hnet⟩ := Layout.exists_nets hk hregion hp hinside hbelow c.root
    exact hc.exchange_along (Layout.of_views hk hregion hp _) hnet (hc.calm hk hregion hp hinside hbelow)
      (c.guarded_of_reducible hk hregion hp hinside) hx
  · obtain ⟨_, _, hhoists, -, -, -, -, -, -, hall⟩ :=
      SummaryTable.hoists_total hk.sound (hfresh.current hk.sound) hregion found.roots
    obtain ⟨rfl, rfl⟩ : _ = t' ∧ _ = hoists := by simpa using hhoists.symm.trans h.hoisted
    obtain ⟨c, -, l, s', x', p, hl, hget, hmem, hlifts⟩ := hall x hx
    exact hlifts.along hk hp hl ((hfresh.hoists hk.sound hregion h.hoisted).1.summed c s' hget) hmem
      (hred.mono fun _ _ => trivial) hstarts

theorem round_keeps (hr : r.Steady k) (hregion : k.forest.regions[id]? = some region) (hs : s.table.Fresh r k)
    (h : s.round r k id frozen = .ok (s', next, touched, more)) : r.Keeps next (·.Steady k) := by
  obtain ⟨t, t', found, hoists, _, _, _, _, hfinds, hrun, hround, -, -⟩ :=
    round_total hr.describes.sound hregion (hs.current hr.describes.sound) frozen
  obtain ⟨rfl, rfl, rfl, rfl⟩ : _ = s' ∧ _ = next ∧ _ = touched ∧ _ = more := by
    simpa using hrun.symm.trans h
  have hbare := hround.bare
  obtain ⟨hproper, hyields⟩ := Exchange.preserve hr.proper (hfinds.along hr hregion hs) hround.nodup
  rw [← hround.next_eq] at hproper hyields
  refine ⟨⟨hr.describes.of_bare hbare, hproper, ?_, ?_⟩, fun hy => hyields _ _ hy⟩ <;>
    rw [Routine.flow_of_bare hbare, Routine.entry_of_bare hbare]
  · exact hr.orderly.reducible
  · exact hr.orderly.starts

theorem RegionSettles.keeps (hr : r.Steady k) (hregion : k.forest.regions[id]? = some region)
    (hs : s.table.Fresh r k) (h : RegionSettles k id frozen s r log s' last touched) :
    r.Keeps last (·.Steady k) := by
  induction h with
  | stop h => exact round_keeps hr hregion hs h
  | again h _ ih =>
    have hkeeps := round_keeps hr hregion hs h
    exact hkeeps.trans (ih hkeeps.fit (round_fresh hr.describes.sound hregion hs h).2.1)

theorem LoopSettles.keeps (hr : r.Steady k) (hid : id < k.forest.regions.length) (hs : s.table.Fresh r k)
    (h : LoopSettles k id s r log s' last touched) : r.Keeps last (·.Steady k) := by
  have hregion := List.getElem?_eq_getElem hid
  cases h with
  | quiet h _ => exact h.keeps hr hregion hs
  | changed h rest _ =>
    have hkeeps := h.keeps hr hregion hs
    exact hkeeps.trans (rest.keeps hkeeps.fit hregion (h.fresh hr.describes.sound hregion hs).2)

theorem LoopsSettle.keeps {ids : List Nat} (hr : r.Steady k) (hids : ∀ id ∈ ids, id < k.forest.regions.length)
    (hs : s.table.Fresh r k) (h : LoopsSettle k ids s r log s' last touched) :
    r.Keeps last (·.Steady k) := by
  induction h with
  | nil => exact ⟨hr, fun hy => hy⟩
  | cons h _ ih =>
    have hid := hids _ (.head _)
    have hkeeps := h.keeps hr hid hs
    exact hkeeps.trans (ih hkeeps.fit (fun id hid => hids id (.tail _ hid)) (h.fresh hr.describes.sound hid hs).2)

theorem BodySettles.keeps (hr : r.Steady k) (hs : s.table.Fresh r k) (h : BodySettles k s r log s' last touched) :
    r.Keeps last (·.Steady k) := by
  obtain ⟨region, hregion, -⟩ := hr.describes.sound.forest.whole
  cases h with
  | quiet h => exact h.keeps hr hregion hs
  | changed h _ rest =>
    have hkeeps := h.keeps hr hregion hs
    have hfresh := (h.fresh hr.describes.sound hregion hs).2
    exact hkeeps.trans (RegionSettles.keeps hkeeps.fit hregion (by exact hfresh) rest)

theorem Settles.keeps (hr : r.Steady k) (hs : s.table.Fresh r k) (h : Settles k s r log s' last) :
    r.Keeps last (·.Steady k) := by
  induction h with
  | stop hids h h' _ =>
    obtain rfl := Except.ok.inj (hr.describes.sound.forest.bottomUp_eq.symm.trans hids)
    have hloops := upward_lt hr.describes.sound
    have hkeeps := h.keeps hr hloops hs
    exact hkeeps.trans (h'.keeps hkeeps.fit (h.fresh hr.describes.sound hloops hs).2)
  | again hids h h' _ _ ih =>
    obtain rfl := Except.ok.inj (hr.describes.sound.forest.bottomUp_eq.symm.trans hids)
    have hloops := upward_lt hr.describes.sound
    have hkeeps := h.keeps hr hloops hs
    have hfresh := (h.fresh hr.describes.sound hloops hs).2
    have hkeeps' := h'.keeps hkeeps.fit hfresh
    exact (hkeeps.trans hkeeps').trans (ih hkeeps'.fit (h'.fresh hkeeps.fit.describes.sound hfresh).2)

end Sweep

end CountMotion
