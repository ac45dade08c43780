import CountMotion.Proofs.Balance
import CountMotion.Proofs.Collapsing
import CountMotion.Proofs.LapCounts
import CountMotion.Proofs.RegionViews

/-! Child loops between the members of a closure leave the count of its root as it was. If the
closure is not used, they leave the root alone. -/
namespace CountMotion

namespace Walk

variable {w : Walk Nat} {l : Ledger} {out : Nat → Option Pending} {n : Nat} {before rest : List (Point × Effect)} {q : Pending}

theorem Traced.pending_flows (hw : w.Plain) (hs : w.Sorted) (ht : w.Traced out l) (hn : n ∈ w.order)
    (heff : w.effects n = before ++ rest) (hq : w.along out n before = some q) :
    q.points ≠ [] ∧ ∀ z ∈ q.points, w.Flows z n before := by
  induction hk : w.order.idxOf n using Nat.strong_induction_on generalizing n before rest q with
  | _ k ih =>
    subst hk
    induction before using List.reverseRecOn generalizing rest q with
    | nil =>
      have hsource : ∀ s ∈ w.sources n, ∀ p, out s = some p → p.points ≠ [] ∧ ∀ z ∈ p.points, w.Flows z n [] := by
        intro s hsn p hp
        obtain ⟨hso, halong⟩ := ht.of_out hp
        obtain ⟨hne, hflows⟩ := ih _ (hs.2 n hn s hsn hso) hso (List.append_nil _).symm halong rfl
        exact ⟨hne, fun z hz => .enter hn hsn (hflows z hz)⟩
      obtain ⟨hopen, s, hsn, p, hp⟩ := of_into hq
      refine ⟨?_, fun z hz => ?_⟩
      · obtain ⟨z, hz⟩ := List.exists_mem_of_ne_nil _ (hsource s hsn p hp).1
        obtain ⟨q', hq', hmem⟩ := (awaits_into hopen).mpr ⟨s, hsn, p, hp, hz⟩
        exact List.ne_nil_of_mem (Option.some.inj (hq'.symm.trans hq) ▸ hmem)
      · obtain ⟨s, hsn, p, hp, hmem⟩ := (awaits_into hopen).mp ⟨q, hq, hz⟩
        exact (hsource s hsn p hp).2 z hmem
    | append_singleton before x ihb =>
      have heff' : w.effects n = before ++ x :: rest := by simpa using heff
      rw [along_snoc] at hq
      rcases hw.of_after hq with ⟨hx, hpoints⟩ | ⟨hharmless, p, hp, hpoints⟩ <;> rw [hpoints]
      · refine ⟨List.cons_ne_nil _ _, fun z hz => ?_⟩
        obtain ⟨z', e⟩ := x
        obtain rfl := List.mem_singleton.mp hz
        obtain rfl : e = w.opens := hx
        exact .opens hn heff'
      · obtain ⟨hne, hflows⟩ := ihb heff' hp
        exact ⟨hne, fun z hz => .pass heff' hharmless (hflows z hz)⟩

theorem Traced.flows_of_awaits {z : Point} (hw : w.Plain) (hs : w.Sorted) (ht : w.Traced out l) (hn : n ∈ w.order)
    (heff : w.effects n = before ++ rest) (hz : Awaits (w.along out n before) z) : w.Flows z n before := by
  obtain ⟨q, hq, hmem⟩ := hz
  exact (ht.pending_flows hw hs hn heff hq).2 z hmem

end Walk

variable {r : Routine} {k : Facts} {region l : Region} {id b c : Nat} {get : Nat → Option Summary} {root : Var}
  {s : Summary} {i : Instr} {p : Point}

/-- A child loop that a region passes over as harmless, with its summary. -/
structure Facts.Passage (k : Facts) (r : Routine) (root : Var) (l : Region) (s : Summary) : Prop where
  harmless : (s.effectOn k root).harmless
  takes : ∀ b ∈ l.blocks, ∀ i ∈ (r.codeAt b).body, s.Takes k i
  laps : ∀ path, r.Lap k root l path → netCount (r.turnsOf k root path) = 0
  spares : ∀ b ∈ l.blocks, r.Spares root b

theorem Facts.Summed.takes (hk : k.Sound r) (hs : k.Summed r id s) (hr : k.forest.regions[id]? = some region)
    (hb : b ∈ region.blocks) (hi : i ∈ (r.codeAt b).body) : s.Takes k i := by
  cases hs with
  | of hr' _ _ hcompute =>
    obtain rfl := Option.some.inj (hr.symm.trans hr')
    exact SummaryTable.compute_takes hk hr hcompute hb hi

/-- The trips through a loop that is seen as harmless come to nothing. -/
theorem Facts.Summed.netCount_lap (hk : k.Describes r) (hs : k.Summed r id s) (hl : k.forest.IsLoop id region)
    (hred : r.flow.Reducible r.entry (· ∈ region.blocks)) (hharm : (s.effectOn k root).harmless) {path : List BlockId}
    (hlap : r.Lap k root region path) : netCount (r.turnsOf k root path) = 0 := by
  refine Summary.netCount_lap (fun hnone => ?_) (hs.right hk hl hred) (fun x hx => ?_) hlap
  · cases hs with
    | of hr' _ _ hcompute =>
      obtain rfl := Option.some.inj (hl.2.symm.trans hr')
      exact SummaryTable.turnsIn_of_root? hk.sound hr' hcompute hnone
  · rcases s.effectOn_cases k root with hint | ⟨z, hz, hshape, -⟩ | ⟨-, hnone, -⟩
    · exact absurd hint (Effect.harmless_iff_turn?.mp hharm).1
    · rwa [Option.some.inj (hx.symm.trans hz)]
    · cases hx.symm.trans hnone

namespace Facts.Passage

variable (h : k.Passage r root l s)
include h

theorem not_interferes (hb : b ∈ l.blocks) (hi : i ∈ (r.codeAt b).body) : ¬ (k.effect root i).interferes := by
  intro hint
  obtain ⟨e, he⟩ := Option.isSome_iff_exists.mp ((h.takes b hb i hi).interference_isSome hint)
  exact (Effect.harmless_iff_turn?.mp h.harmless).1 (Summary.interferes_of_interference he)

theorem effect_cases (hb : b ∈ l.blocks) (hi : i ∈ (r.codeAt b).body) :
    (k.effect root i).harmless ∨ k.effect root i = .retain ∨ k.effect root i = .release :=
  Effect.cases_of_not_interferes (h.not_interferes hb hi)

theorem harmless_of_nothing (hnothing : s.effectOn k root = .nothing) (hb : b ∈ l.blocks)
    (hi : i ∈ (r.codeAt b).body) : (k.effect root i).harmless := by
  have hcovers := (h.takes b hb i hi).covers root
  rw [Summary.Covers] at hcovers
  rcases h.effect_cases hb hi with hharm | heff | heff
  · exact hharm
  all_goals
    rw [heff, hnothing] at hcovers
    rcases hcovers with hint | ⟨-, -, -, huse⟩
    · cases hint
    · cases huse

end Facts.Passage

def Facts.SummedBelow (k : Facts) (r : Routine) (id : Nat) (get : Nat → Option Summary) : Prop :=
  ∀ c, k.forest.parentOf c = some id → ∃ s, get c = some s ∧ k.Summed r c s

namespace Layout

theorem Passes.passage (hk : k.Describes r) (hr : k.forest.regions[id]? = some region)
    (hred : r.flow.Reducible r.entry (· ∈ region.blocks)) (hget : k.SummedBelow r id get)
    (h : (Layout.of r k id region (some get)).Passes root b) (hb : b ∈ region.blocks) :
    ∃ c l s, k.forest.childAt id b = some c ∧ k.forest.parentOf c = some id ∧ k.forest.IsLoop c l ∧
      b ∈ l.blocks ∧ get c = some s ∧ k.Passage r root l s := by
  obtain ⟨c, hc, hharm, htarget⟩ := h
  obtain ⟨hp, l, hl, -⟩ := child_of hk.sound hc
  obtain ⟨s, hs, hsummed⟩ := hget c hp
  have hmem : ∀ {t}, t ∈ l.blocks ↔ t ∈ region.blocks ∧ k.forest.childAt id t = some c :=
    hk.sound.mem_child_iff hr hp hl
  have hharm' : (s.effectOn k root).harmless := by
    rwa [show (Layout.of r k id region (some get)).summary c = some s from hs, Option.getD_some] at hharm
  refine ⟨c, l, s, hc, hp, hl, hmem.mpr ⟨hb, hc⟩, hs, hharm', fun t ht i hi => hsummed.takes hk.sound hl.2 ht hi,
    fun path hlap => hsummed.netCount_lap hk hl ?_ hharm' hlap, fun t ht j i hi => ?_⟩
  · exact hred.mono fun t ht => (hmem.mp ht).1
  · exact htarget ⟨t, j⟩ i (hmem.mp ht).1 (hmem.mp ht).2 hi

/-- The number at a point, given those of the child loops. -/
def netIn (f : Forest) (id : Nat) (net : Nat → Point → Int) (p : Point) : Int :=
  (f.childAt id p.block).elim 0 fun c => net c p

theorem netIn_inner {f : Forest} {net : Nat → Point → Int} (h : f.childAt id p.block = some c) :
    netIn f id net p = net c p := by
  rw [netIn, h]
  rfl

section Edges

variable {net : Nat → Point → Int} {t : Nat} (hk : k.Describes r) (hr : k.forest.regions[id]? = some region)
  (hred : r.flow.Reducible r.entry (· ∈ region.blocks)) (hget : k.SummedBelow r id get)
  (hnet : ∀ c l s, k.forest.IsLoop c l → k.Passage r root l s → r.LapNet k root l (net c))
include hk hr hred hget hnet

/-- Where control comes to from outside of the child there, nothing has been counted. -/
theorem netIn_start (hreach : r.flow.Reaches r.entry b) (he : r.flow.Edge b t) (ht : t ∈ region.blocks)
    (hpt : k.forest.childAt id t = none ∨ (Layout.of r k id region (some get)).Passes root t)
    (hout : ∀ c, k.forest.childAt id t = some c → k.forest.childAt id b ≠ some c) :
    netIn k.forest id net ⟨t, 0⟩ = 0 := by
  rcases hpt with hnone | hpass
  · rw [netIn, hnone]
    rfl
  · obtain ⟨c, l, s, hc, hparent, hl, hmem, -, hpassage⟩ := hpass.passage hk hr hred hget ht
    have hb : b ∉ l.blocks := fun hb => hout c hc ((hk.sound.mem_child_iff hr hparent hl).mp hb).2
    obtain rfl := hk.sound.enters_at_header hl.2 hreach he hb hmem
    rw [netIn_inner hc]
    exact (hnet c l s hl hpassage).at_header hmem

/-- Along an edge the number stays, unless the edge leads to where the root no longer matters. -/
theorem netIn_edge (hreach : r.flow.Reaches r.entry b) (he : r.flow.Edge b t) (hb : b ∈ region.blocks)
    (ht : t ∈ region.blocks) (hpb : k.forest.childAt id b = none ∨ (Layout.of r k id region (some get)).Passes root b)
    (hpt : k.forest.childAt id t = none ∨ (Layout.of r k id region (some get)).Passes root t)
    (hlive : ¬ k.quietExit r root t) :
    netIn k.forest id net ⟨t, 0⟩ = netIn k.forest id net ⟨b, (r.codeAt b).body.length⟩ := by
  have hstart := netIn_start hk hr hred hget hnet hreach he ht hpt
  rcases hpb with hnone | hpass
  · rw [hstart fun c _ => by rw [hnone]; exact nofun, netIn, hnone]
    rfl
  · obtain ⟨c, l, s, hc, hparent, hl, hmem, -, hpassage⟩ := hpass.passage hk hr hred hget hb
    have hlap := hnet c l s hl hpassage
    have hin : t ∈ l.blocks ↔ k.forest.childAt id t = some c := by
      rw [hk.sound.mem_child_iff hr hparent hl, and_iff_right ht]
    rw [netIn_inner (p := ⟨b, _⟩) hc]
    by_cases hsame : t ∈ l.blocks
    · rw [netIn_inner (p := ⟨t, 0⟩) (hin.mp hsame)]
      by_cases hne : t = l.header
      · rw [hlap.closes hk.sound hl hpassage.laps hmem he (.inl hne), hne]
        exact hlap.at_header (hne ▸ hsame)
      · exact hlap.inside hk.sound hl hmem he hsame hne
    · rw [hlap.closes hk.sound hl hpassage.laps hmem he (.inr ⟨hsame, hlive⟩)]
      refine hstart fun c' hc' hcb => hsame (hin.mpr ?_)
      rwa [Option.some.inj (hc.symm.trans hcb)]

end Edges

/-- The operations of the child loops that a region passes over can be told at each point. -/
theorem exists_nets (hk : k.Describes r) (hr : k.forest.regions[id]? = some region) (hp : r.Proper)
    (hred : r.flow.Reducible r.entry (· ∈ region.blocks)) (hget : k.SummedBelow r id get) (root : Var) :
    ∃ net, (Layout.of r k id region (some get)).Nets root net := by
  have hone : ∀ c, ∃ net : Point → Int, ∀ l s, k.forest.IsLoop c l → k.Passage r root l s → r.LapNet k root l net := by
    intro c
    by_cases h : ∃ l s, k.forest.IsLoop c l ∧ k.Passage r root l s
    · obtain ⟨l, s, hl, hs⟩ := h
      obtain ⟨net, hnet⟩ := hk.sound.exists_lapNet hl hs.laps
      exact ⟨net, fun l' s' hl' _ => hl.unique hl' ▸ hnet⟩
    · exact ⟨fun _ => 0, fun l s hl hs => absurd ⟨l, s, hl, hs⟩ h⟩
  choose net hnet using hone
  refine ⟨netIn k.forest id net, fun {p} hc => ?_, fun {p i} hreach hb hpass hi => ?_,
    fun {b t} hreach he hb ht hpb hpt => ?_, fun {p i m o} hat hb hpass hi heff ho => ?_⟩
  · rw [netIn, show k.forest.childAt id p.block = none from hc]
    rfl
  · obtain ⟨c, l, s, hc, -, hl, hmem, -, hpassage⟩ := hpass.passage hk hr hred hget hb
    have hstep := (hnet c l s hl hpassage).step hk.sound hl hmem hi
    rw [← Facts.turn?_effect] at hstep
    rw [netIn_inner hc, netIn_inner (p := ⟨p.block, p.index + 1⟩) hc, hstep]
    rcases hpassage.effect_cases hmem (Routine.mem_body_of_instrAt? hi) with hharm | heff | heff
    · refine .inl ⟨hharm, ?_⟩
      rw [(Effect.harmless_iff_turn?.mp hharm).2]
      exact Int.add_zero _
    · exact .inr (.inl ⟨heff, by rw [heff]; rfl⟩)
    · exact .inr (.inr ⟨heff, by rw [heff]; rfl⟩)
  · by_cases hlive : k.quietExit r root t
    · exact .inr hlive
    · exact .inl (netIn_edge hk hr hred hget hnet hreach he hb ht hpb hpt hlive)
  · obtain ⟨c, l, s, -, -, hl, hmem, -, hpassage⟩ := hpass.passage hk hr hred hget hb
    obtain ⟨v, kind, rfl, hroot⟩ := Facts.effect_eq_release heff
    have hi' : r.instrAt? p = some (.release v kind) := hi
    exact hp.two_le_of_returns (hk.sound.leads_in_loop hl hpassage.spares hmem hmem (Routine.index_lt hi')
      (Nat.le_of_lt (Routine.index_lt hi'))) hat hi' (fun m hat => hk.env_of_root hp hat hi' (.head _) hroot) ho

end Layout

namespace Closure.Standing

variable {c : Closure} {y : Layout} {down up : Nat → Option Pending} {x q : Point} {n : Nat}

/-- A use that a retain of the closure comes to, where control does not trap, is entered for it: some
release comes back there, and answers the retain. -/
theorem used_of_passed (hc : c.Standing y down up) (h : y.Sound)
    (htraps : ∀ n, ∀ s ∈ y.flat.succs n, y.flat.traps n → y.flat.traps s) (hn : n ∈ y.order)
    (heff : y.flat.effects c.root n = [(q, .use)]) (hlive : ¬ y.flat.traps n) (hx : x ∈ c.retains)
    (ha : Awaits ((y.flat.downWalk c.root).into down n) x) : y.flat.retainLedger.Used x := by
  have hdown := y.flat.downWalk_plain c.root
  have hup := y.flat.upWalk_plain c.root
  have hflow : (y.flat.downWalk c.root).Flows x n (y.flat.effects c.root n) := by
    have hinto : (y.flat.downWalk c.root).Flows x n [] :=
      hc.down.flows_of_awaits hdown (Layout.downWalk_sorted h c.root) hn (List.nil_append _).symm ha
    rw [heff]
    exact .pass (show y.flat.effects c.root n = [] ++ [(q, .use)] from heff) rfl hinto
  -- some release is pending there, looking back
  obtain ⟨d, hd, htied⟩ := hc.tight.answered x hx
  have hfed := (y.downWalk_dual c.root).fed hup (y.upWalk_goes c.root) hc.up (hc.tight.release d hd) htraps
    ((hc.retains x hx).meets htied) (fun _ _ _ _ _ _ => Layout.effects_unique (.inl rfl)) hflow hlive
  obtain ⟨pending, hpending⟩ := Option.ne_none_iff_exists'.mp hfed
  obtain ⟨hne, hback⟩ := hc.up.pending_flows hup (Layout.upWalk_sorted h c.root) (List.mem_reverse.mpr hn)
    (List.nil_append _).symm hpending
  obtain ⟨z, hz⟩ := List.exists_mem_of_ne_nil _ hne
  have hused : AwaitsUsed ((y.flat.downWalk c.root).along down n (y.flat.effects c.root n)) x := by
    obtain ⟨p, hp, hmem⟩ := ha
    rw [heff, Walk.along, List.foldl_cons, List.foldl_nil, hdown.after_of_harmless rfl, hp]
    exact ⟨_, rfl, hmem, rfl⟩
  obtain ⟨m, before, rest, hm, heff', -, p, hp, hmem, hpused⟩ := (y.upWalk_dual c.root).returns
    (hc.down.used_carried hdown (y.downWalk_goes c.root) (hc.tight.retain x hx)) (hback z hz) rfl
    (show n ∈ y.order ∧ AwaitsUsed ((y.flat.downWalk c.root).along down n
      ((y.flat.upWalk c.root).effects n).reverse) x from
      ⟨hn, by rw [← (y.upWalk_dual c.root).effects]; exact hused⟩)
  have hmet : (y.flat.downWalk c.root).effects m = rest.reverse ++ (z, .release) :: before.reverse := by
    rw [(y.upWalk_dual c.root).effects, heff']
    simp [Flat.upWalk]
  exact (((hc.down.told m hm).marks _ _ _ hmet).answered (fun hharm => by cases hharm) rfl p hp x hmem).2 hpused

theorem calm (hc : c.Standing (Layout.of r k id region (some get)) down up) (hk : k.Describes r)
    (hr : k.forest.regions[id]? = some region) (hp : r.Proper) (hred : r.flow.Reducible r.entry (· ∈ region.blocks))
    (hget : k.SummedBelow r id get) (hunused : c.used = false) : c.Calm (Layout.of r k id region (some get)) down := by
  intro p i x hreach hchild hx ha hi
  have hv := Layout.of_views hk hr hp get
  obtain ⟨n, hs⟩ := Layout.stands_of_retainsAt ha
  have hn := (hv.reached hs).mpr hreach
  have hpass := (hc.passes hv hreach hx ha).resolve_left fun hnone => by
    rw [hnone] at hchild
    cases hchild
  obtain ⟨d, l, s, hd, -, hl, hmem, hsummary, hpassage⟩ := hpass.passage hk hr hred hget hs.1
  cases heff : s.effectOn k c.root with
  | nothing => exact hpassage.harmless_of_nothing heff hmem (Routine.mem_body_of_instrAt? hi)
  | use =>
    refine absurd ?_ (hc.tight.spared hunused x hx)
    have hplace : (Layout.of r k id region (some get)).places[n]? = some (.loop d) := by
      rw [hs.2, Layout.placeOf, show (Layout.of r k id region (some get)).child p.block = some d from hd]
    obtain ⟨q, e, heffects, -, -, he⟩ := Layout.effects_inner c.root hplace
    rw [show (Layout.of r k id region (some get)).summary d = some s from hsummary, Option.getD_some] at he
    obtain rfl : e = .use := he.trans heff
    have hlive : ¬ (Layout.of r k id region (some get)).flat.traps n := fun htraps =>
      ((hk.traps p.block).mp ((Layout.traps_stands hk.sound hs).mp htraps)).not_inLoop
        (hk.sound.forest.natural hl).header ((hk.sound.mem_loop_iff hl).mp hmem)
    rw [Layout.retainsAt_inner hs hchild] at ha
    exact hc.used_of_passed hv.sound (Layout.traps_succs hk.sound hr) hn heffects hlive hx ha
  | _ => exact absurd hpassage.harmless (by rw [heff]; decide)

end Closure.Standing

end CountMotion
