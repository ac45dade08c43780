import CountMotion.Proofs.Entering
import CountMotion.Proofs.Forks
import CountMotion.Proofs.Lawfulness
import CountMotion.Proofs.Moves

/-! Retains that rise to a fork do so one for one: every way to one of them comes through the fork,
and every way from there meets one of them, or ends where the count no longer matters. -/
namespace CountMotion

/-- A member is among the effects, with only harmless ones before it and no other member after. -/
def MeetsOne (members : List Point) (effects : List (Point × Effect)) : Prop :=
  ∃ before x after, effects = before ++ (x, .retain) :: after ∧ x ∈ members ∧ (∀ e ∈ before, e.2.harmless) ∧
    ∀ z ∈ members, (z, .retain) ∉ after

theorem MeetsOne.prepend {members : List Point} {xs effects : List (Point × Effect)} (h : MeetsOne members effects)
    (hxs : ∀ e ∈ xs, e.2.harmless) : MeetsOne members (xs ++ effects) := by
  obtain ⟨before, x, after, rfl, hx, hbefore, hafter⟩ := h
  exact ⟨xs ++ before, x, after, by simp, hx, List.forall_mem_append.mpr ⟨hxs, hbefore⟩, hafter⟩

/-- After the first node, nothing on the way is more than harmless. All ways out of the region lead
to quiet exits, and a way that cannot go on traps. -/
structure Flat.Unmet (f : Flat) (root : Var) (n : Nat) (ns : List Nat) : Prop where
  harmless : ∀ e ∈ ns.flatMap (f.effects root), e.2.harmless
  quiet : ∀ m ∈ n :: ns, ¬ f.liveEscape root m
  traps : ∀ m, (n :: ns).getLast? = some m → f.succs m = [] → f.traps m

/-- A way over edges that lead ahead. -/
def Flat.Forward (f : Flat) (ns : List Nat) : Prop := ns.IsChain fun a b => b ∈ f.succs a

namespace Layout

variable {y : Layout} {root : Var} {members : List Point} {start n s : Nat} {ns : List Nat} {fan : Nat → Prop}
  {x z : Point}

theorem ahead_of_forward (h : y.flat.Forward (n :: ns)) : ∀ m ∈ n :: ns, y.Ahead n m := by
  refine h.induction (y.Ahead n) _ (fun _ _ hs ha => ha.tail hs) fun _ => ?_
  exact .refl

theorem effects_at {e : Effect} (hn : y.Stands x.block n) (hc : y.child x.block = none)
    (hx : x.index ≤ (y.routine.codeAt x.block).body.length)
    (he : y.facts.effectAt root (y.routine.codeAt x.block) x.index = e) (hne : e ≠ .nothing) :
    ∃ before after, y.flat.effects root n = before ++ (x, e) :: after ∧
      (∀ q ∈ before, ∃ l < x.index, q.2 = y.facts.effectAt root (y.routine.codeAt x.block) l) ∧
      ∀ q ∈ after, q.1.block = x.block ∧ x.index < q.1.index := by
  have hsplit : y.flat.effects root n = _ := effects_stands hn hc
  rw [trace_split hx, he, List.filter_append, List.filter_cons_of_pos (by simpa using hne)] at hsplit
  refine ⟨_, _, hsplit, fun q hq => ?_, fun q hq => ?_⟩
  · obtain ⟨l, hl, rfl⟩ := List.mem_map.mp (List.mem_filter.mp hq).1
    obtain ⟨i, hi, rfl⟩ := List.mem_take_iff_getElem.mp hl
    exact ⟨_, by simp only [positions, List.getElem_range]; omega, rfl⟩
  · obtain ⟨l, hl, rfl⟩ := List.mem_map.mp (List.mem_filter.mp hq).1
    obtain ⟨i, hi, rfl⟩ := List.mem_drop_iff_getElem.mp hl
    exact ⟨rfl, by simp only [positions, List.getElem_range]; omega⟩

theorem harmless_effects {b : Nat} (hb : y.Stands b n)
    (hown : y.child b = none → ∀ l ≤ (y.routine.codeAt b).body.length,
      (y.facts.effectAt root (y.routine.codeAt b) l).harmless)
    (hinner : ∀ c, y.child b = some c → (((y.summary c).getD .blackBox).effectOn y.facts root).harmless) :
    ∀ e ∈ y.flat.effects root n, e.2.harmless := by
  intro e he
  cases hc : y.child b with
  | none =>
    rw [effects_stands hb hc] at he
    obtain ⟨l, hl, rfl⟩ := List.mem_map.mp (List.mem_filter.mp he).1
    exact hown hc l (Nat.le_of_lt_succ (List.mem_range.mp hl))
  | some c =>
    obtain ⟨q, e', heff, -, -, rfl⟩ := effects_inner root (n := n) (c := c) (by rw [hb.2, placeOf, hc])
    rw [heff] at he
    obtain rfl := List.mem_singleton.mp (List.mem_filter.mp he).1
    exact hinner c hc

namespace Fanned

variable (hf : y.Fanned root members start fan) (hown : ∀ x ∈ members, y.Own .retain root x)
  (hapart : ∀ x ∈ members, ¬ y.flat.leadsOn members x)
include hown

theorem meets_one (hx : x ∈ members) (hxapart : ¬ y.flat.leadsOn members x) (hn : y.Stands x.block n)
    (hbefore : ∀ l < x.index, (y.facts.effectAt root (y.routine.codeAt x.block) l).harmless)
    (hway : y.flat.Forward (n :: ns)) : MeetsOne members ((n :: ns).flatMap (y.flat.effects root)) := by
  obtain ⟨-, -, -, hc, heff⟩ := hown x hx
  obtain ⟨v, kind, hi, -⟩ := (hown x hx).retain_at
  obtain ⟨before, after, hsplit, hfirst, hrest⟩ :=
    effects_at hn hc (Nat.le_of_lt (Routine.index_lt hi)) heff (by decide)
  have hno := not_leadsTo hxapart hn fun z hz => by
    obtain ⟨-, -, -, hc, -⟩ := hown z hz
    exact hc
  refine ⟨before, x, after ++ ns.flatMap (y.flat.effects root), by simp [hsplit], hx, fun q hq => ?_, fun z hz hmem => ?_⟩
  · obtain ⟨l, hl, heq⟩ := hfirst q hq
    exact heq ▸ hbefore l hl
  · refine hno ⟨z, hz, ?_⟩
    rcases List.mem_append.mp hmem with hmem | hmem
    · exact .inl (hrest _ hmem)
    · obtain ⟨m, hm, hmem⟩ := List.mem_flatMap.mp hmem
      obtain ⟨hplace, -⟩ := effects_own hmem (.inl rfl)
      obtain ⟨hstands, -⟩ := stands_of_place hplace
      cases ns with
      | nil => cases hm
      | cons s ns =>
        obtain ⟨hs, hway⟩ := List.isChain_cons_cons.mp hway
        exact .inr ⟨s, hs, m, hstands, ahead_of_forward hway m hm⟩

include hf hapart

/-- From a node that all paths leave into the fan, a way meets one member or none. -/
theorem one_or_unmet (hesc : ¬ y.flat.liveEscape root n) (hfan : ∀ s ∈ y.flat.succs n, fan s)
    (hend : y.flat.succs n = [] → y.flat.traps n) (hway : y.flat.Forward (n :: ns)) :
    MeetsOne members (ns.flatMap (y.flat.effects root)) ∨ y.flat.Unmet root n ns := by
  induction ns generalizing n with
  | nil =>
    refine .inr ⟨nofun, fun m hm => ?_, fun m hm => ?_⟩
    · exact List.mem_singleton.mp hm ▸ hesc
    · exact Option.some.inj hm ▸ hend
  | cons s ns ih =>
    obtain ⟨hs, hway⟩ := List.isChain_cons_cons.mp hway
    obtain ⟨b, hb⟩ := exists_stands_of_edge (edge_graph.mpr (mem_succs.mp hs).2.1)
    rcases hf.fans.inner (hfan s hs) hb with ⟨-, j, hj, hbefore⟩ | ⟨hclear, hinner, hesc', hnext⟩
    · exact .inl (meets_one hown hj (hapart _ hj) hb hbefore hway)
    · have hharmless := harmless_effects hb hclear hinner
      have hno : ∀ j, ⟨b, j⟩ ∉ members := by
        intro j hj
        obtain ⟨v, kind, hi, -⟩ := (hown _ hj).retain_at
        obtain ⟨-, -, -, hc, heff⟩ := hown _ hj
        have := hclear hc j (Nat.le_of_lt (Routine.index_lt hi))
        rw [heff] at this
        cases this
      rcases ih hesc' hnext (hf.traps (hfan s hs) hb hno) hway with hone | ⟨hrest, hquiet, htraps⟩
      · exact .inl (hone.prepend hharmless)
      · refine .inr ⟨List.forall_mem_append.mpr ⟨hharmless, hrest⟩, List.forall_mem_cons.mpr ⟨hesc, hquiet⟩, fun m hm => ?_⟩
        exact htraps m (by rwa [List.getLast?_cons_cons] at hm)

end Fanned

end Layout

section Forking

variable {r : Routine} {k : Facts} {region : Region} {id : Nat} {root : Var} {target start b n : Nat}
  {summary : Option (RegionId → Option Summary)}

/-- A block of a region that dominates another there lies on every way between their nodes. -/
theorem Layout.mem_of_forward (hk : k.Sound r) (hr : k.forest.regions[id]? = some region)
    (hstart : (Layout.of r k id region summary).places[start]? = some (.block target))
    (hdom : r.flow.Dominates r.entry target b) (hb : (Layout.of r k id region summary).Stands b n) {path : List Nat}
    (hway : (Layout.of r k id region summary).flat.Forward path)
    (hhead : path.head? = some (Layout.of r k id region summary).flat.entry) (hlast : path.getLast? = some n) :
    start ∈ path := by
  by_contra hout
  obtain ⟨hstands, -⟩ := stands_of_place hstart
  have hchain : path.IsChain (Layout.of r k id region summary).graph.Edge :=
    hway.imp fun _ _ hs => edge_graph.mpr (mem_succs.mp hs).2.1
  have hpath := Graph.path_of_chain hchain hhead (List.mem_of_getLast? hlast)
  have hinside : r.flow.Path (· ≠ target) region.header b := by
    refine (lift hk hr hpath (heads_header hk hr) (hk.reaches_header hr) hb).mono ?_
    rintro t ⟨z, hz, hmem⟩ rfl
    exact hout (hstands.unique hz ▸ hmem)
  have hfirst : r.flow.Path (· ≠ target) r.entry region.header := by
    by_contra hno
    exact hinside.first (Graph.Dominates.antisymm (hk.reaches_header hr) (hk.header_dominates hr hstands.1) hno)
  exact hdom (hfirst.trans hinside)

end Forking

/-- Where a round puts one retain for several, their fork dominates them and has the root, every
way ahead to one of them comes through it, and every way ahead from its end meets just one of them,
before anything else that touches the count. A way that meets none traps or leaves for a quiet exit. -/
theorem merged_retains_one_for_one (r : Routine) (k : Facts) (id : RegionId)
    (summary : Option (RegionId → Option Summary)) (f : Flat) (frozen : List (BlockId × Var)) (seeds : List Point)
    (found : Findings) (x : Exchange) (fork : BlockId) (index : Nat) (h : r.check = .ok ()) (hk : r.facts = .ok k)
    (hf : Flat.build r k id summary = .ok f) (hfound : f.findingsFrom frozen seeds = .ok found)
    (hx : x ∈ found.exchanges) (hnew : x.newRetains = [⟨fork, index⟩]) :
    ∃ start, f.ownNode fork = .ok (some (start, r.codeAt fork)) ∧ index = (r.codeAt fork).body.length ∧
      (∀ m ∈ x.retains, m.block ≠ fork ∧ k.dom.dominates fork m.block ∧
        r.flow.Dominates r.entry fork m.block ∧
        ∀ path n, f.Forward path → path.head? = some f.entry → f.nodeOf m.block = some n →
          path.getLast? = some n → start ∈ path) ∧
      k.definedBefore r x.root ⟨fork, index⟩ = .ok true ∧ r.Available ⟨fork, index⟩ x.root ∧
      ∀ ns, f.Forward (start :: ns) →
        MeetsOne x.retains (ns.flatMap (f.effects x.root)) ∨ f.Unmet x.root start ns := by
  have hdescribes := Routine.describes_of_check h hk
  obtain ⟨region, hr, rfl⟩ := hdescribes.sound.exists_region hf
  obtain ⟨c, down, up, hc, hexchange⟩ :=
    Layout.standing_of_findingsFrom (Layout.of_sound hdescribes.sound hr summary) hfound hx
  have hcurrent : (Layout.of r k id region summary).flat.Current := Layout.flat_current hdescribes.sound hr
  obtain ⟨hroot, hretains, target, start, code, hm, heq, hdef⟩ :=
    Flat.merge_of_newRetain hcurrent hexchange (by rw [hnew]; exact .head _)
  obtain ⟨rfl, rfl⟩ := Point.mk.inj heq
  obtain ⟨hplace, rfl, -⟩ := Layout.ownNode_eq_some.mp hm.own
  have hlt := hdescribes.sound.blocks_lt hr (Layout.block_mem_places (List.mem_of_getElem? hplace)).1
  obtain ⟨fan, hfan⟩ := Layout.fanned_of_meets hm.meets
  rw [hroot, hretains]
  have hown := (Flat.ownNode_eq hcurrent.indexed fork).trans (congrArg Except.ok hm.own)
  refine ⟨start, hown, rfl, fun m hmem => ?_, hdef, hdescribes.available hlt hdef, fun ns hway => ?_⟩
  · obtain ⟨hne, hdom, hdominates⟩ := hm.dominates hdescribes.sound.dom hmem
    refine ⟨hne.symm, hdom, hdominates, fun path n hway hhead hn hlast => ?_⟩
    exact Layout.mem_of_forward hdescribes.sound hr hplace hdominates (Layout.nodeOf_eq_some.mp hn) hway hhead hlast
  · obtain ⟨hesc, hnext⟩ := hfan.fans.first
    exact hfan.one_or_unmet hc.retains hm.apart hesc hnext (fun hnil => absurd hnil hfan.opens) hway

/-- Each trip forks to a retain, to another behind an inner loop, or out of the loop to a trap. -/
def forkedRetains : Routine where
  name := "forked_retains"
  params := [0, 1]
  blocks := [
    ⟨0, [], .jump 1⟩,
    ⟨1, [], .switch 1 [(0, 2), (1, 3)] 7⟩,
    ⟨2, [.retain 0 .strong], .jump 5⟩,
    ⟨3, [], .branch 1 3 4⟩,
    ⟨4, [.retain 0 .strong], .jump 5⟩,
    ⟨5, [.call 2 0 [0] .readOnly, .release 0 .strong], .branch 1 1 6⟩,
    ⟨6, [], .ret 1⟩,
    ⟨7, [], .trap⟩]
  entry := 0
  storage := [.reference, .trivial, .trivial]

theorem merged_retains_one_for_one_forkedRetains : forkedRetains.check = .ok () ∧
    ∃ k t f found x, forkedRetains.facts = .ok k ∧
      (SummaryTable.empty k.forest).summarize forkedRetains k 2 = .ok t ∧
      Flat.build forkedRetains k 1 (some t.get?) = .ok f ∧ f.findingsFrom [] [⟨2, 0⟩] = .ok found ∧
      x ∈ found.exchanges ∧ x.newRetains = [⟨1, 0⟩] ∧ x.retains = [⟨2, 0⟩, ⟨4, 0⟩] ∧
      ∃ start, f.ownNode 1 = .ok (some (start, forkedRetains.codeAt 1)) ∧
        0 = (forkedRetains.codeAt 1).body.length ∧
        (∀ m ∈ x.retains, m.block ≠ 1 ∧ k.dom.dominates 1 m.block ∧
          forkedRetains.flow.Dominates forkedRetains.entry 1 m.block ∧
          ∀ path n, f.Forward path → path.head? = some f.entry → f.nodeOf m.block = some n →
            path.getLast? = some n → start ∈ path) ∧
        k.definedBefore forkedRetains x.root ⟨1, 0⟩ = .ok true ∧ forkedRetains.Available ⟨1, 0⟩ x.root ∧
        ∀ ns, f.Forward (start :: ns) →
          MeetsOne x.retains (ns.flatMap (f.effects x.root)) ∨ f.Unmet x.root start ns := by
  have hrun : (forkedRetains.facts.bind fun k =>
      ((SummaryTable.empty k.forest).summarize forkedRetains k 2).bind fun t =>
        (Flat.build forkedRetains k 1 (some t.get?)).bind fun f =>
          (f.findingsFrom [] [⟨2, 0⟩]).map Findings.exchanges) =
      .ok [⟨0, [⟨2, 0⟩, ⟨4, 0⟩], [], [⟨1, 0⟩], []⟩] := by decide +kernel
  obtain ⟨k, hk, hrun⟩ := bind_eq_ok.mp hrun
  obtain ⟨t, ht, hrun⟩ := bind_eq_ok.mp hrun
  obtain ⟨f, hf, hrun⟩ := bind_eq_ok.mp hrun
  cases hfound : f.findingsFrom [] [⟨2, 0⟩] with
  | error fault => rw [hfound] at hrun; cases hrun
  | ok found =>
    rw [hfound] at hrun
    have hx : ⟨0, [⟨2, 0⟩, ⟨4, 0⟩], [], [⟨1, 0⟩], []⟩ ∈ found.exchanges := by
      rw [Except.ok.inj hrun]
      exact .head _
    exact ⟨rfl, k, t, f, found, _, hk, ht, hf, hfound, hx, rfl, rfl,
      merged_retains_one_for_one forkedRetains k 1 _ f [] _ found _ 1 0 rfl hk hf hfound hx rfl⟩

end CountMotion
