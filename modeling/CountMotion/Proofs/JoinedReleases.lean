import CountMotion.Proofs.Entering
import CountMotion.Proofs.Lawfulness
import CountMotion.Proofs.Moves

/-! Releases that sink to a join do so one for one: on every path, each of them is followed by the
join, and the join by none before the next of them. -/
namespace CountMotion

namespace Routine

variable {r : Routine} {p q goal : Point} {trace : List Point}

/-- Control goes from a point to the next, through a block or along an edge. -/
inductive Goes (r : Routine) : Point → Point → Prop where
  | on {p : Point} : p.index < (r.codeAt p.block).body.length → Goes r p ⟨p.block, p.index + 1⟩
  | jump {p : Point} {t : BlockId} : p.index = (r.codeAt p.block).body.length → r.flow.Edge p.block t → Goes r p ⟨t, 0⟩

/-- The points that control passes, from the entry on. -/
structure Trace (r : Routine) (trace : List Point) : Prop where
  starts : trace.head? = some ⟨r.entry, 0⟩
  goes : trace.IsChain r.Goes

/-- An instruction or a terminator that a release may sink past. -/
def SilentAt (r : Routine) (p : Point) : Prop := Flat.silentAt (r.codeAt p.block) p.index

/-- Whatever way control takes from the point, it comes to the goal, through silent code only. -/
inductive Inevitable (r : Routine) (goal : Point) : Point → Prop where
  | here : Inevitable r goal goal
  | step {p : Point} : r.SilentAt p → (∃ q, r.Goes p q) → (∀ q, r.Goes p q → Inevitable r goal q) →
      Inevitable r goal p

/-- A member counts as true, the goal as false, and nothing else counts. -/
def mark (members : List Point) (goal p : Point) : Option Bool :=
  if p ∈ members then some true else if p = goal then some false else none

theorem mark_cases (members : List Point) (goal p : Point) : (p ∈ members ∧ mark members goal p = some true) ∨
    p ∉ members ∧ ((p = goal ∧ mark members goal p = some false) ∨ (p ≠ goal ∧ mark members goal p = none)) := by
  rw [mark]
  split
  · exact .inl ⟨‹_›, rfl⟩
  · split
    · exact .inr ⟨‹_›, .inl ⟨‹_›, rfl⟩⟩
    · exact .inr ⟨‹_›, .inr ⟨‹_›, rfl⟩⟩

def marks (members : List Point) (goal : Point) (trace : List Point) : List Bool := trace.filterMap (mark members goal)

theorem marks_snoc (members : List Point) (goal : Point) (trace : List Point) (p : Point) :
    marks members goal (trace ++ [p]) = marks members goal trace ++ (mark members goal p).toList := by
  rw [marks, List.filterMap_append, marks]
  cases h : mark members goal p <;> simp [h]

/-- On every path members and arrivals at the goal take turns, a member first, with silent code
only from each member to the next arrival. -/
structure OneForOne (r : Routine) (members : List Point) (goal : Point) : Prop where
  turns : ∀ trace, r.Trace trace → Alternates (marks members goal trace)
  ahead : ∀ trace, r.Trace trace → ∀ d ∈ trace, d ∈ members →
    (∃ q, r.Goes d q) ∧ ∀ q, r.Goes d q → r.Inevitable goal q
  behind : ∀ trace, r.Trace (trace ++ [goal]) → ∃ before d between, trace = before ++ d :: between ∧ d ∈ members ∧
    ∀ p ∈ between, r.SilentAt p ∧ p ∉ members ∧ p ≠ goal

def Placed (r : Routine) (p : Point) : Prop :=
  r.flow.Reaches r.entry p.block ∧ p.index ≤ (r.codeAt p.block).body.length

theorem Placed.goes (h : r.Placed p) (hg : r.Goes p q) : r.Placed q := by
  cases hg with
  | on hlt => exact ⟨h.1, hlt⟩
  | jump _ he => exact ⟨h.1.edge he, Nat.zero_le _⟩

theorem Trace.placed (h : r.Trace trace) : ∀ p ∈ trace, r.Placed p := by
  refine h.goes.induction r.Placed trace (fun _ _ hg hp => hp.goes hg) fun hne => ?_
  rw [(List.head?_eq_some_head hne).symm.trans h.starts |> Option.some.inj]
  exact ⟨.refl .., Nat.zero_le _⟩

end Routine

namespace Layout

open Routine

variable {y : Layout} {root : Var} {members : List Point} {target join : Nat} {above below : Nat → Prop}
  {p q : Point} {trace : List Point}

/-- Releases that can sink to a join, and no way that leaves the region before it. -/
structure Merges (y : Layout) (root : Var) (members : List Point) (target : BlockId) (join : Nat)
    (above below : Nat → Prop) : Prop where
  joins : y.Joins root members target join above below
  entered : y.Entered
  stays : ∀ {x b t}, x ∈ members → y.routine.flow.Path (· ≠ target) x.block b → y.routine.flow.Edge b t →
    y.facts.quietExit y.routine root t → t ∈ y.region.blocks

/-- A member was passed, and the join not yet. -/
def Due (y : Layout) (members : List Point) (target : BlockId) (join : Nat) (below : Nat → Prop) (p : Point) : Prop :=
  ((∃ x ∈ members, x.block = p.block ∧ x.index < p.index) ∨ ∃ n, y.Stands p.block n ∧ below n ∧ n ≠ join) ∧
    ∃ x ∈ members, y.routine.flow.Path (· ≠ target) x.block p.block

/-- No member was passed since the last arrival at the join, but one still comes before the next. -/
def Clear (y : Layout) (members : List Point) (target : BlockId) (above : Nat → Prop) (p : Point) : Prop :=
  p ≠ ⟨target, 0⟩ ∧ ∀ n, y.Stands p.block n → above n → ∃ x ∈ members, x.block = p.block ∧ p.index ≤ x.index

namespace Merges

variable (h : y.Merges root members target join above below)
include h

theorem index_lt {d : Point} (hd : d ∈ members) : d.index < (y.routine.codeAt d.block).body.length := by
  obtain ⟨v, kind, hi, -⟩ := (h.joins.own d hd).release_at
  exact Routine.index_lt hi

theorem ne_goal {d : Point} (hd : d ∈ members) : d ≠ ⟨target, 0⟩ := by
  rintro rfl
  exact h.joins.outside _ hd rfl

theorem not_silent {d : Point} (hd : d ∈ members) : ¬ y.routine.SilentAt d := by
  obtain ⟨v, kind, hi, -⟩ := (h.joins.own d hd).release_at
  intro hs
  exact Bool.false_ne_true (Flat.silent_of_silentAt (i := .release v kind) hs hi)

theorem silent_of_due (hp : y.routine.Placed p) (hdue : y.Due members target join below p) : y.routine.SilentAt p :=
  (h.joins.silentAt hp.2 hdue.1).1

theorem due_of_member {d : Point} (hd : d ∈ members) (hg : y.routine.Goes d q) : y.Due members target join below q := by
  have hlt := h.index_lt hd
  cases hg with
  | on => exact ⟨.inl ⟨d, hd, rfl, Nat.lt_succ_self _⟩, d, hd, .here (h.joins.outside d hd)⟩
  | jump hend => exact absurd hend (Nat.ne_of_lt hlt)

/-- Along an edge, what is due stays due until the join. -/
theorem due_edge {t : Nat} (hp : y.routine.Placed p) (hdue : y.Due members target join below p)
    (he : y.routine.flow.Edge p.block t) :
    (y.Due members target join below ⟨t, 0⟩ ∧ y.rank p.block < y.rank t) ∨ t = target := by
  obtain ⟨hwhere, x, hx, hpath⟩ := hdue
  have hfrom : (∃ x ∈ members, x.block = p.block) ∨ ∃ n, y.Stands p.block n ∧ below n ∧ n ≠ join :=
    hwhere.imp_left fun ⟨x, hx, hb, _⟩ => ⟨x, hx, hb⟩
  by_cases ht : t = target
  · exact .inr ht
  · rcases h.joins.goes_on h.entered hp.1 he hfrom with ⟨hmid, hrank⟩ | rfl | ⟨hout, hexit⟩
    · exact .inl ⟨⟨.inr hmid, x, hx, .snoc hpath he ht⟩, hrank⟩
    · exact .inr rfl
    · exact absurd (h.stays hx hpath he hexit) hout

theorem due_goes (hp : y.routine.Placed p) (hdue : y.Due members target join below p) (hg : y.routine.Goes p q) :
    y.Due members target join below q ∨ q = ⟨target, 0⟩ := by
  cases hg with
  | on => exact .inl ⟨hdue.1.imp_left fun ⟨x, hx, hb, hlt⟩ => ⟨x, hx, hb, Nat.lt_succ_of_lt hlt⟩, hdue.2⟩
  | jump _ he =>
    rcases h.due_edge hp hdue he with ⟨hdue, -⟩ | rfl
    · exact .inl hdue
    · exact .inr rfl

/-- What is not due stays so until the next member. -/
theorem clear_goes (hp : y.routine.Placed p) (hclear : y.Clear members target above p ∨ p = ⟨target, 0⟩)
    (hmember : p ∉ members) (hg : y.routine.Goes p q) : y.Clear members target above q := by
  have hzone : ∀ n, y.Stands p.block n → above n → ∃ x ∈ members, x.block = p.block ∧ p.index < x.index := by
    intro n hs habove
    rcases hclear with ⟨-, hzone⟩ | rfl
    · obtain ⟨x, hx, hb, hle⟩ := hzone n hs habove
      refine ⟨x, hx, hb, Nat.lt_of_le_of_ne hle fun heq => hmember ?_⟩
      rwa [show p = x from congr (congrArg Point.mk hb.symm) heq]
    · exact absurd habove (h.joins.not_above hs)
  cases hg with
  | on =>
    refine ⟨fun heq => Nat.succ_ne_zero _ (Point.mk.inj heq).2, fun n hs habove => ?_⟩
    obtain ⟨x, hx, hb, hlt⟩ := hzone n hs habove
    exact ⟨x, hx, hb, hlt⟩
  | @jump t hend he =>
    have hno : ∀ {n}, y.Stands t n → (n = join ∨ (above n ∧ ∀ x ∈ members, x.block ≠ t)) → False := by
      intro n hs hfrom
      obtain ⟨s, hs', habove⟩ := h.joins.comes_from h.entered hs hp.1 he hfrom
      obtain ⟨x, hx, hb, hlt⟩ := hzone s hs' habove
      have := h.index_lt hx
      rw [hb] at this
      omega
    refine ⟨fun heq => ?_, fun n hs habove => ?_⟩
    · obtain ⟨rfl, -⟩ := Point.mk.inj heq
      exact hno h.joins.stands (.inl rfl)
    · by_contra hall
      exact hno hs (.inr ⟨habove, fun x hx hb => hall ⟨x, hx, hb, Nat.zero_le _⟩⟩)

/-- Where something is due, control can go on. -/
theorem exists_goes (hp : y.routine.Placed p) (hdue : y.Due members target join below p) : ∃ q, y.routine.Goes p q := by
  rcases Nat.lt_or_eq_of_le hp.2 with hlt | heq
  · exact ⟨_, .on hlt⟩
  · obtain ⟨n, hn, hchild, hcont, -⟩ := h.joins.continues (hdue.1.imp_left fun ⟨x, hx, hb, _⟩ => ⟨x, hx, hb⟩)
    simp only [Flat.continues, Bool.and_eq_true, Bool.not_eq_true', List.isEmpty_eq_false_iff] at hcont
    obtain ⟨s, hs⟩ := List.exists_mem_of_ne_nil _ hcont.2
    obtain ⟨b, t, htarget, hb, ht⟩ := exists_target (mem_succs.mp hs).2.1
    obtain ⟨rfl, -⟩ := Stands.eq_block hb (hn.own hchild)
    refine ⟨⟨t, 0⟩, .jump heq (Routine.edge_flow.mpr (Routine.mem_next_flow.mpr ⟨_, ?_, htarget, ?_⟩))⟩
    · exact Routine.getElem?_codeAt (h.entered.sound.exists_block _ hn.1)
    · exact h.entered.sound.exists_block _ ht.1

/-- From where something is due every way leads to the join: through the block, then to blocks
further ahead. -/
theorem inevitable (hp : y.routine.Placed p) (hdue : y.Due members target join below p) :
    y.routine.Inevitable ⟨target, 0⟩ p := by
  induction hk : y.order.length - y.rank p.block using Nat.strong_induction_on generalizing p with
  | _ k ahead =>
    induction hl : (y.routine.codeAt p.block).body.length - p.index generalizing p with
    | zero =>
      refine .step (h.silent_of_due hp hdue) (h.exists_goes hp hdue) fun q hg => ?_
      cases hg with
      | on hlt => omega
      | @jump t hend he =>
        rcases h.due_edge hp hdue he with ⟨hdue', hrank⟩ | rfl
        · have hle : y.rank t ≤ y.order.length := List.idxOf_le_length
          exact ahead (y.order.length - y.rank t) (by omega) (hp.goes (.jump hend he)) hdue' rfl
        · exact .here
    | succ l on =>
      refine .step (h.silent_of_due hp hdue) (h.exists_goes hp hdue) fun q hg => ?_
      cases hg with
      | on hlt =>
        rcases h.due_goes hp hdue (.on hlt) with hdue' | heq
        · refine on (hp.goes (.on hlt)) hdue' hk ?_
          show (y.routine.codeAt p.block).body.length - (p.index + 1) = l
          omega
        · exact absurd (Point.mk.inj heq).2 (Nat.succ_ne_zero _)
      | jump hend => omega

end Merges

/-- How far a trace has come with members and arrivals. -/
structure Come (y : Layout) (members : List Point) (target : BlockId) (join : Nat) (above below : Nat → Prop)
    (trace : List Point) (p : Point) : Prop where
  turns : Alternates (marks members ⟨target, 0⟩ trace)
  due : (marks members ⟨target, 0⟩ trace).getLast? = some true →
    (y.Due members target join below p ∨ p = ⟨target, 0⟩) ∧
      ∃ before d between, trace = before ++ d :: between ∧ d ∈ members ∧
        ∀ q ∈ between, y.routine.SilentAt q ∧ q ∉ members ∧ q ≠ ⟨target, 0⟩
  clear : (marks members ⟨target, 0⟩ trace).getLast? ≠ some true → y.Clear members target above p

namespace Merges

variable (h : y.Merges root members target join above below)
include h

theorem come_start : y.Come members target join above below [] ⟨y.routine.entry, 0⟩ := by
  obtain ⟨hne, hbefore⟩ := h.joins.begins h.entered
  refine ⟨.nil, nofun, fun _ => ⟨fun heq => hne (Point.mk.inj heq).1, fun n hs habove => ?_⟩⟩
  obtain ⟨x, hx, hb⟩ := hbefore n hs habove
  exact ⟨x, hx, hb, Nat.zero_le _⟩

theorem turns_snoc (hp : y.routine.Placed p) (hcome : y.Come members target join above below trace p) :
    Alternates (marks members ⟨target, 0⟩ (trace ++ [p])) := by
  rw [marks_snoc]
  rcases mark_cases members ⟨target, 0⟩ p with ⟨hmember, hmark⟩ | ⟨-, ⟨hgoal, hmark⟩ | ⟨-, hmark⟩⟩ <;> rw [hmark]
  · refine hcome.turns.snoc ⟨fun hlast => ?_, nofun⟩
    rcases (hcome.due hlast).1 with hdue | hgoal
    · exact absurd (h.silent_of_due hp hdue) (h.not_silent hmember)
    · exact absurd hgoal (h.ne_goal hmember)
  · refine hcome.turns.snoc ⟨fun _ => rfl, fun _ => ?_⟩
    by_contra hlast
    exact (hcome.clear hlast).1 hgoal
  · rw [Option.toList_none, List.append_nil]
    exact hcome.turns

theorem come_goes (hp : y.routine.Placed p) (hcome : y.Come members target join above below trace p)
    (hg : y.routine.Goes p q) : y.Come members target join above below (trace ++ [p]) q := by
  refine ⟨h.turns_snoc hp hcome, fun hlast => ?_, fun hlast => ?_⟩ <;> rw [marks_snoc] at hlast <;>
    rcases mark_cases members ⟨target, 0⟩ p with ⟨hmember, hmark⟩ | ⟨hother, ⟨hgoal, hmark⟩ | ⟨hne, hmark⟩⟩ <;>
    rw [hmark] at hlast
  · exact ⟨.inl (h.due_of_member hmember hg), trace, p, [], rfl, hmember, nofun⟩
  · simp at hlast
  · rw [Option.toList_none, List.append_nil] at hlast
    obtain ⟨hdue, before, d, between, rfl, hd, hbetween⟩ := hcome.due hlast
    have hdue := hdue.resolve_right hne
    refine ⟨h.due_goes hp hdue hg, before, d, between ++ [p], by simp, hd, fun q hq => ?_⟩
    rcases List.mem_append.mp hq with hq | hq
    · exact hbetween q hq
    · obtain rfl := List.mem_singleton.mp hq
      exact ⟨h.silent_of_due hp hdue, hother, hne⟩
  · simp at hlast
  · exact h.clear_goes hp (.inr hgoal) hother hg
  · rw [Option.toList_none, List.append_nil] at hlast
    exact h.clear_goes hp (.inl (hcome.clear hlast)) hother hg

theorem come (htrace : y.routine.Trace (trace ++ [p])) : y.Come members target join above below trace p := by
  induction trace using List.reverseRecOn generalizing p with
  | nil =>
    obtain rfl : p = ⟨y.routine.entry, 0⟩ := Option.some.inj htrace.starts
    exact h.come_start
  | append_singleton trace q ih =>
    have hfirst : y.routine.Trace (trace ++ [q]) := by
      refine ⟨?_, (List.isChain_append.mp htrace.goes).1⟩
      rw [← htrace.starts, List.head?_append (l := trace ++ [q])]
      simp
    refine h.come_goes (hfirst.placed q (by simp)) (ih hfirst) ?_
    have := (List.isChain_append.mp htrace.goes).2.2
    exact this q (by simp) p (by simp)

theorem one_for_one : y.routine.OneForOne members ⟨target, 0⟩ where
  turns trace htrace := by
    rcases List.eq_nil_or_concat trace with rfl | ⟨trace, p, rfl⟩
    · exact .nil
    · rw [List.concat_eq_append] at htrace ⊢
      exact h.turns_snoc (htrace.placed p (by simp)) (h.come htrace)
  ahead trace htrace d hd hmember := by
    refine ⟨⟨_, .on (h.index_lt hmember)⟩, fun q hg => ?_⟩
    exact h.inevitable ((htrace.placed d hd).goes hg) (h.due_of_member hmember hg)
  behind trace htrace := by
    have hcome := h.come htrace
    refine (hcome.due ?_).2
    by_contra hlast
    exact (hcome.clear hlast).1 rfl

end Merges

end Layout

section Joining

variable {r : Routine} {k : Facts} {region : Region} {id : Nat} {root : Var} {members : List Point} {target join : Nat}
  {code : Block} {frozen : List (BlockId × Var)} {summary : Option (RegionId → Option Summary)}

/-- Before a post-dominator no way leaves the region for code that only traps: the ways from there
end, and the post-dominator lies in a loop. -/
theorem Facts.Describes.stays (hk : k.Describes r) (hpost : k.postDom.tree.Exact r.exitflow r.blocks.length)
    (hr : k.forest.regions[id]? = some region) (htarget : target ∈ region.blocks) {a b t : Nat}
    (hdom : k.postDom.postDominates target a) (hpath : r.flow.Path (· ≠ target) a b) (he : r.flow.Edge b t)
    (hquiet : k.quietExit r root t) : t ∈ region.blocks := by
  by_contra hout
  obtain ⟨-, hblocks⟩ | ⟨hheader, hblocks⟩ := hk.sound.region_cases hr
  · exact hout ((hblocks t).mpr he.2)
  · obtain ⟨c, x, hway, hx, htrap⟩ := (hk.doomed hquiet).path_to_trap
    have hleaving : c ∈ r.leaving := Routine.mem_leaving.mpr ⟨x, hx, by rw [htrap]; rfl⟩
    have haway : r.flow.Path (· ≠ target) t c := by
      refine hway.mono fun n hn heq => ?_
      exact hn.not_inLoop hheader (heq ▸ (hblocks target).mp htarget)
    exact Routine.not_path_of_postDominates hpost hdom (hk.sound.blocks_lt hr htarget) hleaving
      (hpath.trans (.cons hpath.last he haway))

/-- Merged releases sink to a block that post-dominates them. -/
theorem Flat.ReleaseMerge.postDominates (hpost : k.postDom.tree.Exact r.exitflow r.blocks.length)
    (hm : (Layout.of r k id region summary).flat.ReleaseMerge frozen root members target join code) {x : Point}
    (hx : x ∈ members) : k.postDom.postDominates target x.block := by
  obtain ⟨first, rest, hcommon, hmem⟩ := exists_fold_blocksOf hm.common
  exact PostDomTree.postDominates_of_common hpost hcommon x.block ((hmem _).mpr ⟨x, hx, rfl⟩)

theorem Flat.ReleaseMerge.merges (hk : k.Describes r) (hpost : k.postDom.tree.Exact r.exitflow r.blocks.length)
    (hr : k.forest.regions[id]? = some region)
    (hm : (Layout.of r k id region summary).flat.ReleaseMerge frozen root members target join code)
    (hown : ∀ x ∈ members, (Layout.of r k id region summary).Own .release root x) :
    ∃ above below, (Layout.of r k id region summary).Merges root members target join above below := by
  obtain ⟨hplace, -, -⟩ := Layout.ownNode_eq_some.mp hm.own
  have htarget := (Layout.block_mem_places (List.mem_of_getElem? hplace)).1
  obtain ⟨below, hreach⟩ := Layout.sinks_of_reach hm.reach
  obtain ⟨above, hgathers⟩ := Layout.gathers_of_follows hm.follows
  have hout : ∀ x ∈ members, x.block ≠ target := fun x hx heq =>
    hm.outside (mem_ascending.mpr (heq ▸ List.mem_map_of_mem hx))
  exact ⟨above, below, ⟨hreach, hgathers, hplace, hout, hown⟩, Layout.of_entered hk.sound hr summary,
    fun hx hpath he hquiet => hk.stays hpost hr htarget (hm.postDominates hpost hx) hpath he hquiet⟩

end Joining

/-- Where a round puts one release for several, their join post-dominates them and has the root,
and on every path the releases and the arrivals at the join match one for one. -/
theorem merged_releases_one_for_one (r : Routine) (k : Facts) (id : RegionId)
    (summary : Option (RegionId → Option Summary)) (f : Flat) (frozen : List (BlockId × Var)) (seeds : List Point)
    (found : Findings) (x : Exchange) (join : BlockId) (h : r.check = .ok ()) (hk : r.facts = .ok k)
    (hf : Flat.build r k id summary = .ok f) (hfound : f.findingsFrom frozen seeds = .ok found)
    (hx : x ∈ found.exchanges) (hnew : x.newReleases = [⟨join, 0⟩]) :
    (∀ d ∈ x.releases, k.postDom.postDominates join d.block ∧
      ∀ path : List BlockId, path.head? = some d.block → path.IsChain r.flow.Edge → ∀ b ∈ r.leaving,
        path.getLast? = some b → join ∈ path) ∧
    k.definedBefore r x.root ⟨join, 0⟩ = .ok true ∧ r.Available ⟨join, 0⟩ x.root ∧
    r.OneForOne x.releases ⟨join, 0⟩ := by
  have hdescribes := Routine.describes_of_check h hk
  have hpost := Routine.facts_postDom hk
  obtain ⟨region, hr, rfl⟩ := hdescribes.sound.exists_region hf
  obtain ⟨c, down, up, hc, hexchange⟩ :=
    Layout.standing_of_findingsFrom (Layout.of_sound hdescribes.sound hr summary) hfound hx
  obtain ⟨hroot, hreleases, target, n, code, hm, heq, hdef⟩ :=
    Flat.merge_of_newRelease (Layout.flat_current hdescribes.sound hr) hexchange (by rw [hnew]; exact .head _)
  obtain ⟨rfl, -⟩ := Point.mk.inj heq
  obtain ⟨above, below, hmerges⟩ := hm.merges hdescribes hpost hr hc.releases
  have hlt := hdescribes.sound.blocks_lt hr hmerges.joins.stands.1
  rw [hroot, hreleases]
  refine ⟨fun d hd => ⟨hm.postDominates hpost hd, fun path hhead hchain b hb hlast => ?_⟩, hdef,
    hdescribes.available hlt hdef, hmerges.one_for_one⟩
  by_contra hjoin
  refine Routine.not_path_of_postDominates hpost (hm.postDominates hpost hd) hlt hb ?_
  refine (Graph.path_of_chain hchain hhead (List.mem_of_getLast? hlast)).mono fun n hn heq => ?_
  exact hjoin (heq ▸ hn)

/-- Each trip retains, reads and releases the root, the last on two ways that meet again. -/
def splitReleases : Routine where
  name := "split_releases"
  params := [0, 1]
  blocks := [
    ⟨0, [], .jump 1⟩,
    ⟨1, [.retain 0 .strong, .call 2 0 [0] .readOnly], .branch 1 2 3⟩,
    ⟨2, [.release 0 .strong, .assign 3 (.literal .unit)], .jump 4⟩,
    ⟨3, [.release 0 .strong], .jump 5⟩,
    ⟨4, [], .jump 5⟩,
    ⟨5, [], .branch 1 1 6⟩,
    ⟨6, [], .ret 1⟩]
  entry := 0
  storage := [.reference, .trivial, .trivial, .trivial]

theorem merged_releases_one_for_one_splitReleases : splitReleases.check = .ok () ∧
    ∃ k f found x, splitReleases.facts = .ok k ∧ Flat.build splitReleases k 1 (some fun _ => none) = .ok f ∧
      f.findingsFrom [] [⟨1, 0⟩] = .ok found ∧ x ∈ found.exchanges ∧ x.newReleases = [⟨5, 0⟩] ∧
      x.releases = [⟨2, 0⟩, ⟨3, 0⟩] ∧
      (∀ d ∈ x.releases, k.postDom.postDominates 5 d.block ∧
        ∀ path : List BlockId, path.head? = some d.block → path.IsChain splitReleases.flow.Edge →
          ∀ b ∈ splitReleases.leaving, path.getLast? = some b → 5 ∈ path) ∧
      k.definedBefore splitReleases x.root ⟨5, 0⟩ = .ok true ∧ splitReleases.Available ⟨5, 0⟩ x.root ∧
      splitReleases.OneForOne x.releases ⟨5, 0⟩ := by
  have hrun : (splitReleases.facts.bind fun k => (Flat.build splitReleases k 1 (some fun _ => none)).bind fun f =>
      (f.findingsFrom [] [⟨1, 0⟩]).map Findings.exchanges) =
      .ok [⟨0, [], [⟨2, 0⟩, ⟨3, 0⟩], [], [⟨5, 0⟩]⟩] := by decide +kernel
  obtain ⟨k, hk, hrun⟩ := bind_eq_ok.mp hrun
  obtain ⟨f, hf, hrun⟩ := bind_eq_ok.mp hrun
  cases hfound : f.findingsFrom [] [⟨1, 0⟩] with
  | error fault => rw [hfound] at hrun; cases hrun
  | ok found =>
    rw [hfound] at hrun
    have hx : ⟨0, [], [⟨2, 0⟩, ⟨3, 0⟩], [], [⟨5, 0⟩]⟩ ∈ found.exchanges := by
      rw [Except.ok.inj hrun]
      exact .head _
    exact ⟨rfl, k, f, found, _, hk, hf, hfound, hx, rfl, rfl,
      merged_releases_one_for_one splitReleases k 1 _ f [] _ found _ 5 rfl hk hf hfound hx rfl⟩

end CountMotion
