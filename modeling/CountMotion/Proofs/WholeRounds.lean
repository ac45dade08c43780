import CountMotion.Proofs.Driving
import CountMotion.Proofs.Forks
import CountMotion.Proofs.Lawfulness
import CountMotion.Proofs.Moves

/-! Rounds over a whole routine keep what runs show, if the retains of each root are even. -/
namespace CountMotion

variable {r : Routine} {k : Facts} {region : Region} {b n : Nat} {root : Var}

namespace Layout

theorem whole_stands (hk : k.Sound r) (hr : k.forest.regions[0]? = some region) :
    (whole r k region).Stands b n ↔ n = b ∧ b < r.blocks.length := by
  rw [Stands, show (whole r k region).region.blocks = _ from (whole_blocks hk hr).2, List.mem_range,
    whole_places_getElem? hk hr]
  constructor
  · rintro ⟨hb, hplace⟩
    split at hplace
    · exact ⟨Place.block.inj (Option.some.inj hplace), hb⟩
    · cases hplace
  · rintro ⟨rfl, hb⟩
    exact ⟨hb, if_pos hb⟩

theorem whole_views (hk : k.Describes r) (hr : k.forest.regions[0]? = some region) (hp : r.Proper) :
    (whole r k region).Views := by
  have hblocks := whole_blocks hk.sound hr
  have horder := searchOrder (of_sound hk.sound hr none)
  rw [whole_graph hk.sound hr, whole_entry hk.sound hr] at horder
  have hstands : ∀ {b}, b ∈ region.blocks → (whole r k region).Stands b b := fun hb =>
    (whole_stands hk.sound hr).mpr ⟨rfl, by rwa [hblocks.2, List.mem_range] at hb⟩
  refine ⟨of_sound hk.sound hr none, hp, hk, fun _ => hblocks.1.symm, fun {b t} _ he hb => ?_, fun {b n} hs => ?_,
    fun {b c} hb hc hreach hdom => ?_⟩
  · refine absurd ?_ hb
    show b ∈ region.blocks
    rw [hblocks.2, List.mem_range, ← Routine.size_flow]
    exact he.lt_size
  · obtain ⟨rfl, -⟩ := (whole_stands hk.sound hr).mp hs
    exact horder.mem_iff n
  · rw [(hstands hb).rank, (hstands hc).rank]
    exact horder.idxOf_le_of_dominates ((horder.mem_iff c).mpr hreach) hdom

end Layout

/-- Some retain of the root stands in the block. -/
def Routine.Retains (r : Routine) (root : Var) (b : BlockId) : Prop :=
  ∃ v kind, .retain v kind ∈ (r.codeAt b).body ∧ r.rootOf v = some root

/-- A cycle through a retain passes a common dominator of it and any other retain of the root, unless
one of the two dominates the other. -/
def Routine.Even (r : Routine) : Prop := ∀ root, r.flow.Even r.entry (r.Retains root)

section Even

variable {c : Closure} {down up : Nat → Option Pending} {target start : Nat} {code : Block}

private theorem whole_nodesOf (hk : k.Sound r) (hr : k.forest.regions[0]? = some region) {members : List Point}
    (hm : ∀ x ∈ members, x.block < r.blocks.length) :
    (Layout.whole r k region).nodesOf members = members.map Point.block := by
  rw [Layout.nodesOf, ← List.filterMap_eq_map]
  refine List.filterMap_congr fun x hx => ?_
  exact Layout.nodeOf_eq_some.mpr ((Layout.whole_stands hk hr).mpr ⟨rfl, hm x hx⟩)

theorem Closure.Standing.retains_whole (hc : c.Standing (Layout.whole r k region) down up) (hk : k.Describes r) :
    ∀ b ∈ c.retains.map Point.block, r.Retains c.root b := by
  intro b hb
  obtain ⟨x, hx, rfl⟩ := List.mem_map.mp hb
  obtain ⟨v, kind, hi, hv⟩ := (hc.retains x hx).retain_at
  exact ⟨v, kind, Routine.mem_body_of_instrAt? hi, (hk.root v).symm.trans hv⟩

/-- Merged retains rise to where the ways to them part. -/
theorem Closure.Standing.whole_parts (hc : c.Standing (Layout.whole r k region) down up) (hk : k.Describes r)
    (hr : k.forest.regions[0]? = some region) (hp : r.Proper)
    (hm : (Layout.whole r k region).flat.RetainMerge c.root c.retains target start code) :
    start = target ∧ start ∈ (Layout.whole r k region).order ∧
      (Layout.whole r k region).nodesOf c.retains = c.retains.map Point.block ∧
      r.flow.Parts r.entry (c.retains.map Point.block) target := by
  have hv := Layout.whole_views hk hr hp
  obtain ⟨hplace, -, hstart⟩ := Layout.ownNode_eq_some.mp hm.own
  obtain rfl : start = target := by
    rw [Layout.whole_places_getElem? hk.sound hr] at hplace
    split at hplace
    · exact Place.block.inj (Option.some.inj hplace)
    · cases hplace
  have hnodes := whole_nodesOf hk.sound hr fun x hx => hv.sound.exists_block _ ((hc.retains x hx).reached hv).1
  have hreach : ∀ x ∈ c.retains, r.flow.Reaches r.entry x.block := fun x hx => ((hc.retains x hx).reached hv).2
  obtain ⟨fan, hf⟩ := Layout.fans_of_meets hm.meets
  refine ⟨rfl, hstart, hnodes, ?_, ?_, fun d hd => ?_, fun d he => ?_⟩
  · exact List.forall_mem_map.mpr hreach
  · exact List.forall_mem_map.mpr fun x hx => (hv.dominates_of_merge hm hx).2
  · exact hv.dominates_merge hm fun x hx => ⟨hreach x hx, hd _ (List.mem_map_of_mem hx)⟩
  · have := hf.returns hv.sound hstart (d := d)
    rw [Layout.whole_graph hk.sound hr, hnodes] at this
    exact this he

theorem Closure.Standing.whole_guarded (hc : c.Standing (Layout.whole r k region) down up) (hk : k.Describes r)
    (hr : k.forest.regions[0]? = some region) (hp : r.Proper) (heven : r.Even) :
    c.Guarded (Layout.whole r k region) := by
  intro target start code fan hm hf
  obtain ⟨rfl, hstart, hnodes, hparts⟩ := hc.whole_parts hk hr hp hm
  refine Layout.guards (Layout.whole_views hk hr hp).sound hf hstart (fun z _ => rfl) hm.apart ?_ ?_ <;>
    rw [Layout.whole_graph hk.sound hr, Layout.whole_entry hk.sound hr, hnodes]
  · exact hparts
  · exact (heven c.root).mono (hc.retains_whole hk)

/-- A new retain comes where the ways to even retains part. -/
theorem Closure.Standing.new_retain (hc : c.Standing (Layout.whole r k region) down up) (hk : k.Describes r)
    (hr : k.forest.regions[0]? = some region) (hp : r.Proper) {frozen : List (BlockId × Var)} {x : Exchange}
    (h : (Layout.whole r k region).flat.exchange frozen c = .ok (some x)) {p : Point} (hnew : p ∈ x.newRetains) :
    ∃ members, (∀ b ∈ members, r.Retains x.root b) ∧ r.flow.Parts r.entry members p.block := by
  obtain ⟨hroot, -, target, start, code, hm, rfl, -⟩ :=
    Flat.merge_of_newRetain (Layout.flat_current hk.sound hr) h hnew
  exact ⟨_, hroot ▸ hc.retains_whole hk, (hc.whole_parts hk hr hp hm).2.2.2⟩

end Even

theorem Routine.rootOf_root {v x z : Var} (h : r.rootOf v = some x) (hx : r.rootOf x = some z) : z = x := by
  obtain ⟨-, -, hsource, -⟩ := rootOf_eq_some.mp h
  obtain ⟨-, ⟨n, hn⟩, -⟩ := rootOf_eq_some.mp hx
  cases hn with
  | self => rfl
  | step hs _ => cases hs.symm.trans hsource

theorem Routine.Retains.of_applied {xs : List Exchange} (hroot : ∀ x ∈ xs, ∃ v, r.rootOf v = some x.root)
    (hbare : ((Exchange.edits xs r).applied r).bare = r.bare)
    (h : ((Exchange.edits xs r).applied r).Retains root b) :
    r.Retains root b ∨ ∃ x ∈ xs, x.root = root ∧ ∃ p ∈ x.newRetains, p.block = b := by
  obtain ⟨v, kind, hi, hv⟩ := h
  rw [← rootOf_bare, hbare, rootOf_bare] at hv
  have hmem : .retain v kind ∈ (Exchange.edits xs r).newBody b (r.codeAt b).body := by
    rw [codeAt, Edits.applied, List.getElem?_mapIdx] at hi
    cases hx : r.blocks[b]? with
    | none => rw [hx] at hi; cases hi
    | some code =>
      rw [hx] at hi
      rwa [codeAt_eq hx]
  rcases Edits.mem_newBody hmem with hold | ⟨z, hz, rfl, heq⟩
  · exact .inl ⟨v, kind, hold, hv⟩
  · obtain ⟨x, hx, hz⟩ := List.mem_flatMap.mp hz
    rcases List.mem_append.mp hz with hz | hz
    · obtain ⟨p, hp, rfl⟩ := List.mem_map.mp hz
      obtain ⟨rfl, -⟩ := Instr.retain.inj heq
      obtain ⟨w, hw⟩ := hroot x hx
      exact .inr ⟨x, hx, (rootOf_root hw hv).symm, p, hp, rfl⟩
    · obtain ⟨p, -, rfl⟩ := List.mem_map.mp hz
      cases heq

/-- The contract is all that the machine asks of a routine. -/
theorem Routine.Lawful.proper {odd : Var → Prop} (h : r.Lawful odd) (hssa : r.SSA) (hsafe : r.Safe) : r.Proper :=
  ⟨h.wired, (h.single hssa.once).known, hssa, hsafe⟩

/-- What stays as it was for the pass and the machine. -/
structure Routine.Fit (r : Routine) (k : Facts) : Prop where
  describes : k.Describes r
  proper : r.Proper
  even : r.Even

/-- A round keeps what runs show. -/
theorem Rounds.Finds.preserves {frozen : Bool} {found : Findings} (h : Rounds.Finds r k frozen found) (hr : r.Fit k)
    (hfits : ∀ x ∈ found.exchanges, x.Fits r k) (hn : (found.exchanges.flatMap Exchange.removed).Nodup) :
    ((Exchange.edits found.exchanges r).applied r).Fit k ∧ ∀ script events, r.Yields script events →
      ((Exchange.edits found.exchanges r).applied r).Yields script events := by
  obtain ⟨hk, hp, heven⟩ := hr
  obtain ⟨f, pinned, hflat, hfound, -⟩ := h
  obtain ⟨region, hregion, -⟩ := hk.sound.forest.whole
  have hs := Layout.of_sound hk.sound hregion none
  obtain rfl := Except.ok.inj (hflat.symm.trans (hk.sound.build_eq hregion none))
  have hv := Layout.whole_views hk hregion hp
  have hstands : ∀ x ∈ found.exchanges, ∃ c down up, c.Standing (Layout.whole r k region) down up ∧
      (Layout.whole r k region).flat.exchange pinned c = .ok (some x) := fun x hx => Layout.standing_of_found hs hfound hx
  have hbare := (Exchange.edits_fit hfits hn).bare_applied
  obtain ⟨hproper, hyields⟩ := Exchange.preserve hp (fun x hx => by
    obtain ⟨c, down, up, hc, hx⟩ := hstands x hx
    refine hc.exchange_along hv (Layout.nets_of_childless (fun _ => rfl) c.root) (fun _ p i z _ hchild => ?_)
      (hc.whole_guarded hk hregion hp heven) hx
    cases hchild) hn
  refine ⟨⟨hk.of_bare hbare, hproper, fun root => ?_⟩, hyields⟩
  rw [Routine.flow_of_bare hbare, Routine.entry_of_bare hbare]
  refine ((heven root).union (q := fun b => ∃ x ∈ found.exchanges, x.root = root ∧ ∃ p ∈ x.newRetains, p.block = b)
    ?_).mono fun b hb => hb.of_applied (fun x hx => ?_) hbare
  · rintro _ ⟨x, hx, rfl, p, hnew, rfl⟩
    obtain ⟨c, down, up, hc, hx⟩ := hstands x hx
    exact hc.new_retain hk hregion hp hx hnew
  · obtain ⟨c, down, up, hc, hx⟩ := hstands x hx
    obtain ⟨v, hv⟩ := hc.exists_root
    refine ⟨v, (hk.root v).symm.trans ?_⟩
    rcases Flat.exchange_cases hx with ⟨-, rfl⟩ | ⟨-, -, -, -, rfl⟩ <;> exact hv

/-- The next routine shows all that the routine does, and it is as fit for the pass. -/
structure Routine.Keeps (r next : Routine) (p : Routine → Prop) : Prop where
  fit : p next
  yields : ∀ {script events}, r.Yields script events → next.Yields script events

theorem Routine.Keeps.trans {next last : Routine} {p : Routine → Prop} (h : r.Keeps next p) (h' : next.Keeps last p) :
    r.Keeps last p :=
  ⟨h'.fit, fun hy => h'.yields (h.yields hy)⟩

namespace Rounds

variable {c c' : Rounds} {next last : Routine} {frozen touched : Bool} {log : List RoundRecord}

theorem run_keeps (hr : r.Fit k) (h : c.run r k frozen = .ok (c', next, touched)) : r.Keeps next (·.Fit k) := by
  obtain ⟨found, d, next', touched', hfinds, hrun, hround, -⟩ := run_total hr.describes.sound c frozen
  obtain ⟨rfl, rfl, rfl⟩ : d = c' ∧ next' = next ∧ touched' = touched := by simpa using hrun.symm.trans h
  obtain ⟨hfit, hyields⟩ := hfinds.preserves hr hround.fits hround.nodup
  rw [hround.next_eq]
  exact ⟨hfit, fun hy => hyields _ _ hy⟩

theorem Settles.keeps (h : Settles k frozen c r log c' last) (hr : r.Fit k) : r.Keeps last (·.Fit k) := by
  induction h with
  | stop h => exact run_keeps hr h
  | again h _ ih =>
    have hkeeps := run_keeps hr h
    exact hkeeps.trans (ih hkeeps.fit)

theorem Finishes.keeps (h : Finishes k r log c last) (hr : r.Fit k) : r.Keeps last (·.Fit k) := by
  cases h with
  | quiet h _ => exact h.keeps hr
  | changed h _ rest =>
    have hkeeps := h.keeps hr
    exact hkeeps.trans (rest.keeps hkeeps.fit)

end Rounds

end CountMotion
