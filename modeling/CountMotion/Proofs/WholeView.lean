import CountMotion.Proofs.Views

/-! The whole routine with every block as its own node: a merge lands no deeper than some
operation that it replaces. -/
namespace CountMotion

variable {r : Routine} {k : Facts} {region : Region} {b n s : Nat}

/-- The layout of a whole routine with no loop collapsed. -/
abbrev Layout.whole (r : Routine) (k : Facts) (region : Region) : Layout := .of r k 0 region none

namespace Layout

private theorem eraseDups_of_nodup {α : Type} [DecidableEq α] {l : List α} (h : l.Nodup) : l.eraseDups = l := by
  induction l with
  | nil => rfl
  | cons a l ih =>
    obtain ⟨ha, hl⟩ := List.nodup_cons.mp h
    have : (l.filter fun b => !b == a) = l := by
      refine List.filter_eq_self.mpr fun b hb => ?_
      simpa using fun hba : b = a => ha (hba ▸ hb)
    rw [List.eraseDups_cons, this, ih hl]

theorem whole_blocks (hk : k.Sound r) (hr : k.forest.regions[0]? = some region) :
    region.header = r.entry ∧ region.blocks = List.range r.blocks.length := by
  obtain ⟨root, hroot, -, hheader, hblocks⟩ := hk.forest.whole
  obtain rfl := Option.some.inj (hr.symm.trans hroot)
  rw [Routine.size_flow] at hblocks
  exact ⟨hheader, hblocks⟩

theorem whole_places (hk : k.Sound r) (hr : k.forest.regions[0]? = some region) :
    (whole r k region).places = (List.range r.blocks.length).map .block := by
  have hmap : (whole r k region).residents.map Resident.place = (List.range r.blocks.length).map .block := by
    rw [residents, List.map_map, show (whole r k region).region.blocks = _ from (whole_blocks hk hr).2]
    rfl
  rw [places, hmap]
  exact eraseDups_of_nodup (List.nodup_range.map fun a b hab => Place.block.inj hab)

theorem whole_places_getElem? (hk : k.Sound r) (hr : k.forest.regions[0]? = some region) :
    (whole r k region).places[n]? = if n < r.blocks.length then some (.block n) else none := by
  rw [whole_places hk hr, List.getElem?_map]
  split
  · rw [List.getElem?_range ‹_›]
    rfl
  · rw [List.getElem?_eq_none (by rw [List.length_range]; omega)]
    rfl

theorem whole_locate (hk : k.Sound r) (hr : k.forest.regions[0]? = some region) :
    Flat.locate (whole r k region).residents (whole r k region).places b =
      if b < r.blocks.length then some b else none := by
  split
  · rename_i hb
    refine locate_eq_some.mpr ⟨?_, ?_⟩
    · rw [show (whole r k region).region.blocks = _ from (whole_blocks hk hr).2]
      exact List.mem_range.mpr hb
    · rw [whole_places_getElem? hk hr, if_pos hb]
      rfl
  · rename_i hb
    cases hl : Flat.locate (whole r k region).residents (whole r k region).places b with
    | none => rfl
    | some n =>
      have := (locate_eq_some.mp hl).1
      rw [show (whole r k region).region.blocks = _ from (whole_blocks hk hr).2, List.mem_range] at this
      exact absurd this hb

theorem whole_graph (hk : k.Sound r) (hr : k.forest.regions[0]? = some region) :
    (whole r k region).graph = r.flow := by
  have hnext : ∀ n, n < r.blocks.length → Flat.induced (whole r k region).residents
      (whole r k region).places n (.block n) = ((r.codeAt n).term.targets.filter fun t => t < r.blocks.length).eraseDups := by
    intro n hn
    have hplace : (whole r k region).places[n]? = some (.block n) := by rw [whole_places_getElem? hk hr, if_pos hn]
    rw [Flat.induced, targets_block (of_sound hk hr none) (List.mem_of_getElem? hplace)]
    congr 1
    rw [← List.filterMap_eq_filter]
    refine List.filterMap_congr fun t _ => ?_
    rw [whole_locate hk hr, Option.guard_apply]
    simp
  rw [graph, Routine.flow]
  congr 1
  refine List.ext_getElem? fun n => ?_
  rw [List.getElem?_map, List.getElem?_zipIdx, whole_places_getElem? hk hr, List.getElem?_map]
  split
  · rename_i hn
    obtain ⟨x, hx⟩ : ∃ x, r.blocks[n]? = some x := ⟨_, List.getElem?_eq_getElem hn⟩
    rw [hx]
    simpa [Routine.codeAt_eq hx] using hnext n hn
  · rename_i hn
    rw [List.getElem?_eq_none (Nat.le_of_not_lt hn)]
    rfl

theorem whole_entry (hk : k.Sound r) (hr : k.forest.regions[0]? = some region) :
    (whole r k region).entry = r.entry := by
  rw [entry, show (whole r k region).region.header = _ from (whole_blocks hk hr).1, whole_locate hk hr,
    if_pos hk.entry]
  rfl

end Layout

section Meetings

variable {f : Flat} {root : Var} {members : List Point}

private theorem scan_eq_hit {member barred : Nat → Bool} {positions : List Nat}
    (h : Flat.scan member barred positions = .hit) : ∃ i ∈ positions, member i := by
  rw [Flat.scan] at h
  split at h
  · rename_i i hi
    split at h
    · exact ⟨i, List.mem_of_find?_eq_some hi, ‹_›⟩
    · cases h
  · cases h

theorem Flat.scan_ne_dead {member barred : Nat → Bool} {positions : List Nat} :
    Flat.scan member barred positions ≠ .dead := by
  rw [Flat.scan]
  split
  · split <;> decide
  · decide

theorem Flat.meetRetain_cases (f : Flat) (root : Var) (members : List Point) (n : Nat) :
    f.meetRetain root members n = .barred ∨
      (f.meetRetain root members n = .hit ∧ ∃ b code i, f.block? n = some (b, code) ∧ ⟨b, i⟩ ∈ members) ∨
      (f.meetRetain root members n = .clear ∧ f.continues root n) ∨
      (f.meetRetain root members n = .dead ∧ f.succs n = [] ∧ ¬ f.liveEscape root n ∧ f.traps n) := by
  have after : ∀ (m : Meeting) (hit : Prop),
      (if (f.succs n).isEmpty && f.traps n && !f.liveEscape root n then .dead
        else if f.continues root n then .clear else .barred) = m → m = .barred ∨ (m = .hit ∧ hit) ∨ (m = .clear ∧ f.continues root n) ∨
        (m = .dead ∧ f.succs n = [] ∧ ¬ f.liveEscape root n ∧ f.traps n) := by
    intro m hit hm
    split at hm
    · rename_i hdead
      simp only [Bool.and_eq_true, List.isEmpty_iff, Bool.not_eq_true'] at hdead
      exact .inr (.inr (.inr ⟨hm.symm, hdead.1.1, by simp [hdead.2], hdead.1.2⟩))
    · split at hm
      · exact .inr (.inr (.inl ⟨hm.symm, ‹_›⟩))
      · exact .inl hm.symm
  rw [Flat.meetRetain]
  cases hb : f.block? n with
  | none =>
    dsimp only
    cases (f.effects root n).all fun x => x.2 == .use with
    | true => exact after _ _ rfl
    | false => exact .inl rfl
  | some x =>
    obtain ⟨b, code⟩ := x
    dsimp only
    cases hs : Flat.scan (fun i => members.contains ⟨b, i⟩)
        (fun i => !(f.facts.effectAt root code i).harmless) (List.range (code.body.length + 1)) with
    | hit =>
      obtain ⟨i, -, hi⟩ := scan_eq_hit hs
      exact .inr (.inl ⟨rfl, b, code, i, rfl, List.contains_iff_mem.mp hi⟩)
    | clear => exact after _ _ rfl
    | dead => exact absurd hs Flat.scan_ne_dead
    | barred => exact .inl rfl

theorem Flat.meetRelease_cases (f : Flat) (members : List Point) (n : Nat) :
    f.meetRelease members n = .barred ∨
      (f.meetRelease members n = .hit ∧ ∃ b code i, f.block? n = some (b, code) ∧ ⟨b, i⟩ ∈ members) ∨
      (f.meetRelease members n = .clear ∧ ¬ f.blindEntry n) := by
  rw [Flat.meetRelease]
  cases hb : f.block? n with
  | none => exact .inl rfl
  | some x =>
    obtain ⟨b, code⟩ := x
    dsimp only
    cases hs : Flat.scan (fun i => members.contains ⟨b, i⟩) (fun i => !Flat.silentAt code i)
        (List.range (code.body.length + 1)).reverse with
    | hit =>
      obtain ⟨i, -, hi⟩ := scan_eq_hit hs
      exact .inr (.inl ⟨rfl, b, code, i, rfl, List.contains_iff_mem.mp hi⟩)
    | clear =>
      dsimp only
      split
      · exact .inl rfl
      · rename_i hblind
        rw [Bool.or_eq_true, not_or] at hblind
        exact .inr (.inr ⟨rfl, hblind.1⟩)
    | dead => exact absurd hs Flat.scan_ne_dead
    | barred => exact .inl rfl

end Meetings

section Depth

variable {root : Var} {members : List Point} {target : Nat} {code : Block} {frozen : List (BlockId × Var)}

private theorem continues_next {y : Layout} (hn : n ∈ y.order) (hc : y.flat.continues root n)
    (hs : s ∈ y.graph.next n) : s ∈ y.flat.succs n := by
  refine Layout.mem_succs.mpr ⟨hn, hs, Decidable.not_not.mp fun hback => ?_⟩
  simp [Flat.continues, Layout.liveEscape_of_back hn hs hback] at hc

section Loops

variable {y : Layout} {h start join : Nat}

private theorem mem_order (hs : y.Sound) (hh : y.graph.Header y.entry h) (hn : y.graph.InLoop y.entry h n) :
    n ∈ y.order :=
  ((Layout.searchOrder hs).mem_iff n).mpr (hn.reached hh)

/-- If all paths from a node of a loop meet a member, the loop holds one: a path inside the
loop gets to a latch, from where it could not go on. -/
private theorem meets_in_loop (hs : y.Sound) (hh : y.graph.Header y.entry h)
    (hstart : y.graph.InLoop y.entry h start) (hm : y.flat.pathsMeet root members start) :
    ∃ x, y.graph.InLoop y.entry h x ∧ y.flat.meetRetain root members x = .hit := by
  refine Classical.byContradiction fun hno => ?_
  have hmiss : ∀ x, y.graph.InLoop y.entry h x → y.flat.meetRetain root members x ≠ .hit :=
    fun x hx hhit => hno ⟨x, hx, hhit⟩
  rw [Flat.pathsMeet, Bool.and_eq_true, List.all_eq_true] at hm
  obtain ⟨hcont, hopen⟩ := hm
  have key : ∀ x, y.graph.Path (fun n => y.graph.InLoop y.entry h n) start x → x = start ∨
      (x ∈ explore (List.range y.flat.size) (fun n => if y.flat.meetRetain root members n = .clear then y.flat.succs n else [])
        (y.flat.succs start) [] ∧ y.flat.meetRetain root members x = .clear) := by
    intro x hx
    induction hx with
    | here => exact .inl rfl
    | @snoc m x hsm he hxin ih =>
      have hmorder := mem_order hs hh hsm.last
      have hxrange := (Layout.mem_range_of_edge he).2
      have hfound : x ∈ explore (List.range y.flat.size)
          (fun n => if y.flat.meetRetain root members n = .clear then y.flat.succs n else [])
          (y.flat.succs start) [] := by
        rcases ih with rfl | ⟨hmem, hclear⟩
        · exact mem_explore_of_pending (continues_next hmorder hcont he.1) hxrange
        · refine explore_closed hmem List.not_mem_nil ?_ hxrange
          rcases y.flat.meetRetain_cases root members m with hb | ⟨hb, -⟩ | ⟨-, hgo⟩ | ⟨hb, -⟩
          · rw [hclear] at hb; cases hb
          · rw [hclear] at hb; cases hb
          · simpa [hclear] using continues_next hmorder hgo he.1
          · rw [hclear] at hb; cases hb
      rcases y.flat.meetRetain_cases root members x with hb | ⟨hb, -⟩ | ⟨hb, -⟩ | ⟨-, hnil, hstay, -⟩
      · have := hopen x hfound
        rw [hb] at this
        cases this
      · exact absurd hb (hmiss x hxin)
      · exact .inr ⟨hfound, hb⟩
      · obtain ⟨z, hxz, -⟩ := hxin.exists_next hh
        have hxorder := mem_order hs hh hxin
        by_cases hahead : y.order.idxOf x < y.order.idxOf z
        · have := Layout.mem_succs.mpr ⟨hxorder, hxz.1, hahead⟩
          rw [hnil] at this
          cases this
        · exact absurd (Layout.liveEscape_of_back hxorder hxz.1 hahead) hstay
  obtain ⟨l, hlatch, hpath⟩ := hstart.path_to_latch hh
  have hlorder := mem_order hs hh hpath.last
  have hgo : y.flat.continues root l := by
    rcases key l hpath with rfl | ⟨-, hclear⟩
    · exact hcont
    · rcases y.flat.meetRetain_cases root members l with hb | ⟨hb, -⟩ | ⟨-, hgo⟩ | ⟨hb, -⟩
      · rw [hclear] at hb; cases hb
      · rw [hclear] at hb; cases hb
      · exact hgo
      · rw [hclear] at hb; cases hb
  have hahead := (Layout.mem_succs.mp (continues_next hlorder hgo hlatch.edge.1)).2.2
  exact absurd hahead (Nat.not_lt.mpr ((Layout.searchOrder hs).idxOf_le_of_dominates hlorder hlatch.dominated))

/-- If all paths to a node of a loop come from members, the loop holds one: a path back inside
the loop gets to the header, before which it could not go. -/
private theorem follows_in_loop (hs : y.Sound) (hh : y.graph.Header y.entry h)
    (hjoin : y.graph.InLoop y.entry h join) (hm : y.flat.followMembers members join) :
    ∃ x, y.graph.InLoop y.entry h x ∧ y.flat.meetRelease members x = .hit := by
  refine Classical.byContradiction fun hno => ?_
  have hmiss : ∀ x, y.graph.InLoop y.entry h x → y.flat.meetRelease members x ≠ .hit :=
    fun x hx hhit => hno ⟨x, hx, hhit⟩
  rw [Flat.followMembers, Bool.and_eq_true, Bool.and_eq_true, List.all_eq_true] at hm
  obtain ⟨⟨hsees, -⟩, hopen⟩ := hm
  have ahead : ∀ {m x}, m ∈ y.order → x ∈ y.graph.next m → ¬ y.flat.blindEntry x → m ∈ y.flat.preds x := by
    intro m x hmorder hx hsees
    exact Layout.mem_preds.mpr ⟨hmorder, hx,
      Decidable.not_not.mp fun hback => hsees (Layout.blindEntry_of_back hmorder hx hback)⟩
  suffices key : ∀ x, y.graph.Path (fun n => y.graph.InLoop y.entry h n) h x → ¬ y.flat.blindEntry x →
      (x = join ∨ (x ∈ explore (List.range y.flat.size)
        (fun n => if y.flat.meetRelease members n = .clear then y.flat.preds n else [])
        (y.flat.preds join) [] ∧ y.flat.meetRelease members x = .clear)) → False from
    key join (hjoin.path_from_header hh) (by simpa using hsees) (.inl rfl)
  intro x hx
  induction hx with
  | here =>
    intro hblind _
    obtain ⟨l, hlatch⟩ := hh
    have hlorder := ((Layout.searchOrder hs).mem_iff l).mpr hlatch.reached
    have hahead := (Layout.mem_preds.mp (ahead hlorder hlatch.edge.1 hblind)).2.2
    exact absurd hahead (Nat.not_lt.mpr ((Layout.searchOrder hs).idxOf_le_of_dominates hlorder hlatch.dominated))
  | @snoc m x hhm he _ ih =>
    intro hblind hx
    have hpred := ahead (mem_order hs hh hhm.last) he.1 hblind
    have hmrange := (Layout.mem_range_of_edge he).1
    have hfound : m ∈ explore (List.range y.flat.size)
        (fun n => if y.flat.meetRelease members n = .clear then y.flat.preds n else [])
        (y.flat.preds join) [] := by
      rcases hx with rfl | ⟨hmem, hclear⟩
      · exact mem_explore_of_pending hpred hmrange
      · exact explore_closed hmem List.not_mem_nil (by simpa [hclear] using hpred) hmrange
    rcases y.flat.meetRelease_cases members m with hb | ⟨hb, -⟩ | ⟨hclear, hsees⟩
    · have := hopen m hfound
      rw [hb] at this
      cases this
    · exact absurd hb (hmiss m hhm.last)
    · exact ih hsees (.inr ⟨hfound, hclear⟩)

end Loops

private theorem depth_le_of_innermost (hk : k.Sound r) (hne : members ≠ [])
    (h : ∀ i l, k.forest.IsLoop i l → l.holds target → ∃ x ∈ members, l.holds x.block) :
    ∃ x ∈ members, k.forest.depthAt target ≤ k.forest.depthAt x.block := by
  rcases hk.forest.innermost_cases target with ⟨-, hempty⟩ | ⟨l, hl, ht, hset⟩
  · obtain ⟨x, hx⟩ := List.exists_mem_of_ne_nil _ hne
    exact ⟨x, hx, hk.forest.depthAt_le (by rw [hempty]; exact Finset.empty_subset _)⟩
  · obtain ⟨x, hx, hlx⟩ := h _ l hl ht
    refine ⟨x, hx, hk.forest.depthAt_le fun j hj => ?_⟩
    rw [hset] at hj
    obtain ⟨m, hm, hh⟩ := Forest.mem_loopsAt.mp hj
    exact Forest.mem_loopsAt.mpr ⟨m, hm, hk.forest.holds_of_header hm hl hh hlx⟩

private theorem block_of_hit (hk : k.Sound r) (hr : k.forest.regions[0]? = some region) {x : Nat}
    (h : ∃ b code i, (Layout.whole r k region).flat.block? x = some (b, code) ∧ (⟨b, i⟩ : Point) ∈ members) :
    ∃ p ∈ members, p.block = x := by
  obtain ⟨b, code, i, hblock, hmem⟩ := h
  have hplace := (Layout.block?_eq_some.mp hblock).1
  rw [Layout.whole_places_getElem? hk hr] at hplace
  split at hplace
  · exact ⟨_, hmem, (Place.block.inj (Option.some.inj hplace)).symm⟩
  · cases hplace

private theorem own_of_target (hk : k.Sound r) (hr : k.forest.regions[0]? = some region)
    (hown : (Layout.whole r k region).flat.ownNode? target = some (n, code)) : n = target := by
  have hplace := (Layout.ownNode_eq_some.mp hown).1
  rw [Layout.whole_places_getElem? hk hr] at hplace
  split at hplace
  · exact Place.block.inj (Option.some.inj hplace)
  · cases hplace

theorem Facts.Sound.whole_view (hk : k.Sound r) (hr : k.forest.regions[0]? = some region) :
    (Layout.whole r k region).flat.Sound r k := by
  have hs := Layout.of_sound hk hr none
  have hgraph := Layout.whole_graph hk hr
  have hentry := Layout.whole_entry hk hr
  have hloop : ∀ {i l}, k.forest.IsLoop i l →
      (Layout.whole r k region).graph.Header (Layout.whole r k region).entry l.header ∧
      ∀ x, l.holds x ↔ (Layout.whole r k region).graph.InLoop (Layout.whole r k region).entry l.header x := by
    intro i l hl
    rw [hgraph, hentry]
    exact ⟨(hk.forest.natural hl).header, (hk.forest.natural hl).holds_iff⟩
  have hne : ∀ {members : List Point}, 2 ≤ (blocksOf members).length → members ≠ [] := by
    rintro members h rfl
    exact absurd h (by decide)
  refine ⟨rfl, rfl, Layout.flat_current hk hr, hk.root_lt, fun h => (Layout.acts_retain hk hr h).2,
    fun h => (Layout.acts_release hk hr h).2, ?_, ?_⟩
  · intro root members target n code _ hm
    refine depth_le_of_innermost hk (hne hm.several) fun i l hl ht => ?_
    obtain ⟨hh, hin⟩ := hloop hl
    obtain rfl := own_of_target hk hr hm.own
    obtain ⟨x, hx, hhit⟩ := meets_in_loop hs hh ((hin n).mp ht) hm.meets
    rcases (Layout.whole r k region).flat.meetRetain_cases root members x with hb | ⟨-, hb⟩ | ⟨hb, -⟩ | ⟨hb, -⟩
    · rw [hhit] at hb; cases hb
    · obtain ⟨p, hp, rfl⟩ := block_of_hit hk hr hb
      exact ⟨p, hp, (hin p.block).mpr hx⟩
    · rw [hhit] at hb; cases hb
    · rw [hhit] at hb; cases hb
  · intro frozen root members target n code _ hm
    refine depth_le_of_innermost hk (hne hm.several) fun i l hl ht => ?_
    obtain ⟨hh, hin⟩ := hloop hl
    obtain rfl := own_of_target hk hr hm.own
    obtain ⟨x, hx, hhit⟩ := follows_in_loop hs hh ((hin n).mp ht) hm.follows
    rcases (Layout.whole r k region).flat.meetRelease_cases members x with hb | ⟨-, hb⟩ | ⟨hb, -⟩
    · rw [hhit] at hb; cases hb
    · obtain ⟨p, hp, rfl⟩ := block_of_hit hk hr hb
      exact ⟨p, hp, (hin p.block).mpr hx⟩
    · rw [hhit] at hb; cases hb

end Depth

end CountMotion
