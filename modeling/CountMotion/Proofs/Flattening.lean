import CountMotion.Proofs.Entering
import CountMotion.Proofs.Lawfulness

/-! A flat region keeps account of every edge of the routine: each is followed ahead, kept as an
exit, hidden in a collapsed loop, or cut with a mark at both ends. -/
namespace CountMotion

/-- Just one of the statements holds. -/
def ExactlyOne : List Prop → Prop
  | [] => False
  | p :: ps => (p ∧ ∀ q ∈ ps, ¬ q) ∨ ¬ p ∧ ExactlyOne ps

namespace Flat

def exitsAt (f : Flat) (n : Nat) : List BlockId := (f.nodes[n]?.map Node.exits).getD []

def latchAt (f : Flat) (n : Nat) : Bool := (f.nodes[n]?.map Node.latch).getD false

def reenteredAt (f : Flat) (n : Nat) : Bool := (f.nodes[n]?.map Node.reentered).getD false

def collapsedAt (f : Flat) (n : Nat) : Bool :=
  match f.nodes[n]?.map Node.content with
  | some (.loop _ _ _) => true
  | _ => false

def Next (f : Flat) (m n : Nat) : Prop := n ∈ f.succs m

def LeadsTo (f : Flat) : Nat → Nat → Prop := Relation.ReflTransGen f.Next

/-- An edge of the routine leads from a block at the one node to a block at the other. -/
def Joins (f : Flat) (r : Routine) (m n : Nat) : Prop :=
  ∃ b t, f.nodeOf b = some m ∧ r.flow.Edge b t ∧ f.nodeOf t = some n

/-- An edge of the routine from a block at a reached node. -/
structure Departs (f : Flat) (r : Routine) (n : Nat) (b t : BlockId) : Prop where
  stands : f.nodeOf b = some n
  reached : f.reached n
  edge : r.flow.Edge b t

section Fates

variable (f : Flat) (n : Nat) (t : BlockId)

/-- The edge leads out of the region, and its target is kept. -/
def Leaves (region : Region) : Prop := t ∉ region.blocks ∧ t ∈ f.exitsAt n

/-- Both ends of the edge lie in one collapsed loop. -/
def Stays : Prop := f.collapsedAt n ∧ f.nodeOf t = some n

/-- The edge is kept at both ends, and leads to a later node. -/
def Advances : Prop :=
  ∃ s, f.nodeOf t = some s ∧ s ∈ f.succs n ∧ n ∈ f.preds s ∧ f.order.idxOf n < f.order.idxOf s

/-- Both ends of the edge are marked, and edges that lead ahead close a cycle with it. -/
def Retreats : Prop := ∃ s, f.nodeOf t = some s ∧ f.latchAt n ∧ f.reenteredAt s ∧ f.LeadsTo s n

end Fates

/-- A flat form of a region that shows each block once and accounts for each edge. Child loops are
collapsed if there are summaries to show for them. -/
structure Accounts (f : Flat) (r : Routine) (k : Facts) (id : RegionId) (region : Region)
    (summary : Option (RegionId → Option Summary)) : Prop where
  stands_iff : ∀ b, (∃ n, f.nodeOf b = some n) ↔ b ∈ region.blocks
  node_iff : ∀ n, (∃ b, f.nodeOf b = some n) ↔ n < f.size
  block_node : ∀ n b code, f.block? n = some (b, code) →
    r.blocks[b]? = some code ∧ ∀ x, f.nodeOf x = some n ↔ x = b
  loop_node : ∀ n c header s, f.nodes[n]?.map Node.content = some (.loop c header s) →
    ∃ l get, k.forest.parentOf c = some id ∧ k.forest.IsLoop c l ∧ header = l.header ∧ summary = some get ∧
      s = (get c).getD .blackBox ∧ ∀ x, f.nodeOf x = some n ↔ x ∈ l.blocks
  alone_iff : ∀ b, (∃ n code, f.block? n = some (b, code)) ↔ b ∈ region.blocks ∧
    (summary.isSome → ∀ c l, k.forest.parentOf c = some id → k.forest.IsLoop c l → b ∉ l.blocks)
  entry : f.nodeOf region.header = some f.entry
  order_nodup : f.order.Nodup
  acyclic : ∀ n, ¬ Relation.TransGen f.Next n n
  fate : ∀ n b t, f.Departs r n b t →
    ExactlyOne [f.Leaves n t region, f.Stays n t, f.Advances n t, ¬ f.Stays n t ∧ f.Retreats n t]
  of_succs : ∀ n s, s ∈ f.succs n → ∃ b t, f.Departs r n b t ∧ f.nodeOf t = some s ∧ f.Advances n t
  of_preds : ∀ s n, n ∈ f.preds s → ∃ b t, f.Departs r n b t ∧ f.nodeOf t = some s ∧ f.Advances n t
  of_exits : ∀ n t, t ∈ f.exitsAt n → ∃ b, f.Departs r n b t ∧ f.Leaves n t region
  of_latch : ∀ n, f.latchAt n → ∃ b t, f.Departs r n b t ∧ ¬ f.Stays n t ∧ f.Retreats n t
  of_reentered : ∀ s, f.reenteredAt s →
    ∃ n b t, f.Departs r n b t ∧ f.nodeOf t = some s ∧ ¬ f.Stays n t ∧ f.Retreats n t
  reached_iff : ∀ n, f.reached n ↔ f.LeadsTo f.entry n
  reached_iff_joined : ∀ n, f.reached n ↔ Relation.ReflTransGen (f.Joins r) f.entry n

end Flat

namespace Layout

variable {y : Layout} {b c t m n s : Nat}

section Marks

theorem latchAt_iff : y.flat.latchAt n ↔
    n ∈ y.order ∧ ∃ s ∈ y.graph.next n, ¬ y.order.idxOf n < y.order.idxOf s := by
  rw [Flat.latchAt, getElem?_nodes]
  cases hn : y.places[n]? with
  | none =>
    rw [next_graph, hn]
    simp
  | some place =>
    simp only [Option.map_some, Option.getD_some, node_latch, Bool.and_eq_true, List.contains_iff_mem,
      List.any_eq_true, Bool.not_eq_true', ahead, decide_eq_false_iff_not]

theorem reenteredAt_iff : y.flat.reenteredAt s ↔
    ∃ n ∈ y.order, s ∈ y.graph.next n ∧ ¬ y.order.idxOf n < y.order.idxOf s := by
  rw [Flat.reenteredAt, getElem?_nodes]
  cases hs : y.places[s]? with
  | none =>
    simp only [Option.map_none, Option.getD_none, Bool.false_eq_true, false_iff]
    rintro ⟨n, -, hnext, -⟩
    obtain ⟨_, _, -, -, -, hplace⟩ := exists_target hnext
    rw [hs] at hplace
    cases hplace
  | some place =>
    simp only [Option.map_some, Option.getD_some, node_reentered, Bool.and_eq_true, List.contains_iff_mem,
      List.any_eq_true, Bool.not_eq_true', ahead, decide_eq_false_iff_not]

theorem collapsedAt_iff : y.flat.collapsedAt n ↔ ∃ c, y.places[n]? = some (.loop c) := by
  rw [Flat.collapsedAt, getElem?_nodes]
  cases y.places[n]? with
  | none => simp
  | some place => cases place <;> simp [node, Flat.nodeAt, content]

theorem mem_exitsAt : t ∈ y.flat.exitsAt n ↔
    ∃ b, y.Stands b n ∧ t ∈ (y.routine.codeAt b).term.targets ∧ t ∉ y.region.blocks := by
  rw [Flat.exitsAt, getElem?_nodes]
  constructor
  · intro h
    cases hn : y.places[n]? with
    | none => rw [hn] at h; cases h
    | some place =>
      rw [hn] at h
      obtain ⟨hmem, hout⟩ := List.mem_filter.mp (List.mem_eraseDups.mp h)
      obtain ⟨x, hx, ht⟩ := List.mem_flatMap.mp hmem
      obtain ⟨hx, hplace⟩ := List.mem_filter.mp hx
      obtain ⟨b, hb, rfl⟩ := List.mem_map.mp hx
      exact ⟨b, ⟨hb, hn.trans (congrArg some (beq_iff_eq.mp hplace).symm)⟩, ht,
        locate_eq_none.mp (Option.isNone_iff_eq_none.mp hout)⟩
  · rintro ⟨b, hb, ht, hout⟩
    rw [hb.2]
    refine List.mem_eraseDups.mpr (List.mem_filter.mpr ⟨mem_targets_of_stands hb ht, ?_⟩)
    exact Option.isNone_iff_eq_none.mpr (locate_eq_none.mpr hout)

end Marks

section Order

theorem leadsTo_of_climbs (h : y.Sound) (hc : y.graph.Climbs y.order s n) : y.flat.LeadsTo s n := by
  refine Relation.ReflTransGen.mono (fun a b hab => mem_succs.mpr ?_) s n hc
  exact ⟨hab.2.subset (.head _), edge_graph.mp hab.1, Graph.idxOf_lt_of_sublist (searchOrder h).nodup hab.2⟩

theorem idxOf_lt_of_next (hl : Relation.TransGen y.flat.Next s n) : y.order.idxOf s < y.order.idxOf n := by
  induction hl with
  | single hs => exact (mem_succs.mp hs).2.2
  | tail _ hs ih => exact Nat.lt_trans ih (mem_succs.mp hs).2.2

theorem idxOf_le_of_leadsTo (hl : y.flat.LeadsTo s n) : y.order.idxOf s ≤ y.order.idxOf n := by
  rcases Relation.reflTransGen_iff_eq_or_transGen.mp hl with rfl | hl
  · exact Nat.le_refl _
  · exact Nat.le_of_lt (idxOf_lt_of_next hl)

/-- A node is reached along edges that lead ahead, all others set aside. -/
theorem mem_order_iff_leadsTo (h : y.Sound) : n ∈ y.order ↔ y.flat.LeadsTo y.entry n := by
  have horder := searchOrder h
  constructor
  · intro hn
    -- by position: the node that a node was first entered from stands before it
    generalize hk : y.order.idxOf n = k
    induction k using Nat.strongRecOn generalizing n with
    | ind k ih =>
      rcases horder.entered n hn with rfl | ⟨m, he, hlt⟩
      · exact .refl
      · have hm : m ∈ y.order := List.idxOf_lt_length_iff.mp (Nat.lt_trans hlt (List.idxOf_lt_length_of_mem hn))
        exact (ih _ (hk ▸ hlt) hm rfl).tail (mem_succs.mpr ⟨hm, edge_graph.mp he, hlt⟩)
  · intro hl
    induction hl with
    | refl => exact horder.entry_mem
    | tail _ hs _ => exact (mem_order_of_succs h hs).2

end Order

section Fates

theorem stays_iff (hb : y.Stands t s) : y.flat.Stays n t ↔ s = n ∧ ∃ c, y.places[n]? = some (.loop c) := by
  rw [Flat.Stays, collapsedAt_iff, and_comm]
  refine and_congr_left fun _ => ⟨fun ht => hb.unique (nodeOf_eq_some.mp ht), ?_⟩
  rintro rfl
  exact nodeOf_eq_some.mpr hb

theorem not_stays_of_next (ht : y.Stands t s) (hs : s ∈ y.graph.next n) : ¬ y.flat.Stays n t := by
  rw [stays_iff ht]
  rintro ⟨rfl, c, hc⟩
  exact ne_of_mem_next hc hs rfl

theorem advances_iff (ht : y.Stands t s) (hn : n ∈ y.order) (hs : s ∈ y.graph.next n) :
    y.flat.Advances n t ↔ y.order.idxOf n < y.order.idxOf s := by
  constructor
  · rintro ⟨s', hs', -, -, hlt⟩
    rwa [ht.unique (nodeOf_eq_some.mp hs')]
  · intro hlt
    exact ⟨s, nodeOf_eq_some.mpr ht, mem_succs.mpr ⟨hn, hs, hlt⟩, mem_preds.mpr ⟨hn, hs, hlt⟩, hlt⟩

theorem retreats_iff (h : y.Sound) (ht : y.Stands t s) (hn : n ∈ y.order) (hs : s ∈ y.graph.next n) :
    y.flat.Retreats n t ↔ ¬ y.order.idxOf n < y.order.idxOf s := by
  constructor
  · rintro ⟨s', hs', -, -, hl⟩
    rw [ht.unique (nodeOf_eq_some.mp hs')]
    exact Nat.not_lt.mpr (idxOf_le_of_leadsTo hl)
  · intro hback
    have hl := leadsTo_of_climbs h (((searchOrder h).ahead n hn s (edge_graph.mpr hs)).resolve_left hback)
    exact ⟨s, nodeOf_eq_some.mpr ht, latchAt_iff.mpr ⟨hn, s, hs, hback⟩,
      reenteredAt_iff.mpr ⟨n, hn, hs, hback⟩, hl⟩

/-- What becomes of an edge is decided by where its target stands. -/
theorem exactlyOne_fate (h : y.Sound) (hb : y.Stands b n) (hn : n ∈ y.order)
    (ht : t ∈ (y.routine.codeAt b).term.targets) : ExactlyOne [y.flat.Leaves n t y.region, y.flat.Stays n t,
      y.flat.Advances n t, ¬ y.flat.Stays n t ∧ y.flat.Retreats n t] := by
  by_cases hin : t ∈ y.region.blocks
  · obtain ⟨s, hs⟩ := exists_stands hin
    have hleaves : ¬ y.flat.Leaves n t y.region := fun hl => hl.1 hin
    rcases hb.edge hs ht with ⟨rfl, hchild⟩ | hnext
    · obtain ⟨c, hc⟩ := Option.isSome_iff_exists.mp hchild
      have hstays : y.flat.Stays s t := (stays_iff hs).mpr ⟨rfl, c, by rw [hb.2, placeOf, hc]⟩
      have hadvances : ¬ y.flat.Advances s t := by
        rintro ⟨s', hs', -, -, hlt⟩
        rw [hs.unique (nodeOf_eq_some.mp hs')] at hlt
        exact Nat.lt_irrefl _ hlt
      simp [ExactlyOne, hleaves, hstays, hadvances]
    · have hstays := not_stays_of_next hs hnext
      by_cases hlt : y.order.idxOf n < y.order.idxOf s
      · have hadvances := (advances_iff hs hn hnext).mpr hlt
        have hretreats : ¬ y.flat.Retreats n t := fun hr => (retreats_iff h hs hn hnext).mp hr hlt
        simp [ExactlyOne, hleaves, hstays, hadvances, hretreats]
      · have hadvances : ¬ y.flat.Advances n t := fun ha => hlt ((advances_iff hs hn hnext).mp ha)
        have hretreats := (retreats_iff h hs hn hnext).mpr hlt
        simp [ExactlyOne, hleaves, hstays, hadvances, hretreats]
  · have hleaves : y.flat.Leaves n t y.region := ⟨hin, mem_exitsAt.mpr ⟨b, hb, ht, hin⟩⟩
    have hnone : ∀ s, y.flat.nodeOf t ≠ some s := fun s hs => hin (nodeOf_eq_some.mp hs).1
    simp [ExactlyOne, hleaves, Flat.Stays, Flat.Advances, Flat.Retreats, hnone]

theorem exists_departs (hw : y.routine.Wired) (hn : n ∈ y.order) (hs : s ∈ y.graph.next n) :
    ∃ b t, y.flat.Departs y.routine n b t ∧ y.Stands t s := by
  obtain ⟨b, t, htarget, hb, ht⟩ := exists_target hs
  exact ⟨b, t, ⟨nodeOf_eq_some.mpr hb, List.contains_iff_mem.mpr hn, hw.edge htarget⟩, ht⟩

theorem exists_advances (hw : y.routine.Wired) (hs : s ∈ y.flat.succs n) :
    ∃ b t, y.flat.Departs y.routine n b t ∧ y.flat.nodeOf t = some s ∧ y.flat.Advances n t := by
  obtain ⟨hn, hnext, hlt⟩ := mem_succs.mp hs
  obtain ⟨b, t, hd, ht⟩ := exists_departs hw hn hnext
  exact ⟨b, t, hd, nodeOf_eq_some.mpr ht, (advances_iff ht hn hnext).mpr hlt⟩

theorem exists_retreats (h : y.Sound) (hw : y.routine.Wired) (hn : n ∈ y.order) (hs : s ∈ y.graph.next n)
    (hback : ¬ y.order.idxOf n < y.order.idxOf s) : ∃ b t, y.flat.Departs y.routine n b t ∧
      y.flat.nodeOf t = some s ∧ ¬ y.flat.Stays n t ∧ y.flat.Retreats n t := by
  obtain ⟨b, t, hd, ht⟩ := exists_departs hw hn hs
  exact ⟨b, t, hd, nodeOf_eq_some.mpr ht, not_stays_of_next ht hs, (retreats_iff h ht hn hs).mpr hback⟩

theorem mem_order_iff_joined (h : y.Sound) (hw : y.routine.Wired) :
    n ∈ y.order ↔ Relation.ReflTransGen (y.flat.Joins y.routine) y.entry n := by
  have horder := searchOrder h
  constructor
  · intro hn
    refine Relation.ReflTransGen.mono (fun m s hs => ?_) _ _ ((mem_order_iff_leadsTo h).mp hn)
    obtain ⟨b, t, hd, ht, -⟩ := exists_advances hw hs
    exact ⟨b, t, hd.stands, hd.edge, ht⟩
  · intro hj
    induction hj with
    | refl => exact horder.entry_mem
    | tail _ hj ih =>
      obtain ⟨b, t, hb, he, ht⟩ := hj
      have hstands : y.Stands b _ := nodeOf_eq_some.mp hb
      rcases hstands.edge (nodeOf_eq_some.mp ht) (Routine.mem_targets_of_edge he) with ⟨rfl, -⟩ | hs
      · exact ih
      · exact horder.mem_of_edge ih (edge_graph.mpr hs)

end Fates

section Partition

variable {r : Routine} {k : Facts} {region : Region} {id : RegionId} {summary : Option (RegionId → Option Summary)}

theorem exists_child (h : y.places[n]? = some (.loop c)) : ∃ b, y.Stands b n ∧ y.child b = some c := by
  obtain ⟨b, hb, hplace⟩ := mem_places.mp (List.mem_of_getElem? h)
  refine ⟨b, ⟨hb, h.trans (congrArg some hplace.symm)⟩, ?_⟩
  rw [placeOf] at hplace
  split at hplace
  · rename_i c' hc
    rw [hc, Place.loop.inj hplace]
  · cases hplace

theorem content_eq_loop {header : BlockId} {s : Summary} :
    y.flat.nodes[n]?.map Node.content = some (.loop c header s) ↔ y.places[n]? = some (.loop c) ∧
      header = (y.facts.forest.regions[c]?.map Region.header).getD 0 ∧ s = (y.summary c).getD .blackBox := by
  rw [getElem?_nodes]
  cases y.places[n]? with
  | none => simp
  | some place =>
    cases place with
    | block b => simp [node, Flat.nodeAt, content]
    | loop c' =>
      simp only [Option.map_some, node, Flat.nodeAt, content, Option.some.injEq, Content.loop.injEq, Place.loop.injEq]
      refine and_congr_right ?_
      rintro rfl
      exact and_congr eq_comm eq_comm

theorem stands_loop (hk : k.Sound r) (hr : k.forest.regions[id]? = some region)
    (hn : (Layout.of r k id region summary).places[n]? = some (.loop c)) : ∃ l get, k.forest.parentOf c = some id ∧
      k.forest.IsLoop c l ∧ summary = some get ∧
      ∀ x, (Layout.of r k id region summary).Stands x n ↔ x ∈ l.blocks := by
  obtain ⟨b, hb, hc⟩ := exists_child hn
  obtain ⟨hp, l, hl, -⟩ := child_of hk hc
  obtain ⟨get, rfl, -⟩ := Option.bind_eq_some_iff.mp hc
  refine ⟨l, get, hp, hl, rfl, fun x => ?_⟩
  rw [hk.mem_child_iff hr hp hl]
  constructor
  · exact fun hx => ⟨hx.1, child_congr hb hx hc⟩
  · rintro ⟨hx, hc'⟩
    have hchild : (Layout.of r k id region (some get)).child x = some c := hc'
    exact ⟨hx, by rw [hn, placeOf, hchild]⟩

theorem child_eq_none_iff (hk : k.Sound r) (hr : k.forest.regions[id]? = some region) (hb : b ∈ region.blocks) :
    (Layout.of r k id region summary).child b = none ↔
      (summary.isSome → ∀ c l, k.forest.parentOf c = some id → k.forest.IsLoop c l → b ∉ l.blocks) := by
  constructor
  · intro hnone hsome c l hp hl hmem
    obtain ⟨get, rfl⟩ := Option.isSome_iff_exists.mp hsome
    exact Option.some_ne_none c (((hk.mem_child_iff hr hp hl).mp hmem).2.symm.trans hnone)
  · intro hout
    refine Option.eq_none_iff_forall_ne_some.mpr fun c hc => ?_
    obtain ⟨get, hget, hholding⟩ := Option.bind_eq_some_iff.mp hc
    obtain ⟨hp, l, hl, -⟩ := child_of hk hc
    exact hout (Option.isSome_iff_exists.mpr ⟨get, hget⟩) c l hp hl ((hk.mem_child_iff hr hp hl).mpr ⟨hb, hholding⟩)

/-- Only a loop has edges that leave it, and control reaches all of a loop. -/
theorem mem_order_of_exit (hk : k.Sound r) (hw : r.Wired) (hr : k.forest.regions[id]? = some region)
    (hb : (Layout.of r k id region summary).Stands b n) (ht : t ∈ (r.codeAt b).term.targets)
    (hout : t ∉ region.blocks) : n ∈ (Layout.of r k id region summary).order := by
  refine ((of_entered hk hr summary).reached hb).mpr ?_
  obtain ⟨-, hblocks⟩ | ⟨hheader, hblocks⟩ := hk.region_cases hr
  · exact absurd ((hblocks t).mpr (hw.edge ht).2) hout
  · exact ((hblocks b).mp hb.1).reached hheader

theorem accounts (hk : k.Sound r) (hw : r.Wired) (hr : k.forest.regions[id]? = some region) :
    (Layout.of r k id region summary).flat.Accounts r k id region summary := by
  have hy := Layout.of_sound hk hr summary
  constructor
  case stands_iff =>
    intro b
    simp only [nodeOf_eq_some]
    constructor
    · rintro ⟨n, hn⟩
      exact hn.1
    · exact fun hb => exists_stands (y := Layout.of r k id region summary) hb
  case node_iff =>
    intro n
    rw [Flat.size, flat, List.length_map, List.length_zipIdx]
    constructor
    · rintro ⟨b, hb⟩
      exact (List.getElem?_eq_some_iff.mp (nodeOf_eq_some.mp hb).2).1
    · intro hn
      obtain ⟨b, hb, hplace⟩ := mem_places.mp (List.getElem_mem hn)
      exact ⟨b, nodeOf_eq_some.mpr ⟨hb, (List.getElem?_eq_getElem hn).trans (congrArg some hplace.symm)⟩⟩
  case block_node =>
    intro n b code hn
    obtain ⟨hplace, rfl⟩ := block?_eq_some.mp hn
    obtain ⟨hb, -⟩ := stands_of_place hplace
    refine ⟨Routine.getElem?_codeAt (hk.blocks_lt hr hb.1), fun x => ?_⟩
    rw [nodeOf_eq_some]
    constructor
    · exact fun hx => (Stands.eq_block hx hplace).1
    · rintro rfl
      exact hb
  case loop_node =>
    intro n c header s hn
    obtain ⟨hplace, rfl, rfl⟩ := content_eq_loop.mp hn
    obtain ⟨l, get, hp, hl, rfl, hblocks⟩ := stands_loop hk hr hplace
    refine ⟨l, get, hp, hl, ?_, rfl, rfl, fun x => nodeOf_eq_some.trans (hblocks x)⟩
    show (k.forest.regions[c]?.map Region.header).getD 0 = l.header
    rw [hl.2]
    rfl
  case alone_iff =>
    intro b
    simp only [block?_eq_some]
    constructor
    · rintro ⟨n, code, hplace, -⟩
      obtain ⟨hb, hc⟩ := stands_of_place hplace
      exact ⟨hb.1, (child_eq_none_iff hk hr hb.1).mp hc⟩
    · rintro ⟨hb, hout⟩
      obtain ⟨n, hn⟩ := exists_stands (y := Layout.of r k id region summary) hb
      exact ⟨n, _, hn.own ((child_eq_none_iff hk hr hb).mpr hout), rfl⟩
  case entry => exact nodeOf_eq_some.mpr (heads_header hk hr).1
  case order_nodup => exact (searchOrder hy).nodup
  case acyclic => exact fun n hn => Nat.lt_irrefl _ (idxOf_lt_of_next hn)
  case fate =>
    intro n b t hd
    exact exactlyOne_fate hy (nodeOf_eq_some.mp hd.stands) (List.contains_iff_mem.mp hd.reached)
      (Routine.mem_targets_of_edge hd.edge)
  case of_succs => exact fun n s hs => exists_advances hw hs
  case of_preds => exact fun s n hn => exists_advances hw (mem_succs.mpr (mem_preds.mp hn))
  case of_exits =>
    intro n t ht
    obtain ⟨b, hb, htarget, hout⟩ := mem_exitsAt.mp ht
    have hn := mem_order_of_exit hk hw hr hb htarget hout
    exact ⟨b, ⟨nodeOf_eq_some.mpr hb, List.contains_iff_mem.mpr hn, hw.edge htarget⟩, hout, ht⟩
  case of_latch =>
    intro n hn
    obtain ⟨hreached, s, hs, hback⟩ := latchAt_iff.mp hn
    obtain ⟨b, t, hd, -, hretreats⟩ := exists_retreats hy hw hreached hs hback
    exact ⟨b, t, hd, hretreats⟩
  case of_reentered =>
    intro s hs
    obtain ⟨n, hn, hnext, hback⟩ := reenteredAt_iff.mp hs
    exact ⟨n, exists_retreats hy hw hn hnext hback⟩
  case reached_iff => exact fun n => List.contains_iff_mem.trans (mem_order_iff_leadsTo hy)
  case reached_iff_joined => exact fun n => List.contains_iff_mem.trans (mem_order_iff_joined hy hw)

end Partition

end Layout

/-- Flattening gives every region of a routine, whatever summaries its child loops have, a form that
accounts for each edge. -/
theorem flattening_accounts_for_edges (r : Routine) (h : r.check = .ok ()) : ∃ k, r.facts = .ok k ∧
    ∀ id region summary, k.forest.regions[id]? = some region →
      ∃ f, Flat.build r k id summary = .ok f ∧ f.Accounts r k id region summary := by
  have hw := (Routine.lawful_of_check h fun _ => False).wired
  obtain ⟨k, hfacts, hk⟩ := r.facts_total hw.entry
  exact ⟨k, hfacts, fun id region summary hr =>
    ⟨_, hk.build_eq hr summary, Layout.accounts hk hw hr⟩⟩

/-- A loop of one block that lies on two cycles, each entered in two places. -/
def loopOnTwoCycles : Routine where
  name := "loop_on_two_cycles"
  params := [0]
  blocks := [⟨0, [], .switch 0 [(0, 1), (1, 2)] 3⟩, ⟨1, [], .jump 2⟩, ⟨2, [], .switch 0 [(0, 2), (1, 1)] 3⟩,
    ⟨3, [], .branch 0 2 4⟩, ⟨4, [], .ret 0⟩]
  entry := 0
  storage := [.trivial]

private theorem loopOnTwoCycles_flat : ∃ k region f whole, loopOnTwoCycles.facts = .ok k ∧
    k.forest.regions[0]? = some region ∧ Flat.build loopOnTwoCycles k 0 (some fun _ => none) = .ok f ∧
    Flat.build loopOnTwoCycles k 0 none = .ok whole ∧
    (f.order = [0, 1, 2, 3, 4] ∧ f.nodeOf 2 = some 2 ∧ f.collapsedAt 2 ∧ f.latchAt 2 ∧ f.reenteredAt 2) ∧
    whole.order = [0, 1, 2, 3, 4] ∧ whole.nodeOf 2 = some 2 ∧ ¬ whole.collapsedAt 2 := by
  have hrun : (do
      let k ← loopOnTwoCycles.facts
      let region ← k.forest.region 0
      let f ← Flat.build loopOnTwoCycles k 0 (some fun _ => none)
      let whole ← Flat.build loopOnTwoCycles k 0 none
      return decide (k.forest.regions[0]? = some region ∧
        (f.order = [0, 1, 2, 3, 4] ∧ f.nodeOf 2 = some 2 ∧ f.collapsedAt 2 ∧ f.latchAt 2 ∧ f.reenteredAt 2) ∧
        whole.order = [0, 1, 2, 3, 4] ∧ whole.nodeOf 2 = some 2 ∧ ¬ whole.collapsedAt 2)) = .ok true := by
    decide +kernel
  obtain ⟨k, hk, hrun⟩ := bind_eq_ok.mp hrun
  obtain ⟨region, -, hrun⟩ := bind_eq_ok.mp hrun
  obtain ⟨f, hf, hrun⟩ := bind_eq_ok.mp hrun
  obtain ⟨whole, hwhole, hrun⟩ := bind_eq_ok.mp hrun
  obtain ⟨hr, hrest⟩ := of_decide_eq_true (Except.ok.inj hrun)
  exact ⟨k, region, f, whole, hk, hr, hf, hwhole, hrest⟩

theorem flattening_accounts_for_edges_loopOnTwoCycles : loopOnTwoCycles.check = .ok () ∧
    ∃ k region f, loopOnTwoCycles.facts = .ok k ∧ k.forest.regions[0]? = some region ∧
      Flat.build loopOnTwoCycles k 0 (some fun _ => none) = .ok f ∧ f.order = [0, 1, 2, 3, 4] ∧
      f.Accounts loopOnTwoCycles k 0 region (some fun _ => none) := by
  obtain ⟨k, region, f, -, hk, hr, hf, -, ⟨horder, -⟩, -⟩ := loopOnTwoCycles_flat
  obtain ⟨k', hk', hall⟩ := flattening_accounts_for_edges loopOnTwoCycles rfl
  obtain rfl := Except.ok.inj (hk.symm.trans hk')
  obtain ⟨f', hf', haccounts⟩ := hall 0 region _ hr
  obtain rfl := Except.ok.inj (hf.symm.trans hf')
  exact ⟨rfl, k, region, f, hk, hr, hf, horder, haccounts⟩

/-- The marks alone do not tell that an edge leads back: an edge inside a collapsed loop may have
both its ends marked on account of others. Nor may the way ahead from its target be asked to have an
edge, for then an edge from a block to itself would be lost. -/
theorem inner_edge_between_marks : loopOnTwoCycles.check = .ok () ∧
    ∃ k region f whole, loopOnTwoCycles.facts = .ok k ∧ k.forest.regions[0]? = some region ∧
      Flat.build loopOnTwoCycles k 0 (some fun _ => none) = .ok f ∧
      Flat.build loopOnTwoCycles k 0 none = .ok whole ∧
      (f.Departs loopOnTwoCycles 2 2 2 ∧
        ¬ ExactlyOne [f.Leaves 2 2 region, f.Stays 2 2, f.Advances 2 2, f.Retreats 2 2]) ∧
      whole.Departs loopOnTwoCycles 2 2 2 ∧ ¬ whole.Leaves 2 2 region ∧ ¬ whole.Stays 2 2 ∧
        ¬ whole.Advances 2 2 ∧ ¬ Relation.TransGen whole.Next 2 2 := by
  obtain ⟨k, region, f, whole, hk, hr, hf, hwhole, ⟨horder, hnode, hcollapsed, hlatch, hreentered⟩,
    horder', hnode', halone⟩ := loopOnTwoCycles_flat
  have hedge : loopOnTwoCycles.flow.Edge 2 2 := ⟨by decide, by decide⟩
  have hw := (Routine.lawful_of_check (r := loopOnTwoCycles) rfl fun _ => False).wired
  obtain ⟨k', hk', hsound⟩ := loopOnTwoCycles.facts_total hw.entry
  obtain rfl := Except.ok.inj (hk.symm.trans hk')
  have haccounts : (Layout.of loopOnTwoCycles k 0 region none).flat.Accounts loopOnTwoCycles k 0 region none :=
    Layout.accounts hsound hw hr
  rw [← Except.ok.inj (hwhole.symm.trans (hsound.build_eq hr none))] at haccounts
  refine ⟨rfl, k, region, f, whole, hk, hr, hf, hwhole, ⟨⟨hnode, ?_, hedge⟩, ?_⟩, ⟨hnode', ?_, hedge⟩,
    fun hl => hl.1 ((haccounts.stands_iff 2).mp ⟨2, hnode'⟩), fun hs => halone hs.1, ?_, haccounts.acyclic 2⟩
  · rw [Flat.reached, horder]
    rfl
  · have hstays : f.Stays 2 2 := ⟨hcollapsed, hnode⟩
    have hretreats : f.Retreats 2 2 := ⟨2, hnode, hlatch, hreentered, .refl⟩
    rintro (⟨-, hno⟩ | ⟨-, ⟨-, hno⟩ | ⟨hnot, -⟩⟩)
    · exact hno _ (.head _) hstays
    · exact hno _ (.tail _ (.head _)) hretreats
    · exact hnot hstays
  · rw [Flat.reached, horder']
    rfl
  · rintro ⟨s, hs, -, -, hlt⟩
    obtain rfl := Option.some.inj (hnode'.symm.trans hs)
    exact Nat.lt_irrefl _ hlt

end CountMotion
