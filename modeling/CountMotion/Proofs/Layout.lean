import CountMotion.Proofs.MatchReads
import CountMotion.Proofs.WalkReads
import CountMotion.Proofs.Flow
import CountMotion.Proofs.Nesting
import CountMotion.Proofs.Search
import CountMotion.Proofs.Splice

/-! The flat form of a region, written out: which node stands for which blocks. -/
namespace CountMotion

/-- What a flat region is made of. -/
structure Layout where
  routine : Routine
  facts : Facts
  region : Region
  child : Nat → Option Nat
  summary : Nat → Option Summary

namespace Layout

variable {y : Layout} {b b' c m n s : Nat}

def placeOf (y : Layout) (b : Nat) : Place :=
  match y.child b with
  | some c => .loop c
  | none => .block b

def residents (y : Layout) : List Resident :=
  y.region.blocks.map fun b => ⟨b, y.routine.codeAt b, y.placeOf b⟩

def places (y : Layout) : List Place := (y.residents.map Resident.place).eraseDups

/-- The nodes and all edges between them. -/
def graph (y : Layout) : Graph :=
  ⟨y.places.zipIdx.map fun (place, n) => Flat.induced y.residents y.places n place⟩

def entry (y : Layout) : Nat := (Flat.locate y.residents y.places y.region.header).getD 0

def order (y : Layout) : List Nat := (y.graph.postorder y.entry).reverse

def content (y : Layout) : Place → Content
  | .block b => .block b (y.routine.codeAt b)
  | .loop c => .loop c ((y.facts.forest.regions[c]?.map Region.header).getD 0) ((y.summary c).getD .blackBox)

/-- The edge leads ahead in the order. -/
def ahead (y : Layout) (m s : Nat) : Bool := y.order.idxOf m < y.order.idxOf s

def edges (y : Layout) : List (Nat × List (Nat × Bool)) :=
  y.order.map fun m => (m, (y.graph.next m).map fun s => (s, y.ahead m s))

def node (y : Layout) (n : Nat) (place : Place) : Node :=
  Flat.nodeAt y.residents y.places y.edges y.facts n place (y.content place)

def flat (y : Layout) : Flat where
  routine := y.routine
  facts := y.facts
  residents := y.residents
  places := y.places
  nodes := y.places.zipIdx.map fun (place, n) => y.node n place
  order := y.order
  entry := y.entry

/-- The region has each of its blocks once, its header among them, and its child loops exist. -/
structure Sound (y : Layout) : Prop where
  nodup : y.region.blocks.Nodup
  exists_block : ∀ b ∈ y.region.blocks, b < y.routine.blocks.length
  header : y.region.header ∈ y.region.blocks
  child : ∀ b ∈ y.region.blocks, ∀ c, y.child b = some c → ∃ l, y.facts.forest.regions[c]? = some l

theorem mem_places {place : Place} : place ∈ y.places ↔ ∃ b ∈ y.region.blocks, y.placeOf b = place := by
  simp [places, residents]

theorem nodup_places (y : Layout) : y.places.Nodup := nodup_eraseDups _

theorem node_unique {place : Place} (h : y.places[m]? = some place) (h' : y.places[n]? = some place) : m = n :=
  (List.getElem?_inj (List.getElem?_eq_some_iff.mp h).1 y.nodup_places).mp (h.trans h'.symm)

theorem block_mem_places (h : .block b ∈ y.places) : b ∈ y.region.blocks ∧ y.child b = none := by
  obtain ⟨a, ha, hplace⟩ := mem_places.mp h
  rw [placeOf] at hplace
  split at hplace
  · cases hplace
  · cases hplace
    exact ⟨ha, ‹_›⟩

theorem placeOf_eq_block (h : y.child b = none) : y.placeOf b = .block b := by
  rw [placeOf, h]

theorem locate_eq_some :
    Flat.locate y.residents y.places b = some n ↔ b ∈ y.region.blocks ∧ y.places[n]? = some (y.placeOf b) := by
  have hfind : y.residents.find? (fun x => x.id == b) =
      if b ∈ y.region.blocks then some ⟨b, y.routine.codeAt b, y.placeOf b⟩ else none := by
    rw [residents, List.find?_map]
    split
    · rename_i hb
      have : y.region.blocks.find? ((fun x : Resident => x.id == b) ∘
          fun b => ⟨b, y.routine.codeAt b, y.placeOf b⟩) = some b := by
        cases hf : y.region.blocks.find? _ with
        | none => exact absurd (List.find?_eq_none.mp hf b hb) (by simp)
        | some a => simpa using List.find?_some hf
      rw [this]
      rfl
    · rename_i hb
      rw [Option.map_eq_none_iff, List.find?_eq_none]
      intro a ha hab
      exact hb (by simpa using (beq_iff_eq.mp hab) ▸ ha)
  rw [Flat.locate, hfind]
  split
  · rename_i hb
    rw [Option.bind_some]
    constructor
    · intro hn
      obtain ⟨hlt, hget, -⟩ := List.idxOf?_eq_some_iff.mp hn
      exact ⟨hb, by rw [List.getElem?_eq_getElem hlt, hget]⟩
    · rintro ⟨-, hn⟩
      obtain ⟨hlt, hget⟩ := List.getElem?_eq_some_iff.mp hn
      refine List.idxOf?_eq_some_iff.mpr ⟨hlt, hget, fun j hj hjn => ?_⟩
      rw [← hget] at hjn
      exact absurd ((List.Nodup.getElem_inj_iff y.nodup_places).mp hjn) (Nat.ne_of_lt hj)
  · simp_all

section Node

variable {place : Place}

theorem lookup_edges (y : Layout) (n : Nat) : (y.edges.lookup n).getD [] =
    if n ∈ y.order then (y.graph.next n).map fun s => (s, y.ahead n s) else [] := by
  rw [edges]
  induction y.order with
  | nil => rfl
  | cons m rest ih =>
    rw [List.map_cons, List.lookup_cons]
    by_cases hmn : n = m
    · subst hmn
      simp
    · have : (n == m) = false := by simpa using hmn
      simp only [this, ih, List.mem_cons, hmn, false_or]

theorem contains_marked {m : Nat} {ahead : Bool} :
    ((y.graph.next m).map fun s => (s, y.ahead m s)).contains (n, ahead) =
      ((y.graph.next m).contains n && y.ahead m n == ahead) := by
  rw [Bool.eq_iff_iff]
  simp only [List.contains_iff_mem, List.mem_map, Prod.mk.injEq, Bool.and_eq_true, beq_iff_eq]
  constructor
  · rintro ⟨s, hs, rfl, rfl⟩
    exact ⟨hs, rfl⟩
  · rintro ⟨hs, rfl⟩
    exact ⟨n, hs, rfl, rfl⟩

theorem node_succs : (y.node n place).succs = if n ∈ y.order then (y.graph.next n).filter (y.ahead n) else [] := by
  simp only [node, Flat.nodeAt, lookup_edges]
  split
  · rw [List.filter_map, List.map_map]
    exact List.map_id _
  · rfl

theorem node_preds : (y.node n place).preds = y.order.filter fun m => (y.graph.next m).contains n && y.ahead m n := by
  simp only [node, Flat.nodeAt, edges]
  rw [List.filter_map, List.map_map]
  refine (List.map_id _).trans (List.filter_congr fun m _ => ?_)
  exact contains_marked.trans (by simp)

theorem node_latch : (y.node n place).latch = (y.order.contains n && (y.graph.next n).any fun s => !y.ahead n s) := by
  simp only [node, Flat.nodeAt, lookup_edges]
  split
  · next h => simp [h, List.any_map, Function.comp_def]
  · next h => simp [h]

theorem node_reentered :
    (y.node n place).reentered = y.order.any fun m => (y.graph.next m).contains n && !y.ahead m n := by
  simp only [node, Flat.nodeAt, edges, List.any_map]
  congr 1
  funext m
  exact contains_marked.trans (by simp)

end Node

theorem getElem?_nodes : y.flat.nodes[n]? = y.places[n]?.map fun place => y.node n place := by
  rw [flat, List.getElem?_map, List.getElem?_zipIdx]
  cases y.places[n]? with
  | none => rfl
  | some place => simp

theorem size_graph : y.graph.size = y.places.length := by simp [graph, Graph.size]

theorem next_graph : y.graph.next n =
    (y.places[n]?.map fun place => Flat.induced y.residents y.places n place).getD [] := by
  rw [graph, Graph.next, List.getElem?_map, List.getElem?_zipIdx]
  cases y.places[n]? with
  | none => rfl
  | some place => simp

theorem block?_eq_some {code : Block} : y.flat.block? n = some (b, code) ↔
    y.places[n]? = some (.block b) ∧ code = y.routine.codeAt b := by
  rw [Flat.block?, getElem?_nodes]
  cases y.places[n]? with
  | none => simp
  | some place =>
    cases place with
    | block a =>
      simp only [Option.map_some, Option.bind_some, node, Flat.nodeAt, Node.block?, content, Option.some.injEq,
        Prod.mk.injEq, Place.block.injEq]
      constructor
      · rintro ⟨rfl, rfl⟩
        exact ⟨rfl, rfl⟩
      · rintro ⟨rfl, rfl⟩
        exact ⟨rfl, rfl⟩
    | loop c => simp [node, Flat.nodeAt, Node.block?, content]

theorem nodeOf_eq_some : y.flat.nodeOf b = some n ↔
    b ∈ y.region.blocks ∧ y.places[n]? = some (y.placeOf b) := locate_eq_some

theorem ownNode_eq_some {code : Block} : y.flat.ownNode? b = some (n, code) ↔
    y.places[n]? = some (.block b) ∧ code = y.routine.codeAt b ∧ n ∈ y.order := by
  simp only [Flat.ownNode?, Option.bind_eq_bind, Option.bind_eq_some_iff, nodeOf_eq_some, Prod.exists,
    block?_eq_some, Flat.reached, Option.ite_none_right_eq_some, List.contains_iff_mem, Option.some.injEq,
    Prod.mk.injEq]
  constructor
  · rintro ⟨m, ⟨hb, hm⟩, a, code', ⟨hm', rfl⟩, hord, rfl, rfl⟩
    have hplace := hm.symm.trans hm'
    rw [placeOf] at hplace
    split at hplace
    · cases hplace
    · cases hplace
      exact ⟨hm', rfl, hord⟩
  · rintro ⟨hn, rfl, hord⟩
    obtain ⟨hb, hchild⟩ := block_mem_places (List.mem_of_getElem? hn)
    exact ⟨n, ⟨hb, by rw [hn, placeOf_eq_block hchild]⟩, b, _, ⟨hn, rfl⟩, hord, rfl, rfl⟩

section Edges

theorem placeOf_eq_block_iff (h : y.child b = none) (a : Nat) : y.placeOf a = .block b ↔ a = b := by
  constructor
  · intro ha
    rw [placeOf] at ha
    split at ha
    · cases ha
    · exact Place.block.inj ha
  · rintro rfl
    exact placeOf_eq_block h

theorem targets_block (h : y.Sound) (hb : .block b ∈ y.places) :
    Flat.targets y.residents (.block b) = (y.routine.codeAt b).term.targets := by
  obtain ⟨hmem, hchild⟩ := block_mem_places hb
  have hfilter : y.region.blocks.filter ((fun x : Resident => x.place == .block b) ∘
      fun a => ⟨a, y.routine.codeAt a, y.placeOf a⟩) = [b] := by
    have hpred : ((fun x : Resident => x.place == .block b) ∘
        fun a => ⟨a, y.routine.codeAt a, y.placeOf a⟩) = fun a => a == b := by
      funext a
      exact Bool.eq_iff_iff.mpr (by simpa using placeOf_eq_block_iff hchild a)
    rw [hpred, List.filter_beq, List.count_eq_one_of_mem h.nodup hmem, List.replicate_one]
  rw [Flat.targets, residents, List.filter_map, hfilter]
  simp

/-- An edge of the layout is one of the routine, between blocks that stand at its ends. -/
theorem exists_target (h : s ∈ y.graph.next n) : ∃ b t, t ∈ (y.routine.codeAt b).term.targets ∧
    (b ∈ y.region.blocks ∧ y.places[n]? = some (y.placeOf b)) ∧
    (t ∈ y.region.blocks ∧ y.places[s]? = some (y.placeOf t)) := by
  rw [next_graph] at h
  cases hn : y.places[n]? with
  | none => rw [hn] at h; cases h
  | some place =>
    rw [hn] at h
    have hloc : s ∈ ((Flat.targets y.residents place).filterMap (Flat.locate y.residents y.places)).eraseDups := by
      cases place with
      | block b => exact h
      | loop c => exact (List.mem_filter.mp h).1
    obtain ⟨t, ht, hs⟩ := List.mem_filterMap.mp (List.mem_eraseDups.mp hloc)
    obtain ⟨x, hx, ht⟩ := List.mem_flatMap.mp ht
    obtain ⟨hx, hplace⟩ := List.mem_filter.mp hx
    obtain ⟨b, hb, rfl⟩ := List.mem_map.mp hx
    exact ⟨b, t, ht, ⟨hb, congrArg some (beq_iff_eq.mp hplace).symm⟩, locate_eq_some.mp hs⟩

theorem edge_graph : y.graph.Edge n s ↔ s ∈ y.graph.next n := by
  refine ⟨fun h => h.1, fun h => ⟨h, ?_⟩⟩
  obtain ⟨b, t, -, -, -, hs⟩ := exists_target h
  rw [size_graph]
  exact (List.getElem?_eq_some_iff.mp hs).1

theorem entry_lt (h : y.Sound) : y.entry < y.graph.size := by
  obtain ⟨n, hn⟩ := List.getElem?_of_mem (mem_places.mpr ⟨_, h.header, rfl⟩)
  rw [entry, locate_eq_some.mpr ⟨h.header, hn⟩, size_graph]
  exact (List.getElem?_eq_some_iff.mp hn).1

theorem searchOrder (h : y.Sound) : y.graph.SearchOrder y.entry y.order := Graph.postorder_order (entry_lt h)

theorem lt_of_mem_order (h : y.Sound) (hn : n ∈ y.order) : n < y.places.length := by
  rw [← size_graph]
  exact (searchOrder h).inside n hn

theorem mem_succs : s ∈ y.flat.succs n ↔
    n ∈ y.order ∧ s ∈ y.graph.next n ∧ y.order.idxOf n < y.order.idxOf s := by
  rw [Flat.succs, getElem?_nodes]
  cases hn : y.places[n]? with
  | none =>
    rw [next_graph, hn]
    simp
  | some place =>
    simp only [Option.map_some, Option.getD_some, node_succs]
    split
    · next hord => simp [hord, ahead]
    · next hord => simp [hord]

theorem mem_order_of_succs (h : y.Sound) (hs : s ∈ y.flat.succs n) : n ∈ y.order ∧ s ∈ y.order := by
  obtain ⟨hn, hnext, -⟩ := mem_succs.mp hs
  exact ⟨hn, (searchOrder h).mem_of_edge hn (edge_graph.mpr hnext)⟩

theorem mem_preds : m ∈ y.flat.preds n ↔
    m ∈ y.order ∧ n ∈ y.graph.next m ∧ y.order.idxOf m < y.order.idxOf n := by
  rw [Flat.preds, getElem?_nodes]
  cases hn : y.places[n]? with
  | none =>
    simp only [Option.map_none, Option.getD_none, List.not_mem_nil, false_iff]
    rintro ⟨-, hmem, -⟩
    have := (edge_graph.mpr hmem).2
    rw [size_graph] at this
    rw [List.getElem?_eq_getElem this] at hn
    cases hn
  | some place => simp [node_preds, ahead]

theorem mem_range_of_edge (h : y.graph.Edge n s) : n ∈ List.range y.flat.size ∧ s ∈ List.range y.flat.size := by
  have hn := h.lt_size
  have hs := h.2
  rw [size_graph] at hn hs
  simpa [Flat.size, flat] using And.intro hn hs

theorem mem_range_of_succs (h : s ∈ y.flat.succs n) : s ∈ List.range y.flat.size :=
  (mem_range_of_edge (edge_graph.mpr (mem_succs.mp h).2.1)).2

theorem mem_range_of_preds (h : m ∈ y.flat.preds n) : m ∈ List.range y.flat.size :=
  (mem_range_of_edge (edge_graph.mpr (mem_preds.mp h).2.1)).1

/-- Where an edge leads back, a state cannot be followed further. -/
theorem liveEscape_of_back {root : Var} (hn : n ∈ y.order) (hs : s ∈ y.graph.next n)
    (hback : ¬ y.order.idxOf n < y.order.idxOf s) : y.flat.liveEscape root n := by
  have hlt : n < y.places.length := by
    rw [← size_graph]
    exact (edge_graph.mpr hs).lt_size
  rw [Flat.liveEscape, getElem?_nodes, List.getElem?_eq_getElem hlt]
  have hlatch : (y.node n y.places[n]).latch := by
    simp only [node_latch, Bool.and_eq_true, List.contains_iff_mem, List.any_eq_true]
    exact ⟨hn, s, hs, by simpa [ahead] using hback⟩
  simp [Node.liveEscape, hlatch]

/-- Where an edge leads back to a node, a state from before it is not all there is. -/
theorem blindEntry_of_back (hm : m ∈ y.order) (hn : n ∈ y.graph.next m)
    (hback : ¬ y.order.idxOf m < y.order.idxOf n) : y.flat.blindEntry n := by
  have hlt : n < y.places.length := by
    rw [← size_graph]
    exact (edge_graph.mpr hn).2
  rw [Flat.blindEntry, getElem?_nodes, List.getElem?_eq_getElem hlt]
  have hre : (y.node n y.places[n]).reentered := by
    simp only [node_reentered, List.any_eq_true]
    exact ⟨m, hm, by simpa [ahead] using And.intro hn (Nat.le_of_not_lt hback)⟩
  simp [hre]

end Edges

end Layout

section Build

variable {r : Routine} {k : Facts} {id : Nat} {region : Region} {summary : Option (Nat → Option Summary)}

/-- The layout of a region of the forest. -/
def Layout.of (r : Routine) (k : Facts) (id : Nat) (region : Region)
    (summary : Option (Nat → Option Summary)) : Layout where
  routine := r
  facts := k
  region := region
  child b := summary.bind fun _ => k.forest.childAt id b
  summary := summary.getD fun _ => none

theorem Layout.indexed {y : Layout} (h : y.Sound) : y.flat.Indexed := by
  have hsize : y.flat.size = y.places.length := by simp [Flat.size, flat]
  refine ⟨fun n hn => ?_, fun n s hs => ?_, fun n m hm => ?_, fun b n hn => ?_⟩
  · rw [hsize]
    exact lt_of_mem_order h hn
  · exact List.mem_range.mp (mem_range_of_succs hs)
  · exact List.mem_range.mp (mem_range_of_preds hm)
  · rw [hsize]
    exact (List.getElem?_eq_some_iff.mp (nodeOf_eq_some.mp hn).2).1

theorem Layout.edgesOf_eq {y : Layout} (h : y.Sound) : Flat.edgesOf y.graph y.order = .ok y.edges := by
  have hrank : ∀ n < y.graph.size, readAt ((List.range y.graph.size).map y.order.idxOf) n = .ok (y.order.idxOf n) := by
    intro n hn
    rw [readAt_eq_ok, List.getElem?_map, List.getElem?_range hn, Option.map_some]
  refine mapM_total fun m hm => ?_
  have hlt := (searchOrder h).inside m hm
  have hends : ((y.graph.next m).mapM fun s => do
      return (s, decide (y.order.idxOf m < (← readAt ((List.range y.graph.size).map y.order.idxOf) s)))) =
      .ok ((y.graph.next m).map fun s => (s, y.ahead m s)) := by
    refine mapM_total fun s hs => ?_
    rw [hrank s (edge_graph.mpr hs).2]
    rfl
  exact bind_eq_ok.mpr ⟨_, hrank m hlt, bind_eq_ok.mpr ⟨_, readAt_eq_ok.mpr (y.graph.getElem?_succs hlt),
    bind_eq_ok.mpr ⟨_, hends, rfl⟩⟩⟩

/-- Flattening a region whose blocks exist gives its layout. -/
theorem Flat.build_eq (hf : k.forest.Shaped r.flow r.entry) (hr : k.forest.regions[id]? = some region)
    (h : (Layout.of r k id region summary).Sound) :
    Flat.build r k id summary = .ok (Layout.of r k id region summary).flat := by
  have hregion : k.forest.region id = .ok region := by rw [Forest.region, hr]
  have hblock : ∀ b ∈ region.blocks, r.block b = .ok (r.codeAt b) := fun b hb =>
    Routine.block_eq (h.exists_block b hb)
  have hres : residentsOf r (fun b => if summary.isSome then k.forest.childHolding id b else .ok none) region.blocks =
      .ok (Layout.of r k id region summary).residents := by
    refine mapM_total fun b hb => ?_
    refine bind_eq_ok.mpr ⟨_, hblock b hb, ?_⟩
    cases summary with
    | none => rfl
    | some get => exact bind_eq_ok.mpr ⟨_, hf.childHolding_eq id b, rfl⟩
  have hcontent : ((Layout.of r k id region summary).residents.map Resident.place).eraseDups.mapM
      (contentAt r k (summary.getD fun _ => none)) =
      .ok ((Layout.of r k id region summary).places.map (Layout.of r k id region summary).content) := by
    refine mapM_total fun place hplace => ?_
    obtain ⟨b, hb, rfl⟩ := Layout.mem_places.mp hplace
    cases hc : (Layout.of r k id region summary).child b with
    | none =>
      rw [Layout.placeOf_eq_block hc, contentAt, hblock b hb]
      rfl
    | some c =>
      obtain ⟨l, hl⟩ := h.child b hb c hc
      have hl' : k.forest.regions[c]? = some l := hl
      rw [Layout.placeOf, hc, contentAt, Forest.region, hl', Layout.content, hl]
      rfl
  have hnodes : ∀ y : Layout, (y.places.zip (y.places.map y.content)).zipIdx.map
      (fun x => nodeAt y.residents y.places y.edges y.facts x.2 x.1.1 x.1.2) =
      y.flat.nodes := by
    intro y
    refine List.ext_getElem? fun n => ?_
    rw [Layout.getElem?_nodes, ← List.map_prod_left_eq_zip, List.getElem?_map, List.getElem?_zipIdx,
      List.getElem?_map]
    cases y.places[n]? with
    | none => rfl
    | some place => simp [Layout.node]
  refine bind_eq_ok.mpr ⟨region, hregion, bind_eq_ok.mpr ⟨_, hres, bind_eq_ok.mpr ⟨_, Layout.edgesOf_eq h,
    bind_eq_ok.mpr ⟨_, hcontent, congrArg Except.ok ?_⟩⟩⟩⟩
  rw [Flat.mk.injEq]
  exact ⟨rfl, rfl, rfl, rfl, hnodes (Layout.of r k id region summary), rfl, rfl⟩

end Build

end CountMotion
