import CountMotion.Proofs.FreshSummaries
import CountMotion.Proofs.Lawfulness
import CountMotion.Proofs.Reducible
import CountMotion.Proofs.TripWalk

/-! The shape of a loop is right about every trip through it, where all cycles of the loop are
natural loops. -/
namespace CountMotion

namespace Routine

variable {r : Routine} {k : Facts} {root : Var} {l : Region} {path : List BlockId} {b t : BlockId}

/-- A way inside a loop from its header, to which it does not come back. -/
structure Underway (r : Routine) (l : Region) (path : List BlockId) : Prop where
  starts : path.head? = some l.header
  goes : path.IsChain r.flow.Edge
  inside : ∀ b ∈ path, b ∈ l.blocks
  once : l.header ∉ path.tail

/-- One trip: the way ends with an edge back to the header, or with one that leaves the loop for
where the root still matters. -/
structure Lap (r : Routine) (k : Facts) (root : Var) (l : Region) (path : List BlockId) : Prop
    extends r.Underway l path where
  closes : ∃ b t, path.getLast? = some b ∧ r.flow.Edge b t ∧ (t = l.header ∨ (t ∉ l.blocks ∧ ¬ k.quietExit r root t))

/-- The operations on the root along a way. -/
def turnsOf (r : Routine) (k : Facts) (root : Var) (path : List BlockId) : List Bool :=
  path.flatMap fun b => k.turnsIn root (r.codeAt b)

theorem turnsOf_append (path path' : List BlockId) :
    r.turnsOf k root (path ++ path') = r.turnsOf k root path ++ r.turnsOf k root path' := List.flatMap_append

theorem turnsOf_eq_nil (h : ∀ b ∈ path, k.turnsIn root (r.codeAt b) = []) : r.turnsOf k root path = [] :=
  List.flatMap_eq_nil_iff.mpr h

theorem Underway.begin (h : l.header ∈ l.blocks) : r.Underway l [l.header] :=
  ⟨rfl, .singleton _, by simpa using h, nofun⟩

theorem Underway.getLast?_append (h : r.Underway l path) (first : List BlockId) :
    (first ++ path).getLast? = path.getLast? := by
  refine List.getLast?_append_of_ne_nil _ fun hnil => ?_
  have hstarts := h.starts
  rw [hnil] at hstarts
  cases hstarts

theorem Underway.snoc (h : r.Underway l path) (hlast : path.getLast? = some b) (he : r.flow.Edge b t)
    (ht : t ∈ l.blocks) (hne : t ≠ l.header) : r.Underway l (path ++ [t]) := by
  obtain ⟨hstarts, hgoes, hinside, honce⟩ := h
  cases path with
  | nil => cases hstarts
  | cons a path =>
    refine ⟨hstarts, List.isChain_append.mpr ⟨hgoes, .singleton _, fun x hx y hy => ?_⟩, fun x hx => ?_, fun hmem => ?_⟩
    · obtain rfl := Option.some.inj (hlast.symm.trans hx)
      obtain rfl := Option.some.inj hy
      exact he
    · rcases List.mem_append.mp hx with hx | hx
      · exact hinside x hx
      · exact List.mem_singleton.mp hx ▸ ht
    · rcases List.mem_append.mp hmem with hmem | hmem
      · exact honce hmem
      · exact hne (List.mem_singleton.mp hmem).symm

theorem Underway.init (h : r.Underway l (path ++ [b, t])) :
    r.Underway l (path ++ [b]) ∧ r.flow.Edge b t ∧ t ∈ l.blocks ∧ t ≠ l.header := by
  obtain ⟨hstarts, hgoes, hinside, honce⟩ := h
  have hsplit : path ++ [b, t] = (path ++ [b]) ++ [t] := by simp
  rw [hsplit] at hstarts hgoes hinside honce
  obtain ⟨hfirst, -, hedge⟩ := List.isChain_append.mp hgoes
  rw [List.tail_append_of_ne_nil (by simp)] at honce
  refine ⟨⟨?_, hfirst, fun x hx => hinside x (List.mem_append_left _ hx), fun hmem => honce (List.mem_append_left _ hmem)⟩,
    hedge b (by simp) t rfl, hinside t (by simp), fun heq => honce (by simp [heq])⟩
  rwa [List.head?_append_of_ne_nil _ (by simp)] at hstarts

end Routine

namespace Layout

variable {y : Layout} {root : Var} {path first q : List BlockId} {b t c n m : Nat} {l : Region} {strict : Prop}

/-- The net that the walk has after a node. -/
def netAfter (y : Layout) (root : Var) (n : Nat) : Net :=
  (y.flat.through root n ((y.flat.walk root).into y.flat n)).1

/-- All operations find the count they should, and none lies in a child. -/
def Strict (y : Layout) (root : Var) : Prop :=
  (y.flat.walk root).alternating ∧
    ∀ b ∈ y.region.blocks, (y.child b).isSome → y.facts.turnsIn root (y.routine.codeAt b) = []

/-- A child loop that is entered at its header, with a net that is right about its trips. -/
structure Child (y : Layout) (root : Var) (c : Nat) (l : Region) : Prop where
  header : l.header ∈ l.blocks
  blocks : ∀ {b}, b ∈ l.blocks ↔ b ∈ y.region.blocks ∧ y.child b = some c
  enters : ∀ {b t}, b ∈ y.region.blocks → y.routine.flow.Edge b t → b ∉ l.blocks → t ∈ l.blocks → t = l.header
  laps : ∀ {n q net turns}, y.places[n]? = some (.loop c) → y.routine.Lap y.facts root l q →
    Told (y.Strict root) (y.flat.through root n net).1 turns →
    Told (y.Strict root) (y.flat.through root n net).1 (turns ++ y.routine.turnsOf y.facts root q)

/-- A loop in which edges back lead to the header only, and control stays where the root matters. -/
structure Looped (y : Layout) (root : Var) : Prop where
  entered : y.Entered
  header : y.child y.region.header = none
  back : ∀ {n s}, n ∈ y.order → s ∈ y.graph.next n → ¬ y.order.idxOf n < y.order.idxOf s → s = y.entry
  reached : ∀ {b n}, y.Stands b n → n ∈ y.order
  live : ∀ {b}, b ∈ y.region.blocks → ¬ y.facts.quietExit y.routine root b
  inner : ∀ {b c}, y.child b = some c → ∃ l, y.Child root c l

/-- A way has come to a block of the region: the net there is right about all of it, or about
what came before the trip through a child that it is on. -/
inductive Arrived (y : Layout) (root : Var) (b n : Nat) : List BlockId → Prop where
  | own {path : List BlockId} : y.child b = none →
      Told (y.Strict root) (y.netAfter root n) (y.routine.turnsOf y.facts root path) → Arrived y root b n path
  | inner {c : Nat} {l : Region} {first q : List BlockId} : y.child b = some c → y.Child root c l →
      y.routine.Underway l q → Told (y.Strict root) (y.netAfter root n) (y.routine.turnsOf y.facts root first) →
      Arrived y root b n (first ++ q)

theorem through_own (h : y.Stands b n) (hc : y.child b = none) (net : Net) :
    y.flat.through root n net = (y.facts.turnsIn root (y.routine.codeAt b)).foldl Trip.turn (net, true) := by
  have hx : y.flat.nodes[n]? = some (y.node n (.block b)) := by
    rw [getElem?_nodes, h.own hc]
    rfl
  rw [← Facts.turnsIn_eq _ _ b, ← Trip.foldl_count, ← effects_block (h.own hc), Flat.through, Flat.effects, hx]
  rfl

/-- Through a child the net stays, if its trips cancel, or is given up. -/
theorem through_inner (h : y.places[n]? = some (.loop c)) (root : Var) (net : Net) :
    (y.flat.through root n net).1 = .unknown ∨ ((y.flat.through root n net).1 = net ∧
      ∀ x, ((y.summary c).getD .blackBox).root? root = some x → x.shape = .selfCancelling) := by
  rw [Flat.through, getElem?_nodes, h]
  simp only [Option.map_some, Option.getD_some, Trip.through, node, Flat.nodeAt, content]
  cases hx : ((y.summary c).getD .blackBox).root? root with
  | none => exact .inr ⟨rfl, fun x hx => absurd hx.symm (Option.some_ne_none x)⟩
  | some x =>
    by_cases hshape : x.shape = .selfCancelling
    · exact .inr ⟨if_pos hshape, fun z hz => Option.some.inj hz ▸ hshape⟩
    · exact .inl (if_neg hshape)

namespace Looped

variable (h : y.Looped root)
include h

theorem stands_header : y.Stands y.region.header y.entry := by
  obtain ⟨n, hn⟩ := exists_stands h.entered.sound.header
  exact hn.eq_entry rfl ▸ hn

theorem eq_header (ht : y.Stands t y.entry) : t = y.region.header :=
  (ht.eq_block (h.stands_header.own h.header)).1

theorem arrived (ht : y.Stands t n) (hfirst : ∀ c l, y.child t = some c → y.Child root c l → t = l.header)
    (htold : Told (y.Strict root) ((y.flat.walk root).into y.flat n) (y.routine.turnsOf y.facts root path)) :
    y.Arrived root t n (path ++ [t]) := by
  cases hc : y.child t with
  | none =>
    refine .own hc ?_
    rw [netAfter, through_own ht hc, Routine.turnsOf_append, Routine.turnsOf, Routine.turnsOf, List.flatMap_singleton]
    refine htold.run _ fun hs => ?_
    rw [← through_own ht hc]
    exact (walk_tells h.entered.sound (h.reached ht)).turns hs.1
  | some c =>
    obtain ⟨l, hl⟩ := h.inner hc
    have hbegin : y.routine.Underway l [t] := hfirst c l hc hl ▸ .begin hl.header
    exact .inner hc hl hbegin (htold.of_eq ((through_inner (by rw [ht.2, placeOf, hc]) root _).imp_right And.left))

theorem arrived_header : y.Arrived root y.region.header y.entry ([] ++ [y.region.header]) := by
  refine h.arrived h.stands_header (fun c l hc _ => ?_) ?_
  · rw [h.header] at hc
    cases hc
  · have hinto : (y.flat.walk root).into y.flat y.entry = .known 0 := if_pos rfl
    rw [hinto]
    exact ⟨.inr rfl, fun _ => .nil⟩

end Looped

/-- A way that leaves what stands at a node for where the root matters has the right net. -/
theorem Arrived.told (ha : y.Arrived root b n path) (hb : y.Stands b n) (hlast : path.getLast? = some b)
    (he : y.routine.flow.Edge b t) (hout : ∀ c l, y.child b = some c → y.Child root c l → t ∉ l.blocks)
    (hlive : ¬ y.facts.quietExit y.routine root t) :
    Told (y.Strict root) (y.netAfter root n) (y.routine.turnsOf y.facts root path) := by
  cases ha with
  | own hc htold => exact htold
  | @inner c l first q hc hl hq htold =>
    rw [Routine.turnsOf_append]
    rw [hq.getLast?_append] at hlast
    exact hl.laps (by rw [hb.2, placeOf, hc]) ⟨hq, b, t, hlast, he, .inr ⟨hout c l hc hl, hlive⟩⟩ htold

theorem Arrived.inside (ha : y.Arrived root b n path) (hb : y.Stands b n) (hlast : path.getLast? = some b)
    (he : y.routine.flow.Edge b t) (ht : y.Stands t n) (hchild : (y.child b).isSome) :
    y.Arrived root t n (path ++ [t]) := by
  cases ha with
  | own hc _ =>
    rw [hc] at hchild
    cases hchild
  | @inner c l first q hc hl hq htold =>
    have hct : y.child t = some c := child_congr hb ht hc
    have hmem := hl.blocks.mpr ⟨ht.1, hct⟩
    rw [hq.getLast?_append] at hlast
    by_cases hheader : t = l.header
    · have hlap := hl.laps (by rw [hb.2, placeOf, hc]) ⟨hq, b, t, hlast, he, .inl hheader⟩ htold
      rw [← Routine.turnsOf_append] at hlap
      exact .inner hct hl (hheader ▸ .begin hl.header) hlap
    · rw [List.append_assoc]
      exact .inner hct hl (hq.snoc hlast he hmem hheader) htold

namespace Looped

variable (h : y.Looped root)
include h

theorem arrived_next (ha : y.Arrived root b n path) (hb : y.Stands b n) (hlast : path.getLast? = some b)
    (he : y.routine.flow.Edge b t) (ht : y.Stands t m) (hne : t ≠ y.region.header) (hnext : m ∈ y.graph.next n) :
    y.Arrived root t m (path ++ [t]) := by
  have hentry : m ≠ y.entry := fun heq => hne (h.eq_header (heq ▸ ht))
  have hlt : y.order.idxOf n < y.order.idxOf m := by
    by_contra hback
    exact hentry (h.back (h.reached hb) hnext hback)
  have hapart : ∀ {c l}, y.Child root c l → b ∈ l.blocks → t ∉ l.blocks := by
    intro c l hl hmem hmem'
    have hsame : m = n := by
      refine node_unique ht.2 ?_
      rw [hb.2, placeOf, placeOf, (hl.blocks.mp hmem).2, (hl.blocks.mp hmem').2]
    exact Nat.lt_irrefl _ (hsame ▸ hlt)
  have htold := ha.told hb hlast he (fun c l hc hl => hapart hl (hl.blocks.mpr ⟨hb.1, hc⟩)) (h.live ht.1)
  have hpred : n ∈ y.flat.preds m := mem_preds.mpr ⟨h.reached hb, hnext, hlt⟩
  refine h.arrived ht (fun c l hc hl => ?_) (htold.of_eq ?_)
  · have hmem := hl.blocks.mpr ⟨ht.1, hc⟩
    exact hl.enters hb.1 he (fun hmem' => hapart hl hmem' hmem) hmem
  · have hinto : (y.flat.walk root).into y.flat m = .agreeAll ((y.flat.preds m).filterMap fun s =>
        (y.flat.walk root).nets.lookup s) := if_neg hentry
    rw [hinto]
    exact Net.agreeAll_eq (List.mem_filterMap.mpr ⟨n, hpred, (walk_tells h.entered.sound (h.reached hb)).net⟩)

/-- Wherever a way inside the loop has come, the net is right about it. -/
theorem underway_arrived (hway : y.routine.Underway y.region (path ++ [b])) :
    ∃ n, y.Stands b n ∧ y.Arrived root b n (path ++ [b]) := by
  induction path using List.reverseRecOn generalizing b with
  | nil =>
    obtain rfl : b = y.region.header := Option.some.inj hway.starts
    exact ⟨_, h.stands_header, h.arrived_header⟩
  | append_singleton path a ih =>
    rw [List.append_assoc] at hway
    obtain ⟨hway, he, hmem, hne⟩ := hway.init
    obtain ⟨n, ha, harrived⟩ := ih hway
    obtain ⟨m, hm⟩ := exists_stands hmem
    refine ⟨m, hm, ?_⟩
    rcases ha.edge hm (Routine.mem_targets_of_edge he) with ⟨rfl, hchild⟩ | hnext
    · exact harrived.inside ha (by simp) he hm hchild
    · exact h.arrived_next harrived ha (by simp) he hm hne hnext

/-- A trip comes to one of the ends that the walk found. -/
theorem lap_told (hlap : y.routine.Lap y.facts root y.region path) :
    ∃ v ∈ (y.flat.walk root).ends, Told (y.Strict root) v (y.routine.turnsOf y.facts root path) := by
  obtain ⟨hway, b, t, hlast, he, hend⟩ := hlap
  obtain ⟨path, rfl⟩ := List.getLast?_eq_some_iff.mp hlast
  obtain ⟨n, hb, harrived⟩ := h.underway_arrived hway
  have hlive : ¬ y.facts.quietExit y.routine root t := by
    rcases hend with rfl | ⟨-, hlive⟩
    · exact h.live h.stands_header.1
    · exact hlive
  have hout : ∀ c l, y.child b = some c → y.Child root c l → t ∉ l.blocks := by
    intro c l hc hl hmem
    obtain ⟨hmem, hct⟩ := hl.blocks.mp hmem
    rcases hend with rfl | ⟨hout, -⟩
    · rw [h.header] at hct
      cases hct
    · exact hout hmem
  refine ⟨_, (walk_tells h.entered.sound (h.reached hb)).ends ?_, harrived.told hb hlast he hout hlive⟩
  have htarget := Routine.mem_targets_of_edge he
  rcases hend with rfl | ⟨hout, -⟩
  · rcases hb.edge h.stands_header htarget with ⟨heq, hchild⟩ | hnext
    · have hheader : y.Stands b y.entry := heq ▸ hb
      rw [h.eq_header hheader, h.header] at hchild
      cases hchild
    · refine liveEscape_of_back (h.reached hb) hnext ?_
      rw [(searchOrder h.entered.sound).idxOf_entry]
      exact Nat.not_lt_zero _
  · exact (hb.exit hout htarget root).resolve_left hlive

end Looped

end Layout

/-- What a summary says of a root is right about every trip through the loop. -/
structure RootSummary.Right (x : RootSummary) (r : Routine) (k : Facts) (l : Region) : Prop where
  cancels : x.shape = .selfCancelling → ∀ path, r.Lap k x.root l path → netCount (r.turnsOf k x.root path) = 0
  unbalanced : x.shape = .unbalanced → ∃ c, c ≠ 0 ∧
    ∀ path, r.Lap k x.root l path → netCount (r.turnsOf k x.root path) = c
  turns : x.alternating → ¬ x.nested → ∀ path, r.Lap k x.root l path → Alternates (r.turnsOf k x.root path)

section Summing

variable {r : Routine} {k : Facts} {region l : Region} {id b c : Nat} {root : Var} {s : Summary} {t : SummaryTable}
  {get : Nat → Option Summary}

theorem SummaryTable.exists_point {blocks : List Nat} (hb : b ∈ blocks) (h : k.turnsIn root (r.codeAt b) ≠ []) :
    ∃ p ∈ pointsOf r k blocks root, p.block = b := by
  obtain ⟨up, hup⟩ := List.exists_mem_of_ne_nil _ h
  obtain ⟨i, hi, hturn⟩ := List.mem_filterMap.mp hup
  obtain ⟨index, hindex⟩ := List.getElem?_of_mem hi
  have hcounts : ∃ v, i.counts? = some v ∧ k.root v = some root := by
    cases i with
    | retain v kind =>
      simp only [Facts.turn?, Option.ite_none_right_eq_some] at hturn
      exact ⟨v, rfl, hturn.1⟩
    | release v kind =>
      simp only [Facts.turn?, Option.ite_none_right_eq_some] at hturn
      exact ⟨v, rfl, hturn.1⟩
    | _ => cases hturn
  obtain ⟨v, hv, hroot⟩ := hcounts
  exact ⟨⟨b, index⟩, mem_pointsOf.mpr ⟨hb, i, v, hindex, hv, hroot⟩, rfl⟩

theorem SummaryTable.turnsIn_of_root? (hk : k.Sound r) (hr : k.forest.regions[id]? = some region)
    (hs : t.compute r k id = .ok s) (h : s.root? root = none) :
    ∀ b ∈ region.blocks, k.turnsIn root (r.codeAt b) = [] := by
  intro b hb
  by_contra hne
  obtain ⟨p, hp, -⟩ := exists_point hb hne
  obtain rfl := Except.ok.inj (hs.symm.trans (compute_eq hk hr t))
  have hmem : root ∈ ascending ((operationsIn r k region.blocks).map Prod.fst) :=
    mem_ascending.mpr (List.mem_map.mpr ⟨(root, p), mem_operationsIn.mpr (mem_pointsOf.mp hp), rfl⟩)
  exact List.find?_eq_none.mp h _ (List.mem_map_of_mem hmem) (beq_self_eq_true root)

/-- The trips of a loop come to nothing, if its summary is right and says so. -/
theorem Summary.netCount_lap (hnone : s.root? root = none → ∀ b ∈ l.blocks, k.turnsIn root (r.codeAt b) = [])
    (hright : ∀ x ∈ s.roots, x.Right r k l) (hcancels : ∀ x, s.root? root = some x → x.shape = .selfCancelling)
    {path : List BlockId} (hlap : r.Lap k root l path) : netCount (r.turnsOf k root path) = 0 := by
  cases hx : s.root? root with
  | none =>
    rw [Routine.turnsOf_eq_nil fun b hb => hnone hx b (hlap.inside b hb)]
    rfl
  | some x =>
    obtain rfl : x.root = root := by simpa using List.find?_some hx
    exact (hright x (List.mem_of_find?_eq_some hx)).cancels (hcancels x hx) path hlap

theorem Layout.of_child (hk : k.Sound r) (hl : k.forest.IsLoop id region) (hp : k.forest.parentOf c = some id)
    (hloop : k.forest.IsLoop c l) (hget : get c = some s)
    (hnone : s.root? root = none → ∀ b ∈ l.blocks, k.turnsIn root (r.codeAt b) = [])
    (hright : ∀ x ∈ s.roots, x.Right r k l) : (Layout.of r k id region (some get)).Child root c l := by
  have hblocks : ∀ b, b ∈ l.blocks ↔ b ∈ region.blocks ∧ k.forest.childAt id b = some c := fun b =>
    hk.mem_child_iff hl.2 hp hloop
  refine ⟨?_, hblocks _, fun hb he => hk.enters_at_header hloop.2 (hk.reaches_of_mem hl hb) he,
    fun {n q net turns} hn (hlap : r.Lap k root l q) htold => ?_⟩
  · obtain ⟨latch, hlatch⟩ := (hk.forest.natural hloop).header
    exact (hk.forest.mem_blocks hloop).mpr ⟨hlatch.edge.2, hk.forest.holds_header hloop⟩
  · show Told _ _ (turns ++ r.turnsOf k root q)
    refine ⟨?_, fun hs => ?_⟩
    · rcases through_inner hn root net with hunknown | ⟨-, hcancels⟩
      · exact .inl hunknown
      · have hsummary : (Layout.of r k id region (some get)).summary c = some s := hget
        rw [hsummary, Option.getD_some] at hcancels
        rw [netCount_append, Summary.netCount_lap hnone hright hcancels hlap, Int.add_zero]
        exact htold.tells
    · have hnil : r.turnsOf k root q = [] := by
        refine Routine.turnsOf_eq_nil fun b hb => ?_
        obtain ⟨hmem, hc⟩ := (hblocks b).mp (hlap.inside b hb)
        exact hs.2 b hmem (Option.isSome_iff_exists.mpr ⟨c, hc⟩)
      rw [hnil, List.append_nil]
      exact htold.turns hs

theorem Layout.of_looped (hk : k.Describes r) (hl : k.forest.IsLoop id region)
    (hred : r.flow.Reducible r.entry (· ∈ region.blocks))
    (hchild : ∀ {c}, k.forest.parentOf c = some id → ∃ l, (Layout.of r k id region (some get)).Child root c l) :
    (Layout.of r k id region (some get)).Looped root := by
  have hnat := hk.sound.forest.natural hl
  have hentered := of_entered hk.sound hl.2 (some get)
  have hin : ∀ {b}, b ∈ region.blocks → r.flow.InLoop r.entry region.header b := fun hb =>
    (hnat.holds_iff _).mp ((hk.sound.forest.mem_blocks hl).mp hb).2
  refine ⟨hentered, ?_, fun hn hs hback => ?_, fun hb => ?_, fun hb hquiet => ?_, fun hc => hchild (child_of hk.sound hc).1⟩
  · cases hc : (Layout.of r k id region (some get)).child region.header with
    | none => exact hc
    | some c =>
      obtain ⟨hp, l, hloop, hholds⟩ := child_of hk.sound hc
      rcases hk.sound.forest.parent_cases hloop with ⟨hzero, -⟩ | ⟨p, m, hp', hm, hnot, -⟩
      · exact absurd (Option.some.inj (hp.symm.trans hzero)) hl.1
      · obtain rfl := Option.some.inj (hp'.symm.trans hp)
        obtain rfl := hm.unique hl
        exact absurd (hloop.mem_loopsAt.mpr hholds) hnot
  · exact eq_entry_of_back hk.sound hl.2 hred hn (edge_graph.mpr hs) hback
  · exact (hentered.reached hb).mpr (hk.sound.reaches_of_mem hl hb.1)
  · exact (hk.doomed hquiet).not_inLoop hnat.header (hin hb)

/-- The summary of a loop is right about all its trips, once those of its children are. -/
theorem SummaryTable.compute_right (hk : k.Describes r) (hl : k.forest.IsLoop id region)
    (hred : r.flow.Reducible r.entry (· ∈ region.blocks)) (hs : t.compute r k id = .ok s)
    (hchild : ∀ {c} root, k.forest.parentOf c = some id →
      ∃ l, (Layout.of r k id region (some t.get?)).Child root c l) : ∀ x ∈ s.roots, x.Right r k region := by
  obtain rfl := Except.ok.inj (hs.symm.trans (compute_eq hk.sound hl.2 t))
  intro x hx
  obtain ⟨root, -, rfl⟩ := List.mem_map.mp hx
  have hlooped := Layout.of_looped hk hl hred fun {c} => hchild (c := c) root
  refine ⟨fun hshape path hlap => ?_, fun hshape => ?_, fun halternating hnested path hlap => ?_⟩
  · obtain ⟨v, hv, htold⟩ := hlooped.lap_told hlap
    exact htold.tells.eq (Trip.eq_of_selfCancelling hshape v hv)
  · obtain ⟨c, hc, hends⟩ := Trip.eq_of_unbalanced hshape
    refine ⟨c, hc, fun path hlap => ?_⟩
    obtain ⟨v, hv, htold⟩ := hlooped.lap_told hlap
    exact htold.tells.eq (hends v hv)
  · obtain ⟨v, hv, htold⟩ := hlooped.lap_told hlap
    refine htold.turns ⟨(Bool.and_eq_true_iff.mp halternating).1, fun b hb hc => ?_⟩
    by_contra hne
    obtain ⟨p, hp, rfl⟩ := exists_point hb hne
    exact hnested (List.any_eq_true.mpr ⟨p, hp, hc⟩)

theorem Facts.Summed.right (hk : k.Describes r) (hs : k.Summed r id s) (hl : k.forest.IsLoop id region)
    (hred : r.flow.Reducible r.entry (· ∈ region.blocks)) : ∀ x ∈ s.roots, x.Right r k region := by
  induction hs generalizing region with
  | @of id region' t s hr hfull hchildren hs ih =>
    obtain rfl := Option.some.inj (hl.2.symm.trans hr)
    refine SummaryTable.compute_right hk hl hred hs fun {c} root hp => ?_
    have hc := ((hk.sound.forest.children hl.2).2 c).mpr hp
    obtain ⟨l, hloop⟩ := hk.sound.forest.isLoop_of_parentOf hp
    obtain ⟨s', hs'⟩ := Option.isSome_iff_exists.mp (hfull c hc)
    have hinside : ∀ b, b ∈ l.blocks → b ∈ region.blocks := fun b hb =>
      hk.sound.forest.mem_blocks_of_child hp hloop.2 hl.2 hb
    refine ⟨l, Layout.of_child hk.sound hl hp hloop hs' (fun hnone => ?_) (ih c hc s' hs' hloop (hred.mono hinside))⟩
    cases hchildren c hc s' hs' with
    | of hr' _ _ hcompute =>
      obtain rfl := Option.some.inj (hloop.2.symm.trans hr')
      exact SummaryTable.turnsIn_of_root? hk.sound hr' hcompute hnone

end Summing

/-- In a loop without other cycles than natural loops, the summary is right about every trip: if its
shape cancels or is unbalanced, the counts of all trips are zero or the same other number, and if
operations alternate and none lies in an inner loop, they take turns on every trip, a retain first. -/
theorem trip_shapes_right_of_reducible (r : Routine) (k : Facts) (id : RegionId) (l : Region) (h : r.check = .ok ())
    (hk : r.facts = .ok k) (hl : k.forest.IsLoop id l) (hreducible : r.flow.Reducible r.entry (· ∈ l.blocks)) :
    ∃ t s, (SummaryTable.empty k.forest).summarize r k id = .ok t ∧ t.get? id = some s ∧
      ∀ x ∈ s.roots, x.Right r k l := by
  have hdescribes := Routine.describes_of_check h hk
  obtain ⟨t, s, ht, hfresh, hs⟩ := SummaryTable.summarize_anew hdescribes.sound hl.lt hl.1
  exact ⟨t, s, ht, hs, (hfresh.summed id s hs).right hdescribes hl hreducible⟩

/-- Each trip retains the root, goes round an inner loop that retains and releases it, or traps in
between, and releases it. -/
def nestedLaps : Routine where
  name := "nested_laps"
  params := [0, 1]
  blocks := [
    ⟨0, [], .jump 1⟩,
    ⟨1, [.retain 0 .strong], .jump 2⟩,
    ⟨2, [.retain 0 .strong], .branch 1 3 6⟩,
    ⟨3, [.release 0 .strong], .branch 1 2 4⟩,
    ⟨4, [.release 0 .strong], .branch 1 1 5⟩,
    ⟨5, [], .ret 1⟩,
    ⟨6, [], .trap⟩]
  entry := 0
  storage := [.reference, .trivial]

theorem trip_shapes_right_of_reducible_nestedLaps : nestedLaps.check = .ok () ∧
    ∃ k l t s, nestedLaps.facts = .ok k ∧ k.forest.IsLoop 1 l ∧
      nestedLaps.flow.Reducible nestedLaps.entry (· ∈ l.blocks) ∧
      (SummaryTable.empty k.forest).summarize nestedLaps k 1 = .ok t ∧ t.get? 1 = some s ∧
      ∀ x ∈ s.roots, x.Right nestedLaps k l := by
  have hrun : (nestedLaps.facts.map fun k => (k.forest.regions[1]?.map Region.blocks,
      k.dom.dominates 2 3, k.dom.dominates 1 4)) = .ok (some [1, 2, 3, 4], true, true) := by decide +kernel
  cases hk : nestedLaps.facts with
  | error fault => rw [hk] at hrun; cases hrun
  | ok k =>
    rw [hk] at hrun
    simp only [Except.map, Except.ok.injEq, Prod.mk.injEq, Option.map_eq_some_iff] at hrun
    obtain ⟨⟨l, hl, hblocks⟩, hinner, houter⟩ := hrun
    have hsound := (Routine.describes_of_check rfl hk).sound
    have hreducible : nestedLaps.flow.Reducible nestedLaps.entry (· ∈ l.blocks) := by
      have hedges : ∀ a ∈ [1, 2, 3, 4], ∀ b ∈ nestedLaps.flow.next a, b ∈ [1, 2, 3, 4] →
          (b = 2 ∧ a = 3) ∨ (b = 1 ∧ a = 4) ∨ a < b := by decide
      refine ⟨id, fun a b ha hb he => ?_⟩
      rw [hblocks] at ha hb
      rcases hedges a ha b he.1 hb with ⟨rfl, rfl⟩ | ⟨rfl, rfl⟩ | hlt
      · exact .inl (((hsound.dom.dominates_iff 2 3).mp hinner).resolve_left (by decide)).2
      · exact .inl (((hsound.dom.dominates_iff 1 4).mp houter).resolve_left (by decide)).2
      · exact .inr hlt
    obtain ⟨t, s, ht, hs, hright⟩ :=
      trip_shapes_right_of_reducible nestedLaps k 1 l rfl hk ⟨by decide, hl⟩ hreducible
    exact ⟨rfl, k, l, t, s, rfl, ⟨by decide, hl⟩, hreducible, ht, hs, hright⟩

/-- The second and third block of the loop lead to each other, and both are entered from the header. -/
def crossedLoop : Routine where
  name := "crossed_loop"
  params := [0, 1]
  blocks := [
    ⟨0, [], .jump 1⟩,
    ⟨1, [.retain 0 .strong], .branch 1 2 3⟩,
    ⟨2, [], .jump 3⟩,
    ⟨3, [.release 0 .strong], .switch 1 [(0, 2), (1, 1)] 4⟩,
    ⟨4, [], .ret 1⟩]
  entry := 0
  storage := [.reference, .trivial]

/-- A cycle that is no natural loop is cut as if it were the end of the trip: the summary has every
trip cancel and alternate, and one releases twice what it retains once. -/
theorem crossed_cycle_escapes_trip_shape : crossedLoop.check = .ok () ∧
    ∃ k l t s x, crossedLoop.facts = .ok k ∧ k.forest.IsLoop 1 l ∧
      (SummaryTable.empty k.forest).summarize crossedLoop k 1 = .ok t ∧ t.get? 1 = some s ∧ x ∈ s.roots ∧
      x.shape = .selfCancelling ∧ x.alternating ∧ ¬ x.nested ∧ crossedLoop.Lap k x.root l [1, 3, 2, 3] ∧
      netCount (crossedLoop.turnsOf k x.root [1, 3, 2, 3]) = -1 ∧
      ¬ Alternates (crossedLoop.turnsOf k x.root [1, 3, 2, 3]) := by
  have hrun : (crossedLoop.facts.bind fun k => ((SummaryTable.empty k.forest).summarize crossedLoop k 1).map fun t =>
      (k.forest.regions[1]?.map fun l => (l.header, l.blocks), (t.get? 1).map Summary.roots,
        crossedLoop.turnsOf k 0 [1, 3, 2, 3])) =
      .ok (some (1, [1, 2, 3]), some [⟨0, [⟨1, 0⟩, ⟨3, 0⟩], .selfCancelling, true, false⟩], [true, false, false]) := by
    decide +kernel
  obtain ⟨k, hk, hrun⟩ := bind_eq_ok.mp hrun
  cases ht : (SummaryTable.empty k.forest).summarize crossedLoop k 1 with
  | error fault => rw [ht] at hrun; cases hrun
  | ok t =>
    rw [ht] at hrun
    simp only [Except.map, Except.ok.injEq, Prod.mk.injEq, Option.map_eq_some_iff] at hrun
    obtain ⟨⟨l, hl, hheader, hblocks⟩, ⟨s, hs, hroots⟩, hturns⟩ := hrun
    refine ⟨rfl, k, l, t, s, _, hk, ⟨by decide, hl⟩, ht, hs, by rw [hroots]; exact .head _, rfl, rfl, by decide,
      ⟨⟨by rw [hheader]; rfl, ?_, by rw [hblocks]; decide, by rw [hheader]; decide⟩, 3, 1, rfl, ⟨by decide, by decide⟩,
        .inl hheader.symm⟩, by rw [hturns]; rfl, ?_⟩
    · exact .cons_cons ⟨by decide, by decide⟩ (.cons_cons ⟨by decide, by decide⟩
        (.cons_cons ⟨by decide, by decide⟩ (.singleton _)))
    · rw [hturns]
      intro halternates
      exact absurd halternates.1 (by decide)

end CountMotion
