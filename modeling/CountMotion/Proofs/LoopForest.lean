import CountMotion.Loop.Forest
import CountMotion.Proofs.Flow
import CountMotion.Proofs.NaturalLoop
import CountMotion.Proofs.Reads
import CountMotion.Proofs.Sorting

/-! The forest of loops: each region is a natural loop, and the numbering follows the nesting. -/
namespace CountMotion

/-- A region that is a natural loop of the graph. -/
structure Region.Natural (g : Graph) (entry : Nat) (l : Region) : Prop where
  header : g.Header entry l.header
  holds_iff : ∀ x, l.holds x ↔ g.InLoop entry l.header x
  blocks : l.blocks = (List.range g.size).filter l.holds
  latch_iff : ∀ x, x ∈ l.latches ↔ g.Latch entry l.header x
  exiting_iff : ∀ x, x ∈ l.exiting ↔ l.holds x ∧ ∃ y, g.Edge x y ∧ ¬ l.holds y
  exit_iff : ∀ y, y ∈ l.exits ↔ ¬ l.holds y ∧ ∃ x, g.Edge x y ∧ l.holds x
  preheader_iff : ∀ p, l.preheader = some p ↔ g.Preheader entry l.header p
  nodup_exits : l.exits.Nodup

theorem Region.Natural.preheader_lt {g : Graph} {entry p : Nat} {l : Region} (h : l.Natural g entry)
    (hp : l.preheader = some p) : p < g.size :=
  ((((h.preheader_iff p).mp hp).edge_iff l.header).mpr rfl).lt_size

/-- Both directions of a graph without edges to numbers that are no nodes, and its dominators. -/
structure Graph.Known (g back : Graph) (entry : Nat) (dom : DomTree) : Prop where
  back_iff : ∀ u v, u ∈ back.next v ↔ g.Edge u v
  size : back.size = g.size
  nodup_back : ∀ v, (back.next v).Nodup
  edge : ∀ u v, v ∈ g.next u → g.Edge u v
  nodup : ∀ u, (g.next u).Nodup
  dom : DomTree.Exact g entry dom
  entry : entry < g.size

section Regions

variable {g back : Graph} {dom : DomTree} {entry h x : Nat}

/-- The sources of the edges to a node that the node dominates. -/
def Graph.latchesOf (back : Graph) (dom : DomTree) (header : Nat) : List Nat :=
  (back.next header).filter fun tail => dom.reaches tail && dom.dominates header tail

theorem mem_latchesOf (hb : ∀ u v, u ∈ back.next v ↔ g.Edge u v) (hd : DomTree.Exact g entry dom) :
    x ∈ back.latchesOf dom h ↔ g.Latch entry h x := by
  simp only [Graph.latchesOf, List.mem_filter, hb, Bool.and_eq_true, hd.reaches_iff, hd.dominates_iff]
  constructor
  · rintro ⟨he, hr, hdom⟩
    refine ⟨he, hr, ?_⟩
    rcases hdom with rfl | ⟨-, hdom⟩
    · exact .refl g entry h
    · exact hdom
  · exact fun hl => ⟨hl.edge, hl.reached, .inr ⟨hl.reached, hl.dominated⟩⟩

private theorem mem_body_iff (hb : ∀ u v, u ∈ back.next v ↔ g.Edge u v) (hd : DomTree.Exact g entry dom)
    (hentry : entry < g.size) {latches : List Nat} (hl : ∀ x, x ∈ latches ↔ g.Latch entry h x) :
    x ∈ explore (List.range g.size) (fun n => (back.next n).filter (dom.dominates h)) latches [h] ↔
      g.InLoop entry h x := by
  constructor
  · refine explore_induct (p := g.InLoop entry h) ?_ ?_ ?_ x
    · intro a ha
      exact .inl (List.mem_singleton.mp ha)
    · intro a ha _
      have hlatch := (hl a).mp ha
      by_cases hah : a = h
      · exact .inl hah
      · exact .inr ⟨hlatch.reached, a, hlatch, .here hah⟩
    · intro a b ha hin hbn _
      obtain ⟨hmem, hdom⟩ := List.mem_filter.mp hbn
      have he : g.Edge b a := (hb b a).mp hmem
      have hah : a ≠ h := fun e => ha (List.mem_singleton.mpr e)
      rcases (hd.dominates_iff h b).mp hdom with rfl | ⟨hr, -⟩
      · exact .inl rfl
      · exact hin.of_edge hah hr he
  · rintro (rfl | ⟨hr, l, hlatch, hp⟩)
    · exact mem_explore_of_seen (.head _)
    · -- back along the path, every node is dominated by the header
      have hlast : l ∈ explore (List.range g.size) (fun n => (back.next n).filter (dom.dominates h)) latches [h] :=
        mem_explore_of_pending ((hl l).mpr hlatch) (List.mem_range.mpr (Graph.Path.lt_size hlatch.reached hentry))
      have back : ∀ y, g.Path (· ≠ h) x y → g.Dominates entry h y →
          y ∈ explore (List.range g.size) (fun n => (back.next n).filter (dom.dominates h)) latches [h] →
          x ∈ explore (List.range g.size) (fun n => (back.next n).filter (dom.dominates h)) latches [h] := by
        intro y hxy
        induction hxy with
        | here => exact fun _ hx => hx
        | @snoc m y hxm he hne ih =>
          intro hdy hy
          have hdm : g.Dominates entry h m := hdy.of_edge (Ne.symm hne) he
          refine ih hdm (explore_closed hy (by simpa using hne) ?_ ?_)
          · exact List.mem_filter.mpr ⟨(hb m y).mpr he,
              (hd.dominates_iff h m).mpr (.inr ⟨Graph.Reaches.trans hr hxm.reaches, hdm⟩)⟩
          · exact List.mem_range.mpr he.lt_size
      exact back l hp hlatch.dominated hlast

/-- The node that alone leads to another, if it leads nowhere else. -/
def Graph.soleEntry (g : Graph) (h : Nat) : (entering : List Nat) → Option Nat
  | [p] => if g.next p = [h] then some p else none
  | _ => none

private theorem soleOutside_iff (hb : ∀ u v, u ∈ back.next v ↔ g.Edge u v) (hn : ∀ v, (back.next v).Nodup)
    (hg : ∀ u v, v ∈ g.next u → g.Edge u v) (hgn : ∀ u, (g.next u).Nodup) {body : Nat → Bool}
    (hbody : ∀ x, body x ↔ g.InLoop entry h x) {p : Nat} :
    g.soleEntry h ((back.next h).filter fun b => !body b) = some p ↔ g.Preheader entry h p := by
  have hout : ∀ x, x ∈ (back.next h).filter (fun b => !body b) ↔ g.Edge x h ∧ ¬ g.InLoop entry h x := by
    intro x
    rw [List.mem_filter, hb, Bool.not_eq_true', ← Bool.not_eq_true, hbody]
  constructor
  · intro hp
    rw [Graph.soleEntry.eq_def] at hp
    split at hp
    · rename_i q hq
      split at hp
      · rename_i hnext
        obtain rfl := Option.some.inj hp
        have hmem := (hout q).mp (by rw [hq]; exact .head _)
        refine ⟨hmem.2, fun x => ⟨fun he => ?_, fun hx => hx ▸ hmem.1⟩, fun x he => ?_⟩
        · have hx := he.1
          rw [hnext] at hx
          exact List.mem_singleton.mp hx
        · refine (Classical.em _).imp_right fun hnot => ?_
          have hx := (hout x).mpr ⟨he, hnot⟩
          rw [hq] at hx
          exact List.mem_singleton.mp hx
      · cases hp
    · cases hp
  · intro hp
    have hedge : g.Edge p h := (hp.edge_iff h).mpr rfl
    have hlist : (back.next h).filter (fun b => !body b) = [p] := by
      refine eq_singleton_of_nodup ((hn h).filter _) fun x => ?_
      rw [hout]
      refine ⟨fun hx => (hp.only x hx.1).resolve_left hx.2, ?_⟩
      rintro rfl
      exact ⟨hedge, hp.outside⟩
    have hnext : g.next p = [h] := by
      refine eq_singleton_of_nodup (hgn p) fun x => ?_
      rw [← hp.edge_iff x]
      exact ⟨hg p x, fun he => he.1⟩
    rw [hlist, Graph.soleEntry, if_pos hnext]

private theorem search_body (hk : g.Known back entry dom) {latches : List Nat}
    (hl : ∀ x, x ∈ latches ↔ g.Latch entry h x) :
    ∃ body, search back.succs (fun _ sources => sources.filter (dom.dominates h)) latches [h] = .ok body ∧
      ∀ x, x ∈ body ↔ g.InLoop entry h x := by
  have hlen : back.succs.length = g.size := hk.size
  have hplain : ∀ n sources, back.succs[n]? = some sources →
      (back.next n).filter (dom.dominates h) = sources.filter (dom.dominates h) := by
    intro n sources hn
    rw [Graph.next, hn, Option.getD_some]
  refine ⟨_, search_eq_explore hplain (fun n m hm => ?_) fun n hn => ?_, fun x => ?_⟩
  · rw [hlen]
    exact ((hk.back_iff m n).mp (List.mem_filter.mp hm).1).lt_size
  · rw [hlen]
    exact ((hl n).mp hn).edge.lt_size
  · rw [hlen]
    exact mem_body_iff hk.back_iff hk.dom hk.entry hl

/-- The loop with these nodes, the edges read without a check. -/
def Region.ofBody (g back : Graph) (header : Nat) (latches body : List Nat) : Region where
  parent := none
  children := []
  depth := 0
  header := header
  blocks := ascending body
  preheader := g.soleEntry header ((back.next header).filter fun b => !body.contains b)
  latches := latches
  exiting := (ascending body).filter fun b => (g.next b).any fun s => !body.contains s
  exits := ascending ((ascending body).flatMap fun b => (g.next b).filter fun s => !body.contains s)

private theorem preheaderOf_eq (entering : List Nat) (hin : ∀ p ∈ entering, p < g.size) :
    Region.preheaderOf g h entering = .ok (g.soleEntry h entering) := by
  rcases entering with _ | ⟨p, _ | ⟨q, rest⟩⟩
  · rfl
  · rw [Region.preheaderOf, readAt_eq_ok.mpr (g.getElem?_succs (hin p (.head _)))]
    rfl
  · rfl

theorem Region.ofLatches_eq_ofBody (hk : g.Known back entry dom) {latches body : List Nat} (hh : g.Header entry h)
    (hsearch : search back.succs (fun _ sources => sources.filter (dom.dominates h)) latches [h] = .ok body)
    (hbody : ∀ x, x ∈ body ↔ g.InLoop entry h x) :
    ofLatches g back dom h latches = .ok (ofBody g back h latches body) := by
  have hsize : ∀ x, g.InLoop entry h x → x < g.size := fun x hx => (hx.reached hh).lt_size hk.entry
  have hleaving : ((ascending body).mapM fun b => do
      return (b, (← readAt g.succs b).filter fun s => !body.contains s)) =
      .ok ((ascending body).map fun b => (b, (g.next b).filter fun s => !body.contains s)) := by
    refine mapM_total fun b hb => ?_
    rw [readAt_eq_ok.mpr (g.getElem?_succs (hsize b ((hbody b).mp (mem_ascending.mp hb))))]
    rfl
  have hback : readAt back.succs h = .ok (back.next h) := by
    refine readAt_eq_ok.mpr (back.getElem?_succs ?_)
    rw [hk.size]
    exact hsize h (.inl rfl)
  have hpre := preheaderOf_eq (g := g) (h := h) ((back.next h).filter fun b => !body.contains b)
    fun p hp => ((hk.back_iff p h).mp (List.mem_filter.mp hp).1).lt_size
  have hexiting : ∀ l : List Nat, ((l.map fun b => (b, (g.next b).filter fun s => !body.contains s)).filter
      fun x => !x.2.isEmpty).map Prod.fst = l.filter fun b => (g.next b).any fun s => !body.contains s := by
    intro l
    rw [List.filter_map, List.map_map]
    refine (List.map_id _).trans (List.filter_congr fun b _ => ?_)
    rw [Bool.eq_iff_iff]
    simp
  rw [ofLatches]
  refine bind_eq_ok.mpr ⟨body, hsearch, bind_eq_ok.mpr ⟨_, hleaving, bind_eq_ok.mpr ⟨_, hback,
    bind_eq_ok.mpr ⟨_, hpre, ?_⟩⟩⟩⟩
  rw [hexiting, List.flatMap_map]
  rfl

theorem Region.ofBody_natural (hk : g.Known back entry dom) {latches body : List Nat} (hh : g.Header entry h)
    (hl : ∀ x, x ∈ latches ↔ g.Latch entry h x) (hbody : ∀ x, x ∈ body ↔ g.InLoop entry h x) :
    Natural g entry (.ofBody g back h latches body) := by
  have hholds : ∀ x, (ofBody g back h latches body).holds x ↔ g.InLoop entry h x := by
    intro x
    rw [holds, ofBody, List.contains_iff_mem, mem_ascending, hbody]
  refine ⟨hh, hholds, ?_, hl, ?_, ?_, ?_, nodup_ascending _⟩
  · refine ascending_eq_filter_range fun x => ?_
    rw [hholds, hbody]
    exact ⟨fun hx => ⟨(hx.reached hh).lt_size hk.entry, hx⟩, fun hx => hx.2⟩
  · intro x
    simp only [hholds]
    simp only [ofBody, List.mem_filter, mem_ascending, List.contains_iff_mem, hbody, List.any_eq_true,
      Bool.not_eq_true', ← Bool.not_eq_true]
    constructor
    · rintro ⟨hx, y, hy, hout⟩
      exact ⟨hx, y, hk.edge x y hy, hout⟩
    · rintro ⟨hx, y, he, hout⟩
      exact ⟨hx, y, he.1, hout⟩
  · intro y
    simp only [hholds]
    simp only [ofBody, List.mem_flatMap, List.mem_filter, mem_ascending, List.contains_iff_mem, hbody,
      Bool.not_eq_true', ← Bool.not_eq_true]
    constructor
    · rintro ⟨x, hx, he, hy⟩
      exact ⟨hy, x, hk.edge x y he, hx⟩
    · rintro ⟨hy, x, he, hx⟩
      exact ⟨x, hx, he.1, hy⟩
  · refine fun p => soleOutside_iff hk.back_iff hk.nodup_back hk.edge hk.nodup fun x => ?_
    rw [List.contains_iff_mem, hbody]

theorem Region.ofLatches_natural (hk : g.Known back entry dom) {latches : List Nat}
    (hl : ∀ x, x ∈ latches ↔ g.Latch entry h x) (hne : latches ≠ []) :
    ∃ l, ofLatches g back dom h latches = .ok l ∧ l.Natural g entry ∧ l.header = h := by
  have hh : g.Header entry h := by
    obtain ⟨l, hmem⟩ := List.exists_mem_of_ne_nil latches hne
    exact ⟨l, (hl l).mp hmem⟩
  obtain ⟨body, hsearch, hbody⟩ := search_body hk hl
  exact ⟨_, ofLatches_eq_ofBody hk hh hsearch hbody, ofBody_natural hk hh hl hbody, rfl⟩

private theorem loopAt_natural (hk : g.Known back entry dom) (h : Nat) :
    ∃ o : Option Region, g.loopAt back dom (back.next h) h = .ok o ∧
      (∀ l, o = some l → l.Natural g entry ∧ l.header = h) ∧ (g.Header entry h → ∃ l, o = some l) := by
  have hl : ∀ y, y ∈ back.latchesOf dom h ↔ g.Latch entry h y := fun y => mem_latchesOf hk.back_iff hk.dom
  rw [Graph.loopAt, ← Graph.latchesOf]
  split
  · next hnone =>
    refine ⟨none, rfl, fun l hl => (by cases hl), ?_⟩
    rintro ⟨y, hy⟩
    have := (hl y).mpr hy
    rw [hnone] at this
    cases this
  · next hne =>
    obtain ⟨l, hok, hnat, hhead⟩ := Region.ofLatches_natural hk hl hne
    refine ⟨some l, ?_, ?_, fun _ => ⟨l, rfl⟩⟩
    · rw [hok]
      rfl
    · rintro _ ⟨⟩
      exact ⟨hnat, hhead⟩

/-- The loops of a graph are found without a fault: natural loops with a header each, one for
every header. -/
theorem Graph.loops_natural (hk : g.Known back entry dom) :
    ∃ loops, g.loops back dom = .ok loops ∧ (∀ l ∈ loops, l.Natural g entry) ∧
      (loops.map Region.header).Nodup ∧ ∀ h, g.Header entry h → ∃ l ∈ loops, l.header = h := by
  obtain ⟨found, hok, hfound⟩ := mapM_forall fun h (_ : h ∈ List.range back.size) => loopAt_natural hk h
  refine ⟨found.filterMap id, ?_, ?_, ?_, ?_⟩
  · rw [Graph.loops, zipIdx_succs, List.mapM_map]
    exact bind_eq_ok.mpr ⟨found, hok, rfl⟩
  · intro l hl
    obtain ⟨o, ho, rfl⟩ := List.mem_filterMap.mp hl
    obtain ⟨x, -, hx⟩ := exists_of_mem_forall₂ hfound ho
    exact (hx.1 l rfl).1
  · have hapart : found.Pairwise fun o o' => ∀ l, o = some l → ∀ l', o' = some l' → l.header ≠ l'.header := by
      refine pairwise_of_forall₂ hfound List.nodup_range ?_
      intro x _ x' _ hne o o' ho ho' l hl l' hl'
      rw [(ho.1 l hl).2, (ho'.1 l' hl').2]
      exact hne
    rw [List.Nodup, List.pairwise_map]
    exact hapart.filterMap _ fun o o' hne l hl l' hl' => hne l hl l' hl'
  · intro h hh
    have hmem : h ∈ List.range back.size := List.mem_range.mpr (hk.size ▸ hh.reached.lt_size hk.entry)
    obtain ⟨o, ho, hp⟩ := exists_of_mem_forall₂ hfound.flip hmem
    obtain ⟨l, rfl⟩ := hp.2 hh
    exact ⟨l, List.mem_filterMap.mpr ⟨_, ho, rfl⟩, (hp.1 l rfl).2⟩

end Regions

end CountMotion
