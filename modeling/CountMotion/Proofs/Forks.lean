import CountMotion.Proofs.Evenness
import CountMotion.Proofs.Rising

/-! Where the paths to even retains part, no way leads around or back. -/
namespace CountMotion.Layout

variable {y : Layout} {root : Var} {members : List Point} {start n n' : Nat} {fan : Nat → Prop}

def nodesOf (y : Layout) (members : List Point) : List Nat := members.filterMap fun x => y.flat.nodeOf x.block

theorem mem_nodesOf : n ∈ y.nodesOf members ↔ ∃ x ∈ members, y.Stands x.block n := by
  simp only [nodesOf, List.mem_filterMap, nodeOf_eq_some]
  rfl

theorem exists_stands_of_edge (h : y.graph.Edge n n') : ∃ b, y.Stands b n' := by
  have hlt := h.2
  rw [size_graph] at hlt
  obtain ⟨b, hb, hplace⟩ := mem_places.mp (List.getElem_mem hlt)
  exact ⟨b, hb, by rw [List.getElem?_eq_getElem hlt, hplace]⟩

theorem Ahead.path (h : y.Ahead n n') : y.graph.Path (fun m => y.order.idxOf n ≤ y.order.idxOf m) n n' := by
  induction h with
  | refl => exact .here (Nat.le_refl _)
  | tail ha hs ih =>
    have hlt := (mem_succs.mp hs).2.2
    exact .snoc ih (edge_graph.mpr (mem_succs.mp hs).2.1) (Nat.le_trans (Ahead.idxOf_le ha) (Nat.le_of_lt hlt))

/-- An edge back closes a cycle over edges that lead ahead. -/
theorem ahead_of_back (hs : y.Sound) (hn : n ∈ y.order) (he : y.graph.Edge n n')
    (hback : ¬ y.order.idxOf n < y.order.idxOf n') : y.Ahead n' n := by
  have hclimb := ((searchOrder hs).ahead n hn n' he).resolve_left hback
  clear hback he hn
  induction hclimb with
  | refl => exact .refl
  | tail _ hab ih =>
    have hlt := Graph.idxOf_lt_of_sublist (searchOrder hs).nodup hab.2
    have ho := hab.2.subset (.head _)
    exact ih.tail (mem_succs.mpr ⟨ho, edge_graph.mp hab.1, hlt⟩)

namespace Fans

theorem along (h : y.Fans root members start fan) (hb : ∃ b, y.Stands b n) (hn : fan n) (ha : y.Ahead n n') :
    fan n' ∨ ∃ z ∈ members, ∃ nz, y.Stands z.block nz ∧ y.Ahead n nz ∧ ∃ s ∈ y.flat.succs nz, y.Ahead s n' := by
  induction ha with
  | refl => exact .inl hn
  | @tail m n' ham hs ih =>
    rcases ih with hm | ⟨z, hz, nz, hnz, hanz, s, hsz, has⟩
    · obtain ⟨b, hbm⟩ : ∃ b, y.Stands b m := by
        rcases Relation.ReflTransGen.cases_tail ham with rfl | ⟨l, -, hl⟩
        · exact hb
        · exact exists_stands_of_edge (edge_graph.mpr (mem_succs.mp hl).2.1)
      rcases h.inner hm hbm with ⟨-, j, hj, -⟩ | ⟨-, -, -, hnext⟩
      · exact .inr ⟨_, hj, m, hbm, ham, n', hs, .refl⟩
      · exact .inl (hnext n' hs)
    · exact .inr ⟨z, hz, nz, hnz, hanz, s, hsz, has.tail hs⟩

/-- A way back to the start passes a member. -/
theorem returns (h : y.Fans root members start fan) (hs : y.Sound) (hstart : start ∈ y.order) {d : Nat}
    (he : y.graph.Edge start d) : ¬ y.graph.Path (· ∉ y.nodesOf members) d start := by
  have hnext : ∀ {m m'}, m ∈ y.order → ¬ y.flat.liveEscape root m → y.graph.Edge m m' → m' ∈ y.flat.succs m :=
    fun ho hesc he => mem_succs.mpr ⟨ho, he.1, Decidable.not_not.mp fun hback => hesc (liveEscape_of_back ho he.1 hback)⟩
  have horder : ∀ {m m'}, m ∈ y.order → y.graph.Edge m m' → m' ∈ y.order := fun ho he =>
    (searchOrder hs).mem_of_edge ho he
  -- up to a member all is clear, so nothing leads back
  suffices key : ∀ {m}, y.graph.Path (· ∉ y.nodesOf members) d m → fan m ∧ m ∈ y.order ∧ ∃ b, y.Stands b m by
    intro hp
    obtain ⟨s, hs, ha⟩ := h.after (key hp).1
    exact Nat.lt_irrefl _ (Nat.lt_of_lt_of_le (mem_succs.mp hs).2.2 ha.idxOf_le)
  intro m hp
  induction hp with
  | here => exact ⟨h.first.2 d (hnext hstart h.first.1 he), horder hstart he, exists_stands_of_edge he⟩
  | @snoc l m hp hlm _ ih =>
    obtain ⟨hfan, ho, b, hb⟩ := ih
    refine ⟨?_, horder ho hlm, exists_stands_of_edge hlm⟩
    rcases h.inner hfan hb with ⟨-, j, hj, -⟩ | ⟨-, -, hesc, hgo⟩
    · exact absurd (mem_nodesOf.mpr ⟨_, hj, hb⟩) hp.last
    · exact hgo m (hnext ho hesc hlm)

end Fans

theorem not_ahead_around {a b : Nat} (hs : y.Sound) (hdom : y.graph.Dominates y.entry start n) (ha : a ∈ y.order)
    (hab : b ∈ y.flat.succs a) (hlt : y.order.idxOf a < y.order.idxOf start)
    (hlt' : y.order.idxOf start < y.order.idxOf b) : ¬ y.Ahead b n := by
  intro hway
  refine hdom (.trans (.snoc (((searchOrder hs).climbing ha).mono ?_) (edge_graph.mpr (mem_succs.mp hab).2.1) ?_)
    (hway.path.mono ?_))
  · rintro n ⟨-, hle⟩ rfl
    omega
  · rintro rfl
    omega
  · rintro n hle rfl
    omega

/-- Edges that lead ahead pass every dominator. -/
theorem ahead_of_dominates (hs : y.Sound) (hn : n ∈ y.order) (hdom : y.graph.Dominates y.entry start n) :
    y.Ahead start n := by
  generalize hk : y.order.idxOf n = k
  induction k using Nat.strongRecOn generalizing n with
  | ind k ih =>
    by_cases heq : start = n
    · exact heq ▸ .refl
    · rcases (searchOrder hs).entered n hn with rfl | ⟨m, he, hlt⟩
      · exact absurd hdom.eq_entry heq
      · have hm : m ∈ y.order := List.idxOf_lt_length_iff.mp (Nat.lt_trans hlt (List.idxOf_lt_length_of_mem hn))
        exact (ih _ (hk ▸ hlt) hm (hdom.of_edge heq he) rfl).tail (mem_succs.mpr ⟨hm, edge_graph.mp he, hlt⟩)

theorem split_of_apart (hs : y.Sound) (hown : ∀ z ∈ members, y.child z.block = none)
    (happart : ∀ x ∈ members, ¬ y.flat.leadsOn members x) (hn : n ∈ y.nodesOf members) (hn' : n' ∈ y.nodesOf members)
    (ho : n ∈ y.order) (ho' : n' ∈ y.order) : n' = n ∨ y.graph.Split y.entry n n' := by
  have hnot : ∀ {a b}, a ∈ y.nodesOf members → b ∈ y.nodesOf members → b ∈ y.order → a ≠ b →
      ¬ y.graph.Dominates y.entry a b := by
    intro a b ha hb ho hne hdom
    obtain ⟨x, hx, hxa⟩ := mem_nodesOf.mp ha
    obtain ⟨z, hz, hzb⟩ := mem_nodesOf.mp hb
    obtain heq | ⟨l, hl, hlb⟩ := Relation.ReflTransGen.cases_head (ahead_of_dominates hs ho hdom)
    · exact hne heq
    · exact not_leadsTo (happart x hx) hxa hown ⟨z, hz, .inr ⟨l, hl, b, hzb, hlb⟩⟩
  by_cases heq : n' = n
  · exact .inl heq
  · exact .inr ⟨hnot hn hn' ho' (Ne.symm heq), hnot hn' hn ho heq⟩

/-- Where the ways to even members part, they are guarded. -/
theorem guards (hs : y.Sound) (hf : y.Fans root members start fan) (hstart : start ∈ y.order)
    (hown : ∀ z ∈ members, y.child z.block = none) (happart : ∀ x ∈ members, ¬ y.flat.leadsOn members x)
    (hparts : y.graph.Parts y.entry (y.nodesOf members) start) (heven : y.graph.Even y.entry (· ∈ y.nodesOf members)) :
    y.Guards start members where
  reached := hstart
  ahead {_ _ x _} ha hab hlt hlt' hx hnx :=
    not_ahead_around hs (hparts.dominates _ (mem_nodesOf.mpr ⟨x, hx, hnx⟩)) ha hab hlt hlt'
  back {a b s x nx} ha hab hback hsucc hsb hx hnx hway := by
    have he := edge_graph.mpr hab
    have hlt : y.order.idxOf start < y.order.idxOf b := Nat.lt_of_lt_of_le (mem_succs.mp hsucc).2.2 hsb.idxOf_le
    have hfan : fan b := by
      refine (hf.along (exists_stands_of_edge (edge_graph.mpr (mem_succs.mp hsucc).2.1)) (hf.first.2 s hsucc)
        hsb).resolve_right ?_
      rintro ⟨z, hz, nz, hnz, -, l, hl, hlb⟩
      exact not_leadsTo (happart z hz) hnz hown ⟨x, hx, .inr ⟨l, hl, nx, hnx, hlb.trans hway⟩⟩
    -- the cycle that the edge closes holds a member
    obtain ⟨z, hz, nz, hnz, hbz, hza⟩ : ∃ z ∈ members, ∃ nz, y.Stands z.block nz ∧ y.Ahead b nz ∧ y.Ahead nz a := by
      have hba := ahead_of_back hs ha he hback
      rcases hf.along (exists_stands_of_edge he) hfan hba with hfa | ⟨z, hz, nz, hnz, hbz, l, hl, hla⟩
      · obtain ⟨c, hc⟩ : ∃ c, y.Stands c a := by
          rcases Relation.ReflTransGen.cases_tail hba with rfl | ⟨l, -, hl⟩
          · exact exists_stands_of_edge he
          · exact exists_stands_of_edge (edge_graph.mpr (mem_succs.mp hl).2.1)
        rcases hf.inner hfa hc with ⟨-, j, hj, -⟩ | ⟨-, -, hesc, -⟩
        · exact ⟨_, hj, a, hc, hba, .refl⟩
        · exact absurd (liveEscape_of_back ha hab hback) hesc
      · exact ⟨z, hz, nz, hnz, hbz, .head hl hla⟩
    have hmem := mem_nodesOf.mpr ⟨z, hz, hnz⟩
    have hbz' : y.graph.Path (fun m => y.order.idxOf start < y.order.idxOf m) b nz :=
      hbz.path.mono fun m hm => Nat.lt_of_lt_of_le hlt hm
    obtain ⟨d, hzd, hdz⟩ : ∃ d, y.graph.Edge nz d ∧
        y.graph.Path (fun m => y.order.idxOf start < y.order.idxOf m) d nz := by
      rcases Relation.ReflTransGen.cases_head hza with rfl | ⟨l, hl, hla⟩
      · exact ⟨b, he, hbz'⟩
      · have hnl := (mem_succs.mp hl).2.2
        refine ⟨l, edge_graph.mpr (mem_succs.mp hl).2.1, .trans (.snoc ((Ahead.path hla).mono fun m hm => ?_) he hlt) hbz'⟩
        have := hbz.idxOf_le
        omega
    have horder : ∀ n ∈ y.nodesOf members, n ∈ y.order := fun n hn => ((searchOrder hs).mem_iff n).mpr (hparts.reached n hn)
    obtain ⟨n, hn, -, hall⟩ := heven.exists_dominator hmem (hparts.reached nz hmem)
      (fun m hm => (split_of_apart hs hown happart hmem hm (horder nz hmem) (horder m hm)).imp_right fun h => ⟨hm, h⟩)
      hzd hdz
    exact absurd ((searchOrder hs).idxOf_le_of_dominates hstart (hparts.nearest n hall)) (Nat.not_le.mpr hn)

end CountMotion.Layout
