import CountMotion.Proofs.Paths

/-! Natural loops of a graph: two of them are apart, or one lies inside the other. -/
namespace CountMotion.Graph

variable {g : Graph} {entry a b c h k l x y : Nat}

/-- An edge back to a node from one that it dominates. -/
structure Latch (g : Graph) (entry h l : Nat) : Prop where
  edge : g.Edge l h
  reached : g.Reaches entry l
  dominated : g.Dominates entry h l

/-- The header, and the reachable nodes that lead to a latch without passing it. -/
def InLoop (g : Graph) (entry h x : Nat) : Prop :=
  x = h ∨ g.Reaches entry x ∧ ∃ l, g.Latch entry h l ∧ g.Path (· ≠ h) x l

def Header (g : Graph) (entry h : Nat) : Prop := ∃ l, g.Latch entry h l

/-- The only way into the loop other than along its latches is an edge from this node, which has
no other edge. -/
structure Preheader (g : Graph) (entry h p : Nat) : Prop where
  outside : ¬ g.InLoop entry h p
  edge_iff : ∀ x, g.Edge p x ↔ x = h
  only : ∀ x, g.Edge x h → g.InLoop entry h x ∨ x = p

theorem Header.reached (hh : g.Header entry h) : g.Reaches entry h := by
  obtain ⟨l, hl⟩ := hh
  exact hl.reached.edge hl.edge

theorem Latch.inLoop (hl : g.Latch entry h l) : g.InLoop entry h l := by
  by_cases hlh : l = h
  · exact .inl hlh
  · exact .inr ⟨hl.reached, l, hl, .here hlh⟩

namespace InLoop

theorem reached (hh : g.Header entry h) (hx : g.InLoop entry h x) : g.Reaches entry x := by
  rcases hx with rfl | ⟨hr, -⟩
  · exact hh.reached
  · exact hr

theorem dominated (hx : g.InLoop entry h x) : g.Dominates entry h x := by
  rcases hx with rfl | ⟨-, l, hl, hp⟩
  · exact .refl g entry x
  · exact fun hpath => hl.dominated (hpath.trans hp)

theorem of_path (hx : g.InLoop entry h x) (hne : x ≠ h) (hr : g.Reaches entry y)
    (hp : g.Path (· ≠ h) y x) : g.InLoop entry h y := by
  rcases hx with rfl | ⟨-, l, hl, hxl⟩
  · exact absurd rfl hne
  · exact .inr ⟨hr, l, hl, hp.trans hxl⟩

theorem of_edge (hx : g.InLoop entry h x) (hne : x ≠ h) (hr : g.Reaches entry y) (he : g.Edge y x) :
    g.InLoop entry h y := by
  by_cases hy : y = h
  · exact .inl hy
  · exact of_path hx hne hr (.cons hy he (.here hne))

/-- Every path into the loop passes its header. -/
theorem path_from_header (hh : g.Header entry h) (hx : g.InLoop entry h x) :
    g.Path (fun n => g.InLoop entry h n) h x := by
  by_cases hxh : x = h
  · exact hxh ▸ .here (.inl rfl)
  · obtain hall | rfl | ⟨d, hrh, hd, hdx⟩ := (hx.reached hh).after h
    · exact absurd (hall.mono fun _ hn => hn.2) hx.dominated
    · exact .here (.inl rfl)
    · have inside : ∀ n, g.Path (fun n => True ∧ n ≠ h) n x → g.Reaches entry n → g.InLoop entry h n :=
        fun n hp hr => of_path hx hxh hr (hp.mono fun _ hn => hn.2)
      have hrd : g.Reaches entry d := Reaches.edge hrh hd
      suffices key : ∀ n, g.Path (fun n => True ∧ n ≠ h) d n → g.Path (fun n => True ∧ n ≠ h) n x →
          g.Path (fun n => g.InLoop entry h n) h n from key x hdx (.here ⟨trivial, hxh⟩)
      intro n hdn
      induction hdn with
      | here hne => exact fun hnx => .snoc (.here (.inl rfl)) hd (inside d hnx hrd)
      | @snoc m n hdm he hne ih =>
        intro hnx
        have hmx := Path.cons hdm.last he hnx
        exact .snoc (ih hmx) he (inside n hnx (Reaches.edge (hrd.trans hdm.reaches) he))

theorem path_to_latch (hx : g.InLoop entry h x) (hh : g.Header entry h) :
    ∃ l, g.Latch entry h l ∧ g.Path (fun n => g.InLoop entry h n) x l := by
  rcases hx with rfl | ⟨hr, l, hl, hp⟩
  · obtain ⟨l, hl⟩ := hh
    exact ⟨l, hl, path_from_header ⟨l, hl⟩ hl.inLoop⟩
  · refine ⟨l, hl, ?_⟩
    suffices key : ∀ n, g.Path (· ≠ h) x n → g.Path (· ≠ h) n l → g.Path (fun n => g.InLoop entry h n) x n from
      key l hp (.here hp.last)
    intro n hxn
    induction hxn with
    | here => exact fun hnl => .here (.inr ⟨hr, l, hl, hnl⟩)
    | @snoc m n hxm he _ ih =>
      intro hnl
      have hrn : g.Reaches entry n := Reaches.edge (hr.trans hxm.reaches) he
      exact .snoc (ih (.cons hxm.last he hnl)) he (.inr ⟨hrn, l, hl, hnl⟩)

theorem exists_next (hx : g.InLoop entry h x) (hh : g.Header entry h) : ∃ y, g.Edge x y ∧ g.InLoop entry h y := by
  obtain ⟨l, hl, hp⟩ := hx.path_to_latch hh
  obtain rfl | ⟨y, he, hp⟩ := hp.uncons
  · exact ⟨h, hl.edge, .inl rfl⟩
  · exact ⟨y, he, hp.first⟩

/-- A loop whose header lies in another loop lies inside that loop. -/
theorem nested (hk : g.InLoop entry h k) (hne : k ≠ h) (hx : g.InLoop entry k x) (hkk : g.Header entry k) :
    g.InLoop entry h x := by
  have away : ∀ n, g.InLoop entry k n → n ≠ h := by
    rintro n hn rfl
    exact hne (hk.dominated.antisymm (hn.reached hkk) hn.dominated).symm
  rcases hx with rfl | ⟨hr, l, hl, hp⟩
  · exact hk
  · have hll : g.InLoop entry h l := of_edge hk hne hl.reached hl.edge
    refine of_path hll (away l hl.inLoop) hr ?_
    have : ∀ n, g.Path (· ≠ k) x n → g.Path (· ≠ k) n l → g.Path (· ≠ h) x n := by
      intro n hxn
      induction hxn with
      | here hne' => exact fun hnl => .here (away x (.inr ⟨hr, l, hl, hnl⟩))
      | @snoc m n hxm he hne' ih =>
        intro hnl
        have hrn : g.Reaches entry n := Reaches.edge (hr.trans hxm.reaches) he
        exact .snoc (ih (.cons hxm.last he hnl)) he (away n (.inr ⟨hrn, l, hl, hnl⟩))
    exact this l hp (.here hp.last)

private theorem header_of_dominates (hh : g.Header entry h) (hk : g.Header entry k)
    (hx : g.InLoop entry h x) (hx' : g.InLoop entry k x) (hd : g.Dominates entry h k) :
    g.InLoop entry h k := by
  by_cases hhk : k = h
  · exact .inl hhk
  · have hxh : x ≠ h := by
      rintro rfl
      exact hhk (hx'.dominated.antisymm hk.reached hd)
    -- a path reaches the outer header without the inner one, and from its last visit there
    -- leads through the inner header to `x`
    have toH : g.Path (· ≠ k) entry h := by
      refine Classical.byContradiction fun hno => hhk ?_
      exact Dominates.antisymm hk.reached hno hd
    obtain hall | rfl | ⟨d, -, he, hdx⟩ := (hx.reached hh).after h
    · exact absurd (hall.mono fun _ hn => hn.2) hx.dominated
    · exact absurd rfl hxh
    · obtain hall | ⟨c, hc, -, hcx, -⟩ := hdx.meets (· ≠ k)
      · exact absurd (.trans (.snoc toH he hall.first.2) (hall.mono fun _ hn => hn.2)) hx'.dominated
      · obtain rfl : c = k := Decidable.not_not.mp hc
        exact of_path hx hxh hk.reached (hcx.mono fun _ hn => hn.2)

/-- Of two loops that share a node, one holds the header of the other. -/
theorem header_of_common (hh : g.Header entry h) (hk : g.Header entry k)
    (hx : g.InLoop entry h x) (hx' : g.InLoop entry k x) : g.InLoop entry h k ∨ g.InLoop entry k h :=
  (hx.dominated.total (hx.reached hh) hx'.dominated).imp (header_of_dominates hh hk hx hx')
    (header_of_dominates hk hh hx' hx)

theorem header_antisymm (hh : g.Header entry h) (hhk : g.InLoop entry h k) (hkh : g.InLoop entry k h) :
    h = k :=
  hhk.dominated.antisymm hh.reached hkh.dominated

end InLoop

end CountMotion.Graph
