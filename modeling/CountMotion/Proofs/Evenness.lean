import CountMotion.Proofs.DomTree
import CountMotion.Proofs.NaturalLoop

/-! Nodes that lie on the same cycles, as far as one operation before them can stand for all. -/
namespace CountMotion.Graph

variable {g : Graph} {entry a b c d target : Nat} {s p : Nat → Prop} {members : List Nat}

/-- Neither of the nodes dominates the other. -/
def Split (g : Graph) (entry a b : Nat) : Prop := ¬ g.Dominates entry a b ∧ ¬ g.Dominates entry b a

/-- A cycle through one of the nodes passes a common dominator of it and any other that it is split
from. -/
def Even (g : Graph) (entry : Nat) (s : Nat → Prop) : Prop :=
  ∀ a b d, s a → s b → g.Split entry a b → g.Reaches entry a → g.Edge a d →
    ¬ g.Path (fun n => ¬ (g.Dominates entry n a ∧ g.Dominates entry n b)) d a

theorem Split.symm (h : g.Split entry a b) : g.Split entry b a := And.symm h

/-- The node is the nearest common dominator of the members, and no way back to it avoids them. -/
structure Parts (g : Graph) (entry : Nat) (members : List Nat) (target : Nat) : Prop where
  reached : ∀ b ∈ members, g.Reaches entry b
  dominates : ∀ b ∈ members, g.Dominates entry target b
  nearest : ∀ c, (∀ b ∈ members, g.Dominates entry c b) → g.Dominates entry c target
  returns : ∀ d, g.Edge target d → ¬ g.Path (· ∉ members) d target

/-- What is split from where the ways to some nodes part is split from each of them. -/
theorem Parts.split (h : g.Parts entry members target) (ha : g.Split entry a target) (hb : b ∈ members) :
    g.Split entry a b := by
  refine ⟨fun hab => ?_, fun hba => ha.2 ((h.dominates b hb).trans hba)⟩
  rcases Dominates.total (h.reached b hb) hab (h.dominates b hb) with hd | hd
  · exact ha.1 hd
  · exact ha.2 hd

namespace Even

theorem mono {t : Nat → Prop} (h : g.Even entry t) (hs : ∀ a, s a → t a) : g.Even entry s :=
  fun a b d ha hb => h a b d (hs a ha) (hs b hb)

/-- A cycle through one of them passes a common dominator of it and of all that it is split from. -/
theorem exists_dominator (h : g.Even entry s) (ha : s a) (hr : g.Reaches entry a)
    (hm : ∀ b ∈ members, b = a ∨ s b ∧ g.Split entry a b) (he : g.Edge a d) (hp : g.Path p d a) :
    ∃ n, p n ∧ g.Dominates entry n a ∧ ∀ b ∈ members, g.Dominates entry n b := by
  induction members with
  | nil => exact ⟨a, hp.last, Dominates.refl _ _ _, fun _ hb => absurd hb List.not_mem_nil⟩
  | cons b members ih =>
    obtain ⟨n, hpn, hna, hall⟩ := ih fun b hb => hm b (.tail _ hb)
    obtain ⟨n', hpn', hna', hb⟩ : ∃ n, p n ∧ g.Dominates entry n a ∧ g.Dominates entry n b := by
      rcases hm b (.head _) with rfl | ⟨hb, hsplit⟩
      · exact ⟨n, hpn, hna, hna⟩
      · by_contra hno
        exact h a b d ha hb hsplit hr he (hp.mono fun n hn hd => hno ⟨n, hn, hd⟩)
    rcases Dominates.total hr hna hna' with hd | hd
    · exact ⟨n, hpn, hna, List.forall_mem_cons.mpr ⟨hd.trans hb, hall⟩⟩
    · exact ⟨n', hpn', hna', List.forall_mem_cons.mpr ⟨hb, fun c hc => hd.trans (hall c hc)⟩⟩

/-- Where the ways to some even nodes part is even with them. -/
theorem insert (h : g.Even entry s) (hm : g.Parts entry members target) (hs : ∀ b ∈ members, s b) :
    g.Even entry fun b => s b ∨ b = target := by
  rintro a b d (ha | rfl) (hb | rfl) hsplit hr he hp
  · exact h a b d ha hb hsplit hr he hp
  · obtain ⟨n, hn, hna, hall⟩ := h.exists_dominator ha hr (fun x hx => .inr ⟨hs x hx, hm.split hsplit hx⟩) he hp
    exact hn ⟨hna, hm.nearest n hall⟩
  · -- a cycle through the target is one through a member
    obtain hall | ⟨x, hx, hdx, hxa, -⟩ := hp.meets (· ∉ members)
    · exact absurd (hall.mono fun _ hn => hn.2) (hm.returns d he)
    · have hx := Decidable.not_not.mp hx
      obtain ⟨e, hxe, hex⟩ : ∃ e, g.Edge x e ∧
          g.Path (fun n => ¬ (g.Dominates entry n a ∧ g.Dominates entry n b)) e x := by
        rcases hxa.uncons with rfl | ⟨e, hxe, hea⟩
        · exact ⟨d, he, hdx⟩
        · exact ⟨e, hxe, (Path.snoc hea he hdx.first).trans hdx⟩
      have hxb : g.Split entry x b := (hm.split hsplit.symm hx).symm
      obtain ⟨n, hn, hnx, hnb⟩ := h.exists_dominator (hs x hx) (hm.reached x hx)
        (List.forall_mem_singleton.mpr (.inr ⟨hb, hxb⟩)) hxe hex
      have hnb := hnb b (.head _)
      rcases Dominates.total (hm.reached x hx) hnx (hm.dominates x hx) with hd | hd
      · exact hn ⟨hd, hnb⟩
      · exact hsplit.1 (hd.trans hnb)
  · exact hsplit.1 (Dominates.refl _ _ _)

theorem union {q : Nat → Prop} (h : g.Even entry s)
    (hq : ∀ t, q t → ∃ members, (∀ b ∈ members, s b) ∧ g.Parts entry members t) :
    g.Even entry fun b => s b ∨ q b := by
  have hadd : ∀ {s' : Nat → Prop} {t}, (∀ a, s a → s' a) → g.Even entry s' → s t ∨ q t →
      g.Even entry fun b => s' b ∨ b = t := by
    intro s' t hs h' ht
    rcases ht with ht | ht
    · refine h'.mono fun a ha => ha.elim id ?_
      rintro rfl
      exact hs a ht
    · obtain ⟨members, hm, hparts⟩ := hq t ht
      exact h'.insert hparts fun b hb => hs b (hm b hb)
  intro a b d ha hb
  exact hadd (fun _ => .inl) (hadd (fun _ => id) h ha) hb a b d (.inl (.inr rfl)) (.inr rfl)

end Even

end CountMotion.Graph
