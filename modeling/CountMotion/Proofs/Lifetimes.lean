import CountMotion.Proofs.Sharing

/-! Dead objects stay dead, so what a run may still come to count is alive. -/
namespace CountMotion.Routine

variable {r : Routine} {root v : Var} {p q : Point} {m : Memory} {o : ObjId} {i : Instr} {b d t : BlockId}

/-- A way from point to point on which the variable is not defined anew. -/
inductive Leads (r : Routine) (root : Var) (p : Point) : Point → Prop where
  | refl : Leads r root p p
  | instr {q : Point} {i : Instr} (h : Leads r root p q) (hi : r.instrAt? q = some i) (hne : i.target? ≠ some root) :
      Leads r root p ⟨q.block, q.index + 1⟩
  | jump {b t : BlockId} (h : Leads r root p ⟨b, (r.codeAt b).body.length⟩) (he : r.flow.Edge b t) :
      Leads r root p ⟨t, 0⟩

def Spares (r : Routine) (root : Var) (b : BlockId) : Prop :=
  ∀ j i, r.instrAt? ⟨b, j⟩ = some i → i.target? ≠ some root

namespace Leads

theorem along {j n : Nat} (h : r.Leads root p ⟨b, j⟩) (hn : j ≤ n) (hlen : n ≤ (r.codeAt b).body.length)
    (hs : ∀ l i, j ≤ l → l < n → r.instrAt? ⟨b, l⟩ = some i → i.target? ≠ some root) : r.Leads root p ⟨b, n⟩ := by
  induction n with
  | zero =>
    obtain rfl := Nat.le_zero.mp hn
    exact h
  | succ n ih =>
    rcases Nat.lt_or_ge n j with hlt | hge
    · obtain rfl : j = n + 1 := by omega
      exact h
    · have hi : r.instrAt? ⟨b, n⟩ = some ((r.codeAt b).body.get ⟨n, hlen⟩) := by
        rw [instrAt?_eq]
        exact List.getElem?_eq_getElem hlen
      refine .instr (ih hge (Nat.le_of_succ_le hlen) fun l i hj hl => hs l i hj (Nat.lt_succ_of_lt hl)) hi ?_
      exact hs n _ hge (Nat.lt_succ_self n) hi

theorem block (h : r.Leads root p ⟨b, 0⟩) (hs : r.Spares root b) {n : Nat} (hlen : n ≤ (r.codeAt b).body.length) :
    r.Leads root p ⟨b, n⟩ :=
  h.along (Nat.zero_le n) hlen fun l i _ _ => hs l i

theorem path (h : r.Leads root p ⟨d, 0⟩) (hp : r.flow.Path (r.Spares root) d b) : r.Leads root p ⟨b, 0⟩ := by
  induction hp with
  | here => exact h
  | snoc hp he _ ih => exact .jump (ih.block hp.last (Nat.le_refl _)) he

end Leads

theorem Proper.dead_leads (hr : r.Proper) (h : r.Leads root p q) (hat : r.At p m) (ho : m.env root = some o)
    (hdead : m.count o = 0) : ∃ m', r.At q m' ∧ m'.env root = some o ∧ m'.count o = 0 := by
  induction h with
  | refl => exact ⟨m, hat, ho, hdead⟩
  | instr h hi hne ih =>
    obtain ⟨m', hat', ho', hdead'⟩ := ih
    obtain ⟨n, he⟩ := hr.safe.exec hat' hi
    have hkeeps := (Memory.exec_iff.mp he).keeps
    exact ⟨n, .instr hat' hi he, by rw [hkeeps.env _ hne, ho'], hkeeps.dead o (hat'.closed.env root o ho') hdead'⟩
  | jump h he ih =>
    obtain ⟨m', hat', ho', hdead'⟩ := ih
    exact ⟨m', .jump hat' he, ho', hdead'⟩

/-- What a count operation on the way will find is alive. -/
theorem Proper.alive (hr : r.Proper) (h : r.Leads root p q) (hat : r.At p m) (ho : m.env root = some o)
    (hi : r.instrAt? q = some i) (hv : i.counts? = some v) (henv : ∀ m, r.At q m → m.env v = m.env root) :
    0 < m.count o := by
  refine Nat.pos_of_ne_zero fun hdead => ?_
  obtain ⟨m', hat', ho', hdead'⟩ := hr.dead_leads h hat ho hdead
  obtain ⟨n, he⟩ := hr.safe.exec hat' hi
  have hlive : ∀ a, m'.live v = .ok (some a) → False := by
    intro a ha
    obtain ⟨ha, hpos⟩ := Memory.live_eq_some.mp ha
    rw [henv m' hat', ho'] at ha
    rw [← Option.some.inj ha, hdead'] at hpos
    cases hpos
  have hnone : m'.env v ≠ none := by
    rw [henv m' hat', ho']
    exact nofun
  cases i with
  | retain w kind =>
    obtain rfl := Option.some.inj hv
    cases Memory.exec_iff.mp he with
    | copy _ hc => cases hc
    | retain kind hl => exact hlive _ hl
    | idle hc hno =>
      cases hc
      exact hnone hno
  | release w kind =>
    obtain rfl := Option.some.inj hv
    cases Memory.exec_iff.mp he with
    | copy _ hc => cases hc
    | release kind hl hd => exact hlive _ hl
    | idle hc hno =>
      cases hc
      exact hnone hno
  | _ => cases hv

/-- What is available at the end of a dominator is not defined anew after the last visit to it. -/
theorem SSA.spares_of_dominated (hs : r.SSA) (hav : r.Available ⟨t, (r.codeAt t).body.length⟩ root)
    (hr : r.flow.Reaches r.entry t) (hdom : r.flow.Dominates r.entry t b)
    (hp : r.flow.Path (· ≠ t) d b) : r.flow.Path (r.Spares root) d b := by
  obtain hall | ⟨c, hc, -, hcb, -⟩ := hp.meets (r.Spares root)
  · exact hall.mono fun _ h => h.2
  · exfalso
    simp only [Spares, not_forall, not_not] at hc
    obtain ⟨j, i, hi, hdef⟩ := hc
    rcases hs.before hi hdef hav with ⟨hb, -⟩ | ⟨hne, hdom'⟩
    · exact hcb.first hb
    · refine hdom (.trans ?_ hcb)
      by_contra hno
      exact hne (Graph.Dominates.antisymm hr hno hdom').symm

end CountMotion.Routine
