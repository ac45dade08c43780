import CountMotion.Proofs.LastingFacts
import CountMotion.Proofs.Pointwise

/-! The body that a splice weaves, point by point: what is put in before an instruction, and
then the instruction unless it goes. -/
namespace CountMotion

namespace Edits

variable {e : Edits} {r : Routine} {b : BlockId} {body : List Instr} {i : Instr}

/-- The new form of the rest of a body from an index on. -/
def woven (e : Edits) (b : BlockId) : Nat → List Instr → List Instr
  | n, [] => e.insertedAt ⟨b, n⟩
  | n, i :: rest =>
    e.insertedAt ⟨b, n⟩ ++ ((if ⟨b, n⟩ ∈ e.deletes then [] else [i]) ++ e.woven b (n + 1) rest)

private theorem woven_eq (n : Nat) :
    e.woven b n body = e.overlaid b n body ++ e.insertedAt ⟨b, n + body.length⟩ := by
  induction body generalizing n with
  | nil => rfl
  | cons i body ih =>
    rw [woven, ih, overlaid, overlaid, List.zipIdx_cons, List.flatMap_cons, List.length_cons, Nat.succ_add_eq_add_succ,
      List.append_assoc, List.append_assoc]

theorem newBody_eq (h : ∀ x ∈ e.inserts, x.1.block = b → x.1.index ≤ body.length) :
    e.newBody b body = e.woven b 0 body := by
  rw [newBody_eq_of_lt fun x hx hb => Nat.lt_succ_of_le (h x hx hb), woven_eq, Nat.zero_add, Nat.succ_eq_add_one,
    Nat.add_sub_cancel_left]
  simp

def Placed (e : Edits) (r : Routine) : Prop :=
  ∀ x ∈ e.inserts, x.1.block < r.blocks.length ∧ x.1.index ≤ (r.codeAt x.1.block).body.length

theorem codeAt_applied (h : e.Placed r) (b : BlockId) :
    (e.applied r).codeAt b = { r.codeAt b with body := e.woven b 0 (r.codeAt b).body } := by
  rw [Routine.codeAt, applied, List.getElem?_mapIdx]
  cases hx : r.blocks[b]? with
  | none =>
    have hnone : e.insertedAt ⟨b, 0⟩ = [] := by
      rw [insertedAt, List.map_eq_nil_iff, List.filter_eq_nil_iff]
      intro x hmem hb
      have := (h x hmem).1
      rw [beq_iff_eq.mp hb] at this
      rw [List.getElem?_eq_getElem this] at hx
      cases hx
    rw [Routine.codeAt, hx]
    simp [woven, hnone]
  | some x =>
    have hbody : e.newBody b x.body = e.woven b 0 x.body := by
      refine newBody_eq fun y hy hb => ?_
      have := (h y hy).2
      rwa [hb, Routine.codeAt_eq hx] at this
    rw [Routine.codeAt_eq hx, ← hbody]
    rfl

private theorem targets_insertedAt (hins : ∀ x ∈ e.inserts, x.2.isCount) (p : Point) (l : Nat) :
    ((e.insertedAt p).take l).filterMap Instr.target? = [] := by
  refine List.filterMap_eq_nil_iff.mpr fun a ha => ?_
  obtain ⟨x, hx, rfl⟩ := List.mem_map.mp (List.mem_of_mem_take ha)
  exact Instr.target?_of_isCount (hins x (List.mem_filter.mp hx).1)

private theorem woven_split {n l : Nat} (hins : ∀ x ∈ e.inserts, x.2.isCount)
    (hdel : ∀ j i, body[j]? = some i → ⟨b, n + j⟩ ∈ e.deletes → i.isCount)
    (h : (e.woven b n body)[l]? = some i) : ∃ j ≤ body.length,
      ((e.woven b n body).take l).filterMap Instr.target? = (body.take j).filterMap Instr.target? ∧
        (i ∈ e.insertedAt ⟨b, n + j⟩ ∨ body[j]? = some i) := by
  induction body generalizing n l with
  | nil => exact ⟨0, Nat.le_refl _, targets_insertedAt hins _ l, .inl (List.mem_of_getElem? h)⟩
  | cons a body ih =>
    rw [woven] at h ⊢
    by_cases hl : l < (e.insertedAt ⟨b, n⟩).length
    · rw [List.getElem?_append_left hl] at h
      rw [List.take_append_of_le_length (Nat.le_of_lt hl)]
      exact ⟨0, Nat.zero_le _, targets_insertedAt hins _ l, .inl (List.mem_of_getElem? h)⟩
    · have hle := Nat.le_of_not_lt hl
      rw [List.getElem?_append_right hle] at h
      rw [List.take_append, List.filterMap_append, targets_insertedAt hins, List.nil_append]
      generalize l - (e.insertedAt ⟨b, n⟩).length = l at h
      have hrest : ∀ {l}, (e.woven b (n + 1) body)[l]? = some i → ∃ j ≤ body.length,
          ((e.woven b (n + 1) body).take l).filterMap Instr.target? = (body.take j).filterMap Instr.target? ∧
            (i ∈ e.insertedAt ⟨b, n + 1 + j⟩ ∨ body[j]? = some i) := by
        intro l hl
        refine ih (fun j i hj hmem => hdel (j + 1) i hj ?_) hl
        rwa [Nat.add_comm j, ← Nat.add_assoc]
      split at h
      · rename_i hmem
        rw [if_pos hmem, List.nil_append]
        obtain ⟨j, hj, htake, hi⟩ := hrest h
        refine ⟨j + 1, Nat.succ_le_succ hj, ?_, ?_⟩
        · rw [htake, List.take_succ_cons, List.filterMap_cons_none (Instr.target?_of_isCount (hdel 0 a rfl hmem))]
        · rwa [Nat.succ_add_eq_add_succ] at hi
      · rename_i hmem
        rw [if_neg hmem]
        cases l with
        | zero => exact ⟨0, Nat.zero_le _, rfl, .inr h⟩
        | succ l =>
          obtain ⟨j, hj, htake, hi⟩ := hrest h
          refine ⟨j + 1, Nat.succ_le_succ hj, ?_, ?_⟩
          · simp only [List.singleton_append, List.take_succ_cons, List.filterMap_cons, htake]
          · rwa [Nat.succ_add_eq_add_succ] at hi

private theorem targets_woven {n : Nat} (hins : ∀ x ∈ e.inserts, x.2.isCount)
    (hdel : ∀ j i, body[j]? = some i → ⟨b, n + j⟩ ∈ e.deletes → i.isCount) :
    (e.woven b n body).filterMap Instr.target? = body.filterMap Instr.target? := by
  have hnone : ∀ p, (e.insertedAt p).filterMap Instr.target? = [] := fun p => by
    have := targets_insertedAt hins p (e.insertedAt p).length
    rwa [List.take_length] at this
  induction body generalizing n with
  | nil => exact hnone _
  | cons a body ih =>
    have hrest := ih (n := n + 1) fun j i hj hmem => hdel (j + 1) i hj (by rwa [Nat.succ_add_eq_add_succ] at hmem)
    rw [woven, List.filterMap_append, List.filterMap_append, hnone, hrest, List.nil_append]
    split
    · rename_i hmem
      rw [List.filterMap_cons_none (Instr.target?_of_isCount (hdel 0 a rfl hmem))]
      rfl
    · rw [← List.filterMap_append]
      rfl

end Edits

section Applied

variable {e : Edits} {r : Routine} {p : Point} {v : Var}

theorem Routine.available_iff : r.Available p v ↔ v ∈ r.params ∨
    v ∈ ((r.codeAt p.block).body.take p.index).filterMap Instr.target? ∨
      ∃ b ≠ p.block, v ∈ (r.codeAt b).body.filterMap Instr.target? ∧ r.flow.Dominates r.entry b p.block := by
  simp only [Available, List.mem_filterMap]

/-- Routines that differ in counts make the same variables available where the same is defined before. -/
theorem Routine.Available.of_bare {base : Routine} {q : Point} (hb : r.bare = base.bare) (hblock : q.block = p.block)
    (htake : ((r.codeAt p.block).body.take p.index).filterMap Instr.target? =
      ((base.codeAt p.block).body.take q.index).filterMap Instr.target?)
    (h : base.Available q v) : r.Available p v := by
  rw [available_iff] at h ⊢
  rw [flow_of_bare hb, entry_of_bare hb, params_of_bare hb, htake, ← hblock]
  refine h.imp_right (Or.imp_right ?_)
  rintro ⟨b, hne, hdef, hdom⟩
  exact ⟨b, hne, by rwa [definitions_of_bare hb], hdom⟩

/-- Count operations put in where their variables are available keep single assignment. -/
theorem Routine.SSA.applied (h : r.SSA) (hfit : e.Fits r) (hplaced : e.Placed r)
    (hav : ∀ x ∈ e.inserts, ∀ v ∈ x.2.operands, r.Available x.1 v) : (e.applied r).SSA := by
  have hbare := hfit.bare_applied
  have hins : ∀ x ∈ e.inserts, x.2.isCount := fun x hx => (hfit.inserted x hx).2
  have hdel : ∀ b j i, (r.codeAt b).body[j]? = some i → ⟨b, 0 + j⟩ ∈ e.deletes → i.isCount := by
    intro b j i hj hmem
    obtain ⟨i', hi', hcount⟩ := hfit.deleted _ hmem
    rw [instrAt?_eq, Nat.zero_add] at hi'
    obtain rfl := Option.some.inj (hj.symm.trans hi')
    exact hcount
  refine ⟨?_, fun p i hi v hv => ?_, fun b v hv => ?_⟩
  · have : (e.applied r).instrs.filterMap Instr.target? = r.instrs.filterMap Instr.target? := by
      rw [← targets_bare (e.applied r), ← targets_bare r, hbare]
    rw [this]
    exact h.once
  · rw [instrAt?_eq, Edits.codeAt_applied hplaced] at hi
    obtain ⟨j, hj, htake, hcase⟩ := Edits.woven_split hins (hdel p.block) hi
    refine Available.of_bare (q := ⟨p.block, j⟩) hbare rfl (by rw [Edits.codeAt_applied hplaced]; exact htake) ?_
    rcases hcase with hmem | hbody
    · rw [Nat.zero_add] at hmem
      obtain ⟨x, hx, rfl⟩ := List.mem_map.mp hmem
      obtain ⟨hmem, heq⟩ := List.mem_filter.mp hx
      rw [← beq_iff_eq.mp heq]
      exact hav x hmem v hv
    · exact h.used ⟨p.block, j⟩ i (by rw [instrAt?_eq]; exact hbody) v hv
  · refine Available.of_bare (q := ⟨b, (r.codeAt b).body.length⟩) hbare rfl ?_ (h.used_term b v ?_)
    · dsimp only
      rw [List.take_length, List.take_length, Edits.codeAt_applied hplaced]
      exact Edits.targets_woven hins (hdel b)
    · rwa [Edits.codeAt_applied hplaced] at hv

end Applied

end CountMotion
