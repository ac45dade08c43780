import CountMotion.Exchange
import CountMotion.Proofs.Sorting
import Mathlib.Algebra.BigOperators.Group.Finset.Piecewise
import Mathlib.Data.List.Perm.Subperm

/-! What a splice changes: count operations only, and as many as were queued. -/
namespace CountMotion

def Block.bare (b : Block) : Block := { b with body := b.body.filter fun i => !i.isCount }

/-- A routine without its count operations. -/
def Routine.bare (r : Routine) : Routine := { r with blocks := r.blocks.map Block.bare }

def Routine.instrAt? (r : Routine) (p : Point) : Option Instr := r.blocks[p.block]?.bind fun b => b.body[p.index]?

/-- The code of a block, that of a lone trap where there is none. -/
def Routine.codeAt (r : Routine) (b : Nat) : Block := r.blocks[b]?.getD ⟨b, [], .trap⟩

theorem Routine.codeAt_eq {r : Routine} {b : Nat} {x : Block} (h : r.blocks[b]? = some x) : r.codeAt b = x := by
  rw [codeAt, h]
  rfl

theorem Routine.getElem?_codeAt {r : Routine} {b : Nat} (h : b < r.blocks.length) :
    r.blocks[b]? = some (r.codeAt b) := by
  rw [codeAt, List.getElem?_eq_getElem h]
  rfl

theorem Routine.block_eq {r : Routine} {b : Nat} (h : b < r.blocks.length) : r.block b = .ok (r.codeAt b) := by
  rw [block, codeAt, List.getElem?_eq_getElem h]
  rfl

/-- The count operations of a routine, each with the weight of its block. -/
def Routine.weigh (r : Routine) (w : Nat → Nat) : Nat := tally (fun (b, n) => b.countOps * w n) r.blocks.zipIdx

namespace Routine

variable {r next : Routine} {w : Nat → Nat}

theorem countOps_eq_weigh (r : Routine) : r.countOps = r.weigh fun _ => 1 := by
  have : ∀ (bs : List Block) (k : Nat),
      tally Block.countOps bs = tally (fun x => x.1.countOps * 1) (bs.zipIdx k) := by
    intro bs
    induction bs with
    | nil => intro k; rfl
    | cons b bs ih =>
      intro k
      rw [List.zipIdx_cons, tally_cons, tally_cons, ← ih (k + 1)]
      exact congrArg (· + _) (Nat.mul_one _).symm
  exact this r.blocks 0

theorem weigh_eq_sum (r : Routine) (w : Nat → Nat) : r.weigh w =
    ∑ n ∈ Finset.range r.blocks.length, ((r.blocks[n]?.map Block.countOps).getD 0) * w n := by
  have : ∀ (bs : List Block) (k : Nat), tally (fun x => x.1.countOps * w x.2) (bs.zipIdx k) =
      ∑ n ∈ Finset.range bs.length, ((bs[n]?.map Block.countOps).getD 0) * w (k + n) := by
    intro bs
    induction bs with
    | nil => intro k; rfl
    | cons b bs ih =>
      intro k
      rw [List.zipIdx_cons, tally_cons, ih (k + 1), List.length_cons, Finset.sum_range_succ']
      simp [Nat.add_comm, Nat.add_left_comm]
  refine (this r.blocks 0).trans (Finset.sum_congr rfl fun n _ => ?_)
  rw [Nat.zero_add]

end Routine

namespace Edits

variable {e : Edits} {r : Routine} {inserts : List (Nat × Instr)} {body : List Instr}

/-- The routine with all edits made, whether or not they name existing blocks. -/
def applied (e : Edits) (r : Routine) : Routine :=
  { r with blocks := r.blocks.mapIdx fun b x => { x with body := e.newBody b x.body } }

theorem weave_nothing (index : Nat) (body : List Instr) : weave (fun _ => false) [] index body = body := by
  induction body generalizing index with
  | nil => rfl
  | cons i body ih => simp [weave, ih]

theorem mem_touched {b : Nat} :
    b ∈ e.touched ↔ (∃ x ∈ e.inserts, x.1.block = b) ∨ ∃ p ∈ e.deletes, p.block = b := by
  simp [touched, mem_ascending]

theorem newBody_of_untouched {b : Nat} (h : b ∉ e.touched) (body : List Instr) : e.newBody b body = body := by
  rw [mem_touched, not_or] at h
  have hins : e.inserts.filter (fun x => x.1.block == b) = [] := by
    refine List.filter_eq_nil_iff.mpr fun x hx hb => h.1 ⟨x, hx, beq_iff_eq.mp hb⟩
  have hdel : (fun index => e.deletes.contains ⟨b, index⟩) = fun _ => false := by
    funext index
    refine Bool.eq_false_iff.mpr fun hc => h.2 ⟨⟨b, index⟩, List.contains_iff_mem.mp hc, rfl⟩
  rw [newBody, hins, hdel]
  exact weave_nothing 0 body

theorem applied_getElem? {b : Nat} (h : b ∉ e.touched) (r : Routine) : (e.applied r).blocks[b]? = r.blocks[b]? := by
  rw [applied, List.getElem?_mapIdx]
  cases r.blocks[b]? with
  | none => rfl
  | some x => rw [Option.map_some, newBody_of_untouched h]

/-- A splice that names existing blocks only makes all edits. -/
theorem splice_eq (h : ∀ b ∈ e.touched, b < r.blocks.length) : e.splice r = .ok (e.applied r) := by
  obtain ⟨next, hok, rfl⟩ := foldlM_total (f := fun (r : Routine) block =>
      r.modifyBlock block fun b => { b with body := e.newBody block b.body })
    (fun done next => next = { r with blocks := r.blocks.mapIdx fun b x =>
      if b ∈ done then { x with body := e.newBody b x.body } else x })
    (l := e.touched) (b := r) (by simp [List.mapIdx_eq_zipIdx_map]) (by
      rintro before b after _ hl rfl
      have hb : b < r.blocks.length := h b (by rw [← hl]; simp)
      have hnew : b ∉ before := by
        have := nodup_ascending (e.inserts.map (fun x => x.1.block) ++ e.deletes.map Point.block)
        rw [show ascending _ = e.touched from rfl, ← hl] at this
        exact fun hmem => (List.nodup_append.mp this).2.2 b hmem b (.head _) rfl
      refine ⟨_, by rw [Routine.modifyBlock, if_pos (by simpa using hb)], ?_⟩
      congr 1
      refine List.ext_getElem? fun n => ?_
      simp only [List.getElem?_modify, List.getElem?_mapIdx]
      cases r.blocks[n]? with
      | none => rfl
      | some x =>
        by_cases hn : b = n
        · subst hn
          simp [hnew]
        · simp [hn, Ne.symm hn])
  refine hok.trans (congrArg Except.ok ?_)
  rw [applied]
  congr 1
  refine List.ext_getElem? fun n => ?_
  simp only [List.getElem?_mapIdx]
  cases r.blocks[n]? with
  | none => rfl
  | some x =>
    by_cases hn : n ∈ e.touched
    · simp [hn]
    · simp [hn, newBody_of_untouched hn]

theorem flush_eq (h : ∀ b ∈ e.touched, b < r.blocks.length) :
    e.flush r = .ok (e.applied r, e.touched, .empty) := by
  rw [flush, splice_eq h]
  rfl

theorem weave_bare (deleted : Nat → Bool) (index : Nat)
    (hd : ∀ j i, body[j]? = some i → deleted (index + j) → i.isCount)
    (hi : ∀ x ∈ inserts, x.2.isCount) :
    (weave deleted inserts index body).filter (fun i => !i.isCount) = body.filter fun i => !i.isCount := by
  have none_left : ∀ l : List (Nat × Instr), (∀ x ∈ l, x.2.isCount) →
      (l.map Prod.snd).filter (fun i => !i.isCount) = [] := by
    intro l hl
    refine List.filter_eq_nil_iff.mpr fun i hmem => ?_
    obtain ⟨x, hx, rfl⟩ := List.mem_map.mp hmem
    simp [hl x hx]
  induction body generalizing index inserts with
  | nil => exact none_left inserts hi
  | cons i body ih =>
    have htake : ∀ x ∈ inserts.takeWhile fun x => x.1 ≤ index, x.2.isCount :=
      fun x hx => hi x ((List.takeWhile_sublist _).subset hx)
    have hdrop : ∀ x ∈ inserts.dropWhile fun x => x.1 ≤ index, x.2.isCount :=
      fun x hx => hi x ((List.dropWhile_sublist _).subset hx)
    have hrest : ∀ j a, body[j]? = some a → deleted (index + 1 + j) → a.isCount :=
      fun j a hj hda => hd (j + 1) a hj (by rwa [Nat.add_comm j, ← Nat.add_assoc])
    have htail := ih (index + 1) hrest hdrop
    rw [weave, List.filter_append, List.filter_append, none_left _ htake, htail, List.nil_append]
    by_cases hdel : deleted index
    · have : i.isCount := hd 0 i rfl hdel
      simp [hdel, this]
    · simp only [hdel, Bool.false_eq_true, if_false]
      rw [← List.filter_append]
      rfl

theorem countP_weave (deleted : Nat → Bool) (index : Nat)
    (hd : ∀ j i, body[j]? = some i → deleted (index + j) → i.isCount)
    (hi : ∀ x ∈ inserts, x.2.isCount) :
    (weave deleted inserts index body).countP Instr.isCount +
        (List.range body.length).countP (fun j => deleted (index + j)) =
      body.countP Instr.isCount + inserts.length := by
  have all_counted : ∀ l : List (Nat × Instr), (∀ x ∈ l, x.2.isCount) →
      (l.map Prod.snd).countP Instr.isCount = l.length := by
    intro l hl
    rw [List.countP_map, List.countP_eq_length]
    exact hl
  induction body generalizing index inserts with
  | nil => simpa [weave] using all_counted inserts hi
  | cons i body ih =>
    have htake : ∀ x ∈ inserts.takeWhile fun x => x.1 ≤ index, x.2.isCount :=
      fun x hx => hi x ((List.takeWhile_sublist _).subset hx)
    have hdrop : ∀ x ∈ inserts.dropWhile fun x => x.1 ≤ index, x.2.isCount :=
      fun x hx => hi x ((List.dropWhile_sublist _).subset hx)
    have hlen := congrArg List.length (List.takeWhile_append_dropWhile (p := fun x => decide (x.1 ≤ index)) (l := inserts))
    rw [List.length_append] at hlen
    have hrest : ∀ j a, body[j]? = some a → deleted (index + 1 + j) → a.isCount :=
      fun j a hj hda => hd (j + 1) a hj (by rwa [Nat.add_comm j, ← Nat.add_assoc])
    have htail := ih (index + 1) hrest hdrop
    have hrange : (List.range (body.length + 1)).countP (fun j => deleted (index + j)) =
        (if deleted index then 1 else 0) + (List.range body.length).countP (fun j => deleted (index + 1 + j)) := by
      rw [List.range_succ_eq_map, List.countP_cons, List.countP_map, Nat.add_comm, Nat.add_zero]
      congr 2
      funext j
      exact congrArg deleted (by omega)
    rw [weave, List.countP_append, List.countP_append, all_counted _ htake, List.length_cons, hrange]
    by_cases hdel : deleted index
    · have : i.isCount := hd 0 i rfl hdel
      simp only [hdel, if_true, List.countP_nil, List.countP_cons_of_pos this]
      omega
    · have hone : [i].countP Instr.isCount + body.countP Instr.isCount = (i :: body).countP Instr.isCount :=
        (List.countP_append ..).symm
      simp only [hdel]
      simp only [Bool.false_eq_true, if_false]
      omega

/-- Deletions of count operations, each once, and insertions of such in existing blocks. -/
structure Fits (e : Edits) (r : Routine) : Prop where
  nodup : e.deletes.Nodup
  deleted : ∀ p ∈ e.deletes, ∃ i, r.instrAt? p = some i ∧ i.isCount
  inserted : ∀ x ∈ e.inserts, x.1.block < r.blocks.length ∧ x.2.isCount

namespace Fits

theorem lt_of_deleted {p : Point} (h : e.Fits r) (hp : p ∈ e.deletes) : p.block < r.blocks.length := by
  obtain ⟨i, hi, -⟩ := h.deleted p hp
  obtain ⟨x, hx, -⟩ := Option.bind_eq_some_iff.mp hi
  exact (List.getElem?_eq_some_iff.mp hx).1

theorem flush_eq (h : e.Fits r) : e.flush r = .ok (e.applied r, e.touched, .empty) := by
  refine Edits.flush_eq fun b hb => ?_
  rcases mem_touched.mp hb with ⟨x, hx, rfl⟩ | ⟨p, hp, rfl⟩
  · exact (h.inserted x hx).1
  · exact h.lt_of_deleted hp

private theorem deleted_isCount {b : Nat} {x : Block} (h : e.Fits r) (hx : r.blocks[b]? = some x) :
    ∀ j i, x.body[j]? = some i → (fun index => e.deletes.contains ⟨b, index⟩) (0 + j) → i.isCount := by
  intro j i hj hd
  obtain ⟨a, ha, hcount⟩ := h.deleted _ (List.contains_iff_mem.mp hd)
  have : r.instrAt? ⟨b, 0 + j⟩ = some i := by simp [Routine.instrAt?, hx, hj]
  obtain rfl := Option.some.inj (ha.symm.trans this)
  exact hcount

private theorem inserted_isCount {b : Nat} (h : e.Fits r) : ∀ x ∈ sortBy (fun x y => decide (x.1 ≤ y.1))
    ((e.inserts.filter fun x => x.1.block == b).map fun x => (x.1.index, x.2)), x.2.isCount := by
  intro x hx
  rw [mem_sortBy] at hx
  obtain ⟨y, hy, rfl⟩ := List.mem_map.mp hx
  exact (h.inserted y (List.mem_filter.mp hy).1).2

theorem bare_applied (h : e.Fits r) : (e.applied r).bare = r.bare := by
  rw [Routine.bare, Routine.bare, applied]
  congr 1
  refine List.ext_getElem? fun b => ?_
  simp only [List.getElem?_map, List.getElem?_mapIdx]
  cases hx : r.blocks[b]? with
  | none => rfl
  | some x =>
    have := weave_bare (fun index => e.deletes.contains ⟨b, index⟩) 0 (h.deleted_isCount hx) (h.inserted_isCount (b := b))
    simp only [Option.map_some, Block.bare, Option.some.injEq, Block.mk.injEq, true_and, and_true]
    exact this

private theorem countP_range_deleted {b : Nat} {x : Block} (h : e.Fits r) (hx : r.blocks[b]? = some x) :
    (List.range x.body.length).countP (fun j => e.deletes.contains ⟨b, 0 + j⟩) =
      e.deletes.countP fun p => p.block == b := by
  rw [List.countP_eq_length_filter, List.countP_eq_length_filter]
  refine (List.length_map fun j => (⟨b, j⟩ : Point)).symm.trans
    (List.Perm.length_eq ((List.perm_ext_iff_of_nodup ?_ (h.nodup.filter _)).mpr fun p => ?_))
  · exact (List.nodup_range.filter _).map fun i j hij => (Point.mk.inj hij).2
  · simp only [List.mem_map, List.mem_filter, List.mem_range, List.contains_iff_mem, Nat.zero_add, beq_iff_eq]
    constructor
    · rintro ⟨j, ⟨-, hmem⟩, rfl⟩
      exact ⟨hmem, rfl⟩
    · rintro ⟨hmem, rfl⟩
      obtain ⟨i, hi, -⟩ := h.deleted p hmem
      obtain ⟨y, hy, hget⟩ := Option.bind_eq_some_iff.mp hi
      obtain rfl := Option.some.inj (hx.symm.trans hy)
      exact ⟨p.index, ⟨(List.getElem?_eq_some_iff.mp hget).1, hmem⟩, rfl⟩

private theorem countOps_block {b : Nat} {x : Block} (h : e.Fits r) (hx : r.blocks[b]? = some x) :
    (e.newBody b x.body).countP Instr.isCount + e.deletes.countP (fun p => p.block == b) =
      x.countOps + e.inserts.countP fun y => y.1.block == b := by
  have := countP_weave (fun index => e.deletes.contains ⟨b, index⟩) 0 (h.deleted_isCount hx)
    (h.inserted_isCount (b := b))
  rw [h.countP_range_deleted hx] at this
  rw [newBody, this, Block.countOps, (sortBy_perm _).length_eq, List.length_map, ← List.countP_eq_length_filter]

private theorem sum_by_block {α : Type} (block : α → Nat) (w : Nat → Nat) (n : Nat) (l : List α)
    (hl : ∀ a ∈ l, block a < n) :
    ∑ b ∈ Finset.range n, l.countP (fun a => block a == b) * w b = tally (fun a => w (block a)) l := by
  induction l with
  | nil => simp
  | cons a l ih =>
    have hone : ∑ b ∈ Finset.range n, (if block a = b then 1 else 0) * w b = w (block a) := by
      simp [Finset.sum_ite_eq, hl a (.head _)]
    rw [tally_cons, ← ih fun x hx => hl x (.tail _ hx), ← hone, ← Finset.sum_add_distrib]
    refine Finset.sum_congr rfl fun b _ => ?_
    rw [List.countP_cons, Nat.add_mul, Nat.add_comm]
    simp

/-- What goes in and what goes out, in any weights. -/
theorem weigh_applied (h : e.Fits r) (w : Nat → Nat) :
    (e.applied r).weigh w + tally (fun p => w p.block) e.deletes =
      r.weigh w + tally (fun x => w x.1.block) e.inserts := by
  have hlen : (e.applied r).blocks.length = r.blocks.length := List.length_mapIdx
  rw [Routine.weigh_eq_sum, Routine.weigh_eq_sum, hlen,
    ← sum_by_block Point.block w r.blocks.length e.deletes fun p hp => h.lt_of_deleted hp,
    ← sum_by_block (fun x : Point × Instr => x.1.block) w r.blocks.length e.inserts
      fun x hx => (h.inserted x hx).1,
    ← Finset.sum_add_distrib, ← Finset.sum_add_distrib]
  refine Finset.sum_congr rfl fun b hb => ?_
  obtain ⟨x, hx⟩ : ∃ x, r.blocks[b]? = some x := ⟨_, List.getElem?_eq_getElem (Finset.mem_range.mp hb)⟩
  have happ : (e.applied r).blocks[b]? = some { x with body := e.newBody b x.body } := by
    simp [applied, hx]
  rw [happ, hx, ← Nat.add_mul, ← Nat.add_mul]
  exact congrArg (· * w b) (h.countOps_block hx)

end Fits

end Edits

end CountMotion
