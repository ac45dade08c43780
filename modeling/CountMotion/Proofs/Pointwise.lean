import CountMotion.Proofs.Splice

/-! What edits make of a body, index by index: before each instruction what is put in there, then the
instruction unless it goes, and at the end what is put in past it. The order of queueing shows among
insertions at one point only. -/
namespace CountMotion

section Stable

variable {α : Type} {l : List (Nat × α)} {n lo : Nat}

private theorem sorted_sortBy (l : List (Nat × α)) :
    (sortBy (fun x y => decide (x.1 ≤ y.1)) l).Pairwise fun x y => x.1 ≤ y.1 := by
  refine (sortBy_sorted (fun x y => ?_) (fun x y z hxy hyz => ?_) l).imp fun {x y} h => of_decide_eq_true h
  · simpa using Nat.le_total x.1 y.1
  · simp only [decide_eq_true_eq] at hxy hyz ⊢
    exact Nat.le_trans hxy hyz

private theorem filter_insertBy (a : Nat × α) (h : l.Pairwise fun x y => x.1 ≤ y.1) (n : Nat) :
    (insertBy (fun x y => decide (x.1 ≤ y.1)) a l).filter (fun x => x.1 == n) =
      (a :: l).filter fun x => x.1 == n := by
  induction l with
  | nil => rfl
  | cons b l ih =>
    rw [insertBy]
    split
    · rfl
    · rename_i hab
      have hba : b.1 < a.1 := Nat.lt_of_not_le fun hle => hab (decide_eq_true hle)
      rw [List.filter_cons, ih (List.pairwise_cons.mp h).2]
      simp only [List.filter_cons]
      by_cases hn : a.1 = n
      · have : b.1 ≠ n := by omega
        simp [hn, this]
      · simp [hn]

private theorem filter_sortBy (l : List (Nat × α)) (n : Nat) :
    (sortBy (fun x y => decide (x.1 ≤ y.1)) l).filter (fun x => x.1 == n) = l.filter fun x => x.1 == n := by
  induction l with
  | nil => rfl
  | cons a l ih =>
    rw [sortBy, List.foldr_cons, ← sortBy, filter_insertBy a (sorted_sortBy l), List.filter_cons, ih,
      List.filter_cons]

private theorem takeWhile_sorted (h : l.Pairwise fun x y => x.1 ≤ y.1) (hn : ∀ x ∈ l, n ≤ x.1) :
    l.takeWhile (fun x => x.1 ≤ n) = l.filter fun x => x.1 == n := by
  induction l with
  | nil => rfl
  | cons a l ih =>
    obtain ⟨ha, hl⟩ := List.pairwise_cons.mp h
    have hna := hn a (.head _)
    by_cases heq : a.1 = n
    · simp [heq, ih hl fun x hx => hn x (.tail _ hx)]
    · have hlater : l.filter (fun x => x.1 == n) = [] := by
        refine List.filter_eq_nil_iff.mpr fun x hx hxn => ?_
        have := ha x hx
        simp only [beq_iff_eq] at hxn
        omega
      have : ¬ a.1 ≤ n := by omega
      simp [heq, this, hlater]

private theorem dropWhile_sorted (h : l.Pairwise fun x y => x.1 ≤ y.1) (hn : ∀ x ∈ l, n ≤ x.1) :
    l.dropWhile (fun x => x.1 ≤ n) = l.filter fun x => n < x.1 := by
  induction l with
  | nil => rfl
  | cons a l ih =>
    obtain ⟨ha, hl⟩ := List.pairwise_cons.mp h
    have hna := hn a (.head _)
    by_cases heq : a.1 = n
    · simp [heq, ih hl fun x hx => hn x (.tail _ hx)]
    · have hlater : l.filter (fun x => n < x.1) = l := by
        refine List.filter_eq_self.mpr fun x hx => ?_
        have := ha x hx
        simp only [decide_eq_true_eq]
        omega
      have : n < a.1 := by omega
      simp [this, hlater]

private theorem filter_at {p : Nat → Bool} {j : Nat} (hj : p j) :
    (l.filter fun x => p x.1).filter (fun x => x.1 == j) = l.filter fun x => x.1 == j := by
  rw [List.filter_filter]
  refine List.filter_congr fun x _ => ?_
  by_cases hx : x.1 = j
  · simp [hx, hj]
  · simp [hx]

private theorem eq_flatMap_range (h : l.Pairwise fun x y => x.1 ≤ y.1) (hin : ∀ x ∈ l, lo ≤ x.1 ∧ x.1 < lo + n) :
    l = (List.range' lo n).flatMap fun j => l.filter fun x => x.1 == j := by
  induction n generalizing l lo with
  | zero =>
    refine List.eq_nil_iff_forall_not_mem.mpr fun x hx => ?_
    have := hin x hx
    omega
  | succ n ih =>
    have hlo : ∀ x ∈ l, lo ≤ x.1 := fun x hx => (hin x hx).1
    have hin' : ∀ x ∈ l.filter (fun x => lo < x.1), lo + 1 ≤ x.1 ∧ x.1 < lo + 1 + n := by
      intro x hx
      obtain ⟨hmem, hlt⟩ := List.mem_filter.mp hx
      have := hin x hmem
      simp only [decide_eq_true_eq] at hlt
      omega
    rw [List.range'_succ, List.flatMap_cons]
    conv_lhs =>
      rw [← List.takeWhile_append_dropWhile (p := fun x : Nat × α => decide (x.1 ≤ lo)) (l := l),
        takeWhile_sorted h hlo, dropWhile_sorted h hlo, ih (h.filter _) hin']
    congr 1
    refine List.flatMap_congr fun j hj => filter_at (p := fun i => lo < i) ?_
    have := List.mem_range'.mp hj
    simp only [decide_eq_true_eq]
    omega

end Stable

namespace Edits

variable {e e' : Edits} {r : Routine} {b : BlockId} {body : List Instr}

/-- What is put in before a point, in queueing order. -/
def insertedAt (e : Edits) (p : Point) : List Instr := (e.inserts.filter fun x => x.1 == p).map Prod.snd

/-- One past the last index at which something is put into a block. -/
def reach (e : Edits) (b : BlockId) : Nat :=
  ((e.inserts.filter fun x => x.1.block == b).map fun x => x.1.index + 1).foldr max 0

/-- The instructions of a body that starts at an index: before each of them what is put in there, and
then the instruction unless it is deleted. -/
def overlaid (e : Edits) (b : BlockId) (start : Nat) (body : List Instr) : List Instr :=
  (body.zipIdx start).flatMap fun x => e.insertedAt ⟨b, x.2⟩ ++ if ⟨b, x.2⟩ ∈ e.deletes then [] else [x.1]

/-- The body of a block after all edits. What is put in past its end comes last, one index after
the other. -/
def rewritten (e : Edits) (b : BlockId) (body : List Instr) : List Instr :=
  e.overlaid b 0 body ++
    (List.range' body.length (e.reach b - body.length)).flatMap fun n => e.insertedAt ⟨b, n⟩

def Names (e : Edits) (b : BlockId) : Prop := (∃ x ∈ e.inserts, x.1.block = b) ∨ ∃ p ∈ e.deletes, p.block = b

/-- At every point the same is put in, in the same order, and the same is deleted. So it is if
edits at different points are queued in another order. -/
def SamePoints (e e' : Edits) : Prop :=
  ∀ p, e.insertedAt p = e'.insertedAt p ∧ (p ∈ e.deletes ↔ p ∈ e'.deletes)

theorem index_lt_reach {x : Point × Instr} (hx : x ∈ e.inserts) (hb : x.1.block = b) : x.1.index < e.reach b := by
  have hmax : ∀ (l : List Nat), ∀ n ∈ l, n ≤ l.foldr max 0 := by
    intro l
    induction l with
    | nil => exact fun n hn => absurd hn List.not_mem_nil
    | cons m l ih =>
      intro n hn
      rcases List.mem_cons.mp hn with rfl | hn
      · exact Nat.le_max_left ..
      · exact Nat.le_trans (ih n hn) (Nat.le_max_right ..)
  have hmem : x ∈ e.inserts.filter fun x => x.1.block == b := List.mem_filter.mpr ⟨hx, by simp [hb]⟩
  exact hmax _ _ (List.mem_map_of_mem hmem)

private theorem weave_eq {deleted : Nat → Bool} {inserts : List (Nat × Instr)} {n : Nat}
    (hs : inserts.Pairwise fun x y => x.1 ≤ y.1) (hn : ∀ x ∈ inserts, n ≤ x.1) :
    weave deleted inserts n body =
      ((body.zipIdx n).flatMap fun x =>
        (inserts.filter fun y => y.1 == x.2).map Prod.snd ++ if deleted x.2 then [] else [x.1]) ++
      (inserts.filter fun y => n + body.length ≤ y.1).map Prod.snd := by
  induction body generalizing inserts n with
  | nil =>
    have hall : inserts.filter (fun y => n ≤ y.1) = inserts :=
      List.filter_eq_self.mpr fun x hx => by simpa using hn x hx
    rw [weave, List.zipIdx_nil, List.flatMap_nil, List.nil_append, List.length_nil, Nat.add_zero, hall]
  | cons i body ih =>
    have hlater : ∀ x ∈ inserts.filter (fun x => n < x.1), n + 1 ≤ x.1 :=
      fun x hx => of_decide_eq_true (List.mem_filter.mp hx).2
    have hpast : (inserts.filter fun x => n < x.1).filter (fun y => n + 1 + body.length ≤ y.1) =
        inserts.filter fun y => n + (body.length + 1) ≤ y.1 := by
      rw [List.filter_filter]
      refine List.filter_congr fun x _ => Bool.eq_iff_iff.mpr ?_
      simp only [Bool.and_eq_true, decide_eq_true_eq]
      omega
    rw [weave, takeWhile_sorted hs hn, dropWhile_sorted hs hn, ih (hs.filter _) hlater, hpast, List.zipIdx_cons,
      List.flatMap_cons, List.length_cons, List.append_assoc, List.append_assoc, List.append_assoc]
    congr 3
    refine List.flatMap_congr fun x hx => ?_
    rw [filter_at (p := fun i => n < i) (decide_eq_true (List.le_snd_of_mem_zipIdx hx))]

private theorem filter_sorted (e : Edits) (b : BlockId) (n : Nat) :
    ((sortBy (fun x y => decide (x.1 ≤ y.1))
      ((e.inserts.filter fun x => x.1.block == b).map fun x => (x.1.index, x.2))).filter fun x => x.1 == n).map
        Prod.snd = e.insertedAt ⟨b, n⟩ := by
  rw [filter_sortBy, List.filter_map, List.map_map, insertedAt, List.filter_filter]
  have hpred : (fun x : Point × Instr => (((fun y : Nat × Instr => y.1 == n) ∘ fun x => (x.1.index, x.2)) x &&
      x.1.block == b)) = fun x => x.1 == ⟨b, n⟩ := by
    funext x
    obtain ⟨⟨c, n⟩, i⟩ := x
    exact Bool.eq_iff_iff.mpr (by simp [and_comm])
  rw [hpred]
  rfl

theorem newBody_eq_of_lt {past : Nat} (hpast : ∀ x ∈ e.inserts, x.1.block = b → x.1.index < past) :
    e.newBody b body = e.overlaid b 0 body ++
      (List.range' body.length (past - body.length)).flatMap fun n => e.insertedAt ⟨b, n⟩ := by
  have hs := sorted_sortBy ((e.inserts.filter fun x => x.1.block == b).map fun x => (x.1.index, x.2))
  have hlt : ∀ x ∈ sortBy (fun x y => decide (x.1 ≤ y.1))
      ((e.inserts.filter fun x => x.1.block == b).map fun x => (x.1.index, x.2)), x.1 < past := by
    intro x hx
    obtain ⟨y, hy, rfl⟩ := List.mem_map.mp (mem_sortBy.mp hx)
    obtain ⟨hmem, hb⟩ := List.mem_filter.mp hy
    exact hpast y hmem (beq_iff_eq.mp hb)
  have hat := filter_sorted e b
  simp only [newBody]
  generalize sortBy _ _ = inserts at hs hlt hat ⊢
  rw [weave_eq hs fun x _ => Nat.zero_le _, Nat.zero_add]
  congr 1
  · refine List.flatMap_congr fun x _ => ?_
    simp only [hat, List.contains_iff_mem]
  · have hin : ∀ x ∈ inserts.filter (fun y => body.length ≤ y.1),
        body.length ≤ x.1 ∧ x.1 < body.length + (past - body.length) := by
      intro x hx
      obtain ⟨hmem, hle⟩ := List.mem_filter.mp hx
      have := hlt x hmem
      simp only [decide_eq_true_eq] at hle
      omega
    rw [eq_flatMap_range (hs.filter _) hin, List.map_flatMap]
    refine List.flatMap_congr fun j hj => ?_
    have hle : body.length ≤ j := by
      have := List.mem_range'.mp hj
      omega
    rw [filter_at (p := fun i => body.length ≤ i) (decide_eq_true hle), hat]

theorem newBody_eq_rewritten (e : Edits) (b : BlockId) (body : List Instr) : e.newBody b body = e.rewritten b body :=
  newBody_eq_of_lt fun _ hx hb => index_lt_reach hx hb

theorem names_iff : e.Names b ↔ ∃ n, e.insertedAt ⟨b, n⟩ ≠ [] ∨ ⟨b, n⟩ ∈ e.deletes := by
  constructor
  · rintro (⟨x, hx, rfl⟩ | ⟨p, hp, rfl⟩)
    · refine ⟨x.1.index, .inl fun hnil => ?_⟩
      have hmem : x.2 ∈ e.insertedAt x.1 := List.mem_map_of_mem (List.mem_filter.mpr ⟨hx, beq_self_eq_true _⟩)
      rw [show x.1 = ⟨x.1.block, x.1.index⟩ from rfl, hnil] at hmem
      cases hmem
    · exact ⟨p.index, .inr hp⟩
  · rintro ⟨n, hne | hdel⟩
    · obtain ⟨i, hi⟩ := List.exists_mem_of_ne_nil _ hne
      obtain ⟨x, hx, -⟩ := List.mem_map.mp hi
      obtain ⟨hmem, heq⟩ := List.mem_filter.mp hx
      exact .inl ⟨x, hmem, by rw [beq_iff_eq.mp heq]⟩
    · exact .inr ⟨_, hdel, rfl⟩

/-- Only points that an edit of either queue names can tell them apart. -/
theorem samePoints_iff : e.SamePoints e' ↔
    ∀ p ∈ (e.inserts ++ e'.inserts).map Prod.fst ++ (e.deletes ++ e'.deletes),
      e.insertedAt p = e'.insertedAt p ∧ (p ∈ e.deletes ↔ p ∈ e'.deletes) := by
  refine ⟨fun h p _ => h p, fun h p => ?_⟩
  by_cases hp : p ∈ (e.inserts ++ e'.inserts).map Prod.fst ++ (e.deletes ++ e'.deletes)
  · exact h p hp
  · simp only [List.map_append, List.mem_append, not_or] at hp
    obtain ⟨⟨hins, hins'⟩, hdel, hdel'⟩ := hp
    have hnone : ∀ e : Edits, p ∉ e.inserts.map Prod.fst → e.insertedAt p = [] := by
      intro e hp
      rw [insertedAt, List.map_eq_nil_iff, List.filter_eq_nil_iff]
      exact fun x hx heq => hp (beq_iff_eq.mp heq ▸ List.mem_map_of_mem hx)
    rw [hnone e hins, hnone e' hins']
    exact ⟨rfl, fun hp => absurd hp hdel, fun hp => absurd hp hdel'⟩

instance : Decidable (e.SamePoints e') := decidable_of_iff' _ samePoints_iff

namespace SamePoints

theorem names (h : e.SamePoints e') : e.Names b ↔ e'.Names b := by
  rw [names_iff, names_iff]
  exact exists_congr fun n => by rw [(h ⟨b, n⟩).1, (h ⟨b, n⟩).2]

theorem touched (h : e.SamePoints e') : e.touched = e'.touched := by
  refine ascending_congr fun b => ?_
  have hmem : ∀ e : Edits, b ∈ e.inserts.map (fun x => x.1.block) ++ e.deletes.map Point.block ↔ e.Names b := by
    intro e
    simp [Names]
  rw [hmem, hmem, h.names]

theorem newBody (h : e.SamePoints e') (b : BlockId) (body : List Instr) : e.newBody b body = e'.newBody b body := by
  have hbound : ∀ x ∈ e.inserts, x.1.block = b → x.1.index < max (e.reach b) (e'.reach b) :=
    fun x hx hb => Nat.lt_of_lt_of_le (index_lt_reach hx hb) (Nat.le_max_left ..)
  have hbound' : ∀ x ∈ e'.inserts, x.1.block = b → x.1.index < max (e.reach b) (e'.reach b) :=
    fun x hx hb => Nat.lt_of_lt_of_le (index_lt_reach hx hb) (Nat.le_max_right ..)
  rw [newBody_eq_of_lt hbound, newBody_eq_of_lt hbound']
  simp only [overlaid, fun p => (h p).1, fun p => (h p).2]

theorem flush (h : e.SamePoints e') (hin : ∀ b, e.Names b → b < r.blocks.length) : e.flush r = e'.flush r := by
  have happlied : e.applied r = e'.applied r := by
    simp only [applied, h.newBody]
  rw [flush_eq fun b hb => hin b (mem_touched.mp hb),
    flush_eq fun b hb => hin b (h.names.mpr (mem_touched.mp hb)), happlied, h.touched]

end SamePoints

end Edits

/-- Edits of existing blocks are made as they read point by point, in the blocks they name and
nowhere else. These blocks are told, and nothing stays queued. Queues that agree at every point, as
they do after edits at different points have changed places, make the same of a routine. -/
theorem edits_made_pointwise (e : Edits) (r : Routine) (h : ∀ b, e.Names b → b < r.blocks.length) :
    ∃ next touched, e.flush r = .ok (next, touched, .empty) ∧
      touched.Nodup ∧ (∀ b, b ∈ touched ↔ e.Names b) ∧
      next = { r with blocks := next.blocks } ∧ next.blocks.length = r.blocks.length ∧
      (∀ b x, r.blocks[b]? = some x → e.Names b →
        next.blocks[b]? = some { x with body := e.rewritten b x.body }) ∧
      (∀ b, ¬ e.Names b → next.blocks[b]? = r.blocks[b]?) ∧
      ∀ e', e.SamePoints e' → e'.flush r = .ok (next, touched, .empty) := by
  have hflush : e.flush r = .ok (e.applied r, e.touched, .empty) :=
    Edits.flush_eq fun b hb => h b (Edits.mem_touched.mp hb)
  refine ⟨e.applied r, e.touched, hflush, nodup_ascending _, fun b => Edits.mem_touched, rfl, List.length_mapIdx,
    fun b x hx _ => ?_, fun b hb => ?_, fun e' hsame => (hsame.flush h).symm.trans hflush⟩
  · rw [Edits.applied, List.getElem?_mapIdx, hx, Option.map_some, Edits.newBody_eq_rewritten]
  · exact Edits.applied_getElem? (fun hmem => hb (Edits.mem_touched.mp hmem)) r

/-- Two insertions before an instruction that goes, three past the end of a body, and deletions in
another block, of which one is repeated and one names nothing. -/
def scatteredEdits : Edits where
  inserts := [(⟨0, 9⟩, .retain 1 .strong), (⟨0, 1⟩, .retain 2 .strong), (⟨0, 5⟩, .retain 3 .strong),
    (⟨0, 1⟩, .retain 4 .strong), (⟨0, 9⟩, .retain 5 .strong)]
  deletes := [⟨0, 1⟩, ⟨2, 0⟩, ⟨2, 0⟩, ⟨2, 7⟩]

def gatheredEdits : Edits where
  inserts := [(⟨0, 1⟩, .retain 2 .strong), (⟨0, 1⟩, .retain 4 .strong), (⟨0, 5⟩, .retain 3 .strong),
    (⟨0, 9⟩, .retain 1 .strong), (⟨0, 9⟩, .retain 5 .strong)]
  deletes := [⟨2, 7⟩, ⟨2, 0⟩, ⟨0, 1⟩]

def threeReleases : Routine where
  name := "three_releases"
  params := [0]
  blocks := [⟨0, [.release 0 .strong, .release 1 .strong, .release 2 .strong], .jump 1⟩,
    ⟨1, [.release 3 .strong], .jump 2⟩, ⟨2, [.release 4 .strong], .ret 0⟩]
  entry := 0
  storage := [.reference, .reference, .reference, .reference, .reference, .reference]

theorem edits_made_pointwise_scatteredEdits :
    (∀ b, scatteredEdits.Names b → b < threeReleases.blocks.length) ∧ scatteredEdits.SamePoints gatheredEdits ∧
    scatteredEdits.rewritten 0 [.release 0 .strong, .release 1 .strong, .release 2 .strong] =
      [.release 0 .strong, .retain 2 .strong, .retain 4 .strong, .release 2 .strong, .retain 3 .strong,
        .retain 1 .strong, .retain 5 .strong] ∧
    scatteredEdits.rewritten 2 [.release 4 .strong] = [] ∧
    ∃ next, scatteredEdits.flush threeReleases = .ok (next, [0, 2], .empty) ∧
      gatheredEdits.flush threeReleases = .ok (next, [0, 2], .empty) ∧
      next.blocks[0]? = some ⟨0, scatteredEdits.rewritten 0
        [.release 0 .strong, .release 1 .strong, .release 2 .strong], .jump 1⟩ ∧
      next.blocks[1]? = threeReleases.blocks[1]? ∧
      next.blocks[2]? = some ⟨2, scatteredEdits.rewritten 2 [.release 4 .strong], .ret 0⟩ := by
  have hin : ∀ b, scatteredEdits.Names b → b < threeReleases.blocks.length := by
    have htouched : ∀ b ∈ scatteredEdits.touched, b < threeReleases.blocks.length := by decide
    exact fun b hb => htouched b (Edits.mem_touched.mpr hb)
  have hsame : scatteredEdits.SamePoints gatheredEdits := by decide
  obtain ⟨next, touched, hflush, -, -, -, -, hnamed, hother, horder⟩ :=
    edits_made_pointwise scatteredEdits threeReleases hin
  obtain rfl : [0, 2] = touched := by
    have htouched : (scatteredEdits.flush threeReleases).map (fun x => x.2.1) = .ok [0, 2] := by decide +kernel
    rw [hflush] at htouched
    exact (Except.ok.inj htouched).symm
  exact ⟨hin, hsame, by decide, by decide, next, hflush, horder _ hsame,
    hnamed 0 _ rfl (.inl ⟨_, .head _, rfl⟩), hother 1 (by simp [Edits.Names, scatteredEdits]),
    hnamed 2 _ rfl (.inr ⟨⟨2, 0⟩, by decide, rfl⟩)⟩

end CountMotion
