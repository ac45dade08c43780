import CountMotion.Proofs.LoopForest
import Mathlib.Data.Finset.Card

/-! How loops nest: the depth of a block is the number of loops that hold it. -/
namespace CountMotion

section Smallest

private theorem smallest_from (b : Region × RegionId) (ls : List (Region × RegionId)) :
    ∃ c, ls.foldl (fun (best : Option (Region × RegionId)) l =>
        match best with
        | none => some l
        | some b => if l.1.blocks.length < b.1.blocks.length then some l else some b) (some b) = some c ∧
      c ∈ b :: ls ∧ ∀ o ∈ b :: ls, c.1.blocks.length ≤ o.1.blocks.length := by
  induction ls generalizing b with
  | nil => exact ⟨b, rfl, .head _, fun o ho => by rw [List.mem_singleton.mp ho]⟩
  | cons l ls ih =>
    rw [List.foldl_cons]
    by_cases hlt : l.1.blocks.length < b.1.blocks.length
    · obtain ⟨c, hc, hmem, hmin⟩ := ih l
      refine ⟨c, by simpa only [if_pos hlt] using hc, .tail _ hmem, fun o ho => ?_⟩
      rcases List.mem_cons.mp ho with rfl | ho
      · exact Nat.le_trans (hmin l (.head _)) (Nat.le_of_lt hlt)
      · exact hmin o ho
    · obtain ⟨c, hc, hmem, hmin⟩ := ih b
      refine ⟨c, by simpa only [if_neg hlt] using hc, ?_, fun o ho => ?_⟩
      · rcases List.mem_cons.mp hmem with rfl | hmem
        · exact .head _
        · exact .tail _ (.tail _ hmem)
      · rcases List.mem_cons.mp ho with rfl | ho
        · exact hmin o (.head _)
        · rcases List.mem_cons.mp ho with rfl | ho
          · exact Nat.le_trans (hmin b (.head _)) (Nat.le_of_not_lt hlt)
          · exact hmin o (.tail _ ho)

theorem Forest.smallest_cases (ls : List (Region × RegionId)) :
    (ls = [] ∧ Forest.smallest ls = none) ∨ ∃ g i, Forest.smallest ls = some i ∧ (g, i) ∈ ls ∧
      ∀ o ∈ ls, g.blocks.length ≤ o.1.blocks.length := by
  cases ls with
  | nil => exact .inl ⟨rfl, rfl⟩
  | cons l ls =>
    obtain ⟨⟨g, i⟩, hc, hmem, hmin⟩ := smallest_from l ls
    refine .inr ⟨g, i, ?_, hmem, hmin⟩
    exact congrArg (Option.map Prod.snd) hc

end Smallest

namespace Forest

/-- The number names a loop, not the routine. -/
def IsLoop (f : Forest) (i : Nat) (l : Region) : Prop := i ≠ 0 ∧ f.regions[i]? = some l

def encloses (f : Forest) (b i : Nat) : Bool :=
  i != 0 && (f.regions[i]?.map fun l => l.holds b).getD false

def loopsAt (f : Forest) (b : Nat) : Finset Nat :=
  (Finset.range f.regions.length).filter fun i => f.encloses b i

variable {f : Forest} {g : Graph} {entry i j p b x : Nat} {l m : Region}

theorem IsLoop.unique (h : f.IsLoop i l) (h' : f.IsLoop i m) : l = m :=
  Option.some.inj (h.2.symm.trans h'.2)

theorem IsLoop.lt (h : f.IsLoop i l) : i < f.regions.length := (List.getElem?_eq_some_iff.mp h.2).1

theorem mem_loopsAt : i ∈ f.loopsAt b ↔ ∃ l, f.IsLoop i l ∧ l.holds b := by
  simp only [loopsAt, encloses, Finset.mem_filter, Finset.mem_range, Bool.and_eq_true, bne_iff_ne]
  constructor
  · rintro ⟨hi, hne, hb⟩
    rw [List.getElem?_eq_getElem hi] at hb
    exact ⟨f.regions[i], ⟨hne, List.getElem?_eq_getElem hi⟩, hb⟩
  · rintro ⟨l, hl, hb⟩
    exact ⟨hl.lt, hl.1, by rw [hl.2]; exact hb⟩

theorem IsLoop.mem_loopsAt (h : f.IsLoop i l) : i ∈ f.loopsAt b ↔ l.holds b := by
  rw [Forest.mem_loopsAt]
  constructor
  · rintro ⟨m, hm, hb⟩
    exact h.unique hm ▸ hb
  · exact fun hb => ⟨l, h, hb⟩

theorem card_loopsAt_lt (h : 0 < f.regions.length) : (f.loopsAt b).card < f.regions.length := by
  have hsub : f.loopsAt b ⊆ (Finset.range f.regions.length).erase 0 := by
    intro i hi
    obtain ⟨l, hl, -⟩ := Forest.mem_loopsAt.mp hi
    exact Finset.mem_erase.mpr ⟨hl.1, Finset.mem_range.mpr hl.lt⟩
  calc (f.loopsAt b).card ≤ ((Finset.range f.regions.length).erase 0).card := Finset.card_le_card hsub
    _ < (Finset.range f.regions.length).card := Finset.card_erase_lt_of_mem (Finset.mem_range.mpr h)
    _ = f.regions.length := Finset.card_range _

/-- The region around another. This and the queries that follow read regions without a check. -/
def parentOf (f : Forest) (id : RegionId) : Option RegionId := f.regions[id]?.bind Region.parent

def lineage (f : Forest) (b : BlockId) : List RegionId := climb f.parentOf f.regions.length (f.innermost b)

def childAt (f : Forest) (id : RegionId) (b : BlockId) : Option RegionId :=
  (f.lineage b).find? fun inner => f.parentOf inner == some id

def descent (f : Forest) : Graph := ⟨f.regions.map Region.children⟩

def innerFirst (f : Forest) (id : RegionId) : List RegionId := f.descent.postorder id

def upward (f : Forest) : List RegionId := (f.innerFirst 0).dropLast

theorem size_descent (f : Forest) : f.descent.size = f.regions.length := by simp [descent, Graph.size]

theorem innerFirst_order (h : i < f.regions.length) : f.descent.SearchOrder i (f.innerFirst i).reverse :=
  Graph.postorder_order (by rwa [size_descent])

theorem lt_of_mem_innerFirst (h : i < f.regions.length) (hj : j ∈ f.innerFirst i) : j < f.regions.length := by
  rw [← size_descent]
  exact (innerFirst_order h).inside j (List.mem_reverse.mpr hj)

/-- A forest whose regions are the natural loops of a graph, numbered, with their nesting. -/
structure Shaped (g : Graph) (entry : Nat) (f : Forest) : Prop where
  back_iff : ∀ u v, u ∈ f.back.next v ↔ g.Edge u v
  back_size : f.back.size = g.size
  nodup_back : ∀ v, (f.back.next v).Nodup
  whole : ∃ root, f.regions[0]? = some root ∧ root.parent = none ∧ root.header = entry ∧
    root.blocks = List.range g.size
  natural : ∀ {i l}, f.IsLoop i l → l.Natural g entry
  header_inj : ∀ {i j l m}, f.IsLoop i l → f.IsLoop j m → l.header = m.header → i = j
  exists_loop : ∀ {h}, g.Header entry h → ∃ i l, f.IsLoop i l ∧ l.header = h
  parent : ∀ {i l}, f.IsLoop i l → ∃ p, l.parent = some p ∧
    ((p = 0 ∧ ∀ j m, f.IsLoop j m → j ≠ i → ¬ m.holds l.header) ∨ ∃ m, f.IsLoop p m ∧ p ≠ i ∧
      m.holds l.header ∧ ∀ j o, f.IsLoop j o → j ≠ i → o.holds l.header → m.blocks.length ≤ o.blocks.length)
  children : ∀ {i l}, f.regions[i]? = some l → l.children.Nodup ∧ ∀ c, c ∈ l.children ↔ f.parentOf c = some i

/-- Each region of the forest knows how many loops it lies in. -/
structure Exact (g : Graph) (entry : Nat) (f : Forest) : Prop extends f.Shaped g entry where
  depth_root : ∀ {l}, f.regions[0]? = some l → l.depth = 0
  depth_child : ∀ {i p l m}, f.parentOf i = some p → f.regions[i]? = some l → f.regions[p]? = some m →
    l.depth = m.depth + 1

end Forest

namespace Forest.Shaped

variable {f : Forest} {g : Graph} {entry i j p b x : Nat} {l m : Region}

theorem holds_header (h : f.Shaped g entry) (hl : f.IsLoop i l) : l.holds l.header :=
  ((h.natural hl).holds_iff _).mpr (.inl rfl)

theorem holds_of_header (h : f.Shaped g entry) (hl : f.IsLoop i l) (hm : f.IsLoop j m)
    (hh : l.holds m.header) (hb : m.holds b) : l.holds b := by
  have hl' := h.natural hl
  have hm' := h.natural hm
  by_cases hij : m.header = l.header
  · obtain rfl := h.header_inj hm hl hij
    exact hm.unique hl ▸ hb
  · exact (hl'.holds_iff b).mpr
      (((hl'.holds_iff _).mp hh).nested hij ((hm'.holds_iff b).mp hb) hm'.header)

theorem header_of_common (h : f.Shaped g entry) (hl : f.IsLoop i l) (hm : f.IsLoop j m)
    (hb : l.holds b) (hb' : m.holds b) : l.holds m.header ∨ m.holds l.header := by
  have hl' := h.natural hl
  have hm' := h.natural hm
  rw [hl'.holds_iff, hm'.holds_iff]
  exact Graph.InLoop.header_of_common hl'.header hm'.header ((hl'.holds_iff b).mp hb) ((hm'.holds_iff b).mp hb')

theorem not_holds_header (h : f.Shaped g entry) (hl : f.IsLoop i l) (hm : f.IsLoop j m) (hij : i ≠ j)
    (hh : l.holds m.header) : ¬ m.holds l.header := by
  intro hh'
  have hl' := h.natural hl
  exact hij (h.header_inj hl hm (Graph.InLoop.header_antisymm hl'.header ((hl'.holds_iff _).mp hh)
    (((h.natural hm).holds_iff _).mp hh')))

theorem mem_blocks (h : f.Shaped g entry) (hl : f.IsLoop i l) : b ∈ l.blocks ↔ b < g.size ∧ l.holds b := by
  rw [(h.natural hl).blocks, List.mem_filter, List.mem_range]

theorem length_lt (h : f.Shaped g entry) (hl : f.IsLoop i l) (hm : f.IsLoop j m) (hij : i ≠ j)
    (hh : l.holds m.header) : m.blocks.length < l.blocks.length := by
  have hnodup : (l.header :: m.blocks).Nodup := by
    refine List.nodup_cons.mpr ⟨fun hmem => ?_, ?_⟩
    · exact h.not_holds_header hl hm hij hh ((h.mem_blocks hm).mp hmem).2
    · rw [(h.natural hm).blocks]
      exact List.nodup_range.filter _
  have hsub : ∀ x ∈ l.header :: m.blocks, x ∈ l.blocks := by
    intro x hx
    rcases List.mem_cons.mp hx with rfl | hx
    · exact List.contains_iff_mem.mp (h.holds_header hl)
    · exact List.contains_iff_mem.mp (h.holds_of_header hl hm hh (List.contains_iff_mem.mpr hx))
  exact (List.subperm_of_subset hnodup hsub).length_le

/-- A loop that has no more blocks than another one on a common block lies inside it. -/
theorem header_of_length_le (h : f.Shaped g entry) (hl : f.IsLoop i l) (hm : f.IsLoop j m)
    (hb : l.holds b) (hb' : m.holds b) (hle : l.blocks.length ≤ m.blocks.length) : m.holds l.header := by
  by_cases hij : i = j
  · subst hij
    rw [hl.unique hm]
    exact h.holds_header hm
  · rcases h.header_of_common hl hm hb hb' with hh | hh
    · exact absurd (h.length_lt hl hm hij hh) (Nat.not_lt.mpr hle)
    · exact hh

theorem regions_pos (h : f.Shaped g entry) : 0 < f.regions.length := by
  obtain ⟨root, hroot, -⟩ := h.whole
  exact (List.getElem?_eq_some_iff.mp hroot).1

theorem parentOf_zero (h : f.Shaped g entry) : f.parentOf 0 = none := by
  obtain ⟨root, hroot, hparent, -⟩ := h.whole
  rw [parentOf, hroot]
  exact hparent

/-- The loops around a block are those around the header of the innermost one. -/
theorem innermost_cases (h : f.Shaped g entry) (b : Nat) :
    (f.innermost b = 0 ∧ f.loopsAt b = ∅) ∨
      ∃ l, f.IsLoop (f.innermost b) l ∧ l.holds b ∧ f.loopsAt b = f.loopsAt l.header := by
  have heq : f.innermost b = (smallest ((f.regions.tail.zipIdx 1).filter fun x => x.1.holds b)).getD 0 := rfl
  have hmem : ∀ l i, (l, i) ∈ (f.regions.tail.zipIdx 1).filter (fun x => x.1.holds b) ↔
      f.IsLoop i l ∧ l.holds b := by
    intro l i
    rw [List.mem_filter, List.mem_zipIdx_iff_le_and_getElem?_sub]
    refine and_congr_left fun _ => ?_
    cases i with
    | zero => simp [IsLoop]
    | succ i => simp [IsLoop]
  obtain ⟨hnil, hnone⟩ | ⟨l, i, hsome, hin, hmin⟩ :=
    smallest_cases ((f.regions.tail.zipIdx 1).filter fun x => x.1.holds b)
  · refine .inl ⟨by rw [heq, hnone]; rfl, Finset.eq_empty_of_forall_notMem fun i hi => ?_⟩
    obtain ⟨l, hl⟩ := mem_loopsAt.mp hi
    have := (hmem l i).mpr hl
    rw [hnil] at this
    cases this
  · obtain ⟨hl, hb⟩ := (hmem l i).mp hin
    have hi : f.innermost b = i := by rw [heq, hsome]; rfl
    refine .inr ⟨l, hi ▸ hl, hb, Finset.ext fun j => ?_⟩
    rw [mem_loopsAt, mem_loopsAt]
    refine exists_congr fun m => and_congr_right fun hm => ⟨fun hb' => ?_, fun hh => ?_⟩
    · exact h.header_of_length_le hl hm hb hb' (hmin (m, j) ((hmem m j).mpr ⟨hm, hb'⟩))
    · exact h.holds_of_header hm hl hh hb

/-- The loops around a loop: itself, and those around its parent. -/
theorem parent_cases (h : f.Shaped g entry) (hl : f.IsLoop i l) :
    (f.parentOf i = some 0 ∧ f.loopsAt l.header = {i}) ∨ ∃ p m, f.parentOf i = some p ∧ f.IsLoop p m ∧
      i ∉ f.loopsAt m.header ∧ f.loopsAt l.header = insert i (f.loopsAt m.header) := by
  obtain ⟨p, hp, hcases⟩ := h.parent hl
  have hparent : f.parentOf i = some p := by
    rw [parentOf, hl.2]
    exact hp
  rcases hcases with ⟨rfl, hnone⟩ | ⟨m, hm, hpi, hh, hmin⟩
  · refine .inl ⟨hparent, Finset.ext fun j => ?_⟩
    rw [Finset.mem_singleton, mem_loopsAt]
    constructor
    · rintro ⟨o, ho, hold⟩
      exact Decidable.not_not.mp fun hji => hnone j o ho hji hold
    · rintro rfl
      exact ⟨l, hl, h.holds_header hl⟩
  · refine .inr ⟨p, m, hparent, hm, ?_, Finset.ext fun j => ?_⟩
    · rw [hl.mem_loopsAt]
      exact h.not_holds_header hm hl hpi hh
    · rw [Finset.mem_insert, mem_loopsAt, mem_loopsAt]
      constructor
      · rintro ⟨o, ho, hold⟩
        by_cases hji : j = i
        · exact .inl hji
        · exact .inr ⟨o, ho, h.header_of_length_le hm ho hh hold (hmin j o ho hji hold)⟩
      · rintro (rfl | ⟨o, ho, hold⟩)
        · exact ⟨l, hl, h.holds_header hl⟩
        · exact ⟨o, ho, h.holds_of_header ho hm hold hh⟩

private theorem climb_zero (h : f.Shaped g entry) (fuel : Nat) : climb f.parentOf fuel 0 = [0] := by
  cases fuel with
  | zero => rfl
  | succ fuel => simp [climb, h.parentOf_zero]

/-- With fuel for every loop around it, climbing from a loop meets these loops and the routine. -/
private theorem climb_spec (h : f.Shaped g entry) {fuel : Nat} (hl : f.IsLoop i l)
    (hfuel : (f.loopsAt l.header).card ≤ fuel) :
    (climb f.parentOf fuel i).length = (f.loopsAt l.header).card + 1 ∧
      ∀ j, j ∈ climb f.parentOf fuel i ↔ j = 0 ∨ j ∈ f.loopsAt l.header := by
  induction fuel generalizing i l with
  | zero =>
    have : i ∈ f.loopsAt l.header := hl.mem_loopsAt.mpr (h.holds_header hl)
    exact absurd (Finset.card_pos.mpr ⟨i, this⟩) (Nat.not_lt.mpr hfuel)
  | succ fuel ih =>
    rcases h.parent_cases hl with ⟨hp, hset⟩ | ⟨p, m, hp, hm, hnot, hset⟩
    · rw [climb, hp, hset]
      simp [h.climb_zero, or_comm]
    · rw [hset, Finset.card_insert_of_notMem hnot] at hfuel
      obtain ⟨hlen, hmem⟩ := ih hm (Nat.le_of_succ_le_succ hfuel)
      rw [climb, hp, hset, Finset.card_insert_of_notMem hnot]
      refine ⟨by simp [hlen], fun j => ?_⟩
      rw [List.mem_cons, hmem, Finset.mem_insert, or_left_comm]

/-- The regions around a block are the routine and the loops that hold the block. -/
theorem mem_lineage (h : f.Shaped g entry) : j ∈ f.lineage b ↔ j = 0 ∨ j ∈ f.loopsAt b := by
  rcases h.innermost_cases b with ⟨hin, hset⟩ | ⟨l, hl, -, hset⟩
  · rw [lineage, hin, h.climb_zero, hset]
    simp
  · rw [hset]
    exact (h.climb_spec hl (Nat.le_of_lt (card_loopsAt_lt h.regions_pos))).2 j

theorem loopsAt_congr (h : f.Shaped g entry) (hbx : f.innermost b = f.innermost x) :
    f.loopsAt b = f.loopsAt x := by
  rcases h.innermost_cases b with ⟨hb, hset⟩ | ⟨l, hl, -, hset⟩ <;>
    rcases h.innermost_cases x with ⟨hx, hset'⟩ | ⟨m, hm, -, hset'⟩
  · rw [hset, hset']
  · exact absurd (hbx ▸ hb) hm.1
  · exact absurd (hbx ▸ hx) hl.1
  · rw [hbx] at hl
    rw [hset, hset', hl.unique hm]

theorem isLoop_of_parentOf (h : f.Shaped g entry) (hp : f.parentOf i = some p) : ∃ l, f.IsLoop i l := by
  obtain ⟨l, hl, -⟩ := Option.bind_eq_some_iff.mp hp
  refine ⟨l, fun hi => ?_, hl⟩
  rw [hi, h.parentOf_zero] at hp
  cases hp

private theorem parent_of_mem_climb {α : Type} {parent : α → Option α} {fuel : Nat} {a b : α}
    (h : b ∈ climb parent fuel a) : b = a ∨ ∃ c ∈ climb parent fuel a, parent c = some b := by
  induction fuel generalizing a with
  | zero => exact .inl (List.mem_singleton.mp h)
  | succ fuel ih =>
    rw [climb] at h ⊢
    rcases List.mem_cons.mp h with rfl | h
    · exact .inl rfl
    · cases hp : parent a with
      | none => rw [hp] at h; cases h
      | some p =>
        rw [hp] at h
        rcases ih h with rfl | ⟨c, hc, hcb⟩
        · exact .inr ⟨a, .head _, hp⟩
        · exact .inr ⟨c, .tail _ hc, hcb⟩

theorem mem_lineage_of_mem_blocks (h : f.Shaped g entry) (hl : f.regions[i]? = some l) (hb : b ∈ l.blocks) :
    i ∈ f.lineage b := by
  rw [h.mem_lineage]
  by_cases hi : i = 0
  · exact .inl hi
  · exact .inr (IsLoop.mem_loopsAt ⟨hi, hl⟩ |>.mpr (List.contains_iff_mem.mpr hb))

/-- A region is the innermost one around its blocks that no child of it holds. -/
theorem innermost_of_childless (h : f.Shaped g entry) (hl : f.regions[i]? = some l) (hb : b ∈ l.blocks)
    (hc : f.childAt i b = none) : f.innermost b = i := by
  rcases parent_of_mem_climb (h.mem_lineage_of_mem_blocks hl hb) with hi | ⟨c, hcmem, hp⟩
  · exact hi.symm
  · exact absurd (beq_iff_eq.mpr hp) (List.find?_eq_none.mp hc c hcmem)

theorem childAt_spec (h : f.Shaped g entry) (hc : f.childAt i b = some j) :
    f.parentOf j = some i ∧ ∃ l, f.IsLoop j l ∧ l.holds b := by
  have hp : f.parentOf j = some i := by
    simpa using List.find?_some hc
  obtain ⟨l, hl⟩ := h.isLoop_of_parentOf hp
  refine ⟨hp, l, hl, ?_⟩
  rcases h.mem_lineage.mp (List.mem_of_find?_eq_some hc) with hj | hj
  · exact absurd hj hl.1
  · exact hl.mem_loopsAt.mp hj

theorem children_apart (h : f.Shaped g entry) (hi : f.parentOf i = some p) (hj : f.parentOf j = some p)
    (hij : i ≠ j) (hl : f.IsLoop i l) (hm : f.IsLoop j m) (hb : l.holds b) : ¬ m.holds b := by
  have apart : ∀ {i j l m}, f.parentOf i = some p → f.parentOf j = some p → i ≠ j → f.IsLoop i l →
      f.IsLoop j m → ¬ l.holds m.header := by
    intro i j l m hi hj hij hl hm hh
    have hmem : i ∈ f.loopsAt m.header := hl.mem_loopsAt.mpr hh
    rcases h.parent_cases hm with ⟨-, hset⟩ | ⟨q, o, hq, ho, -, hset⟩
    · rw [hset] at hmem
      exact hij (Finset.mem_singleton.mp hmem)
    · rw [hset] at hmem
      rcases Finset.mem_insert.mp hmem with rfl | hmem
      · exact hij rfl
      · obtain rfl := Option.some.inj (hq.symm.trans hj)
        rcases h.parent_cases hl with ⟨h0, -⟩ | ⟨q', o', hq', ho', hnot, -⟩
        · exact ho.1 (Option.some.inj (hi.symm.trans h0))
        · obtain rfl := Option.some.inj (hq'.symm.trans hi)
          exact hnot (ho'.unique ho ▸ hmem)
  intro hb'
  rcases h.header_of_common hl hm hb hb' with hh | hh
  · exact apart hi hj hij hl hm hh
  · exact apart hj hi (Ne.symm hij) hm hl hh

private theorem ssubset_of_outside (h : f.Shaped g entry) (hl : f.IsLoop i l) (hx : l.holds x)
    (hout : ¬ l.holds b) (hall : ∀ j m, f.IsLoop j m → m.holds b → m.holds l.header) :
    f.loopsAt b ⊂ f.loopsAt x := by
  refine Finset.ssubset_iff_subset_ne.mpr ⟨fun j hj => ?_, fun heq => ?_⟩
  · obtain ⟨m, hm, hb⟩ := mem_loopsAt.mp hj
    exact mem_loopsAt.mpr ⟨m, hm, h.holds_of_header hm hl (hall j m hm hb) hx⟩
  · have hi : i ∈ f.loopsAt b := heq ▸ hl.mem_loopsAt.mpr hx
    exact hout (hl.mem_loopsAt.mp hi)

theorem loopsAt_preheader (h : f.Shaped g entry) (hl : f.IsLoop i l) (hp : l.preheader = some p)
    (hx : l.holds x) : f.loopsAt p ⊂ f.loopsAt x := by
  have hl' := h.natural hl
  have hpre := (hl'.preheader_iff p).mp hp
  have hout : ¬ l.holds p := fun hb => hpre.outside ((hl'.holds_iff p).mp hb)
  refine h.ssubset_of_outside hl hx hout fun j m hm hb => ?_
  have hm' := h.natural hm
  obtain ⟨y, he, hy⟩ := ((hm'.holds_iff p).mp hb).exists_next hm'.header
  exact (hpre.edge_iff y).mp he ▸ (hm'.holds_iff y).mpr hy

theorem loopsAt_exit (h : f.Shaped g entry) (hl : f.IsLoop i l) (he : b ∈ l.exits)
    (hd : ∀ u, g.Edge u b → l.holds u) (hx : l.holds x) : f.loopsAt b ⊂ f.loopsAt x := by
  have hl' := h.natural hl
  obtain ⟨hout, u, hub, hu⟩ := (hl'.exit_iff b).mp he
  refine h.ssubset_of_outside hl hx hout fun j m hm hb => ?_
  have hm' := h.natural hm
  obtain ⟨v, hv, hv'⟩ : ∃ v, l.holds v ∧ m.holds v := by
    by_cases hbm : b = m.header
    · obtain ⟨v, hv⟩ := hm'.header
      have hin : g.InLoop entry m.header v := by
        by_cases hvh : v = m.header
        · exact .inl hvh
        · exact .inr ⟨hv.reached, v, hv, .here hvh⟩
      exact ⟨v, hd v (hbm ▸ hv.edge), (hm'.holds_iff v).mpr hin⟩
    · have hr := ((hl'.holds_iff u).mp hu).reached hl'.header
      exact ⟨u, hu, (hm'.holds_iff u).mpr (((hm'.holds_iff b).mp hb).of_edge hbm hr hub)⟩
  rcases h.header_of_common hl hm hv hv' with hh | hh
  · exact absurd (h.holds_of_header hl hm hh hb) hout
  · exact hh

theorem mem_blocks_of_child (h : f.Shaped g entry) (hp : f.parentOf i = some p) (hl : f.regions[i]? = some l)
    (hm : f.regions[p]? = some m) (hb : b ∈ l.blocks) : b ∈ m.blocks := by
  obtain ⟨_, hi, hl'⟩ := h.isLoop_of_parentOf hp
  obtain rfl := Option.some.inj (hl.symm.trans hl')
  have hloop : f.IsLoop i l := ⟨hi, hl⟩
  obtain ⟨hlt, hholds⟩ := (h.mem_blocks hloop).mp hb
  obtain ⟨q, hq, hcases⟩ := h.parent hloop
  rw [parentOf, hl, Option.bind_some, hq] at hp
  obtain rfl := Option.some.inj hp
  rcases hcases with ⟨rfl, -⟩ | ⟨o, ho, -, hh, -⟩
  · obtain ⟨root, hroot, -, -, hblocks⟩ := h.whole
    obtain rfl := Option.some.inj (hm.symm.trans hroot)
    rwa [hblocks, List.mem_range]
  · obtain rfl := Option.some.inj (hm.symm.trans ho.2)
    exact (h.mem_blocks ho).mpr ⟨hlt, h.holds_of_header ho hloop hh hholds⟩

private def rank (f : Forest) (i : Nat) : Nat :=
  if i = 0 then 0 else (f.regions[i]?.map fun l => (f.loopsAt l.header).card).getD 0

private theorem rank_child (h : f.Shaped g entry) (hp : f.parentOf i = some p) : rank f i = rank f p + 1 := by
  obtain ⟨l, hl⟩ := h.isLoop_of_parentOf hp
  rcases h.parent_cases hl with ⟨hzero, hset⟩ | ⟨q, m, hq, hm, hnot, hset⟩
  · obtain rfl := Option.some.inj (hp.symm.trans hzero)
    simp [rank, hl.1, hl.2, hset]
  · obtain rfl := Option.some.inj (hp.symm.trans hq)
    simp [rank, hl.1, hl.2, hm.1, hm.2, hset, Finset.card_insert_of_notMem hnot]

theorem exists_parent (h : f.Shaped g entry) (hp : f.parentOf i = some p) : ∃ m, f.regions[p]? = some m := by
  obtain ⟨l, hl⟩ := h.isLoop_of_parentOf hp
  rcases h.parent_cases hl with ⟨hzero, -⟩ | ⟨q, m, hq, hm, -⟩
  · obtain ⟨root, hroot, -⟩ := h.whole
    exact ⟨root, Option.some.inj (hp.symm.trans hzero) ▸ hroot⟩
  · exact ⟨m, Option.some.inj (hp.symm.trans hq) ▸ hm.2⟩

theorem mem_next_descent (h : f.Shaped g entry) : i ∈ f.descent.next p ↔ f.parentOf i = some p := by
  rw [descent, Graph.next, List.getElem?_map]
  cases hm : f.regions[p]? with
  | some m => exact (h.children hm).2 i
  | none =>
    refine ⟨fun hi => absurd hi List.not_mem_nil, fun hp => ?_⟩
    obtain ⟨m, hm'⟩ := h.exists_parent hp
    rw [hm] at hm'
    cases hm'

theorem edge_descent (h : f.Shaped g entry) : f.descent.Edge p i ↔ f.parentOf i = some p := by
  refine ⟨fun he => h.mem_next_descent.mp he.1, fun hp => ⟨h.mem_next_descent.mpr hp, ?_⟩⟩
  obtain ⟨l, hl⟩ := h.isLoop_of_parentOf hp
  rw [size_descent]
  exact hl.lt

/-- Inside out, the children of a region come before it. -/
theorem mem_before_of_child (h : f.Shaped g entry) {id : Nat} {before after : List Nat} (hid : id < f.regions.length)
    (hl : before ++ p :: after = f.innerFirst id) (hc : f.parentOf i = some p) : i ∈ before := by
  have horder := innerFirst_order hid
  rw [← hl, List.reverse_append, List.reverse_cons, List.append_assoc, List.singleton_append] at horder
  have hrank : ∀ {a b}, f.descent.Reaches a b → rank f a ≤ rank f b := by
    intro a b hab
    induction hab with
    | here => exact Nat.le_refl _
    | snoc _ he _ ih =>
      rw [h.rank_child (h.edge_descent.mp he)]
      exact Nat.le_succ_of_le ih
  have hedge : f.descent.Edge p i := h.edge_descent.mpr hc
  -- a child does not lead back, so the search left it first
  have hlt : (after.reverse ++ p :: before.reverse).idxOf p < (after.reverse ++ p :: before.reverse).idxOf i := by
    refine (horder.ahead p (by simp) i hedge).resolve_right fun hback => ?_
    have := hrank hback.reaches
    rw [h.rank_child hc] at this
    omega
  have hmem : i ∈ after.reverse ++ p :: before.reverse := horder.mem_of_edge (by simp) hedge
  rcases List.mem_append.mp hmem with hafter | hrest
  · have := (Graph.idxOf_lt_iff_mem horder.nodup).mpr hafter
    omega
  · rcases List.mem_cons.mp hrest with rfl | hbefore
    · exact absurd hlt (Nat.lt_irrefl _)
    · exact List.mem_reverse.mp hbefore

theorem ne_zero_of_mem_innerFirst (h : f.Shaped g entry) {id : Nat} (hid : id < f.regions.length) (hne : id ≠ 0)
    (hi : i ∈ f.innerFirst id) : i ≠ 0 := by
  rcases (innerFirst_order hid).entered i (List.mem_reverse.mpr hi) with rfl | ⟨m, hedge, -⟩
  · exact hne
  · obtain ⟨l, hl⟩ := h.isLoop_of_parentOf (h.edge_descent.mp hedge)
    exact hl.1

/-- What a region passes to its children reaches every loop inside a loop. -/
theorem nested_induct (h : f.Shaped g entry) {motive : Nat → Prop}
    (child : ∀ i p, f.parentOf i = some p → motive p → motive i) (hm : f.IsLoop p m) (hp : motive p)
    (hl : f.IsLoop i l) (hh : m.holds l.header) : motive i := by
  induction hn : (f.loopsAt l.header).card generalizing i l with
  | zero => exact absurd (hm.mem_loopsAt.mpr hh) (by simp [Finset.card_eq_zero.mp hn])
  | succ n ih =>
    have hmem := hm.mem_loopsAt.mpr hh
    rcases h.parent_cases hl with ⟨-, hset⟩ | ⟨q, o, hq, ho, hnot, hset⟩
    · rw [hset, Finset.mem_singleton] at hmem
      exact hmem ▸ hp
    · rw [hset, Finset.mem_insert] at hmem
      rw [hset, Finset.card_insert_of_notMem hnot] at hn
      rcases hmem with rfl | hmem
      · exact hp
      · exact child i q hq (ih ho (hm.mem_loopsAt.mp hmem) (by omega))

theorem ascend_eq (h : f.Shaped g entry) (fuel : Nat) (hi : i < f.regions.length) :
    f.ascend fuel i = .ok (climb f.parentOf fuel i) := by
  induction fuel generalizing i with
  | zero => rfl
  | succ fuel ih =>
    have hget : f.regions[i]? = some f.regions[i] := List.getElem?_eq_getElem hi
    have hparent : f.parentOf i = f.regions[i].parent := by rw [parentOf, hget, Option.bind_some]
    rw [ascend, region, hget, climb, hparent]
    cases hp : f.regions[i].parent with
    | none => simp only [bind, Except.bind, hp]; rfl
    | some p =>
      obtain ⟨m, hm⟩ := h.exists_parent (hparent.trans hp)
      simp only [bind, Except.bind, hp, ih (List.getElem?_eq_some_iff.mp hm).1]
      rfl

theorem innermost_lt (h : f.Shaped g entry) (b : Nat) : f.innermost b < f.regions.length := by
  rcases h.innermost_cases b with ⟨hin, -⟩ | ⟨l, hl, -⟩
  · rw [hin]
    exact h.regions_pos
  · exact hl.lt

theorem around_eq (h : f.Shaped g entry) (b : Nat) : f.around b = .ok (f.lineage b) :=
  h.ascend_eq _ (h.innermost_lt b)

theorem lt_of_mem_lineage (h : f.Shaped g entry) (hj : j ∈ f.lineage b) : j < f.regions.length := by
  rcases h.mem_lineage.mp hj with rfl | hj
  · exact h.regions_pos
  · obtain ⟨l, hl, -⟩ := mem_loopsAt.mp hj
    exact hl.lt

theorem childHolding_eq (h : f.Shaped g entry) (id b : Nat) : f.childHolding id b = .ok (f.childAt id b) := by
  rw [childHolding, h.around_eq]
  refine findM?_total fun j hj => ?_
  have hlt := h.lt_of_mem_lineage hj
  rw [region, parentOf, List.getElem?_eq_getElem hlt]
  rfl

theorem nesting_eq (h : f.Shaped g entry) : f.nesting = .ok f.descent := by
  refine bind_eq_ok.mpr ⟨f.regions.map Region.children, mapM_total fun l hl => ?_, rfl⟩
  obtain ⟨i, hi⟩ := List.mem_iff_getElem?.mp hl
  refine (mapM_total fun c hc => ?_).trans (congrArg Except.ok (List.map_id _))
  obtain ⟨m, hm⟩ := h.isLoop_of_parentOf (((h.children hi).2 c).mp hc)
  rw [region, hm.2]
  rfl

theorem insideOut_eq (h : f.Shaped g entry) (id : Nat) : f.insideOut id = .ok (f.innerFirst id) := by
  rw [insideOut, h.nesting_eq]
  rfl

theorem bottomUp_eq (h : f.Shaped g entry) : f.bottomUp = .ok f.upward := by
  rw [bottomUp, h.insideOut_eq]
  rfl

theorem readAt_back (h : f.Shaped g entry) (hb : b < g.size) : readAt f.back.succs b = .ok (f.back.next b) := by
  apply readAt_eq_ok.mpr
  apply f.back.getElem?_succs
  rwa [h.back_size]

theorem exit_lt (h : f.Shaped g entry) (hl : f.IsLoop i l) (hb : b ∈ l.exits) : b < g.size := by
  obtain ⟨-, x, he, -⟩ := ((h.natural hl).exit_iff b).mp hb
  exact he.2

theorem canonical_eq (h : f.Shaped g entry) (hl : f.IsLoop i l) :
    f.canonical l = .ok (l.preheader.isSome && l.exits.all fun e => (f.back.next e).all l.holds) := by
  obtain ⟨p, hp, -⟩ := h.parent hl
  have hexits : f.dedicatedExits l = .ok (l.exits.all fun e => (f.back.next e).all l.holds) := by
    refine allM_total fun e he => ?_
    rw [h.readAt_back (h.exit_lt hl he)]
    rfl
  rw [canonical, Region.isRoutine, hp, if_neg (by simp)]
  cases l.preheader with
  | none => rfl
  | some q => exact hexits

theorem canonical_iff (h : f.Shaped g entry) (hl : f.IsLoop i l) :
    f.canonical l = .ok true ↔
      (∃ p, l.preheader = some p) ∧ ∀ e ∈ l.exits, ∀ u, g.Edge u e → l.holds u := by
  rw [h.canonical_eq hl, Except.ok.injEq, Bool.and_eq_true, Option.isSome_iff_exists, List.all_eq_true]
  simp only [List.all_eq_true, h.back_iff]

theorem canonical_root (h : f.Shaped g entry) (hl : f.regions[0]? = some l) : f.canonical l = .ok true := by
  obtain ⟨root, hroot, hparent, -⟩ := h.whole
  obtain rfl := Option.some.inj (hroot.symm.trans hl)
  rw [canonical, Region.isRoutine, hparent]
  rfl

end Forest.Shaped

namespace Forest.Exact

variable {f : Forest} {g : Graph} {entry i p b x : Nat} {l : Region}

theorem depth_eq (h : f.Exact g entry) (hl : f.IsLoop i l) : l.depth = (f.loopsAt l.header).card := by
  induction hn : (f.loopsAt l.header).card generalizing i l with
  | zero =>
    have : i ∈ f.loopsAt l.header := hl.mem_loopsAt.mpr (h.holds_header hl)
    rw [Finset.card_eq_zero.mp hn] at this
    cases this
  | succ n ih =>
    rcases h.parent_cases hl with ⟨hp, hset⟩ | ⟨p, m, hp, hm, hnot, hset⟩
    · obtain ⟨root, hroot, -⟩ := h.whole
      rw [hset, Finset.card_singleton] at hn
      rw [h.depth_child hp hl.2 hroot, h.depth_root hroot]
      exact hn
    · rw [hset, Finset.card_insert_of_notMem hnot] at hn
      rw [h.depth_child hp hl.2 hm.2, ih hm (Nat.succ.inj hn)]

theorem depthAt_eq (h : f.Exact g entry) (b : Nat) : f.depthAt b = (f.loopsAt b).card := by
  rcases h.innermost_cases b with ⟨hin, hset⟩ | ⟨l, hl, -, hset⟩
  · obtain ⟨root, hroot, -⟩ := h.whole
    rw [depthAt, hin, hroot, hset]
    exact h.depth_root hroot
  · rw [depthAt, hl.2, hset]
    exact h.depth_eq hl

theorem depthAt_le (h : f.Exact g entry) (hsub : f.loopsAt b ⊆ f.loopsAt x) : f.depthAt b ≤ f.depthAt x := by
  rw [h.depthAt_eq, h.depthAt_eq]
  exact Finset.card_le_card hsub

end Forest.Exact

section Nest

variable {root : Region} {loops regions : List Region} {depths : List Nat} {i p : Nat} {l : Region}

private def parentIn (loops : List Region) (id : RegionId) : Option RegionId := do
  let g ← loops[id - 1]?
  if id = 0 then none
  else some ((Forest.smallest ((loops.zipIdx 1).filter fun (o, other) =>
    other != id && o.holds g.header)).getD 0)

private theorem parentIn_zero : parentIn loops 0 = none := by
  rw [parentIn]
  cases loops[0 - 1]? <;> rfl

private theorem family_eq (loops : List Region) :
    none :: (Forest.parents (loops.zipIdx 1)).map some = (List.range (loops.length + 1)).map (parentIn loops) := by
  refine List.ext_getElem (by simp [Forest.parents]) fun i h _ => ?_
  rw [List.getElem_map, List.getElem_range]
  cases i with
  | zero => exact parentIn_zero.symm
  | succ i =>
    have hi : i < loops.length := by simpa [Forest.parents] using h
    simp [Forest.parents, parentIn, hi, Nat.add_comm 1 i]

private theorem parentIn_lt (h : parentIn loops i = some p) : i < loops.length + 1 ∧ p < loops.length + 1 := by
  rw [parentIn, Option.bind_eq_bind] at h
  obtain ⟨o, ho, h⟩ := Option.bind_eq_some_iff.mp h
  have hi := (List.getElem?_eq_some_iff.mp ho).1
  refine ⟨by omega, ?_⟩
  split at h
  · cases h
  · obtain rfl := Option.some.inj h
    obtain ⟨-, hnone⟩ | ⟨g, j, hsome, hmem, -⟩ := Forest.smallest_cases ((loops.zipIdx 1).filter fun x =>
        x.2 != i && x.1.holds o.header)
    · rw [hnone]
      exact Nat.succ_pos _
    · rw [hsome, Option.getD_some]
      obtain ⟨hj, hget⟩ := List.mem_zipIdx_iff_le_and_getElem?_sub.mp (List.mem_of_mem_filter hmem)
      have := (List.getElem?_eq_some_iff.mp hget).1
      omega

private def bySize (loops : List Region) : List RegionId :=
  (sortBy (fun x y => y.1.blocks.length ≤ x.1.blocks.length) (loops.zipIdx 1)).map Prod.snd

private theorem mem_bySize : i ∈ bySize loops ↔ i ≠ 0 ∧ i < loops.length + 1 := by
  rw [bySize, ((sortBy_perm (loops.zipIdx 1)).map Prod.snd).mem_iff, List.zipIdx_map_snd, List.mem_range'_1]
  omega

private theorem nodup_bySize (loops : List Region) : (bySize loops).Nodup := by
  refine ((sortBy_perm (loops.zipIdx 1)).map Prod.snd).nodup_iff.mpr ?_
  rw [List.zipIdx_map_snd]
  exact List.nodup_range'

private theorem deepen_ok (hi : i < loops.length + 1) (hd : depths.length = loops.length + 1) :
    ∃ d, Forest.deepen ((List.range (loops.length + 1)).map (parentIn loops)) depths i = .ok (depths.set i (d + 1)) ∧
      ∀ p, parentIn loops i = some p → depths[p]? = some d := by
  have hread : readAt ((List.range (loops.length + 1)).map (parentIn loops)) i = .ok (parentIn loops i) := by
    rw [readAt_eq_ok, List.getElem?_map, List.getElem?_range hi, Option.map_some]
  cases hp : parentIn loops i with
  | none =>
    refine ⟨0, ?_, fun p h => by cases h⟩
    rw [Forest.deepen, hread, hp]
    exact writeAt_of_lt (by omega) _
  | some p =>
    have hlt : p < depths.length := hd ▸ (parentIn_lt hp).2
    refine ⟨depths[p], ?_, fun q hq => ?_⟩
    · rw [Forest.deepen, hread, hp]
      refine bind_eq_ok.mpr ⟨_, rfl, bind_eq_ok.mpr ⟨_, readAt_of_lt hlt, writeAt_of_lt (by omega) _⟩⟩
    · obtain rfl := Option.some.inj hq
      exact List.getElem?_eq_getElem hlt

private theorem sorted_bySize (loops : List Region) : (bySize loops).Pairwise fun i j =>
    ∀ l m, loops[i - 1]? = some l → loops[j - 1]? = some m → m.blocks.length ≤ l.blocks.length := by
  rw [bySize, List.pairwise_map]
  have hsorted : (sortBy (fun x y : Region × RegionId => y.1.blocks.length ≤ x.1.blocks.length)
      (loops.zipIdx 1)).Pairwise fun x y => decide (y.1.blocks.length ≤ x.1.blocks.length) = true :=
    sortBy_sorted (fun a b => by simpa using Nat.le_total _ _) (fun a b c => by simpa using fun h h' => Nat.le_trans h' h)
      (loops.zipIdx 1)
  refine hsorted.imp_of_mem fun {x y} hx hy hle l m hl hm => ?_
  have hget : ∀ {x : Region × RegionId}, x ∈ sortBy (fun x y => y.1.blocks.length ≤ x.1.blocks.length) (loops.zipIdx 1) →
      loops[x.2 - 1]? = some x.1 := fun hx =>
    (List.mem_zipIdx_iff_le_and_getElem?_sub.mp ((sortBy_perm (loops.zipIdx 1)).mem_iff.mp hx)).2
  obtain rfl := Option.some.inj ((hget hx).symm.trans hl)
  obtain rfl := Option.some.inj ((hget hy).symm.trans hm)
  simpa using hle

private def placed (root : Region) (loops : List Region) (depth : RegionId → Nat) : List Region :=
  (root :: loops).zipIdx.map fun (g, id) =>
    { g with
      parent := parentIn loops id
      children := (List.range (loops.length + 1)).filter fun c => parentIn loops c == some id
      depth := depth id }

private theorem placed_getElem? (root : Region) (loops : List Region) (depth : RegionId → Nat) (i : Nat) :
    (placed root loops depth)[i]? = (root :: loops)[i]?.map fun g =>
      { g with
        parent := parentIn loops i
        children := (List.range (loops.length + 1)).filter fun c => parentIn loops c == some i
        depth := depth i } := by
  rw [placed, List.getElem?_map, List.getElem?_zipIdx]
  cases (root :: loops)[i]? with
  | none => rfl
  | some g => simp only [Option.map_some, Nat.zero_add]

private theorem parentOf_placed (back : Graph) (depth : RegionId → Nat) :
    (Forest.mk (placed root loops depth) back).parentOf = parentIn loops := by
  funext i
  rw [Forest.parentOf, placed_getElem?]
  cases i with
  | zero => rfl
  | succ i =>
    rw [List.getElem?_cons_succ]
    cases hl : loops[i]? with
    | none => simp [parentIn, hl]
    | some g => rfl

private def Region.SameLoop (l m : Region) : Prop :=
  l.header = m.header ∧ l.blocks = m.blocks ∧ l.preheader = m.preheader ∧ l.latches = m.latches ∧
    l.exiting = m.exiting ∧ l.exits = m.exits

private theorem isLoop_placed {back : Graph} {depth : RegionId → Nat} (h : (Forest.mk (placed root loops depth) back).IsLoop i l) :
    ∃ m, loops[i - 1]? = some m ∧ l.SameLoop m ∧ l.parent = parentIn loops i := by
  obtain ⟨hi, hl⟩ := h
  obtain ⟨j, rfl⟩ := Nat.exists_eq_succ_of_ne_zero hi
  rw [placed_getElem?, Nat.succ_eq_add_one, List.getElem?_cons_succ] at hl
  obtain ⟨m, hm, rfl⟩ := Option.map_eq_some_iff.mp hl
  exact ⟨m, hm, ⟨rfl, rfl, rfl, rfl, rfl, rfl⟩, rfl⟩

private theorem exists_isLoop_placed (root : Region) (back : Graph) (depth : RegionId → Nat) {m : Region} (h : loops[i]? = some m) :
    ∃ l, (Forest.mk (placed root loops depth) back).IsLoop (i + 1) l ∧ l.SameLoop m := by
  have hget := placed_getElem? root loops depth (i + 1)
  rw [List.getElem?_cons_succ, h] at hget
  exact ⟨_, ⟨Nat.succ_ne_zero i, hget⟩, rfl, rfl, rfl, rfl, rfl, rfl⟩

private theorem Region.Natural.congr {g : Graph} {entry : Nat} {l m : Region} (h : m.Natural g entry)
    (hs : l.SameLoop m) : l.Natural g entry := by
  obtain ⟨hh, hb, hp, hlat, hex, hexit⟩ := hs
  have hholds : l.holds = m.holds := by
    funext x
    rw [holds, holds, hb]
  refine ⟨hh ▸ h.header, fun x => ?_, ?_, fun x => ?_, fun x => ?_, fun x => ?_, fun p => ?_,
    hexit ▸ h.nodup_exits⟩
  · rw [hholds, hh]; exact h.holds_iff x
  · rw [hholds, hb]; exact h.blocks
  · rw [hlat, hh]; exact h.latch_iff x
  · rw [hex, hholds]; exact h.exiting_iff x
  · rw [hexit, hholds]; exact h.exit_iff x
  · rw [hp, hh]; exact h.preheader_iff p

private theorem placed_parent (back : Graph) (depth : RegionId → Nat)
    (hl : Forest.IsLoop ⟨placed root loops depth, back⟩ i l) : ∃ p, l.parent = some p ∧
      (p = 0 ∧ (∀ j o, Forest.IsLoop ⟨placed root loops depth, back⟩ j o → j ≠ i → ¬ o.holds l.header) ∨
        ∃ q, Forest.IsLoop ⟨placed root loops depth, back⟩ p q ∧ p ≠ i ∧ q.holds l.header ∧
          ∀ j o, Forest.IsLoop ⟨placed root loops depth, back⟩ j o → j ≠ i → o.holds l.header →
            q.blocks.length ≤ o.blocks.length) := by
  obtain ⟨m, hm, hs, hp⟩ := isLoop_placed hl
  have hother : ∀ j o, (o, j) ∈ (loops.zipIdx 1).filter (fun x => x.2 != i && x.1.holds m.header) ↔
      1 ≤ j ∧ loops[j - 1]? = some o ∧ j ≠ i ∧ o.holds m.header := by
    intro j o
    rw [List.mem_filter, List.mem_zipIdx_iff_le_and_getElem?_sub]
    simp only [Bool.and_eq_true, bne_iff_ne, and_assoc]
  have hchosen : ∀ j o, Forest.IsLoop ⟨placed root loops depth, back⟩ j o →
      j ≠ i → o.holds l.header → ∃ o', o'.blocks = o.blocks ∧
        (o', j) ∈ (loops.zipIdx 1).filter (fun x => x.2 != i && x.1.holds m.header) := by
    intro j o ho hji hold
    obtain ⟨o', ho', hso, -⟩ := isLoop_placed ho
    refine ⟨o', hso.2.1.symm, (hother j o').mpr ⟨Nat.pos_of_ne_zero ho.1, ho', hji, ?_⟩⟩
    rw [Region.holds, ← hso.2.1, ← hs.1]
    exact hold
  have hparent : l.parent = some ((Forest.smallest ((loops.zipIdx 1).filter fun x =>
      x.2 != i && x.1.holds m.header)).getD 0) := by
    rw [hp, parentIn, hm, Option.bind_eq_bind, Option.bind_some, if_neg hl.1]
  refine ⟨_, hparent, ?_⟩
  obtain ⟨hnil, hnone⟩ | ⟨o, j, hsome, hmem, hmin⟩ := Forest.smallest_cases ((loops.zipIdx 1).filter fun x =>
      x.2 != i && x.1.holds m.header)
  · refine .inl ⟨by rw [hnone]; rfl, fun j o ho hji hold => ?_⟩
    obtain ⟨o', -, hmem⟩ := hchosen j o ho hji hold
    rw [hnil] at hmem
    cases hmem
  · obtain ⟨hj, hget, hji, hold⟩ := (hother j o).mp hmem
    obtain ⟨q, hq, hsq⟩ := exists_isLoop_placed root back depth hget
    rw [Nat.sub_add_cancel hj] at hq
    rw [hsome, Option.getD_some]
    refine .inr ⟨q, hq, hji, ?_, fun j' o' ho' hji' hold' => ?_⟩
    · rw [Region.holds, hsq.2.1, hs.1]
      exact hold
    · obtain ⟨o'', hbl, hmem'⟩ := hchosen j' o' ho' hji' hold'
      rw [hsq.2.1, ← hbl]
      exact hmin _ hmem'

private theorem placed_shaped {g back : Graph} {entry : Nat} {dom : DomTree} (hk : g.Known back entry dom)
    (hnat : ∀ l ∈ loops, l.Natural g entry) (hnodup : (loops.map Region.header).Nodup)
    (hall : ∀ h, g.Header entry h → ∃ l ∈ loops, l.header = h) (depth : RegionId → Nat) :
    (Forest.mk (placed (.whole g.size entry) loops depth) back).Shaped g entry := by
  refine ⟨hk.back_iff, hk.size, hk.nodup_back, ?_, ?_, ?_, ?_, ?_, ?_⟩
  · exact ⟨_, placed_getElem? _ loops depth 0, parentIn_zero, rfl, rfl⟩
  · intro i l hl
    obtain ⟨m, hm, hs, -⟩ := isLoop_placed hl
    exact (hnat m (List.mem_of_getElem? hm)).congr hs
  · intro i j l m hl hm hh
    obtain ⟨l', hl', hls, -⟩ := isLoop_placed hl
    obtain ⟨m', hm', hms, -⟩ := isLoop_placed hm
    have hi := hl.1
    have hj := hm.1
    have heq : (loops.map Region.header)[i - 1]? = (loops.map Region.header)[j - 1]? := by
      rw [List.getElem?_map, List.getElem?_map, hl', hm', Option.map_some, Option.map_some, ← hls.1, ← hms.1, hh]
    have hij : i - 1 = j - 1 :=
      (List.getElem?_inj (by simpa using (List.getElem?_eq_some_iff.mp hl').1) hnodup).mp heq
    omega
  · intro h hh
    obtain ⟨m, hm, hmh⟩ := hall h hh
    obtain ⟨i, hi⟩ := List.mem_iff_getElem?.mp hm
    obtain ⟨l, hl, hs⟩ := exists_isLoop_placed (.whole g.size entry) back depth hi
    exact ⟨i + 1, l, hl, hs.1.trans hmh⟩
  · exact fun {i l} hl => placed_parent back depth hl
  · intro i l hl
    change (placed _ loops depth)[i]? = some l at hl
    rw [placed_getElem?] at hl
    obtain ⟨m, -, rfl⟩ := Option.map_eq_some_iff.mp hl
    refine ⟨List.nodup_range.filter _, fun c => ?_⟩
    rw [parentOf_placed, List.mem_filter, List.mem_range, beq_iff_eq]
    refine ⟨fun h => h.2, fun h => ⟨?_, h⟩⟩
    exact (parentIn_lt h).1

private theorem parent_before {g back : Graph} {entry : Nat} {depth : RegionId → Nat}
    (hf : (Forest.mk (placed root loops depth) back).Shaped g entry) {before after : List Nat}
    (hi : before ++ i :: after = bySize loops) (hp : parentIn loops i = some p) : p = 0 ∨ p ∈ before := by
  rw [← parentOf_placed back depth] at hp
  obtain ⟨l, hl⟩ := hf.isLoop_of_parentOf hp
  obtain ⟨q, hq, hcases⟩ := hf.parent hl
  have hparent : l.parent = some p := by rwa [Forest.parentOf, hl.2] at hp
  obtain rfl := Option.some.inj (hq.symm.trans hparent)
  refine hcases.imp And.left fun ⟨m, hm, hpi, hh, _⟩ => ?_
  have hlt := hf.length_lt hm hl hpi hh
  obtain ⟨l', hl', hls, -⟩ := isLoop_placed hl
  obtain ⟨m', hm', hms, -⟩ := isLoop_placed hm
  rw [hls.2.1, hms.2.1] at hlt
  have hmem : q ∈ before ++ i :: after := by
    rw [hi, mem_bySize]
    have := (List.getElem?_eq_some_iff.mp hm').1
    exact ⟨hm.1, by omega⟩
  refine (List.mem_append.mp hmem).resolve_right fun hlate => ?_
  rcases List.mem_cons.mp hlate with rfl | hlate
  · exact hpi rfl
  · have hsorted := sorted_bySize loops
    rw [← hi, List.pairwise_append] at hsorted
    have := (List.pairwise_cons.mp hsorted.2.1).1 q hlate l' m' hl' hm'
    omega

/-- The loops taken so far lie one deeper than their parents, which were taken before. -/
private structure Deepened (loops : List Region) (taken : List RegionId) (depths : List Nat) : Prop where
  length : depths.length = loops.length + 1
  root : depths[0]? = some 0
  loop : ∀ i ∈ taken, ∀ p, parentIn loops i = some p →
    (p = 0 ∨ p ∈ taken) ∧ ∃ d, depths[p]? = some d ∧ depths[i]? = some (d + 1)

private theorem Deepened.step {g back : Graph} {entry a : Nat} {depth : RegionId → Nat}
    (hf : (Forest.mk (placed root loops depth) back).Shaped g entry) {before after : List Nat}
    (hl : before ++ a :: after = bySize loops) (h : Deepened loops before depths) :
    ∃ next, Forest.deepen ((List.range (loops.length + 1)).map (parentIn loops)) depths a = .ok next ∧
      Deepened loops (before ++ [a]) next := by
  have ha : a ≠ 0 ∧ a < loops.length + 1 := mem_bySize.mp (by rw [← hl]; simp)
  have hnew : a ∉ before := by
    have hnodup := nodup_bySize loops
    rw [← hl] at hnodup
    exact fun hb => List.disjoint_of_nodup_append hnodup hb (.head _)
  have hother : ∀ p, p = 0 ∨ p ∈ before → a ≠ p := by
    rintro p hp rfl
    exact hp.elim ha.1 hnew
  obtain ⟨d, hstep, hd⟩ := deepen_ok ha.2 h.length
  refine ⟨_, hstep, by rw [List.length_set, h.length], by rw [List.getElem?_set_ne ha.1, h.root], ?_⟩
  intro i hi p hp
  rcases List.mem_append.mp hi with hi | hi
  · obtain ⟨hpb, e, hep, hei⟩ := h.loop i hi p hp
    refine ⟨hpb.imp_right (List.mem_append_left _), e, ?_, ?_⟩
    · rwa [List.getElem?_set_ne (hother p hpb)]
    · rwa [List.getElem?_set_ne (hother i (.inr hi))]
  · obtain rfl := List.mem_singleton.mp hi
    have hpb := parent_before hf hl hp
    refine ⟨hpb.imp_right (List.mem_append_left _), d, ?_, List.getElem?_set_self (h.length ▸ ha.2)⟩
    rw [List.getElem?_set_ne (hother p hpb), hd p hp]

private theorem depthsOf_ok {g back : Graph} {entry : Nat} {depth : RegionId → Nat}
    (hf : (Forest.mk (placed root loops depth) back).Shaped g entry) :
    ∃ depths, Forest.depthsOf ((List.range (loops.length + 1)).map (parentIn loops)) (loops.zipIdx 1) = .ok depths ∧
      depths.length = loops.length + 1 ∧ depths[0]? = some 0 ∧
      ∀ i p, parentIn loops i = some p → ∃ d, depths[p]? = some d ∧ depths[i]? = some (d + 1) := by
  have start : Deepened loops [] (List.replicate ((List.range (loops.length + 1)).map (parentIn loops)).length 0) :=
    ⟨by simp, by simp, fun i hi => by cases hi⟩
  obtain ⟨depths, hok, h⟩ := foldlM_total (Deepened loops) start fun before a after depths hl h => h.step hf hl
  refine ⟨depths, hok, h.length, h.root, fun i p hp => (h.loop i ?_ p hp).2⟩
  refine mem_bySize.mpr ⟨?_, (parentIn_lt hp).1⟩
  rintro rfl
  rw [parentIn_zero] at hp
  cases hp

private theorem nest_eq_placed (hd : depths.length = loops.length + 1)
    (hok : Forest.depthsOf ((List.range (loops.length + 1)).map (parentIn loops)) (loops.zipIdx 1) = .ok depths) :
    Forest.nest root loops = .ok (placed root loops fun i => depths[i]?.getD 0) := by
  rw [Forest.nest, family_eq]
  refine bind_eq_ok.mpr ⟨depths, hok, congrArg Except.ok ?_⟩
  refine List.ext_getElem (by simp [placed, hd]) fun i hi _ => ?_
  have hlt : i < depths.length := by simpa [hd] using hi
  have hzip : ((List.range (loops.length + 1)).map (parentIn loops)).zipIdx =
      (List.range (loops.length + 1)).map fun c => (parentIn loops c, c) := by
    refine List.ext_getElem (by simp) fun c _ _ => by simp
  simp only [placed, List.getElem_map, List.getElem_zipIdx, List.getElem_zip, List.getElem_range, Nat.zero_add,
    List.getElem?_eq_getElem hlt, Option.getD_some, hzip, List.filter_map, List.map_map, Function.comp_def,
    List.map_id']

end Nest

theorem Routine.known_flow {r : Routine} {dom : DomTree} (he : r.entry < r.blocks.length)
    (hd : DomTree.Exact r.flow r.entry dom) : r.flow.Known r.backflow r.entry dom where
  back_iff u v := Graph.mem_next_flip
  size := by simp [Routine.backflow, Graph.flip, Graph.size]
  nodup_back := r.flow.nodup_next_flip
  edge u v := Routine.edge_flow.mpr
  nodup := r.nodup_next_flow
  dom := hd
  entry := by rwa [Routine.size_flow]

/-- A routine whose dominators are known has an exact forest, found without a fault. -/
theorem Forest.build_exact {r : Routine} {dom : DomTree} (he : r.entry < r.blocks.length)
    (hd : DomTree.Exact r.flow r.entry dom) : ∃ f, Forest.build r dom = .ok f ∧ f.Exact r.flow r.entry := by
  have hk := Routine.known_flow he hd
  obtain ⟨loops, hloops, hnat, hnodup, hall⟩ := Graph.loops_natural hk
  have hshape := placed_shaped hk hnat hnodup hall
  obtain ⟨depths, hok, hlen, hzero, hdeep⟩ := depthsOf_ok (hshape fun _ => 0)
  refine ⟨⟨placed (.whole r.flow.size r.entry) loops fun i => depths[i]?.getD 0, r.backflow⟩, ?_, hshape _, ?_, ?_⟩
  · rw [Forest.build, hloops, ← r.size_flow]
    exact bind_eq_ok.mpr ⟨_, rfl, bind_eq_ok.mpr ⟨_, nest_eq_placed hlen hok, rfl⟩⟩
  · intro l hl
    rw [placed_getElem?] at hl
    obtain ⟨m, -, rfl⟩ := Option.map_eq_some_iff.mp hl
    simp [hzero]
  · intro i p l m hp hl hm
    rw [parentOf_placed] at hp
    rw [placed_getElem?] at hl hm
    obtain ⟨l, -, rfl⟩ := Option.map_eq_some_iff.mp hl
    obtain ⟨m, -, rfl⟩ := Option.map_eq_some_iff.mp hm
    obtain ⟨d, hdp, hdi⟩ := hdeep i p hp
    simp [hdp, hdi]

end CountMotion
