import CountMotion.Proofs.Entering

/-! The loops of a routine form a forest: any two are apart or one lies inside the other, and all
that the forest records follows this order. -/
namespace CountMotion

/-- The second region has all blocks of the first, and more. -/
def Region.Inside (l m : Region) : Prop := l.blocks ⊆ m.blocks ∧ ∃ b ∈ m.blocks, b ∉ l.blocks

namespace Forest

variable {f : Forest} {g : Graph} {entry i j b c : Nat} {l m : Region}
  {stack rest : List (RegionId × List RegionId)} {seen later : List RegionId}

/-- The number names the smallest loop with a property, or the routine if no loop has it. -/
def IsSmallest (f : Forest) (p : Region → Prop) (i : RegionId) : Prop :=
  (i = 0 ∧ ∀ j m, f.IsLoop j m → ¬ p m) ∨
    ∃ l, f.IsLoop i l ∧ p l ∧ ∀ j m, f.IsLoop j m → p m → j = i ∨ l.Inside m

/-- The walk over a nesting with the open regions on a stack, each with the children that are
still to be entered. It takes no note of what it has entered, so it may well have no end. Loops are
listed as they are left. -/
inductive Unwinds (f : Forest) : List (RegionId × List RegionId) → List RegionId → Prop where
  | done : Unwinds f [] []
  | enter {i c : RegionId} {later : List RegionId} {rest : List (RegionId × List RegionId)} {out : List RegionId} :
      Unwinds f ((c, f.descent.next c) :: (i, later) :: rest) out → Unwinds f ((i, c :: later) :: rest) out
  | leave {i : RegionId} {rest : List (RegionId × List RegionId)} {out : List RegionId} :
      Unwinds f rest out → Unwinds f ((i, []) :: rest) (if i = 0 then out else i :: out)

/-- The second region lies around the first. -/
def Around (f : Forest) : RegionId → RegionId → Prop := Relation.TransGen fun c p => f.parentOf c = some p

/-- A forest that says which loops a routine has and how they nest. -/
structure WellNested (f : Forest) (r : Routine) : Prop where
  header_iff : ∀ h, (∃ i l, f.IsLoop i l ∧ l.header = h) ↔ r.flow.Header r.entry h
  latch_iff : ∀ i l, f.IsLoop i l → ∀ x, x ∈ l.latches ↔ r.flow.Latch r.entry l.header x
  block_iff : ∀ i l, f.IsLoop i l → ∀ x, x ∈ l.blocks ↔
    x = l.header ∨ r.flow.Reaches r.entry x ∧ ∃ t ∈ l.latches, r.flow.Path (· ≠ l.header) x t
  apart : ∀ i j l m, f.IsLoop i l → f.IsLoop j m → i ≠ j →
    (∀ b ∈ l.blocks, b ∉ m.blocks) ∨ l.Inside m ∨ m.Inside l
  parent : ∀ i l, f.IsLoop i l → ∃ p, l.parent = some p ∧ f.IsSmallest l.Inside p
  depth : ∀ i l, f.IsLoop i l → l.depth = (f.loopsAt l.header).card
  innermost : ∀ b, f.IsSmallest (fun l => b ∈ l.blocks) (f.innermost b)
  children : ∀ i g, f.regions[i]? = some g → g.children.Nodup ∧ ∀ c, c ∈ g.children ↔ f.parentOf c = some i
  child_iff : ∀ i b, ∃ o, f.childHolding i b = .ok o ∧ ∀ c, o = some c ↔
    ∃ g l, f.regions[i]? = some g ∧ c ∈ g.children ∧ f.IsLoop c l ∧ b ∈ l.blocks
  bottomUp : ∃ order, f.bottomUp = .ok order ∧ f.Unwinds [(0, f.descent.next 0)] order ∧
    order.Nodup ∧ (∀ i, i ∈ order ↔ ∃ l, f.IsLoop i l) ∧
    ∀ i j, f.Around i j → j ≠ 0 → order.idxOf i < order.idxOf j

section Walk

/-- What holds while the nesting is walked: the children still to be entered were not entered. -/
structure Walking (f : Forest) (stack : List (RegionId × List RegionId)) (seen : List RegionId) : Prop where
  once : (stack.map Prod.fst).Nodup
  opened : ∀ e ∈ stack, e.1 ∈ seen
  later : ∀ e ∈ stack, e.2.Nodup ∧ ∀ c ∈ e.2, f.parentOf c = some e.1 ∧ c ∉ seen
  closed : ∀ c ∈ seen, ∀ p, f.parentOf c = some p → p ∈ seen

theorem Walking.start (h : f.Exact g entry) : f.Walking [(0, f.descent.next 0)] [0] := by
  obtain ⟨root, hroot, -⟩ := h.whole
  have hnext : f.descent.next 0 = root.children := by simp [descent, Graph.next, hroot]
  refine ⟨by simp, by simp, ?_, ?_⟩
  · intro e he
    obtain rfl := List.mem_singleton.mp he
    refine ⟨hnext ▸ (h.children hroot).1, fun c hc => ?_⟩
    have hp := h.mem_next_descent.mp hc
    obtain ⟨l, hl⟩ := h.isLoop_of_parentOf hp
    exact ⟨hp, by simpa using hl.1⟩
  · intro c hc p hp
    rw [List.mem_singleton.mp hc, h.parentOf_zero] at hp
    cases hp

theorem Walking.leave (hw : f.Walking ((i, []) :: rest) seen) : f.Walking rest seen :=
  ⟨(List.nodup_cons.mp hw.once).2, fun e he => hw.opened e (.tail _ he), fun e he => hw.later e (.tail _ he), hw.closed⟩

theorem Walking.enter (h : f.Exact g entry) (hw : f.Walking ((i, c :: later) :: rest) seen) :
    f.Walking ((c, f.descent.next c) :: (i, later) :: rest) (c :: seen) := by
  obtain ⟨hnodup, hlater⟩ := hw.later _ (.head rest)
  obtain ⟨hp, hc⟩ := hlater c (.head later)
  have hi := hw.opened _ (.head rest)
  obtain ⟨l, hl⟩ := h.isLoop_of_parentOf hp
  have hnext : f.descent.next c = l.children := by simp [descent, Graph.next, hl.2]
  -- a child that another open region still has to enter has that region as its parent
  have hother : ∀ e ∈ (i, later) :: rest, c ∉ e.2 := by
    intro e he hmem
    rcases List.mem_cons.mp he with rfl | he
    · exact (List.nodup_cons.mp hnodup).1 hmem
    · have hpe := ((hw.later e (.tail _ he)).2 c hmem).1
      refine (List.nodup_cons.mp hw.once).1 (List.mem_map.mpr ⟨e, he, ?_⟩)
      exact (Option.some.inj (hp.symm.trans hpe)).symm
  refine ⟨List.nodup_cons.mpr ⟨fun hmem => ?_, hw.once⟩, ?_, ?_, ?_⟩
  · obtain ⟨e, he, rfl⟩ : ∃ e ∈ (i, later) :: rest, e.1 = c := List.mem_map.mp hmem
    rcases List.mem_cons.mp he with rfl | he
    · exact hc hi
    · exact hc (hw.opened e (.tail _ he))
  · intro e he
    rcases List.mem_cons.mp he with rfl | he
    · exact .head _
    · rcases List.mem_cons.mp he with rfl | he
      · exact .tail _ hi
      · exact .tail _ (hw.opened e (.tail _ he))
  · intro e he
    rcases List.mem_cons.mp he with rfl | hold
    · refine ⟨hnext ▸ (h.children hl.2).1, fun d hd => ?_⟩
      have hpd := h.mem_next_descent.mp hd
      refine ⟨hpd, fun hmem => ?_⟩
      rcases List.mem_cons.mp hmem with rfl | hmem
      · exact hc (Option.some.inj (hp.symm.trans hpd) ▸ hi)
      · exact hc (hw.closed d hmem c hpd)
    · have hkept : e.2.Nodup ∧ ∀ d ∈ e.2, f.parentOf d = some e.1 ∧ d ∉ seen := by
        rcases List.mem_cons.mp hold with rfl | hrest
        · exact ⟨(List.nodup_cons.mp hnodup).2, fun d hd => hlater d (.tail _ hd)⟩
        · exact hw.later e (.tail _ hrest)
      refine ⟨hkept.1, fun d hd => ⟨(hkept.2 d hd).1, fun hmem => ?_⟩⟩
      rcases List.mem_cons.mp hmem with rfl | hmem
      · exact hother e hold hd
      · exact (hkept.2 d hd).2 hmem
  · intro d hd p hpd
    rcases List.mem_cons.mp hd with rfl | hd
    · exact .tail _ (Option.some.inj (hp.symm.trans hpd) ▸ hi)
    · exact .tail _ (hw.closed d hd p hpd)

/-- The search that notes what it has entered never meets such a region again. -/
private theorem finish_unwinds (h : f.Exact g entry) (hw : f.Walking stack seen) (done : List RegionId) :
    ∃ out, f.descent.finish stack seen done = done.reverse ++ out ∧ f.Unwinds stack (out.filter (· ≠ 0)) := by
  fun_induction Graph.finish f.descent stack seen done with
  | case1 seen done => exact ⟨[], by simp, .done⟩
  | case2 seen done i rest ih =>
    obtain ⟨out, hout, hrest⟩ := ih hw.leave
    refine ⟨i :: out, by simp [hout], ?_⟩
    have hfilter : (i :: out).filter (· ≠ 0) =
        if i = 0 then out.filter (· ≠ 0) else i :: out.filter (· ≠ 0) := by
      by_cases hi : i = 0 <;> simp [hi]
    rw [hfilter]
    exact .leave hrest
  | case3 seen done i c later rest hc ih =>
    rw [← Graph.next_eq_get] at ih ⊢
    obtain ⟨out, hout, hrest⟩ := ih (hw.enter h)
    exact ⟨out, hout, .enter hrest⟩
  | case4 seen done i c later rest hc ih =>
    obtain ⟨hp, hnew⟩ := (hw.later _ (.head rest)).2 c (.head later)
    exact absurd ⟨(h.edge_descent.mpr hp).2, hnew⟩ hc

end Walk

namespace Exact

theorem inside_of_header (h : f.Exact g entry) (hl : f.IsLoop i l) (hm : f.IsLoop j m) (hij : i ≠ j)
    (hh : m.holds l.header) : l.Inside m := by
  refine ⟨fun b hb => ?_, m.header, List.contains_iff_mem.mp (h.holds_header hm), fun hmem => ?_⟩
  · exact List.contains_iff_mem.mp (h.holds_of_header hm hl hh (List.contains_iff_mem.mpr hb))
  · exact h.not_holds_header hm hl (Ne.symm hij) hh (List.contains_iff_mem.mpr hmem)

theorem header_of_inside (h : f.Exact g entry) (hl : f.IsLoop i l) (hm : f.IsLoop j m) (hin : l.Inside m) :
    j ≠ i ∧ m.holds l.header := by
  refine ⟨?_, List.contains_iff_mem.mpr (hin.1 (List.contains_iff_mem.mp (h.holds_header hl)))⟩
  rintro rfl
  obtain rfl := hl.unique hm
  obtain ⟨b, hb, hnot⟩ := hin.2
  exact hnot hb

theorem parent_smallest (h : f.Exact g entry) (hl : f.IsLoop i l) :
    ∃ p, l.parent = some p ∧ f.IsSmallest l.Inside p := by
  obtain ⟨p, hp, hcases⟩ := h.parent hl
  refine ⟨p, hp, ?_⟩
  rcases hcases with ⟨rfl, hnone⟩ | ⟨m, hm, hpi, hh, hmin⟩
  · refine .inl ⟨rfl, fun j o ho hin => ?_⟩
    obtain ⟨hji, hold⟩ := h.header_of_inside hl ho hin
    exact hnone j o ho hji hold
  · refine .inr ⟨m, hm, h.inside_of_header hl hm (Ne.symm hpi) hh, fun j o ho hin => ?_⟩
    obtain ⟨hji, hold⟩ := h.header_of_inside hl ho hin
    refine Decidable.or_iff_not_imp_left.mpr fun hjp => ?_
    exact h.inside_of_header hm ho (Ne.symm hjp) (h.header_of_length_le hm ho hh hold (hmin j o ho hji hold))

theorem innermost_smallest (h : f.Exact g entry) (b : Nat) :
    f.IsSmallest (fun l => b ∈ l.blocks) (f.innermost b) := by
  rcases h.innermost_cases b with ⟨hzero, hset⟩ | ⟨l, hl, hb, hset⟩
  · refine .inl ⟨hzero, fun j m hm hb => ?_⟩
    have hmem := hm.mem_loopsAt.mpr (List.contains_iff_mem.mpr hb)
    rw [hset] at hmem
    exact absurd hmem (Finset.notMem_empty j)
  · refine .inr ⟨l, hl, List.contains_iff_mem.mp hb, fun j m hm hb' => ?_⟩
    have hmem := hm.mem_loopsAt.mpr (List.contains_iff_mem.mpr hb')
    rw [hset, hm.mem_loopsAt] at hmem
    exact Decidable.or_iff_not_imp_left.mpr fun hji => h.inside_of_header hl hm (Ne.symm hji) hmem

theorem childAt_innermost (h : f.Exact g entry) (b : Nat) : f.childAt (f.innermost b) b = none := by
  refine Option.eq_none_iff_forall_ne_some.mpr fun c hc => ?_
  obtain ⟨hp, m, hm, hb⟩ := h.childAt_spec hc
  have hmem := hm.mem_loopsAt.mpr hb
  rcases h.innermost_cases b with ⟨-, hset⟩ | ⟨l, hl, -, hset⟩
  · rw [hset] at hmem
    exact Finset.notMem_empty c hmem
  · rcases h.parent_cases hm with ⟨hzero, -⟩ | ⟨p, l', hp', hl', hnot, -⟩
    · exact hl.1 (Option.some.inj (hp.symm.trans hzero))
    · obtain rfl := Option.some.inj (hp.symm.trans hp')
      rw [hset, hl.unique hl'] at hmem
      exact hnot hmem

theorem apart_or_inside (h : f.Exact g entry) (hl : f.IsLoop i l) (hm : f.IsLoop j m) (hij : i ≠ j) :
    (∀ b ∈ l.blocks, b ∉ m.blocks) ∨ l.Inside m ∨ m.Inside l := by
  refine Classical.or_iff_not_imp_left.mpr fun hcommon => ?_
  obtain ⟨b, hb, hb'⟩ : ∃ b, b ∈ l.blocks ∧ b ∈ m.blocks := by simpa using hcommon
  rcases h.header_of_common hl hm (List.contains_iff_mem.mpr hb) (List.contains_iff_mem.mpr hb') with hh | hh
  · exact .inr (h.inside_of_header hm hl (Ne.symm hij) hh)
  · exact .inl (h.inside_of_header hl hm hij hh)

/-- Every loop is found from the routine down. -/
theorem reaches_loop (h : f.Exact g entry) (hl : f.IsLoop i l) : f.descent.Reaches 0 i := by
  induction hn : (f.loopsAt l.header).card generalizing i l with
  | zero =>
    have hmem := hl.mem_loopsAt.mpr (h.holds_header hl)
    rw [Finset.card_eq_zero.mp hn] at hmem
    exact absurd hmem (Finset.notMem_empty i)
  | succ n ih =>
    rcases h.parent_cases hl with ⟨hp, -⟩ | ⟨p, m, hp, hm, hnot, hset⟩
    · exact (Graph.Reaches.refl _ 0).edge (h.edge_descent.mpr hp)
    · rw [hset, Finset.card_insert_of_notMem hnot] at hn
      exact (ih hm (by omega)).edge (h.edge_descent.mpr hp)

theorem innerFirst_eq (h : f.Exact g entry) : f.innerFirst 0 = f.upward ++ [0] := by
  have hlast : (f.innerFirst 0).getLast? = some 0 := by
    rw [← List.head?_reverse]
    exact (innerFirst_order h.regions_pos).head
  obtain ⟨before, hbefore⟩ := List.getLast?_eq_some_iff.mp hlast
  rw [upward, hbefore, List.dropLast_concat]

theorem nodup_innerFirst (h : f.Exact g entry) : (f.upward ++ [0]).Nodup :=
  h.innerFirst_eq ▸ List.nodup_reverse.mp (innerFirst_order h.regions_pos).nodup

theorem mem_upward (h : f.Exact g entry) : i ∈ f.upward ↔ ∃ l, f.IsLoop i l := by
  have hmem : i ∈ f.upward ++ [0] ↔ f.descent.Reaches 0 i := by
    rw [← h.innerFirst_eq, ← List.mem_reverse]
    exact (innerFirst_order h.regions_pos).mem_iff i
  have hzero : (0 : Nat) ∉ f.upward := fun h0 =>
    (List.nodup_append.mp h.nodup_innerFirst).2.2 0 h0 0 (.head _) rfl
  constructor
  · intro hi
    have hne : i ≠ 0 := fun heq => hzero (heq ▸ hi)
    rcases hmem.mp (List.mem_append_left _ hi) with _ | ⟨-, he, -⟩
    · exact absurd rfl hne
    · exact h.isLoop_of_parentOf (h.edge_descent.mp he)
  · rintro ⟨l, hl⟩
    exact (List.mem_append.mp (hmem.mpr (h.reaches_loop hl))).resolve_right fun hi => hl.1 (List.mem_singleton.mp hi)

theorem unwinds_upward (h : f.Exact g entry) : f.Unwinds [(0, f.descent.next 0)] f.upward := by
  obtain ⟨out, hout, hunwinds⟩ := finish_unwinds h (Walking.start h) []
  have heq : f.innerFirst 0 = out := by
    rw [innerFirst, Graph.postorder_of_lt (by rw [size_descent]; exact h.regions_pos), hout]
    rfl
  have hfilter : out.filter (· ≠ 0) = f.upward := by
    rw [← heq, h.innerFirst_eq, List.filter_append, List.filter_eq_self.mpr, List.filter_cons_of_neg (by simp)]
    · simp
    · intro i hi
      obtain ⟨l, hl⟩ := h.mem_upward.mp hi
      simpa using hl.1
  exact hfilter ▸ hunwinds

theorem idxOf_child_lt (h : f.Exact g entry) (hp : f.parentOf i = some j) (hj : j ≠ 0) :
    f.upward.idxOf i < f.upward.idxOf j := by
  obtain ⟨m, hm⟩ := h.exists_parent hp
  obtain ⟨before, after, hsplit⟩ := List.append_of_mem (h.mem_upward.mpr ⟨m, hj, hm⟩)
  have hmem : i ∈ before := by
    have hall : before ++ j :: (after ++ [0]) = f.innerFirst 0 := by
      rw [h.innerFirst_eq, hsplit]
      simp
    exact h.mem_before_of_child h.regions_pos hall hp
  rw [hsplit]
  have hnodup := (List.nodup_append.mp h.nodup_innerFirst).1
  rw [hsplit] at hnodup
  exact (Graph.idxOf_lt_iff_mem hnodup).mpr hmem

theorem idxOf_lt (h : f.Exact g entry) (ha : f.Around i j) (hj : j ≠ 0) :
    f.upward.idxOf i < f.upward.idxOf j := by
  induction ha with
  | single hp => exact h.idxOf_child_lt hp hj
  | @tail c j _ hp ih =>
    obtain ⟨l, hl⟩ := h.isLoop_of_parentOf hp
    exact Nat.lt_trans (ih hl.1) (h.idxOf_child_lt hp hj)

end Exact

end Forest

/-- The forest of a routine is well nested, on every flow. -/
theorem loops_well_nested (r : Routine) (h : r.check = .ok ()) :
    ∃ dom f, r.domTree = .ok dom ∧ Forest.build r dom = .ok f ∧ f.WellNested r := by
  have hentry := Routine.entry_lt_of_check h
  obtain ⟨dom, hdom, hexact⟩ := r.domTree_exact hentry
  obtain ⟨f, hbuild, hf⟩ := Forest.build_exact hentry hexact
  have hblock : ∀ {i l}, f.IsLoop i l → ∀ x, x ∈ l.blocks ↔ r.flow.InLoop r.entry l.header x :=
    fun hl x => List.contains_iff_mem.symm.trans ((hf.natural hl).holds_iff x)
  refine ⟨dom, f, hdom, hbuild, ?_⟩
  constructor
  case header_iff =>
    intro x
    constructor
    · rintro ⟨i, l, hl, rfl⟩
      exact (hf.natural hl).header
    · exact fun hx => hf.exists_loop hx
  case latch_iff => exact fun i l hl => (hf.natural hl).latch_iff
  case block_iff =>
    intro i l hl x
    simp only [hblock hl, Graph.InLoop, (hf.natural hl).latch_iff]
  case apart => exact fun i j l m hl hm hij => hf.apart_or_inside hl hm hij
  case parent => exact fun i l hl => hf.parent_smallest hl
  case depth => exact fun i l hl => hf.depth_eq hl
  case innermost => exact hf.innermost_smallest
  case children => exact fun i g hg => hf.children hg
  case child_iff =>
    intro i b
    refine ⟨f.childAt i b, hf.childHolding_eq i b, fun c => ?_⟩
    constructor
    · intro hc
      obtain ⟨hp, l, hl, hb⟩ := hf.childAt_spec hc
      obtain ⟨g, hg⟩ := hf.exists_parent hp
      exact ⟨g, l, hg, ((hf.children hg).2 c).mpr hp, hl, List.contains_iff_mem.mp hb⟩
    · rintro ⟨g, l, hg, hc, hl, hb⟩
      exact hf.childAt_eq (((hf.children hg).2 c).mp hc) hl (List.contains_iff_mem.mpr hb)
  case bottomUp =>
    exact ⟨f.upward, hf.bottomUp_eq, hf.unwinds_upward, (List.nodup_append.mp hf.nodup_innerFirst).1,
      fun i => hf.mem_upward, fun i j ha hj => hf.idxOf_lt ha hj⟩

/-- A loop around two others, with a cycle between them that is entered in two places. -/
def loopsInLoop : Routine where
  name := "loops_in_loop"
  params := [0]
  blocks := [⟨0, [], .jump 1⟩, ⟨1, [], .branch 0 2 7⟩, ⟨2, [], .branch 0 2 3⟩, ⟨3, [], .branch 0 4 5⟩,
    ⟨4, [], .jump 5⟩, ⟨5, [], .branch 0 4 6⟩, ⟨6, [], .switch 0 [(0, 6)] 1⟩, ⟨7, [], .ret 0⟩]
  entry := 0
  storage := [.trivial]

theorem loops_well_nested_loopsInLoop : loopsInLoop.check = .ok () ∧
    (do
      let f ← Forest.build loopsInLoop (← loopsInLoop.domTree)
      return (f.regions.map fun l : Region => (l.header, l.depth, l.blocks), ← f.bottomUp) :
        Except Fault (List (Nat × Nat × List Nat) × List RegionId)) =
      .ok ([(0, 0, [0, 1, 2, 3, 4, 5, 6, 7]), (1, 1, [1, 2, 3, 4, 5, 6]), (2, 2, [2]), (6, 2, [6])], [2, 3, 1]) ∧
    ∃ dom f, loopsInLoop.domTree = .ok dom ∧ Forest.build loopsInLoop dom = .ok f ∧ f.WellNested loopsInLoop :=
  ⟨rfl, by decide +kernel, loops_well_nested loopsInLoop rfl⟩

end CountMotion
