import CountMotion.Proofs.Counting
import CountMotion.Proofs.NaturalLoop

/-! What the variables of a routine in single-assignment form hold: copies hold what their
root holds, for as long as both are available. -/
namespace CountMotion

namespace Instr

variable {i : Instr} {v s : Var}

theorem mem_operands_of_copied (h : i.copied? = some s) : s ∈ i.operands := by
  cases i with
  | assign dst value =>
    cases value with
    | var source =>
      cases h
      exact .head _
    | literal x => cases h
  | cast dst source =>
    cases h
    exact .head _
  | _ => cases h

theorem mem_operands_of_counts (h : i.counts? = some v) : v ∈ i.operands := by
  cases i with
  | retain | release =>
    obtain rfl := Option.some.inj h
    exact .head _
  | _ => cases h

theorem counts?_of_target (h : i.target? = some v) : i.counts? = none := by
  cases i with
  | retain => cases h
  | release => cases h
  | _ => rfl

end Instr

namespace Routine

variable {r : Routine} {p q : Point} {m : Memory} {i j : Instr} {v s x : Var} {b t : BlockId}

theorem exists_of_mem_body (h : i ∈ (r.codeAt b).body) : ∃ n, r.instrAt? ⟨b, n⟩ = some i := by
  obtain ⟨n, hn⟩ := List.getElem?_of_mem h
  exact ⟨n, by rw [instrAt?_eq]; exact hn⟩

theorem mem_body_of_instrAt? (h : r.instrAt? p = some i) : i ∈ (r.codeAt p.block).body := by
  rw [instrAt?_eq] at h
  exact List.mem_of_getElem? h

theorem exists_of_mem_take {n : Nat} (h : i ∈ (r.codeAt b).body.take n) : ∃ l < n, r.instrAt? ⟨b, l⟩ = some i := by
  obtain ⟨l, hl⟩ := List.getElem?_of_mem h
  rw [List.getElem?_take] at hl
  split at hl
  · exact ⟨l, ‹_›, by rw [instrAt?_eq]; exact hl⟩
  · cases hl

theorem mem_instrs_iff : i ∈ r.instrs ↔ ∃ p, r.instrAt? p = some i := by
  rw [instrs, List.mem_flatMap]
  constructor
  · rintro ⟨code, hcode, hi⟩
    obtain ⟨b, hb⟩ := List.getElem?_of_mem hcode
    obtain ⟨n, hn⟩ := List.getElem?_of_mem hi
    exact ⟨⟨b, n⟩, by rw [instrAt?, hb]; exact hn⟩
  · rintro ⟨p, hp⟩
    obtain ⟨code, hcode, hi⟩ := Option.bind_eq_some_iff.mp hp
    exact ⟨code, List.mem_of_getElem? hcode, List.mem_of_getElem? hi⟩

/-- Every variable has at most one definition. -/
def Once (r : Routine) : Prop := (r.params ++ r.instrs.filterMap Instr.target?).Nodup

namespace Once

theorem unique (h : r.Once) (hp : r.instrAt? p = some i) (hq : r.instrAt? q = some j) (hi : i.target? = some v)
    (hj : j.target? = some v) : p = q := by
  have honce := (List.nodup_append.mp h).2.1
  rw [instrs, List.filterMap_flatMap, List.nodup_flatMap] at honce
  obtain ⟨hbody, happart⟩ := honce
  obtain ⟨x, hx, hi'⟩ := Option.bind_eq_some_iff.mp hp
  obtain ⟨y, hy, hj'⟩ := Option.bind_eq_some_iff.mp hq
  have hvx : v ∈ x.body.filterMap Instr.target? := List.mem_filterMap.mpr ⟨i, List.mem_of_getElem? hi', hi⟩
  have hvy : v ∈ y.body.filterMap Instr.target? := List.mem_filterMap.mpr ⟨j, List.mem_of_getElem? hj', hj⟩
  have hblock : p.block = q.block := by
    by_contra hne
    obtain ⟨hpl, rfl⟩ := List.getElem?_eq_some_iff.mp hx
    obtain ⟨hql, rfl⟩ := List.getElem?_eq_some_iff.mp hy
    rcases Nat.lt_or_gt_of_ne hne with hlt | hlt
    · exact List.pairwise_iff_getElem.mp happart _ _ hpl hql hlt hvx hvy
    · exact List.pairwise_iff_getElem.mp happart _ _ hql hpl hlt hvy hvx
  rw [← hblock, hx] at hy
  obtain rfl := Option.some.inj hy
  have hindex : p.index = q.index := by
    have hpair := List.pairwise_filterMap.mp (hbody x (List.mem_of_getElem? hx))
    obtain ⟨hpl, rfl⟩ := List.getElem?_eq_some_iff.mp hi'
    obtain ⟨hql, rfl⟩ := List.getElem?_eq_some_iff.mp hj'
    by_contra hne
    rcases Nat.lt_or_gt_of_ne hne with hlt | hlt
    · exact List.pairwise_iff_getElem.mp hpair _ _ hpl hql hlt v hi v hj rfl
    · exact List.pairwise_iff_getElem.mp hpair _ _ hql hpl hlt v hj v hi rfl
  exact Point.mk.injEq .. ▸ ⟨hblock, hindex⟩

theorem not_param (h : r.Once) (hp : r.instrAt? p = some i) (hi : i.target? = some v) : v ∉ r.params := by
  intro hv
  refine (List.nodup_append.mp h).2.2 v hv v ?_ rfl
  exact List.mem_filterMap.mpr ⟨i, mem_instrs_iff.mpr ⟨p, hp⟩, hi⟩

end Once

namespace SSA

theorem unique (h : r.SSA) (hp : r.instrAt? p = some i) (hq : r.instrAt? q = some j) (hi : i.target? = some v)
    (hj : j.target? = some v) : p = q := Once.unique h.once hp hq hi hj

/-- Where code uses only parameters and what stands before it in its block, all uses are defined. -/
theorem of_local (once : r.Once)
    (used : ∀ x ∈ r.blocks, (∀ n (hn : n < x.body.length), ∀ v ∈ x.body[n].operands,
      v ∈ r.params ++ (x.body.take n).filterMap Instr.target?) ∧
      ∀ v ∈ x.term.operands, v ∈ r.params ++ x.body.filterMap Instr.target?) : r.SSA := by
  refine ⟨once, fun p i hi v hv => ?_, fun b v hv => ?_⟩
  · obtain ⟨x, hx, hi⟩ := Option.bind_eq_some_iff.mp hi
    obtain ⟨hn, rfl⟩ := List.getElem?_eq_some_iff.mp hi
    rcases List.mem_append.mp ((used x (List.mem_of_getElem? hx)).1 _ hn v hv) with hmem | hmem
    · exact .inl hmem
    · exact .inr (.inl (by rwa [codeAt_eq hx, ← List.mem_filterMap]))
  · cases hx : r.blocks[b]? with
    | none =>
      rw [codeAt, hx] at hv
      cases hv
    | some x =>
      rw [codeAt_eq hx] at hv
      rcases List.mem_append.mp ((used x (List.mem_of_getElem? hx)).2 v hv) with hmem | hmem
      · exact .inl hmem
      · exact .inr (.inl (by rwa [codeAt_eq hx, List.take_length, ← List.mem_filterMap]))

theorem before (h : r.SSA) (hq : r.instrAt? q = some j) (hj : j.target? = some v) (ha : r.Available p v) :
    (q.block = p.block ∧ q.index < p.index) ∨
      (q.block ≠ p.block ∧ r.flow.Dominates r.entry q.block p.block) := by
  rcases ha with hparam | ⟨i, hi, hv⟩ | ⟨b, hb, ⟨i, hi, hv⟩, hdom⟩
  · exact absurd hparam (Once.not_param h.once hq hj)
  · obtain ⟨n, hn, hin⟩ := exists_of_mem_take hi
    obtain rfl := h.unique hq hin hj hv
    exact .inl ⟨rfl, hn⟩
  · obtain ⟨n, hin⟩ := exists_of_mem_body hi
    obtain rfl := h.unique hq hin hj hv
    exact .inr ⟨hb, hdom⟩

end SSA

namespace Available

theorem target_ne (ha : r.Available p v) (h : r.SSA) (hi : r.instrAt? p = some i) : i.target? ≠ some v := by
  intro hv
  rcases h.before hi hv ha with ⟨-, hlt⟩ | ⟨hne, -⟩
  · exact Nat.lt_irrefl _ hlt
  · exact hne rfl

theorem of_succ (ha : r.Available ⟨p.block, p.index + 1⟩ v) (hi : r.instrAt? p = some i) :
    i.target? = some v ∨ r.Available p v := by
  rcases ha with hparam | ⟨j, hj, hv⟩ | hdom
  · exact .inr (.inl hparam)
  · dsimp only at hj
    rw [take_succ hi] at hj
    rcases List.mem_append.mp hj with hj | hj
    · exact .inr (.inr (.inl ⟨j, hj, hv⟩))
    · obtain rfl := List.mem_singleton.mp hj
      exact .inl hv
  · exact .inr (.inr (.inr hdom))

theorem of_edge (ha : r.Available ⟨t, 0⟩ v) (he : r.flow.Edge b t) :
    r.Available ⟨b, (r.codeAt b).body.length⟩ v := by
  rcases ha with hparam | ⟨j, hj, -⟩ | ⟨c, hc, hdef, hdom⟩
  · exact .inl hparam
  · cases hj
  · by_cases hcb : c = b
    · subst hcb
      refine .inr (.inl ?_)
      rwa [List.take_length]
    · exact .inr (.inr ⟨c, hcb, hdef, hdom.of_edge hc he⟩)

theorem trans (h : r.SSA) (hr : r.flow.Reaches r.entry p.block) (hq : r.instrAt? q = some j)
    (hj : j.target? = some v) (ha : r.Available p v) (hs : r.Available q s) : r.Available p s := by
  rcases h.before hq hj ha with ⟨hb, hlt⟩ | ⟨hne, hdom⟩
  · rcases hs with hparam | ⟨i, hi, hv⟩ | hfar
    · exact .inl hparam
    · exact .inr (.inl ⟨i, hb ▸ List.take_subset_take_left _ (Nat.le_of_lt hlt) hi, hv⟩)
    · exact .inr (.inr (hb ▸ hfar))
  · rcases hs with hparam | ⟨i, hi, hv⟩ | ⟨c, hc, hdef, hcq⟩
    · exact .inl hparam
    · exact .inr (.inr ⟨q.block, hne, ⟨i, List.mem_of_mem_take hi, hv⟩, hdom⟩)
    · refine .inr (.inr ⟨c, ?_, hdef, hcq.trans hdom⟩)
      rintro rfl
      exact hne (Graph.Dominates.antisymm hr hcq hdom).symm

end Available

/-- A copy holds what its source holds. -/
theorem From.env_copy {start : Memory} (h : r.From start p m) (hs : r.SSA) (hq : r.instrAt? q = some j)
    (hj : j.target? = some v) (hc : j.copied? = some s) (ha : r.Available p v) : m.env v = m.env s := by
  have hsource : r.Available q s := hs.used q j hq s (Instr.mem_operands_of_copied hc)
  induction h with
  | start =>
    rcases hs.before hq hj ha with ⟨-, hlt⟩ | ⟨hne, hdom⟩
    · cases hlt
    · exact absurd hdom.eq_entry hne
  | @instr p m m' i hat hi he ih =>
    have hkeeps := (Memory.exec_iff.mp he).keeps
    rcases ha.of_succ hi with hv | hav
    · obtain rfl := hs.unique hq hi hj hv
      obtain rfl := Option.some.inj (hq.symm.trans hi)
      have hne : s ≠ v := by
        rintro rfl
        exact hsource.target_ne hs hq hj
      rw [hkeeps.env s fun ht => hne (Option.some.inj (ht.symm.trans hj))]
      cases Memory.exec_iff.mp he with
      | copy ht hc' =>
        obtain rfl := Option.some.inj (ht.symm.trans hj)
        obtain rfl := Option.some.inj (hc'.symm.trans hc)
        simp
      | idle hcount _ => cases (Instr.counts?_of_target hj).symm.trans hcount
      | _ => cases hc
    · have hs' : i.target? ≠ some s := by
        intro ht
        -- the definitions of the copy and of its source would dominate each other
        rcases hs.before hq hj hav with ⟨hb, hlt⟩ | ⟨hne, hdom⟩
        · rcases hs.before hi ht hsource with ⟨-, hgt⟩ | ⟨hne, -⟩
          · exact Nat.lt_asymm hlt hgt
          · exact hne hb.symm
        · rcases hs.before hi ht hsource with ⟨hb, -⟩ | ⟨-, hdom'⟩
          · exact hne hb.symm
          · exact hne (Graph.Dominates.antisymm hat.reached hdom' hdom).symm
      rw [hkeeps.env v (hav.target_ne hs hi), hkeeps.env s hs']
      exact ih hav
  | jump _ he ih => exact ih (ha.of_edge he)

section Roots

variable {n n' : Nat}

theorem sites_fst (r : Routine) : r.sites.map Prod.fst = r.instrs := by
  simp [sites, instrs, List.map_flatMap, Function.comp_def]

private theorem exists_site : (∃ q, (i, q) ∈ r.sites) ↔ ∃ p, r.instrAt? p = some i := by
  rw [← mem_instrs_iff, ← sites_fst, List.mem_map]
  simp

theorem exists_of_sourceOf (h : r.sourceOf v = some s) :
    v < r.storage.length ∧ ∃ p i, r.instrAt? p = some i ∧ i.target? = some v ∧ i.copied? = some s := by
  rw [sourceOf] at h
  split at h
  · obtain ⟨⟨i, q⟩, hsite, hi⟩ := List.mem_filterMap.mp (List.mem_of_getLast? h)
    dsimp only at hi
    split at hi
    · obtain ⟨p, hp⟩ := exists_site.mp ⟨q, hsite⟩
      exact ⟨‹_›, p, i, hp, by simpa using ‹(i.target? == some v) = true›, hi⟩
    · cases hi
  · cases h

theorem Once.sourceOf_eq (hs : r.Once) (hv : v < r.storage.length) (hp : r.instrAt? p = some i)
    (hi : i.target? = some v) : r.sourceOf v = i.copied? := by
  cases hsource : r.sourceOf v with
  | some s =>
    obtain ⟨-, q, j, hq, hj, hc⟩ := exists_of_sourceOf hsource
    obtain rfl := hs.unique hp hq hi hj
    obtain rfl := Option.some.inj (hp.symm.trans hq)
    exact hc.symm
  | none =>
    rw [sourceOf, if_pos hv, List.getLast?_eq_none_iff, List.filterMap_eq_nil_iff] at hsource
    obtain ⟨q, hq⟩ := exists_site.mpr ⟨p, hp⟩
    have := hsource _ hq
    simp only [hi, beq_self_eq_true, if_true] at this
    exact this.symm

theorem originOf_isSome (hv : v < r.storage.length) (hp : r.instrAt? p = some i) (hi : i.target? = some v) :
    (r.originOf v).isSome := by
  obtain ⟨q, hq⟩ := exists_site.mpr ⟨p, hp⟩
  rw [originOf, if_pos hv]
  split
  · rfl
  · rename_i hnone
    rw [List.getLast?_eq_none_iff, List.filter_eq_nil_iff] at hnone
    exact absurd (beq_iff_eq.mpr hi) (hnone _ hq)

/-- So many copies lead from one variable to the other. -/
inductive Copies (r : Routine) : Nat → Var → Var → Prop where
  | self (v : Var) : Copies r 0 v v
  | step {n : Nat} {v s x : Var} (h : r.sourceOf v = some s) (rest : Copies r n s x) : Copies r (n + 1) v x

namespace Copies

theorem unique (h : r.Copies n v x) (h' : r.Copies n' v x) (hx : r.sourceOf x = none) : n = n' := by
  induction h generalizing n' with
  | self v =>
    cases h' with
    | self => rfl
    | step hs _ => cases hs.symm.trans hx
  | step hs _ ih =>
    cases h' with
    | self => cases hs.symm.trans hx
    | step hs' rest =>
      obtain rfl := Option.some.inj (hs.symm.trans hs')
      exact congrArg (· + 1) (ih rest hx)

/-- A chain of copies that ends has no variable twice, so it is no longer than there are variables. -/
theorem length_le (h : r.Copies n v x) (hx : r.sourceOf x = none) : n ≤ r.storage.length := by
  have : ∃ l : List Var, l.Nodup ∧ l.length = n ∧ ∀ w ∈ l, w < r.storage.length ∧ ∃ k ≤ n, r.Copies k w x := by
    induction h with
    | self v => exact ⟨[], .nil, rfl, nofun⟩
    | @step n v s x hs hrest ih =>
      obtain ⟨l, hnodup, hlen, hl⟩ := ih hx
      refine ⟨v :: l, List.nodup_cons.mpr ⟨fun hv => ?_, hnodup⟩, congrArg (· + 1) hlen, ?_⟩
      · obtain ⟨-, k, hk, hkv⟩ := hl v hv
        have := hkv.unique (.step hs hrest) hx
        omega
      · intro w hw
        rcases List.mem_cons.mp hw with rfl | hw
        · exact ⟨(exists_of_sourceOf hs).1, n + 1, Nat.le_refl _, .step hs hrest⟩
        · obtain ⟨hlt, k, hk, hkw⟩ := hl w hw
          exact ⟨hlt, k, Nat.le_succ_of_le hk, hkw⟩
  obtain ⟨l, hnodup, rfl, hl⟩ := this
  have := (List.subperm_of_subset hnodup fun w hw => List.mem_range.mpr (hl w hw).1).length_le
  rwa [List.length_range] at this

theorem follow_eq (h : r.Copies n v x) (hx : r.sourceOf x = none) (ho : (r.originOf x).isSome) {fuel : Nat}
    (hn : n < fuel) : follow r.originOf r.sourceOf fuel v = some x := by
  induction h generalizing fuel with
  | self v =>
    obtain ⟨fuel, rfl⟩ := Nat.exists_eq_add_of_lt hn
    rw [follow, hx]
    simp [Option.isSome_iff_ne_none.mp ho]
  | @step n v s x hs hrest ih =>
    obtain ⟨fuel, rfl⟩ : ∃ f, fuel = f + 1 := ⟨fuel - 1, by omega⟩
    obtain ⟨hv, p, i, hp, hi, -⟩ := exists_of_sourceOf hs
    rw [follow, hs]
    simp only [Option.isNone_iff_eq_none, Option.isSome_iff_ne_none.mp (originOf_isSome hv hp hi), if_false]
    exact ih hx ho (by omega)

end Copies

theorem copies_of_follow {fuel : Nat} (h : follow r.originOf r.sourceOf fuel v = some x) :
    (∃ n, r.Copies n v x) ∧ r.sourceOf x = none ∧ (r.originOf x).isSome := by
  induction fuel generalizing v with
  | zero => cases h
  | succ fuel ih =>
    rw [follow] at h
    split at h
    · cases h
    · rename_i ho
      cases hs : r.sourceOf v with
      | some s =>
        rw [hs] at h
        obtain ⟨⟨n, hn⟩, hx⟩ := ih h
        exact ⟨⟨n + 1, .step hs hn⟩, hx⟩
      | none =>
        rw [hs] at h
        obtain rfl := Option.some.inj h
        exact ⟨⟨0, .self v⟩, hs, by simpa [Option.isSome_iff_ne_none] using ho⟩

/-- The root of a counted variable is the end of its chain of copies. -/
theorem rootOf_eq_some : r.rootOf v = some x ↔ (r.storage[v]?.map Storage.counted).getD false ∧
    (∃ n, r.Copies n v x) ∧ r.sourceOf x = none ∧ (r.originOf x).isSome := by
  rw [rootOf]
  split
  · rename_i hv
    refine ⟨fun h => ⟨hv, copies_of_follow h⟩, ?_⟩
    rintro ⟨-, ⟨n, hn⟩, hx, ho⟩
    exact hn.follow_eq hx ho (Nat.lt_succ_of_le (hn.length_le hx))
  · rename_i hv
    exact ⟨fun h => absurd h.symm (Option.some_ne_none x), fun h => absurd h.1 hv⟩

theorem Available.root (ha : r.Available p v) (hs : r.SSA) (hr : r.flow.Reaches r.entry p.block)
    (hv : r.rootOf v = some x) : r.Available p x := by
  obtain ⟨-, ⟨n, hn⟩, -⟩ := rootOf_eq_some.mp hv
  clear hv
  induction hn with
  | self v => exact ha
  | step hsource _ ih =>
    obtain ⟨-, q, j, hq, hj, hc⟩ := exists_of_sourceOf hsource
    exact ih (ha.trans hs hr hq hj (hs.used q j hq _ (Instr.mem_operands_of_copied hc)))

/-- A variable holds what its root holds. -/
theorem From.env_root {start : Memory} (h : r.From start p m) (hs : r.SSA) (ha : r.Available p v)
    (hv : r.rootOf v = some x) : m.env v = m.env x := by
  obtain ⟨-, ⟨n, hn⟩, -⟩ := rootOf_eq_some.mp hv
  clear hv
  induction hn with
  | self v => rfl
  | step hsource _ ih =>
    obtain ⟨-, q, j, hq, hj, hc⟩ := exists_of_sourceOf hsource
    have hav := ha.trans hs h.reached hq hj (hs.used q j hq _ (Instr.mem_operands_of_copied hc))
    exact (h.env_copy hs hq hj hc ha).trans (ih hav)

end Roots

end Routine

end CountMotion
