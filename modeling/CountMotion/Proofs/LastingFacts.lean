import CountMotion.Proofs.Sharing

/-! Facts about a routine outlive moves of its count operations, and their effects tell which
instructions leave the count of a root alone. -/
namespace CountMotion

namespace Routine

variable {r base : Routine} {v : Var}

theorem targets_bare (r : Routine) : r.bare.instrs.filterMap Instr.target? = r.instrs.filterMap Instr.target? := by
  rw [instrs_bare, filterMap_bare fun _ => Instr.target?_of_isCount]

theorem definitions_of_bare (h : r.bare = base.bare) (b : BlockId) :
    (r.codeAt b).body.filterMap Instr.target? = (base.codeAt b).body.filterMap Instr.target? := by
  have hblocks : r.blocks.map Block.bare = base.blocks.map Block.bare := congrArg Routine.blocks h
  have hb : (r.blocks[b]?).map Block.bare = (base.blocks[b]?).map Block.bare := by
    rw [← List.getElem?_map, ← List.getElem?_map, hblocks]
  have hcode : (r.codeAt b).bare = (base.codeAt b).bare := by
    rw [codeAt, codeAt]
    cases hr : r.blocks[b]? with
    | none =>
      rw [hr] at hb
      cases hbase : base.blocks[b]? with
      | none => rfl
      | some y => rw [hbase] at hb; cases hb
    | some x =>
      rw [hr] at hb
      cases hbase : base.blocks[b]? with
      | none => rw [hbase] at hb; cases hb
      | some y =>
        rw [hbase] at hb
        exact Option.some.inj hb
  rw [← filterMap_bare (fun _ => Instr.target?_of_isCount) (r.codeAt b).body,
    ← filterMap_bare (fun _ => Instr.target?_of_isCount) (base.codeAt b).body]
  exact congrArg (fun x => x.body.filterMap Instr.target?) hcode

/-- Every block carries the number of its position. -/
def Numbered (r : Routine) : Prop := ∀ (b : BlockId) (x : Block), r.blocks[b]? = some x → x.id = b

theorem mem_targets_of_originOf (hn : r.Numbered) {site : Point} (h : r.originOf v = some (.instr site)) :
    v ∈ (r.codeAt site.block).body.filterMap Instr.target? := by
  rw [originOf] at h
  split at h
  · split at h
    · rename_i i site' hlast
      obtain rfl := Origin.instr.inj (Option.some.inj h)
      obtain ⟨hsite, ht⟩ := List.mem_filter.mp (List.mem_of_getLast? hlast)
      obtain ⟨x, hx, hi⟩ := List.mem_flatMap.mp hsite
      obtain ⟨⟨j, index⟩, hj, heq⟩ := List.mem_map.mp hi
      obtain ⟨rfl, rfl⟩ := Prod.mk.inj heq
      obtain ⟨b, hb⟩ := List.getElem?_of_mem hx
      have hcode : r.codeAt x.id = x := codeAt_eq (hn b x hb ▸ hb)
      dsimp only
      rw [hcode]
      refine List.mem_filterMap.mpr ⟨j, ?_, by simpa using ht⟩
      exact List.mem_of_getElem? (List.mem_zipIdx_iff_getElem?.mp hj)
    · split at h <;> cases h
  · cases h

theorem mem_params_of_originOf (h : r.originOf v = some .param) : v ∈ r.params := by
  rw [originOf] at h
  split at h
  · split at h
    · cases h
    · split at h
      · rename_i hv
        simpa using hv
      · cases h
  · cases h

theorem origin_identity (r : Routine) (v : Var) : r.identity.origin v = r.originOf v := by
  rw [Identity.origin, identity, List.getElem?_map]
  by_cases hv : v < r.storage.length
  · rw [List.getElem?_range hv]
    rfl
  · rw [List.getElem?_eq_none (by simpa using hv), originOf, if_neg hv]
    rfl

end Routine

/-- The facts are those of the routine, or of one that differs from it in its counts only. -/
structure Facts.Describes (k : Facts) (r : Routine) : Prop where
  sound : k.Sound r
  root : ∀ v, k.root v = r.rootOf v
  mayAlias : ∀ v w, k.mayAlias v w = (r.aliasing r.identity).mayAlias v w
  traps : ∀ b, k.traps b ↔ r.Doomed b
  param : ∀ {x}, k.identity.origin x = some .param → x ∈ r.params
  site : ∀ {x site}, k.identity.origin x = some (.instr site) → x ∈ (r.codeAt site.block).body.filterMap Instr.target?

section Describing

variable {k : Facts} {r base : Routine} {p : Point} {m : Memory} {i : Instr} {v x : Var} {o : ObjId}

theorem Routine.facts_describe (h : r.entry < r.blocks.length) (hn : r.Numbered) :
    ∃ k, r.facts = .ok k ∧ k.Describes r := by
  obtain ⟨k, hfacts, hsound⟩ := facts_total h
  obtain ⟨-, -, htraps, -, hidentity, haliasing⟩ := facts_parts hfacts
  obtain ⟨t, ht, hdoomed, -⟩ := r.trapping_settles
  obtain rfl := Except.ok.inj (ht.symm.trans htraps)
  refine ⟨k, hfacts, hsound, fun v => ?_, fun v w => ?_, hdoomed, fun {x} hx => ?_, fun {x site} hx => ?_⟩
  · rw [Facts.root, hidentity, r.root_identity]
  · rw [Facts.mayAlias, haliasing]
  · rw [hidentity, r.origin_identity] at hx
    exact mem_params_of_originOf hx
  · rw [hidentity, r.origin_identity] at hx
    exact mem_targets_of_originOf hn hx

private theorem Routine.mem_explore_targets {b c : BlockId} : c ∈ explore (List.range r.blocks.length)
    (fun b => (r.blocks[b]?.map fun x => x.term.targets).getD []) [b] [] ↔
      b < r.blocks.length ∧ r.flow.Reaches b c := by
  constructor
  · refine explore_induct (p := fun c => b < r.blocks.length ∧ r.flow.Reaches b c) (by simp) (fun a ha hlt => ?_)
      (fun a t _ ha ht hlt => ?_) c
    · obtain rfl := List.mem_singleton.mp ha
      exact ⟨List.mem_range.mp hlt, .refl ..⟩
    · cases hx : r.blocks[a]? with
      | none =>
        rw [hx] at ht
        cases ht
      | some x =>
        rw [hx] at ht
        exact ⟨ha.1, ha.2.edge (edge_flow.mpr (mem_next_flow.mpr ⟨x, hx, ht, List.mem_range.mp hlt⟩))⟩
  · rintro ⟨hlt, hreach⟩
    induction hreach with
    | here => exact mem_explore_of_pending (.head _) (List.mem_range.mpr hlt)
    | snoc _ he _ ih =>
      obtain ⟨x, hx, hmem, hc⟩ := mem_next_flow.mp he.1
      exact explore_closed ih List.not_mem_nil (by rw [hx]; exact hmem) (List.mem_range.mpr hc)

/-- From a quiet exit every way traps, over harmless code. -/
theorem Facts.quietExit_iff {exit : BlockId} : k.quietExit r x exit ↔ k.traps exit ∧ exit < r.blocks.length ∧
    ∀ b, r.flow.Reaches exit b → (∀ i ∈ (r.codeAt b).body, (k.effect x i).harmless) ∧
      ∀ t ∈ (r.codeAt b).term.targets, t < r.blocks.length := by
  simp only [quietExit, Bool.and_eq_true, decide_eq_true_eq, List.all_eq_true, Routine.mem_explore_targets, and_assoc]
  refine and_congr_right fun _ => and_congr_right fun hlt => forall_congr' fun b => ?_
  rw [and_iff_right hlt]
  refine imp_congr_right fun hreach => ?_
  have hb : b < r.blocks.length := Routine.size_flow (r := r) ▸ hreach.lt_size (by rwa [Routine.size_flow])
  rw [List.getElem?_eq_getElem hb, Routine.codeAt_eq (List.getElem?_eq_getElem hb)]
  simp only [Bool.and_eq_true, List.all_eq_true, decide_eq_true_eq]

namespace Facts.Describes

theorem of_bare (h : k.Describes base) (hb : r.bare = base.bare) : k.Describes r where
  sound := h.sound.of_bare hb
  root v := by rw [h.root, ← base.rootOf_bare, ← hb, r.rootOf_bare]
  mayAlias v w := by rw [h.mayAlias, ← base.aliasing_bare, ← hb, r.aliasing_bare]
  traps b := by rw [h.traps, Routine.doomed_of_bare hb]
  param hx := Routine.params_of_bare hb ▸ h.param hx
  site hx := by
    rw [Routine.definitions_of_bare hb]
    exact h.site hx

theorem doomed (hk : k.Describes r) {exit : BlockId} (h : k.quietExit r x exit) : r.Doomed exit :=
  (hk.traps exit).mp (quietExit_iff.mp h).1

theorem available (hk : k.Describes r) (hp : p.block < r.blocks.length)
    (h : k.definedBefore r x p = .ok true) : r.Available p x := by
  rw [definedBefore] at h
  split at h
  · cases h
  · rename_i horigin
    exact .inl (hk.param horigin)
  · rename_i site horigin
    have hsite := hk.site horigin
    split at h
    · rw [Routine.block_eq hp] at h
      simp only [bind, Except.bind] at h
      split at h
      · obtain ⟨i, hi, ht⟩ := List.any_eq_true.mp (Except.ok.inj h)
        exact .inr (.inl ⟨i, hi, by simpa using ht⟩)
      · cases h
    · rename_i hne
      have hdom := (hk.sound.dom.dominates_iff _ _).mp (Except.ok.inj h)
      rcases hdom with heq | ⟨-, hdom⟩
      · exact absurd heq hne
      · obtain ⟨i, hi, ht⟩ := List.mem_filterMap.mp hsite
        exact .inr (.inr ⟨site.block, hne, ⟨i, hi, ht⟩, hdom⟩)

theorem env_of_root (hk : k.Describes r) (hr : r.Proper) (h : r.At p m) (hi : r.instrAt? p = some i)
    (hv : v ∈ i.operands) (hx : k.root v = some x) : m.env v = m.env x :=
  h.env_root hr.ssa (hr.ssa.used p i hi v hv) (hk.root v ▸ hx)

/-- Only releases of the root itself and interfering effects touch the count of its object. -/
theorem not_touches (hk : k.Describes r) (hr : r.Proper) (h : r.At p m) (ho : m.env x = some o)
    (hint : ¬ (k.effect x i).interferes) (hrel : k.effect x i ≠ .release) : ¬ m.Touches o i := by
  have hfar : ∀ {w}, k.mayAlias w x = false → ∀ a, m.env w = some a → ¬ m.Owns a o := fun hno _ ha =>
    (h.not_owns hr.single r.boot_apart (fun _ _ hat => hr.safe.tidy hat) (hk.mayAlias _ _ ▸ hno) ha ho).1
  cases i with
  | isShared dst w =>
    intro hw
    refine hfar ?_ o hw .refl
    by_contra halias
    exact hint (by simp [effect, halias, Effect.interferes])
  | release w kind =>
    rintro ⟨a, ha, howns⟩
    rw [effect] at hint hrel
    split at hint
    · rename_i hroot
      exact hrel (if_pos hroot)
    · refine hfar ?_ a ha howns
      by_contra halias
      exact hint (by simp [halias, Effect.interferes])
  | _ => exact not_false

end Facts.Describes

end Describing

end CountMotion
