import CountMotion.Proofs.FreshSummaries

/-! A collapsed loop does at least what its instructions do. -/
namespace CountMotion

variable {r : Routine} {k : Facts} {region : Region} {s : Summary} {t : SummaryTable} {id : Nat} {root : Var}
  {i : Instr}

namespace Facts

theorem exists_read_of_use (h : k.effect root i = .use) : ∃ v ∈ i.reads, k.mayAlias v root := by
  have hhit : ∀ {hit : Bool}, useIf hit = .use → hit := by
    intro hit hu
    cases hit with
    | true => rfl
    | false => cases hu
  cases i with
  | retain v kind =>
    rw [effect] at h
    split at h
    · cases h
    · exact ⟨v, .head _, hhit h⟩
  | release v kind =>
    rw [effect] at h
    split at h
    · cases h
    · split at h <;> cases h
  | isShared dst v =>
    rw [effect] at h
    split at h <;> cases h
  | call dst func args mode =>
    cases mode with
    | mayRelease => cases h
    | readOnly => exact List.any_eq_true.mp (hhit h)
  | construct dst args => exact List.any_eq_true.mp (hhit h)
  | _ => cases h

end Facts

namespace Summary

theorem interferes_of_interference {e : Effect} (h : s.interference k root = some e) :
    (s.effectOn k root).interferes := by
  rw [effectOn, h]
  rw [interference] at h
  split at h
  · cases h
    rfl
  · split at h
    · cases h
      rfl
    · split at h
      · cases h
        rfl
      · cases h

/-- A loop interferes, or its operations on the root cancel, or it has none and may read the root. -/
theorem effectOn_cases (s : Summary) (k : Facts) (root : Var) :
    (s.effectOn k root).interferes ∨
      (∃ x, s.root? root = some x ∧ x.shape = .selfCancelling ∧ s.effectOn k root = .use) ∨
      s.interference k root = none ∧ s.root? root = none ∧
        s.effectOn k root = Facts.useIf (s.used.any fun v => k.mayAlias v root) := by
  cases hinter : s.interference k root with
  | some e => exact .inl (interferes_of_interference hinter)
  | none =>
    cases hroot : s.root? root with
    | none => exact .inr (.inr ⟨rfl, rfl, by rw [effectOn, hinter, hroot]⟩)
    | some x =>
      by_cases hshape : x.shape = .selfCancelling
      · exact .inr (.inl ⟨x, rfl, hshape, by rw [effectOn, hinter, hroot]; exact if_pos hshape⟩)
      · refine .inl ?_
        rw [effectOn, hinter, hroot]
        simp [hshape, Effect.interferes]

/-- The summary knows the operands of the instruction and what it does with them. -/
structure Takes (s : Summary) (k : Facts) (i : Instr) : Prop where
  reads : ∀ v ∈ i.reads, v ∈ s.used
  observed : ∀ v, i.observed? = some v → v ∈ s.observed
  released : ∀ v, i.released? = some v → v ∈ s.released
  mayRelease : i.mayRelease → s.mayRelease
  counts : ∀ v root, i.counts? = some v → k.root v = some root → (s.root? root).isSome

/-- The effect of the loop on the root is no weaker than that of the instruction. -/
def Covers (s : Summary) (k : Facts) (root : Var) (i : Instr) : Prop :=
  match k.effect root i with
  | .observe | .mayRelease => (s.effectOn k root).interferes
  | .retain | .release => (s.effectOn k root).interferes ∨
      ∃ x, s.root? root = some x ∧ x.shape = .selfCancelling ∧ s.effectOn k root = .use
  | .use => s.effectOn k root ≠ .nothing
  | .nothing => True

namespace Takes

theorem interference_isSome (h : s.Takes k i) (hi : (k.effect root i).interferes) :
    (s.interference k root).isSome := by
  rw [interference]
  split
  · rfl
  · rename_i hmay
    split
    · rfl
    · rename_i hobserved
      split
      · rfl
      · rename_i hreleased
        exfalso
        cases i with
        | isShared dst v =>
          refine hobserved (List.any_eq_true.mpr ⟨v, h.observed v rfl, ?_⟩)
          by_contra halias
          simp [Facts.effect, halias, Effect.interferes] at hi
        | release v kind =>
          refine hreleased (List.any_eq_true.mpr ⟨v, h.released v rfl, ?_⟩)
          rw [Facts.effect] at hi
          split at hi
          · cases hi
          · rename_i hroot
            split at hi
            · simp [*]
            · cases hi
        | call dst func args mode =>
          cases mode with
          | mayRelease => exact hmay (h.mayRelease rfl)
          | readOnly =>
            rw [Facts.effect, Facts.useIf] at hi
            split at hi <;> cases hi
        | retain v kind =>
          rw [Facts.effect, Facts.useIf] at hi
          split at hi
          · cases hi
          · split at hi <;> cases hi
        | construct dst args =>
          rw [Facts.effect, Facts.useIf] at hi
          split at hi <;> cases hi
        | _ => cases hi

theorem covers_operation (h : s.Takes k i) {v : Var} (hv : i.counts? = some v) (hroot : k.root v = some root) :
    (s.effectOn k root).interferes ∨
      ∃ x, s.root? root = some x ∧ x.shape = .selfCancelling ∧ s.effectOn k root = .use := by
  obtain hinter | hcancel | ⟨-, hnone, -⟩ := s.effectOn_cases k root
  · exact .inl hinter
  · exact .inr hcancel
  · have hsome := h.counts v root hv hroot
    rw [hnone] at hsome
    cases hsome

theorem covers (h : s.Takes k i) (root : Var) : s.Covers k root i := by
  rw [Covers]
  cases he : k.effect root i with
  | observe | mayRelease =>
    have hinter : (k.effect root i).interferes := by rw [he]; rfl
    obtain ⟨e, he⟩ := Option.isSome_iff_exists.mp (h.interference_isSome hinter)
    exact interferes_of_interference he
  | retain =>
    obtain ⟨v, kind, rfl, hroot⟩ := Facts.effect_eq_retain he
    exact h.covers_operation rfl hroot
  | release =>
    obtain ⟨v, kind, rfl, hroot⟩ := Facts.effect_eq_release he
    exact h.covers_operation rfl hroot
  | use =>
    obtain hinter | ⟨-, -, -, huse⟩ | ⟨-, -, huse⟩ := s.effectOn_cases k root
    · intro hnothing
      rw [hnothing] at hinter
      cases hinter
    · show s.effectOn k root ≠ .nothing
      rw [huse]
      exact Effect.noConfusion
    · obtain ⟨v, hv, halias⟩ := Facts.exists_read_of_use he
      have hany : (s.used.any fun v => k.mayAlias v root) = true := List.any_eq_true.mpr ⟨v, h.reads v hv, halias⟩
      show s.effectOn k root ≠ .nothing
      rw [huse, hany]
      exact Effect.noConfusion
  | nothing => trivial

end Takes

end Summary

/-- A computed summary takes in all instructions of its loop. -/
theorem SummaryTable.compute_takes (hk : k.Sound r) (hr : k.forest.regions[id]? = some region)
    (hs : t.compute r k id = .ok s) {b : BlockId} (hb : b ∈ region.blocks) (hi : i ∈ (r.codeAt b).body) :
    s.Takes k i := by
  have hcurrent := compute_current hk hr hs
  obtain rfl := Except.ok.inj ((compute_eq hk hr t).symm.trans hs)
  refine ⟨fun v hv => ?_, fun v hv => ?_, fun v hv => ?_, fun hmay => ?_, fun v root hv hroot => ?_⟩
  · refine mem_ascending.mpr (List.mem_append.mpr (.inl ?_))
    exact List.mem_flatMap.mpr ⟨b, hb, List.mem_flatMap.mpr ⟨i, hi, hv⟩⟩
  · exact mem_ascending.mpr (List.mem_flatMap.mpr ⟨b, hb, List.mem_filterMap.mpr ⟨i, hi, hv⟩⟩)
  · exact mem_ascending.mpr (List.mem_flatMap.mpr ⟨b, hb, List.mem_filterMap.mpr ⟨i, hi, hv⟩⟩)
  · exact List.any_eq_true.mpr ⟨b, hb, List.any_eq_true.mpr ⟨i, hi, hmay⟩⟩
  · obtain ⟨n, hn⟩ := List.getElem?_of_mem hi
    have hmem : (root, ⟨b, n⟩) ∈ operationsIn r k region.blocks := mem_operationsIn.mpr ⟨hb, i, v, hn, hv, hroot⟩
    have hlisted : root ∈ ascending ((operationsIn r k region.blocks).map Prod.fst) :=
      mem_ascending.mpr (List.mem_map_of_mem hmem)
    have hlisted := List.mem_map_of_mem (f := t.rootOf r k id region) hlisted
    exact Option.isSome_iff_exists.mpr ⟨_, (Summary.root?_eq_some_iff hcurrent.roots).mpr ⟨hlisted, rfl⟩⟩

/-- The effect of a collapsed loop on a root covers that of each of its instructions, those of inner
loops included, and is never an operation of the root itself. -/
theorem collapsed_loop_covers_instructions (r : Routine) (k : Facts) (id : RegionId) (l : Region)
    (h : r.check = .ok ()) (hk : r.facts = .ok k) (hl : k.forest.IsLoop id l) :
    ∃ t s, (SummaryTable.empty k.forest).summarize r k id = .ok t ∧ t.get? id = some s ∧
      ∀ root, (s.effectOn k root ≠ .retain ∧ s.effectOn k root ≠ .release) ∧
        ∀ b ∈ l.blocks, ∀ i ∈ (r.codeAt b).body, s.Covers k root i := by
  obtain ⟨k', hk', hsound⟩ := Routine.facts_total (Routine.entry_lt_of_check h)
  obtain rfl := Except.ok.inj (hk.symm.trans hk')
  obtain ⟨t, s, ht, hfresh, hs⟩ := SummaryTable.summarize_anew hsound hl.lt hl.1
  refine ⟨t, s, ht, hs, fun root => ⟨s.effectOn_interferes k root, fun b hb i hi => ?_⟩⟩
  cases hfresh.summed id s hs with
  | of hr _ _ hcompute =>
    obtain rfl := Option.some.inj (hl.2.symm.trans hr)
    exact (SummaryTable.compute_takes hsound hr hcompute hb hi).covers root

/-- A loop that tests one argument and reads another, around a loop that counts it. -/
def watchedLoops : Routine where
  name := "watched_loops"
  params := [0, 1, 2]
  blocks := [
    ⟨0, [], .jump 1⟩,
    ⟨1, [.isShared 3 2], .branch 1 2 4⟩,
    ⟨2, [.retain 0 .strong, .call 4 0 [0] .readOnly, .release 0 .strong], .branch 1 2 3⟩,
    ⟨3, [.retain 2 .strong], .jump 1⟩,
    ⟨4, [], .ret 1⟩]
  entry := 0
  storage := [.reference, .trivial, .reference, .trivial, .trivial]

theorem collapsed_loop_covers_instructions_watchedLoops :
    watchedLoops.check = .ok () ∧ ∃ k l, watchedLoops.facts = .ok k ∧ k.forest.IsLoop 1 l ∧
      ∃ t s, (SummaryTable.empty k.forest).summarize watchedLoops k 1 = .ok t ∧ t.get? 1 = some s ∧
        ∀ root, (s.effectOn k root ≠ .retain ∧ s.effectOn k root ≠ .release) ∧
          ∀ b ∈ l.blocks, ∀ i ∈ (watchedLoops.codeAt b).body, s.Covers k root i := by
  have hloop : (watchedLoops.facts.map fun k => k.forest.regions[1]?.isSome) = .ok true := by decide +kernel
  obtain ⟨k, hk, -⟩ := Routine.facts_total (r := watchedLoops) (by decide)
  rw [hk] at hloop
  obtain ⟨l, hl⟩ := Option.isSome_iff_exists.mp (Except.ok.inj hloop)
  exact ⟨rfl, k, l, hk, ⟨by decide, hl⟩,
    collapsed_loop_covers_instructions watchedLoops k 1 l rfl hk ⟨by decide, hl⟩⟩

end CountMotion
