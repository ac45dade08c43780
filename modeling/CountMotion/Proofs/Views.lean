import CountMotion.Proofs.Layout
import CountMotion.Proofs.Matching
import CountMotion.Proofs.SoundFacts

/-! The flat regions on which rounds work are sound, whether or not child loops are collapsed. -/
namespace CountMotion

section Effects

variable {k : Facts} {root : Var} {i : Instr} {b : Block} {index : Nat}

theorem Facts.effect_eq_retain (h : k.effect root i = .retain) :
    ∃ v kind, i = .retain v kind ∧ k.root v = some root := by
  fun_cases Facts.effect k root i <;> grind [Facts.effect, Facts.useIf]

theorem Facts.effect_eq_release (h : k.effect root i = .release) :
    ∃ v kind, i = .release v kind ∧ k.root v = some root := by
  fun_cases Facts.effect k root i <;> grind [Facts.effect, Facts.useIf]

theorem Facts.termEffect_harmless (k : Facts) (root : Var) (t : Terminator) : (k.termEffect root t).harmless := by
  cases t <;> grind [Facts.termEffect, Facts.useIf, Effect.harmless]

theorem Facts.effectAt_eq_retain (h : k.effectAt root b index = .retain) :
    ∃ v kind, b.body[index]? = some (.retain v kind) ∧ k.root v = some root := by
  rw [effectAt] at h
  split at h
  · rename_i i hi
    obtain ⟨v, kind, rfl, hv⟩ := effect_eq_retain h
    exact ⟨v, kind, hi, hv⟩
  · exact absurd (k.termEffect_harmless root b.term) (by rw [h]; decide)

theorem Facts.effectAt_eq_release (h : k.effectAt root b index = .release) :
    ∃ v kind, b.body[index]? = some (.release v kind) ∧ k.root v = some root := by
  rw [effectAt] at h
  split at h
  · rename_i i hi
    obtain ⟨v, kind, rfl, hv⟩ := effect_eq_release h
    exact ⟨v, kind, hi, hv⟩
  · exact absurd (k.termEffect_harmless root b.term) (by rw [h]; decide)

/-- A collapsed loop is never a retain or a release of its own. -/
theorem Summary.effectOn_interferes (s : Summary) (k : Facts) (root : Var) :
    s.effectOn k root ≠ .retain ∧ s.effectOn k root ≠ .release := by
  fun_cases Summary.effectOn s k root <;> grind [Summary.effectOn, Facts.useIf, Summary.interference]

end Effects

namespace Layout

variable {y : Layout} {root : Var} {p : Point} {e : Effect} {n : Nat}

theorem effects_block {b : Nat} (h : y.places[n]? = some (.block b)) :
    y.flat.effects root n = y.facts.blockEffects root b (y.routine.codeAt b) := by
  rw [Flat.effects, getElem?_nodes, h]
  rfl

/-- A collapsed loop has at most one effect, at the top of its header. -/
theorem effects_loop {c : Nat} (h : y.places[n]? = some (.loop c)) : y.flat.effects root n =
    match ((y.summary c).getD .blackBox).effectOn y.facts root with
    | .nothing => []
    | e => [(⟨(y.facts.forest.regions[c]?.map Region.header).getD 0, 0⟩, e)] := by
  rw [Flat.effects, getElem?_nodes, h]
  rfl

/-- Retains and releases stand at nodes that stand for themselves. -/
theorem effects_own (h : (p, e) ∈ y.flat.effects root n) (he : e = .retain ∨ e = .release) :
    y.places[n]? = some (.block p.block) ∧ y.facts.effectAt root (y.routine.codeAt p.block) p.index = e := by
  cases hn : y.places[n]? with
  | none =>
    rw [Flat.effects, getElem?_nodes, hn] at h
    cases h
  | some place =>
    cases place with
    | block b =>
      rw [effects_block hn, Facts.blockEffects] at h
      obtain ⟨hmem, -⟩ := List.mem_filter.mp h
      obtain ⟨index, -, heq⟩ := List.mem_map.mp hmem
      obtain ⟨rfl, rfl⟩ := Prod.mk.inj heq
      exact ⟨rfl, rfl⟩
    | loop c =>
      rw [effects_loop hn] at h
      have hnever := Summary.effectOn_interferes ((y.summary c).getD .blackBox) y.facts root
      split at h
      · cases h
      · obtain ⟨-, rfl⟩ := Prod.mk.inj (List.mem_singleton.mp h)
        rcases he with he | he
        · exact absurd he hnever.1
        · exact absurd he hnever.2

end Layout

section Regions

variable {r : Routine} {k : Facts} {id : Nat} {region : Region} {summary : Option (Nat → Option Summary)}

theorem Facts.Sound.blocks_lt (hk : k.Sound r) (hr : k.forest.regions[id]? = some region) {b : Nat}
    (hb : b ∈ region.blocks) : b < r.blocks.length := by
  by_cases hid : id = 0
  · subst hid
    obtain ⟨root, hroot, -, -, hblocks⟩ := hk.forest.whole
    obtain rfl := Option.some.inj (hr.symm.trans hroot)
    rwa [hblocks, List.mem_range, Routine.size_flow] at hb
  · have := ((hk.forest.mem_blocks ⟨hid, hr⟩).mp hb).1
    rwa [Routine.size_flow] at this

theorem Layout.of_sound (hk : k.Sound r) (hr : k.forest.regions[id]? = some region)
    (summary : Option (Nat → Option Summary)) : (Layout.of r k id region summary).Sound := by
  refine ⟨?_, fun b hb => hk.blocks_lt hr hb, ?_, ?_⟩
  · show region.blocks.Nodup
    by_cases hid : id = 0
    · subst hid
      obtain ⟨root, hroot, -, -, hblocks⟩ := hk.forest.whole
      obtain rfl := Option.some.inj (hr.symm.trans hroot)
      rw [hblocks]
      exact List.nodup_range
    · rw [(hk.forest.natural ⟨hid, hr⟩).blocks]
      exact List.nodup_range.filter _
  · show region.header ∈ region.blocks
    by_cases hid : id = 0
    · subst hid
      obtain ⟨root, hroot, -, hheader, hblocks⟩ := hk.forest.whole
      obtain rfl := Option.some.inj (hr.symm.trans hroot)
      rw [hblocks, hheader, List.mem_range, Routine.size_flow]
      exact hk.entry
    · exact List.contains_iff_mem.mp (hk.forest.holds_header ⟨hid, hr⟩)
  · intro b _ c hc
    cases summary with
    | none => cases hc
    | some summary =>
      obtain ⟨-, l, hl, -⟩ := hk.forest.childAt_spec hc
      exact ⟨l, hl.2⟩

/-- What every flat region has, however it places its blocks. -/
theorem Layout.flat_current (hk : k.Sound r) (hr : k.forest.regions[id]? = some region) :
    (Layout.of r k id region summary).flat.Current := by
  refine ⟨Layout.indexed (Layout.of_sound hk hr summary), fun b n code hown => ?_⟩
  obtain ⟨hplace, rfl, -⟩ := Layout.ownNode_eq_some.mp hown
  exact Routine.getElem?_codeAt (hk.blocks_lt hr (Layout.block_mem_places (List.mem_of_getElem? hplace)).1)

theorem Facts.Sound.build_eq (hk : k.Sound r) (hr : k.forest.regions[id]? = some region)
    (summary : Option (Nat → Option Summary)) :
    Flat.build r k id summary = .ok (Layout.of r k id region summary).flat :=
  Flat.build_eq hk.forest.toShaped hr (Layout.of_sound hk hr summary)

theorem Facts.Sound.exists_region {f : Flat} (hk : k.Sound r) (hf : Flat.build r k id summary = .ok f) :
    ∃ region, k.forest.regions[id]? = some region ∧ (Layout.of r k id region summary).flat = f := by
  obtain ⟨region, hregion, -⟩ := bind_eq_ok.mp hf
  have hr : k.forest.regions[id]? = some region := by
    rw [Forest.region] at hregion
    split at hregion
    · rename_i hr
      rw [hr, Except.ok.inj hregion]
    · cases hregion
  exact ⟨region, hr, Except.ok.inj ((hk.build_eq hr summary).symm.trans hf)⟩

theorem Facts.Sound.exists_layout {f : Flat} (hk : k.Sound r) (hf : Flat.build r k id summary = .ok f) :
    ∃ y : Layout, y.Sound ∧ y.flat = f ∧ f.Current := by
  obtain ⟨region, hr, rfl⟩ := hk.exists_region hf
  exact ⟨_, Layout.of_sound hk hr summary, rfl, Layout.flat_current hk hr⟩

private theorem Layout.own_instr {b index : Nat} {i : Instr} (hk : k.Sound r) (hr : k.forest.regions[id]? = some region)
    (hb : b ∈ region.blocks) (hi : (r.codeAt b).body[index]? = some i) : r.instrAt? ⟨b, index⟩ = some i := by
  rw [Routine.instrAt?, Routine.getElem?_codeAt (hk.blocks_lt hr hb)]
  exact hi

theorem Layout.acts_retain {root : Var} {x : Point} (hk : k.Sound r) (hr : k.forest.regions[id]? = some region)
    (h : (Layout.of r k id region summary).flat.Acts .retain x root) :
    .block x.block ∈ (Layout.of r k id region summary).places ∧
      ∃ v kind, r.instrAt? x = some (.retain v kind) ∧ k.root v = some root := by
  obtain ⟨n, -, hmem⟩ := h
  obtain ⟨hplace, heff⟩ := Layout.effects_own hmem (.inl rfl)
  have hin := List.mem_of_getElem? hplace
  obtain ⟨v, kind, hi, hv⟩ := Facts.effectAt_eq_retain heff
  exact ⟨hin, v, kind, Layout.own_instr hk hr (Layout.block_mem_places hin).1 hi, hv⟩

theorem Layout.acts_release {root : Var} {x : Point} (hk : k.Sound r) (hr : k.forest.regions[id]? = some region)
    (h : (Layout.of r k id region summary).flat.Acts .release x root) :
    .block x.block ∈ (Layout.of r k id region summary).places ∧
      ∃ v kind, r.instrAt? x = some (.release v kind) ∧ k.root v = some root := by
  obtain ⟨n, -, hmem⟩ := h
  obtain ⟨hplace, heff⟩ := Layout.effects_own hmem (.inr rfl)
  have hin := List.mem_of_getElem? hplace
  obtain ⟨v, kind, hi, hv⟩ := Facts.effectAt_eq_release heff
  exact ⟨hin, v, kind, Layout.own_instr hk hr (Layout.block_mem_places hin).1 hi, hv⟩

private theorem Layout.depth_eq {t : Nat → Option Summary} {a b : Nat} (hk : k.Sound r)
    (hr : k.forest.regions[id]? = some region) (ha : .block a ∈ (Layout.of r k id region (some t)).places)
    (hb : .block b ∈ (Layout.of r k id region (some t)).places) : k.forest.depthAt a = k.forest.depthAt b := by
  obtain ⟨ha, hca⟩ := Layout.block_mem_places ha
  obtain ⟨hb, hcb⟩ := Layout.block_mem_places hb
  have hia := hk.forest.innermost_of_childless hr ha hca
  have hib := hk.forest.innermost_of_childless hr hb hcb
  rw [hk.forest.depthAt_eq, hk.forest.depthAt_eq, hk.forest.loopsAt_congr (hia.trans hib.symm)]

private theorem ne_nil_of_several {members : List Point} (h : 2 ≤ (blocksOf members).length) : members ≠ [] := by
  rintro rfl
  exact absurd h (by decide)

theorem Facts.Sound.region_view (hk : k.Sound r) (hr : k.forest.regions[id]? = some region)
    (t : Nat → Option Summary) : (Layout.of r k id region (some t)).flat.Sound r k where
  routine := rfl
  facts := rfl
  current := Layout.flat_current hk hr
  root := hk.root_lt
  retain_at h := (Layout.acts_retain hk hr h).2
  release_at h := (Layout.acts_release hk hr h).2
  retain_depth hmem hm := by
    obtain ⟨x, hx⟩ := List.exists_mem_of_ne_nil _ (ne_nil_of_several hm.several)
    have htarget := List.mem_of_getElem? (Layout.ownNode_eq_some.mp hm.own).1
    exact ⟨x, hx, Nat.le_of_eq (Layout.depth_eq hk hr htarget (Layout.acts_retain hk hr (hmem x hx)).1)⟩
  release_depth hmem hm := by
    obtain ⟨x, hx⟩ := List.exists_mem_of_ne_nil _ (ne_nil_of_several hm.several)
    have htarget := List.mem_of_getElem? (Layout.ownNode_eq_some.mp hm.own).1
    exact ⟨x, hx, Nat.le_of_eq (Layout.depth_eq hk hr htarget (Layout.acts_release hk hr (hmem x hx)).1)⟩

end Regions

end CountMotion
