import CountMotion.SummaryTable
import CountMotion.Proofs.Views

/-! The operations that cached summaries name are still where the summaries say. -/
namespace CountMotion

variable {r next : Routine} {k : Facts} {region : Region} {s : Summary} {t : SummaryTable} {id : Nat}

/-- A summary lists roots in ascending order and names distinct operations of the region, each
under its root. -/
structure Summary.Current (s : Summary) (r : Routine) (k : Facts) (region : Region) : Prop where
  roots : (s.roots.map RootSummary.root).Pairwise (· < ·)
  nodup : ∀ x ∈ s.roots, x.points.Nodup
  inside : ∀ x ∈ s.roots, ∀ p ∈ x.points, p.block ∈ region.blocks
  counts : ∀ x ∈ s.roots, ∀ p ∈ x.points, ∃ i v, r.instrAt? p = some i ∧ i.counts? = some v ∧ k.root v = some x.root

/-- The roots ascend, so there is one entry that a lookup can find, from the front or by halves. -/
theorem Summary.root?_eq_some_iff {root : Var} {x : RootSummary} (h : (s.roots.map RootSummary.root).Pairwise (· < ·)) :
    s.root? root = some x ↔ x ∈ s.roots ∧ x.root = root := by
  constructor
  · intro hx
    exact ⟨List.mem_of_find?_eq_some hx, by simpa using List.find?_some hx⟩
  · rintro ⟨hx, rfl⟩
    obtain ⟨y, hfound⟩ : ∃ y, s.root? x.root = some y := by
      exact Option.isSome_iff_exists.mp (List.find?_isSome.mpr ⟨x, hx, beq_self_eq_true _⟩)
    have hy : y.root = x.root := by simpa using List.find?_some hfound
    have hnodup : (s.roots.map RootSummary.root).Nodup := h.imp Nat.ne_of_lt
    rw [hfound, List.inj_on_of_nodup_map hnodup (List.mem_of_find?_eq_some hfound) hx hy]

def SummaryTable.Current (t : SummaryTable) (r : Routine) (k : Facts) : Prop :=
  ∀ id s, t.get? id = some s → ∃ region, k.forest.regions[id]? = some region ∧ s.Current r k region

namespace SummaryTable

theorem empty_current (f : Forest) (r : Routine) (k : Facts) : (empty f).Current r k := by
  intro id s hs
  rw [get?, empty, List.getElem?_map] at hs
  cases hf : f.regions[id]? <;> simp [hf] at hs

def operationsIn (r : Routine) (k : Facts) (blocks : List Nat) : List (Var × Point) :=
  operations k (blocks.map fun b => (b, r.codeAt b))

theorem mem_operationsIn {blocks : List Nat} {root : Var} {p : Point} :
    (root, p) ∈ operationsIn r k blocks ↔ p.block ∈ blocks ∧
      ∃ i v, (r.codeAt p.block).body[p.index]? = some i ∧ i.counts? = some v ∧ k.root v = some root := by
  simp only [operationsIn, operations, List.flatMap_map, List.mem_flatMap, List.mem_filterMap, Prod.exists, List.mem_zipIdx_iff_getElem?,
    Option.map_eq_some_iff, Option.bind_eq_some_iff, Prod.mk.injEq]
  constructor
  · rintro ⟨b, hb, i, index, hi, _, ⟨v, hv, hroot⟩, rfl, rfl⟩
    exact ⟨hb, i, v, hi, hv, hroot⟩
  · rintro ⟨hb, i, v, hi, hv, hroot⟩
    exact ⟨p.block, hb, i, p.index, hi, root, ⟨v, hv, hroot⟩, rfl, rfl⟩

private theorem nodup_operationsIn {blocks : List Nat} (h : blocks.Nodup) :
    ((operationsIn r k blocks).map Prod.snd).Nodup := by
  rw [operationsIn, operations, List.flatMap_map, List.map_flatMap, List.nodup_flatMap]
  refine ⟨fun b _ => ?_, h.imp fun {a b} hab => ?_⟩
  · refine List.Nodup.of_map Point.index ?_
    rw [List.map_map]
    have hsub := map_filterMap_sublist (g := Point.index ∘ Prod.snd) (h := Prod.snd)
      (f := fun x : Instr × Nat => (x.1.counts?.bind k.root).map fun root => (root, (⟨b, x.2⟩ : Point)))
      (fun x y hxy => by
        obtain ⟨root, -, rfl⟩ := Option.map_eq_some_iff.mp hxy
        rfl) (r.codeAt b).body.zipIdx
    rw [List.zipIdx_map_snd] at hsub
    exact hsub.nodup List.nodup_range'
  · intro p hp hp'
    simp only [List.mem_map, List.mem_filterMap, Prod.exists, Option.map_eq_some_iff] at hp hp'
    obtain ⟨_, _, ⟨_, _, _, _, _, heq⟩, rfl⟩ := hp
    obtain ⟨_, _, ⟨_, _, _, _, _, heq'⟩, hpoint⟩ := hp'
    cases heq
    cases heq'
    exact hab (Point.mk.inj hpoint).1.symm

def pointsOf (r : Routine) (k : Facts) (blocks : List Nat) (root : Var) : List Point :=
  ((operationsIn r k blocks).filter fun x => x.1 == root).map Prod.snd

theorem mem_pointsOf {blocks : List Nat} {root : Var} {p : Point} : p ∈ pointsOf r k blocks root ↔
    p.block ∈ blocks ∧
      ∃ i v, (r.codeAt p.block).body[p.index]? = some i ∧ i.counts? = some v ∧ k.root v = some root := by
  rw [← mem_operationsIn, pointsOf]
  simp

def rootOf (r : Routine) (k : Facts) (id : RegionId) (region : Region) (t : SummaryTable) (root : Var) : RootSummary where
  root := root
  points := pointsOf r k region.blocks root
  shape := ((Layout.of r k id region (some t.get?)).flat.toured root).1
  alternating := ((Layout.of r k id region (some t.get?)).flat.toured root).2
  nested := (pointsOf r k region.blocks root).any fun p => (k.forest.childAt id p.block).isSome

theorem compute_eq (hk : k.Sound r) (hr : k.forest.regions[id]? = some region) (t : SummaryTable) :
    t.compute r k id = .ok {
      roots := (ascending ((operationsIn r k region.blocks).map Prod.fst)).map (t.rootOf r k id region)
      used := ascending ((region.blocks.flatMap fun b => (r.codeAt b).body.flatMap Instr.reads) ++
        region.blocks.flatMap fun b => (r.codeAt b).term.operands)
      observed := ascending (region.blocks.flatMap fun b => (r.codeAt b).body.filterMap Instr.observed?)
      released := ascending (region.blocks.flatMap fun b => (r.codeAt b).body.filterMap Instr.released?)
      mayRelease := region.blocks.any fun b => (r.codeAt b).body.any Instr.mayRelease
      returns := region.blocks.any fun b => (r.codeAt b).term.returns } := by
  have hregion : k.forest.region id = .ok region := by rw [Forest.region, hr]
  have hblocks : region.blocks.mapM (fun b => do return (b, ← r.block b)) =
      .ok (region.blocks.map fun b => (b, r.codeAt b)) :=
    mapM_total fun b hb => by rw [Routine.block_eq (hk.blocks_lt hr hb)]; rfl
  have hindexed := Layout.indexed (Layout.of_sound hk hr (some t.get?))
  refine bind_eq_ok.mpr ⟨_, hregion, bind_eq_ok.mpr ⟨_, hblocks, bind_eq_ok.mpr ⟨_, hk.build_eq hr (some t.get?), ?_⟩⟩⟩
  refine bind_eq_ok.mpr ⟨_, mapM_total (g := t.rootOf r k id region) fun root _ => ?_, ?_⟩
  · rw [Flat.trip_eq hindexed]
    refine bind_eq_ok.mpr ⟨_, rfl, bind_eq_ok.mpr ⟨_, anyM_total fun p _ => ?_, rfl⟩⟩
    rw [hk.forest.childHolding_eq]
    rfl
  · simp only [operationsIn, pure, Except.pure, List.flatMap_map, List.flatMap_assoc, List.filterMap_flatMap, List.any_flatMap,
      List.any_map, Function.comp_def]

theorem compute_total (hk : k.Sound r) (hr : k.forest.regions[id]? = some region) (t : SummaryTable) :
    ∃ s, t.compute r k id = .ok s ∧ s.Current r k region := by
  refine ⟨_, compute_eq hk hr t, ?_, fun x hx => ?_, fun x hx p hp => ?_, fun x hx p hp => ?_⟩
  · have hroot : ∀ root, (t.rootOf r k id region root).root = root := fun _ => rfl
    simpa [Function.comp_def, hroot] using ascending_sorted _
  · obtain ⟨root, -, rfl⟩ := List.mem_map.mp hx
    exact (List.filter_sublist.map Prod.snd).nodup (nodup_operationsIn (Layout.of_sound hk hr none).nodup)
  · obtain ⟨root, -, rfl⟩ := List.mem_map.mp hx
    exact (mem_pointsOf.mp hp).1
  · obtain ⟨root, -, rfl⟩ := List.mem_map.mp hx
    obtain ⟨hb, i, v, hi, hv, hkv⟩ := mem_pointsOf.mp hp
    refine ⟨i, v, ?_, hv, hkv⟩
    obtain ⟨x, hx⟩ : ∃ x, r.blocks[p.block]? = some x := ⟨_, List.getElem?_eq_getElem (hk.blocks_lt hr hb)⟩
    rw [Routine.codeAt_eq hx] at hi
    rw [Routine.instrAt?, hx]
    exact hi

theorem compute_current (hk : k.Sound r) (hr : k.forest.regions[id]? = some region) (hs : t.compute r k id = .ok s) :
    s.Current r k region := by
  obtain ⟨s', hs', hcur⟩ := compute_total hk hr t
  exact Except.ok.inj (hs'.symm.trans hs) ▸ hcur

theorem get?_set {s : Summary} {i : Nat} {s' : Summary} (h : get? ⟨t.slots.set id (some s)⟩ i = some s') :
    (i = id ∧ s' = s) ∨ t.get? i = some s' := by
  rw [get?, List.getElem?_set] at h
  split at h
  · rename_i hi
    split at h
    · exact .inl ⟨hi.symm, (Option.some.inj (Option.join_some.symm.trans h)).symm⟩
    · cases h
  · exact .inr h

theorem fill_total (hk : k.Sound r) (ht : t.Current r k) (hr : k.forest.regions[id]? = some region) :
    ∃ t', t.fill r k id = .ok t' ∧ t'.Current r k := by
  rw [fill]
  split
  · exact ⟨t, rfl, ht⟩
  · obtain ⟨s, hs, hcur⟩ := compute_total hk hr t
    refine ⟨_, by rw [hs]; rfl, fun i s' hs' => ?_⟩
    rcases get?_set hs' with ⟨rfl, rfl⟩ | hold
    · exact ⟨region, hr, hcur⟩
    · exact ht i s' hold

theorem summarize_total (hk : k.Sound r) (ht : t.Current r k) (hid : id < k.forest.regions.length) :
    ∃ t', t.summarize r k id = .ok t' ∧ t'.Current r k := by
  rw [summarize]
  split
  · exact ⟨t, rfl, ht⟩
  · rw [hk.forest.insideOut_eq]
    refine foldlM_total (fun _ (t : SummaryTable) => t.Current r k) ht fun before c after t hl ht => ?_
    have hc : c ∈ k.forest.innerFirst id := by rw [← hl]; simp
    exact fill_total hk ht (List.getElem?_eq_getElem (Forest.lt_of_mem_innerFirst hid hc))

theorem summarizeChildren_total (hk : k.Sound r) (ht : t.Current r k) (hr : k.forest.regions[id]? = some region) :
    ∃ t', t.summarizeChildren r k id = .ok t' ∧ t'.Current r k := by
  rw [summarizeChildren, Forest.region, hr]
  refine foldlM_total (fun _ (t : SummaryTable) => t.Current r k) ht fun before c after t hl ht => ?_
  have hc : c ∈ region.children := by rw [← hl]; simp
  obtain ⟨l, hloop⟩ := hk.forest.isLoop_of_parentOf (((hk.forest.children hr).2 c).mp hc)
  exact summarize_total hk ht hloop.lt

theorem get?_drop {ids : List Nat} {slots : List (Option Summary)} {i : Nat} {s : Summary} :
    (ids.foldl (fun slots id => slots.set id none) slots)[i]?.join = some s ↔
      i ∉ ids ∧ slots[i]?.join = some s := by
  induction ids generalizing slots with
  | nil => simp
  | cons id ids ih =>
    rw [List.foldl_cons, ih, List.getElem?_set, List.mem_cons, not_or]
    by_cases hi : id = i
    · subst hi
      by_cases hlt : id < slots.length <;> simp [hlt]
    · simp [hi, Ne.symm hi]

/-- What is kept when code of some blocks changes. -/
def without (k : Facts) (t : SummaryTable) (touched : List BlockId) : SummaryTable :=
  if touched.any k.traps then ⟨t.slots.map fun _ => none⟩
  else ⟨(touched.flatMap k.forest.lineage).foldl (fun slots id => slots.set id none) t.slots⟩

theorem invalidate_eq (t : SummaryTable) (hk : k.Sound r) (touched : List BlockId) :
    t.invalidate k touched = .ok (t.without k touched) := by
  rw [invalidate, without]
  split
  · rfl
  · rw [mapM_total fun b _ => hk.forest.around_eq b]
    rfl

theorem invalidate_if (t : SummaryTable) (hk : k.Sound r) (touched : List BlockId) (b : Bool) :
    (if b then t.invalidate k touched else .ok t) = .ok (if b then t.without k touched else t) := by
  cases b with
  | false => rfl
  | true => exact t.invalidate_eq hk touched

/-- Dropping the summaries of all loops around the touched blocks keeps the rest current. -/
theorem without_current (hk : k.Sound r) (ht : t.Current r k) {touched : List Nat}
    (hsame : ∀ b, b ∉ touched → next.blocks[b]? = r.blocks[b]?) : (t.without k touched).Current next k := by
  intro i s hs
  rw [without] at hs
  split at hs
  · rw [get?, List.getElem?_map] at hs
    cases hslot : t.slots[i]? <;> simp [hslot] at hs
  · obtain ⟨hout, hold⟩ := get?_drop.mp hs
    obtain ⟨region, hr, hcur⟩ := ht i s hold
    refine ⟨region, hr, hcur.roots, hcur.nodup, hcur.inside, fun x hx p hp => ?_⟩
    obtain ⟨j, v, hj, hv, hkv⟩ := hcur.counts x hx p hp
    have hp' : p.block ∉ touched := by
      intro hmem
      exact hout (List.mem_flatMap.mpr ⟨p.block, hmem, hk.forest.mem_lineage_of_mem_blocks hr (hcur.inside x hx p hp)⟩)
    refine ⟨j, v, ?_, hv, hkv⟩
    rw [Routine.instrAt?, hsame _ hp']
    exact hj

end SummaryTable

end CountMotion
