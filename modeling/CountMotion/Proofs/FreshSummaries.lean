import CountMotion.Hoist
import CountMotion.Proofs.Summaries

/-! Cached summaries are what would be computed anew: a loop has one summary, and it depends on
nothing that a round leaves alone. -/
namespace CountMotion

variable {r next : Routine} {k : Facts} {region : Region} {s s' : Summary} {t t' : SummaryTable} {id : Nat}

section Congruence

/-- A layout whose blocks have the same code and whose child loops have the same summaries gives
the same flat region. -/
theorem Layout.flat_congr {y y' : Layout} (hfacts : y'.facts = y.facts) (hregion : y'.region = y.region)
    (hchild : y'.child = y.child) (hcode : ∀ b ∈ y.region.blocks, y'.routine.codeAt b = y.routine.codeAt b)
    (hsummary : ∀ b c, y.child b = some c → y'.summary c = y.summary c) :
    y'.flat = { y.flat with routine := y'.routine } := by
  have hplaceOf : y'.placeOf = y.placeOf := by
    funext b
    rw [placeOf, hchild, placeOf]
  have hresidents : y'.residents = y.residents := by
    rw [residents, residents, hregion, hplaceOf]
    exact List.map_congr_left fun b hb => by rw [hcode b hb]
  have hplaces : y'.places = y.places := by rw [places, hresidents, places]
  have hgraph : y'.graph = y.graph := by rw [graph, hresidents, hplaces, graph]
  have hentry : y'.entry = y.entry := by rw [entry, hresidents, hplaces, hregion, entry]
  have horder : y'.order = y.order := by rw [order, hgraph, hentry, order]
  have hedges : y'.edges = y.edges := by simp only [edges, ahead, hgraph, horder]
  have hcontent : ∀ place ∈ y.places, y'.content place = y.content place := by
    intro place hplace
    obtain ⟨b, hb, rfl⟩ := mem_places.mp hplace
    rw [placeOf]
    split
    · rename_i c hc
      rw [content, content, hsummary b c hc, hfacts]
    · rw [content, content, hcode b hb]
  rw [flat, flat, Flat.mk.injEq]
  refine ⟨rfl, hfacts, hresidents, hplaces, ?_, horder, hentry⟩
  rw [hplaces]
  refine List.map_congr_left fun x hx => ?_
  have hmem : x.1 ∈ y.places := List.mem_of_getElem? (List.mem_zipIdx_iff_getElem?.mp hx)
  show y'.node x.2 x.1 = y.node x.2 x.1
  rw [node, node, hresidents, hplaces, hedges, hfacts, hcontent x.1 hmem]

/-- The trip of a root through a region looks at the routine for quiet exits only. -/
theorem Flat.trip_congr {f : Flat} {next : Routine}
    (h : ∀ root e, f.facts.quietExit next root e = f.facts.quietExit f.routine root e) (root : Var) :
    ({ f with routine := next } : Flat).trip root = f.trip root := by
  have hlive : ∀ x : Node, x.liveEscape { f with routine := next } root = x.liveEscape f root := by
    intro x
    simp only [Node.liveEscape, h]
  have hvisit : Trip.visit { f with routine := next } root = Trip.visit f root := by
    funext t n
    simp only [Trip.visit, hlive]
    rfl
  rw [trip, trip, hvisit]
  rfl

/-- The summary of a loop depends on its blocks, the quiet exits and its children. -/
theorem SummaryTable.compute_congr (hk : k.Sound r) (hk' : k.Sound next) (hr : k.forest.regions[id]? = some region)
    (hcode : ∀ b ∈ region.blocks, next.blocks[b]? = r.blocks[b]?)
    (hquiet : ∀ root e, k.quietExit next root e = k.quietExit r root e)
    (hchildren : ∀ c ∈ region.children, t'.get? c = t.get? c) : t'.compute next k id = t.compute r k id := by
  have hregion : k.forest.region id = .ok region := by rw [Forest.region, hr]
  have hblocks : ∀ {r : Routine}, k.Sound r → region.blocks.mapM (fun b => do return (b, ← r.block b)) =
      .ok (region.blocks.map fun b => (b, r.codeAt b)) :=
    fun hk => mapM_total fun b hb => by rw [Routine.block_eq (hk.blocks_lt hr hb)]; rfl
  have hcode' : ∀ b ∈ region.blocks, next.codeAt b = r.codeAt b := fun b hb => by
    rw [Routine.codeAt, hcode b hb, Routine.codeAt]
  have hsame : (region.blocks.map fun b => (b, next.codeAt b)) = region.blocks.map fun b => (b, r.codeAt b) :=
    List.map_congr_left fun b hb => by rw [hcode' b hb]
  have hflat : (Layout.of next k id region (some t'.get?)).flat =
      { (Layout.of r k id region (some t.get?)).flat with routine := next } := by
    refine Layout.flat_congr rfl rfl rfl hcode' fun b c hc => hchildren c ?_
    exact ((hk.forest.children hr).2 c).mpr (hk.forest.childAt_spec hc).1
  have htrip : (Layout.of next k id region (some t'.get?)).flat.trip =
      (Layout.of r k id region (some t.get?)).flat.trip := by
    funext root
    rw [hflat]
    exact Flat.trip_congr hquiet root
  have hnext := hk'.build_eq hr (some t'.get?)
  have hold := hk.build_eq hr (some t.get?)
  simp only [compute, hregion, bind, Except.bind] at hblocks ⊢
  rw [hblocks hk', hblocks hk, hsame]
  simp only
  rw [hnext, hold]
  simp only [htrip]

theorem Facts.Sound.quietExit_congr (hk : k.Sound r) (hframe : next.frame = r.frame)
    (hsame : ∀ b, k.traps b → next.blocks[b]? = r.blocks[b]?) (root : Var) (exit : BlockId) :
    k.quietExit next root exit = k.quietExit r root exit := by
  have hlen := Routine.length_of_frame hframe
  have htargets : ∀ b : Nat,
      (next.blocks[b]?.map fun x => x.term.targets) = r.blocks[b]?.map fun x => x.term.targets := by
    intro b
    have := congrArg (fun r : Routine => r.blocks[b]?.map fun x => x.term.targets) hframe
    simpa [Routine.frame, Function.comp_def] using this
  cases htraps : k.traps exit with
  | false => simp [quietExit, htraps]
  | true =>
    simp only [quietExit, htraps, hlen, htargets]
    -- all that is explored from a trapping exit traps
    have hall : ∀ b ∈ explore (List.range r.blocks.length)
        (fun b => (r.blocks[b]?.map fun x => x.term.targets).getD []) [exit] [], k.traps b := by
      refine explore_induct (by simp) (by simp [htraps]) fun a b _ ha hmem hdom => hk.traps_next ha ?_
      cases hx : r.blocks[a]? with
      | none => simp [hx] at hmem
      | some x => exact Routine.mem_next_flow.mpr ⟨x, hx, by simpa [hx] using hmem, List.mem_range.mp hdom⟩
    congr 1
    refine Bool.eq_iff_iff.mpr ?_
    rw [List.all_eq_true, List.all_eq_true]
    refine forall₂_congr fun b hmem => ?_
    rw [hsame b (hall b hmem)]

end Congruence

/-- The summary of a loop, made from the summaries of its children. -/
inductive Facts.Summed (k : Facts) (r : Routine) : Nat → Summary → Prop where
  | of {id : Nat} {region : Region} {t : SummaryTable} {s : Summary} (hr : k.forest.regions[id]? = some region)
      (hfull : ∀ c ∈ region.children, (t.get? c).isSome)
      (hchildren : ∀ c ∈ region.children, ∀ s', t.get? c = some s' → Summed k r c s')
      (hs : t.compute r k id = .ok s) : Summed k r id s

namespace Facts.Summed

theorem unique (hk : k.Sound r) (h : k.Summed r id s) (h' : k.Summed r id s') : s' = s := by
  induction h generalizing s' with
  | @of id region t s hr hfull hchildren hs ih =>
    cases h' with
    | @of _ region' t' _ hr' hfull' hchildren' hs' =>
      obtain rfl := Option.some.inj (hr.symm.trans hr')
      have hsame : ∀ c ∈ region.children, t'.get? c = t.get? c := by
        intro c hc
        obtain ⟨a, ha⟩ := Option.isSome_iff_exists.mp (hfull c hc)
        obtain ⟨b, hb⟩ := Option.isSome_iff_exists.mp (hfull' c hc)
        rw [ha, hb, ih c hc a ha (hchildren' c hc b hb)]
      rw [SummaryTable.compute_congr hk hk hr (fun _ _ => rfl) (fun _ _ => rfl) hsame, hs] at hs'
      exact (Except.ok.inj hs').symm

theorem of_same (hk : k.Sound r) (hframe : next.frame = r.frame)
    (htraps : ∀ b, k.traps b → next.blocks[b]? = r.blocks[b]?)
    (h : k.Summed r id s) (hr : k.forest.regions[id]? = some region)
    (hcode : ∀ b ∈ region.blocks, next.blocks[b]? = r.blocks[b]?) : k.Summed next id s := by
  induction h generalizing region with
  | @of id region' t s hr' hfull hchildren hs ih =>
    obtain rfl := Option.some.inj (hr.symm.trans hr')
    refine .of hr hfull (fun c hc s' hs' => ?_) (t := t) ?_
    · have hparent := ((hk.forest.children hr).2 c).mp hc
      obtain ⟨l, hl⟩ := hk.forest.isLoop_of_parentOf hparent
      exact ih c hc s' hs' hl.2 fun b hmem => hcode b (hk.forest.mem_blocks_of_child hparent hl.2 hr hmem)
    · rw [← hs]
      exact SummaryTable.compute_congr hk (hk.of_frame hframe) hr hcode (hk.quietExit_congr hframe htraps)
        fun _ _ => rfl

end Facts.Summed

def SummaryTable.Holds (t : SummaryTable) (ids : List Nat) : Prop := ∀ c ∈ ids, (t.get? c).isSome

/-- A table with one slot for each region, in which every summary is right, belongs to a loop and
stands beside those of the loop's children. -/
structure SummaryTable.Fresh (t : SummaryTable) (r : Routine) (k : Facts) : Prop where
  size : t.slots.length = k.forest.regions.length
  summed : ∀ id s, t.get? id = some s → k.Summed r id s
  whole : t.get? 0 = none
  nested : ∀ {id region}, k.forest.regions[id]? = some region → (t.get? id).isSome → t.Holds region.children

namespace SummaryTable

private theorem fresh_of_none (hsize : t.slots.length = k.forest.regions.length) (hnone : ∀ id, t.get? id = none) :
    t.Fresh r k where
  size := hsize
  summed id s hs := by simp [hnone] at hs
  whole := hnone 0
  nested _ hsome := by simp [hnone] at hsome

theorem empty_fresh (k : Facts) (r : Routine) : (empty k.forest).Fresh r k := by
  refine fresh_of_none (by simp [empty]) fun id => ?_
  rw [get?, empty, List.getElem?_map]
  cases k.forest.regions[id]? <;> rfl

theorem Fresh.current (hk : k.Sound r) (h : t.Fresh r k) : t.Current r k := by
  intro id s hs
  cases h.summed id s hs with
  | of hr _ _ hcompute => exact ⟨_, hr, compute_current hk hr hcompute⟩

theorem Fresh.get?_eq (hk : k.Sound r) (h : t.Fresh r k) (h' : t'.Fresh r k) {c : Nat} (hc : (t.get? c).isSome)
    (hc' : (t'.get? c).isSome) : t'.get? c = t.get? c := by
  obtain ⟨a, ha⟩ := Option.isSome_iff_exists.mp hc
  obtain ⟨b, hb⟩ := Option.isSome_iff_exists.mp hc'
  rw [ha, hb, (h.summed c a ha).unique hk (h'.summed c b hb)]

theorem Fresh.fill (h : t.Fresh r k) (hr : k.forest.regions[id]? = some region) (hne : id ≠ 0)
    (hfull : t.Holds region.children) (ht : t.fill r k id = .ok t') :
    t'.Fresh r k ∧ (t'.get? id).isSome ∧ ∀ c, (t.get? c).isSome → (t'.get? c).isSome := by
  rw [SummaryTable.fill] at ht
  split at ht
  · obtain rfl := Except.ok.inj ht
    exact ⟨h, ‹_›, fun _ hc => hc⟩
  · obtain ⟨s, hs, ht⟩ := bind_eq_ok.mp ht
    obtain rfl := Except.ok.inj ht
    have hget : ∀ c, get? ⟨t.slots.set id (some s)⟩ c = if c = id then some s else t.get? c := by
      intro c
      have hid : id < t.slots.length := h.size ▸ (List.getElem?_eq_some_iff.mp hr).1
      rw [get?, List.getElem?_set]
      by_cases hc : id = c
      · simp [hc, hc ▸ hid]
      · simp [hc, Ne.symm hc, get?]
    have hgrow : ∀ c, (t.get? c).isSome → (get? ⟨t.slots.set id (some s)⟩ c).isSome := by
      intro c hc
      rw [hget]
      split
      · rfl
      · exact hc
    refine ⟨⟨by simpa using h.size, fun c s' hs' => ?_, ?_, fun {c m} hm hc d hd => hgrow d ?_⟩, by simp [hget], hgrow⟩
    · rw [hget] at hs'
      split at hs'
      · obtain rfl := Option.some.inj hs'
        rename_i hc
        exact hc ▸ .of hr hfull (fun d _ s' hs' => h.summed d s' hs') hs
      · exact h.summed c s' hs'
    · rw [hget, if_neg hne.symm]
      exact h.whole
    · rw [hget] at hc
      split at hc
      · subst c
        obtain rfl := Option.some.inj (hm.symm.trans hr)
        exact hfull d hd
      · exact h.nested hm hc d hd

/-- Summarizing a loop fills its slot and those of the loops inside it. -/
theorem Fresh.summarize (hk : k.Sound r) (h : t.Fresh r k) (hid : id < k.forest.regions.length)
    (ht : t.summarize r k id = .ok t') :
    t'.Fresh r k ∧ (id ≠ 0 → (t'.get? id).isSome) ∧ ∀ c, (t.get? c).isSome → (t'.get? c).isSome := by
  rw [SummaryTable.summarize] at ht
  split at ht
  · rename_i hdone
    obtain rfl := Except.ok.inj ht
    exact ⟨h, fun hne => by simpa [hne] using hdone, fun _ hc => hc⟩
  · rename_i hopen
    have hne : id ≠ 0 := fun hzero => hopen (by simp [hzero])
    rw [hk.forest.insideOut_eq] at ht
    have hfold := foldlM_keeps (fun done (t' : SummaryTable) => t'.Fresh r k ∧ t'.Holds done ∧
        ∀ c, (t.get? c).isSome → (t'.get? c).isSome) (b := t) ⟨h, fun _ hc => absurd hc List.not_mem_nil, fun _ hc => hc⟩
      (fun before c after t₁ t₂ hl hfill hinv => by
        obtain ⟨hfresh, hheld, hgrow⟩ := hinv
        have hmem : c ∈ k.forest.innerFirst id := by rw [← hl]; simp
        have hc := Forest.lt_of_mem_innerFirst hid hmem
        have hget := List.getElem?_eq_getElem hc
        have hfull : t₁.Holds k.forest.regions[c].children := fun d hd =>
          hheld d (hk.forest.mem_before_of_child hid hl (((hk.forest.children hget).2 d).mp hd))
        have hloop := hk.forest.ne_zero_of_mem_innerFirst hid hne hmem
        obtain ⟨hfresh', hself, hgrow'⟩ := hfresh.fill hget hloop hfull hfill
        refine ⟨hfresh', fun d hd => ?_, fun d hd => hgrow' d (hgrow d hd)⟩
        rcases List.mem_append.mp hd with hd | hd
        · exact hgrow' d (hheld d hd)
        · exact List.mem_singleton.mp hd ▸ hself) ht
    exact ⟨hfold.1, fun _ => hfold.2.1 id (List.mem_reverse.mp (Forest.innerFirst_order hid).entry_mem), hfold.2.2⟩

theorem summarize_anew (hk : k.Sound r) (hid : id < k.forest.regions.length) (hne : id ≠ 0) :
    ∃ t s, (empty k.forest).summarize r k id = .ok t ∧ t.Fresh r k ∧ t.get? id = some s := by
  have hempty := empty_fresh k r
  obtain ⟨t, ht, -⟩ := summarize_total hk (hempty.current hk) hid
  obtain ⟨hfresh, hself, -⟩ := hempty.summarize hk hid ht
  obtain ⟨s, hs⟩ := Option.isSome_iff_exists.mp (hself hne)
  exact ⟨t, s, ht, hfresh, hs⟩

theorem Fresh.summarizeChildren (hk : k.Sound r) (h : t.Fresh r k) (hr : k.forest.regions[id]? = some region)
    (ht : t.summarizeChildren r k id = .ok t') : t'.Fresh r k ∧ t'.Holds region.children := by
  rw [SummaryTable.summarizeChildren, Forest.region, hr] at ht
  refine foldlM_keeps (fun done (t : SummaryTable) => t.Fresh r k ∧ t.Holds done)
    ⟨h, fun _ hc => absurd hc List.not_mem_nil⟩
    (fun before c after t₁ t₂ hl hsum hinv => ?_) ht
  have hc : c ∈ region.children := by rw [← hl]; simp
  obtain ⟨l, hloop⟩ := hk.forest.isLoop_of_parentOf (((hk.forest.children hr).2 c).mp hc)
  obtain ⟨hfresh, hself, hgrow⟩ := hinv.1.summarize hk hloop.lt hsum
  refine ⟨hfresh, fun d hd => ?_⟩
  rcases List.mem_append.mp hd with hd | hd
  · exact hgrow d (hinv.2 d hd)
  · exact List.mem_singleton.mp hd ▸ hself hloop.1

theorem Fresh.hoists (hk : k.Sound r) (h : t.Fresh r k) (hr : k.forest.regions[id]? = some region)
    {touched : List Var} {found : List Exchange} (ht : t.hoists r k id touched = .ok (t', found)) :
    t'.Fresh r k ∧ t'.Holds region.children ∧
      ∃ xs, region.children.mapM (t'.hoistsOf r k touched) = .ok xs ∧ found = xs.flatten := by
  obtain ⟨t₁, hsum, ht⟩ := bind_eq_ok.mp ht
  obtain ⟨_, hregion, ht⟩ := bind_eq_ok.mp ht
  rw [Forest.region, hr] at hregion
  obtain rfl := Except.ok.inj hregion
  obtain ⟨xs, hxs, ht⟩ := bind_eq_ok.mp ht
  obtain ⟨rfl, rfl⟩ := Prod.mk.inj (Except.ok.inj ht)
  obtain ⟨hfresh, hholds⟩ := h.summarizeChildren hk hr hsum
  exact ⟨hfresh, hholds, xs, hxs, rfl⟩

/-- Dropping what new bodies may concern keeps the rest right. -/
theorem Fresh.without (hk : k.Sound r) (h : t.Fresh r k) (hframe : next.frame = r.frame) {touched : List Nat}
    (hsame : ∀ b, b ∉ touched → next.blocks[b]? = r.blocks[b]?) : (t.without k touched).Fresh next k := by
  have hlen : ∀ (ids : List Nat) (slots : List (Option Summary)),
      (ids.foldl (fun slots id => slots.set id none) slots).length = slots.length := by
    intro ids
    induction ids with
    | nil => exact fun _ => rfl
    | cons id ids ih => exact fun slots => (ih _).trans List.length_set
  rw [SummaryTable.without]
  split
  · refine fresh_of_none (by simpa using h.size) fun id => ?_
    rw [get?, List.getElem?_map]
    cases t.slots[id]? <;> rfl
  · rename_i hquiet
    refine ⟨(hlen _ _).trans h.size, fun id s hs => ?_, ?_, fun {id region} hr hid c hc => ?_⟩
    · obtain ⟨hout, hold⟩ := get?_drop.mp hs
      have hsummed := h.summed id s hold
      obtain ⟨region, hr⟩ : ∃ region, k.forest.regions[id]? = some region := by
        cases hsummed with
        | of hr => exact ⟨_, hr⟩
      refine hsummed.of_same hk hframe (fun b hb => hsame b fun hmem => hquiet ?_) hr
        fun b hb => hsame b fun hmem => hout ?_
      · exact List.any_eq_true.mpr ⟨b, hmem, hb⟩
      · exact List.mem_flatMap.mpr ⟨b, hmem, hk.forest.mem_lineage_of_mem_blocks hr hb⟩
    · refine Option.eq_none_iff_forall_ne_some.mpr fun s hs => ?_
      exact Option.some_ne_none s ((get?_drop.mp hs).2.symm.trans h.whole)
    · obtain ⟨s, hs⟩ := Option.isSome_iff_exists.mp hid
      obtain ⟨hout, hold⟩ := get?_drop.mp hs
      obtain ⟨s', hs'⟩ := Option.isSome_iff_exists.mp (h.nested hr (Option.isSome_iff_exists.mpr ⟨s, hold⟩) c hc)
      refine Option.isSome_iff_exists.mpr ⟨s', get?_drop.mpr ⟨fun hdrop => hout ?_, hs'⟩⟩
      obtain ⟨b, hmem, hb⟩ := List.mem_flatMap.mp hdrop
      have hparent := ((hk.forest.children hr).2 c).mp hc
      obtain ⟨l, hl⟩ := hk.forest.isLoop_of_parentOf hparent
      have hholds := hl.mem_loopsAt.mp ((hk.forest.mem_lineage.mp hb).resolve_left hl.1)
      refine List.mem_flatMap.mpr ⟨b, hmem, hk.forest.mem_lineage_of_mem_blocks hr ?_⟩
      exact hk.forest.mem_blocks_of_child hparent hl.2 hr (List.contains_iff_mem.mp hholds)

end SummaryTable

end CountMotion
