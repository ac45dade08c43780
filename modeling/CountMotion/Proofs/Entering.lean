import CountMotion.Proofs.Standing

/-! Control comes to a region at its header only, and ways between its nodes are ways of the
routine. -/
namespace CountMotion

variable {r : Routine} {k : Facts} {region l : Region} {id b c t m n s : Nat}
  {summary : Option (Nat → Option Summary)}

namespace Forest.Exact

variable {f : Forest} {g : Graph} {entry : Nat}

theorem childAt_eq (h : f.Exact g entry) (hp : f.parentOf c = some id) (hl : f.IsLoop c l) (hb : l.holds b) :
    f.childAt id b = some c := by
  have hmem : c ∈ f.lineage b := h.mem_lineage.mpr (.inr (hl.mem_loopsAt.mpr hb))
  obtain ⟨c', hc'⟩ : ∃ c', f.childAt id b = some c' :=
    Option.isSome_iff_exists.mp (List.find?_isSome.mpr ⟨c, hmem, by simpa using hp⟩)
  obtain ⟨hp', l', hl', hb'⟩ := h.childAt_spec hc'
  by_cases hcc : c = c'
  · rw [hc', hcc]
  · exact absurd hb' (h.children_apart hp hp' hcc hl hl' hb)

end Forest.Exact

namespace Facts.Sound

theorem mem_loop_iff (hk : k.Sound r) (hl : k.forest.IsLoop id region) :
    b ∈ region.blocks ↔ r.flow.InLoop r.entry region.header b := by
  have hnat := hk.forest.natural hl
  rw [hk.forest.mem_blocks hl, hnat.holds_iff]
  refine ⟨And.right, fun hb => ⟨(hb.reached hnat.header).lt_size ?_, hb⟩⟩
  rw [Routine.size_flow]
  exact hk.entry

theorem region_cases (hk : k.Sound r) (hr : k.forest.regions[id]? = some region) :
    (region.header = r.entry ∧ ∀ b, b ∈ region.blocks ↔ b < r.flow.size) ∨
      (r.flow.Header r.entry region.header ∧ ∀ b, b ∈ region.blocks ↔ r.flow.InLoop r.entry region.header b) := by
  by_cases hid : id = 0
  · subst hid
    obtain ⟨root, hroot, -, hheader, hblocks⟩ := hk.forest.whole
    obtain rfl := Option.some.inj (hr.symm.trans hroot)
    exact .inl ⟨hheader, fun b => by rw [hblocks, List.mem_range]⟩
  · have hloop : k.forest.IsLoop id region := ⟨hid, hr⟩
    exact .inr ⟨(hk.forest.natural hloop).header, fun b => hk.mem_loop_iff hloop⟩

/-- From the header of a region a path inside leads to each block that control reaches. -/
theorem path_from_header (hk : k.Sound r) (hr : k.forest.regions[id]? = some region) (hb : b ∈ region.blocks)
    (hreach : r.flow.Reaches r.entry b) : r.flow.Path (· ∈ region.blocks) region.header b := by
  obtain ⟨hheader, hblocks⟩ | ⟨hheader, hblocks⟩ := hk.region_cases hr
  · rw [hheader]
    clear hb
    induction hreach with
    | here => exact .here ((hblocks _).mpr (by rw [Routine.size_flow]; exact hk.entry))
    | snoc _ he _ ih => exact .snoc ih he ((hblocks _).mpr he.2)
  · exact (((hblocks b).mp hb).path_from_header hheader).mono fun n hn => (hblocks n).mpr hn

/-- A routine that starts in a region starts at its header. -/
theorem entry_eq_header (hk : k.Sound r) (hr : k.forest.regions[id]? = some region) (hb : r.entry ∈ region.blocks) :
    r.entry = region.header := by
  obtain ⟨hheader, -⟩ | ⟨-, hblocks⟩ := hk.region_cases hr
  · exact hheader.symm
  · exact ((hblocks _).mp hb).dominated.eq_entry.symm

/-- An edge into a region from outside leads to its header. -/
theorem enters_at_header (hk : k.Sound r) (hr : k.forest.regions[id]? = some region)
    (hreach : r.flow.Reaches r.entry b) (he : r.flow.Edge b t) (hb : b ∉ region.blocks) (ht : t ∈ region.blocks) :
    t = region.header := by
  obtain ⟨-, hblocks⟩ | ⟨-, hblocks⟩ := hk.region_cases hr
  · exact absurd ((hblocks b).mpr he.lt_size) hb
  · by_contra hne
    exact hb ((hblocks b).mpr (((hblocks t).mp ht).of_edge hne hreach he))

theorem reaches_header (hk : k.Sound r) (hr : k.forest.regions[id]? = some region) :
    r.flow.Reaches r.entry region.header := by
  obtain ⟨hheader, -⟩ | ⟨hheader, -⟩ := hk.region_cases hr
  · exact hheader ▸ .refl ..
  · exact hheader.reached

theorem header_dominates (hk : k.Sound r) (hr : k.forest.regions[id]? = some region) (hb : b ∈ region.blocks) :
    r.flow.Dominates r.entry region.header b := by
  obtain ⟨hheader, -⟩ | ⟨-, hblocks⟩ := hk.region_cases hr
  · rw [hheader]
    exact .of_entry _ _ _
  · exact ((hblocks b).mp hb).dominated

theorem reaches_of_mem (hk : k.Sound r) (hl : k.forest.IsLoop id region) (hb : b ∈ region.blocks) :
    r.flow.Reaches r.entry b := by
  have hnat := hk.forest.natural hl
  exact ((hnat.holds_iff b).mp ((hk.forest.mem_blocks hl).mp hb).2).reached hnat.header

/-- The blocks of a child are those that it is found to hold. -/
theorem mem_child_iff (hk : k.Sound r) (hr : k.forest.regions[id]? = some region) (hp : k.forest.parentOf c = some id)
    (hl : k.forest.IsLoop c l) : b ∈ l.blocks ↔ b ∈ region.blocks ∧ k.forest.childAt id b = some c := by
  constructor
  · intro hb
    exact ⟨hk.forest.mem_blocks_of_child hp hl.2 hr hb,
      hk.forest.childAt_eq hp hl ((hk.forest.mem_blocks hl).mp hb).2⟩
  · rintro ⟨hb, hc⟩
    obtain ⟨-, l', hl', hholds⟩ := hk.forest.childAt_spec hc
    obtain rfl := hl.unique hl'
    have hlt := hk.blocks_lt hr hb
    rw [← Routine.size_flow] at hlt
    exact (hk.forest.mem_blocks hl).mpr ⟨hlt, hholds⟩

/-- A child that holds the header of its region has it as its own. -/
theorem header_eq_of_child (hk : k.Sound r) (hr : k.forest.regions[id]? = some region)
    (hp : k.forest.parentOf c = some id) (hl : k.forest.IsLoop c l) (hb : l.holds region.header) :
    l.header = region.header := by
  have hnat := hk.forest.natural hl
  have hin := (hnat.holds_iff _).mp hb
  obtain ⟨hheader, -⟩ | ⟨-, hblocks⟩ := hk.region_cases hr
  · rw [hheader] at hin ⊢
    exact hin.dominated.eq_entry
  · obtain ⟨latch, hlatch⟩ := hnat.header
    have hmem : l.header ∈ region.blocks := hk.forest.mem_blocks_of_child hp hl.2 hr
      ((hk.forest.mem_blocks hl).mpr ⟨hlatch.edge.2, hk.forest.holds_header hl⟩)
    exact hin.header_antisymm hnat.header ((hblocks _).mp hmem)

end Facts.Sound

namespace Layout

theorem child_of (hk : k.Sound r) (h : (Layout.of r k id region summary).child b = some c) :
    k.forest.parentOf c = some id ∧ ∃ l, k.forest.IsLoop c l ∧ l.holds b := by
  obtain ⟨_, -, hc⟩ := Option.bind_eq_some_iff.mp h
  exact hk.forest.childAt_spec hc

theorem stands_of_child (hk : k.Sound r) (hr : k.forest.regions[id]? = some region)
    (h : (Layout.of r k id region summary).Stands b n) (hc : (Layout.of r k id region summary).child b = some c)
    (hl : k.forest.IsLoop c l) (ht : r.flow.InLoop r.entry l.header t) :
    (Layout.of r k id region summary).Stands t n ∧ (Layout.of r k id region summary).child t = some c := by
  obtain ⟨hp, -⟩ := child_of hk hc
  have hnat := hk.forest.natural hl
  have hholds := (hnat.holds_iff t).mpr ht
  have hlt : t < r.flow.size :=
    (ht.reached hnat.header).lt_size (by rw [Routine.size_flow]; exact hk.entry)
  obtain ⟨s, hs, -⟩ := Option.bind_eq_some_iff.mp hc
  have hchild : (Layout.of r k id region summary).child t = some c := by
    show (summary.bind fun _ => k.forest.childAt id t) = some c
    rw [hs, Option.bind_some, hk.forest.childAt_eq hp hl hholds]
  refine ⟨⟨hk.forest.mem_blocks_of_child hp hl.2 hr ((hk.forest.mem_blocks hl).mpr ⟨hlt, hholds⟩), ?_⟩, hchild⟩
  rw [h.2, placeOf, hc, placeOf, hchild]

theorem child_congr {y : Layout} (h : y.Stands b n) (h' : y.Stands t n) (hc : y.child b = some c) :
    y.child t = some c := by
  have hplace : y.placeOf t = .loop c := by
    rw [← Option.some.inj (h.2.symm.trans h'.2), placeOf, hc]
  rw [placeOf] at hplace
  split at hplace
  · rename_i c' hc'
    rw [hc', Place.loop.inj hplace]
  · cases hplace

/-- The block is the first at the node: the one that stands there, or the header of the loop. -/
def Heads (y : Layout) (t n : Nat) : Prop :=
  y.Stands t n ∧ ∀ c l, y.child t = some c → y.facts.forest.IsLoop c l → t = l.header

/-- The first block at a node leads to all others there. -/
theorem Heads.path (hk : k.Sound r) (hr : k.forest.regions[id]? = some region)
    (h : (Layout.of r k id region summary).Heads t n) (hb : (Layout.of r k id region summary).Stands b n) :
    r.flow.Path (fun x => (Layout.of r k id region summary).Stands x n) t b := by
  cases hc : (Layout.of r k id region summary).child t with
  | none =>
    obtain ⟨rfl, -⟩ := hb.eq_block (h.1.own hc)
    exact .here hb
  | some c =>
    obtain ⟨hp, l, hl, -⟩ := child_of hk hc
    obtain rfl := h.2 c l hc hl
    have hnat := hk.forest.natural hl
    obtain ⟨-, l', hl', hholds⟩ := child_of hk (child_congr h.1 hb hc)
    obtain rfl := hl.unique hl'
    exact (((hnat.holds_iff b).mp hholds).path_from_header hnat.header).mono fun x hx =>
      (stands_of_child hk hr h.1 hc hl hx).1

theorem heads_header (hk : k.Sound r) (hr : k.forest.regions[id]? = some region) :
    (Layout.of r k id region summary).Heads region.header (Layout.of r k id region summary).entry := by
  have hsound := Layout.of_sound hk hr summary
  obtain ⟨n, hn⟩ := exists_stands hsound.header
  have hentry := hn.eq_entry rfl
  refine ⟨hentry ▸ hn, fun c l hc hl => ?_⟩
  obtain ⟨hp, l', hl', hholds⟩ := child_of hk hc
  obtain rfl := hl.unique hl'
  exact (hk.header_eq_of_child hr hp hl hholds).symm

theorem ne_of_mem_next {y : Layout} (hn : y.places[n]? = some (.loop c)) (hs : s ∈ y.graph.next n) : s ≠ n := by
  rw [next_graph, hn] at hs
  simpa using (List.mem_filter.mp hs).2

/-- An edge between nodes leads from some block of the first to the first block of the second. -/
theorem exists_edge (hk : k.Sound r) (hr : k.forest.regions[id]? = some region)
    (hreach : ∀ b, (Layout.of r k id region summary).Stands b m → r.flow.Reaches r.entry b)
    (hs : s ∈ (Layout.of r k id region summary).graph.next m) :
    ∃ b t, (Layout.of r k id region summary).Stands b m ∧ (Layout.of r k id region summary).Heads t s ∧
      r.flow.Edge b t := by
  obtain ⟨b, t, htarget, hb, ht⟩ := exists_target hs
  have hedge : r.flow.Edge b t := Routine.edge_flow.mpr (Routine.mem_next_flow.mpr
    ⟨_, Routine.getElem?_codeAt (hk.blocks_lt hr hb.1), htarget, hk.blocks_lt hr ht.1⟩)
  refine ⟨b, t, hb, ⟨ht, fun c l hc hl => ?_⟩, hedge⟩
  obtain ⟨hp, l', hl', hholds⟩ := child_of hk hc
  obtain rfl := hl.unique hl'
  have hnat := hk.forest.natural hl
  by_contra hne
  have hin := ((hnat.holds_iff t).mp hholds).of_edge hne (hreach b hb) hedge
  obtain ⟨hstands, hchild⟩ := stands_of_child hk hr ht hc hl hin
  obtain rfl := Stands.unique hb hstands
  exact ne_of_mem_next (by rw [hstands.2, placeOf, hchild]) hs rfl

theorem lift (hk : k.Sound r) (hr : k.forest.regions[id]? = some region) {p : Nat → Prop}
    (hpath : (Layout.of r k id region summary).graph.Path p m n) (ht : (Layout.of r k id region summary).Heads t m)
    (hreach : r.flow.Reaches r.entry t) (hb : (Layout.of r k id region summary).Stands b n) :
    r.flow.Path (fun x => ∃ z, (Layout.of r k id region summary).Stands x z ∧ p z) t b := by
  induction hpath generalizing b with
  | here hp => exact (ht.path hk hr hb).mono fun x hx => ⟨_, hx, hp⟩
  | @snoc z n hmz he hp ih =>
    obtain ⟨b', t', hb', ht', hedge⟩ := exists_edge hk hr (fun b' hb' => hreach.trans (ih hb').reaches)
      (edge_graph.mp he)
    exact (Graph.Path.snoc (ih hb') hedge ⟨n, ht'.1, hp⟩).trans ((ht'.path hk hr hb).mono fun x hx => ⟨n, hx, hp⟩)

theorem of_entered (hk : k.Sound r) (hr : k.forest.regions[id]? = some region)
    (summary : Option (Nat → Option Summary)) : (Layout.of r k id region summary).Entered := by
  have hsound := Layout.of_sound hk hr summary
  have horder := searchOrder hsound
  have hhead : (Layout.of r k id region summary).Heads region.header _ := heads_header hk hr
  refine ⟨hsound, hk.entry_eq_header hr, hk.enters_at_header hr, fun {b n} hb => ⟨fun hn => ?_, fun hreach => ?_⟩⟩
  · exact (hk.reaches_header hr).trans (lift hk hr ((horder.mem_iff n).mp hn) hhead (hk.reaches_header hr) hb).reaches
  · have hpath := hk.path_from_header hr hb.1 hreach
    have hall : ∀ b, r.flow.Path (· ∈ region.blocks) region.header b →
        ∀ n, (Layout.of r k id region summary).Stands b n → n ∈ (Layout.of r k id region summary).order := by
      intro b hpath
      induction hpath with
      | here hmem =>
        intro n hn
        exact hn.unique hhead.1 ▸ horder.entry_mem
      | @snoc a b hab he hmem ih =>
        intro n hn
        obtain ⟨m, hm⟩ := exists_stands (y := Layout.of r k id region summary) hab.last
        rcases hm.edge hn (Routine.mem_targets_of_edge he) with ⟨rfl, -⟩ | hnext
        · exact ih n hm
        · exact horder.mem_of_edge (ih m hm) (edge_graph.mpr hnext)
    exact hall b hpath n hb

end Layout

end CountMotion
