import CountMotion.Proofs.Crossings
import CountMotion.Proofs.Lawfulness
import Mathlib.Order.Interval.Finset.Nat

/-! How far canonicalization gets: every addition brings the loops nearer to what they need, which
grows with the pairs of a loop and an exit, while the limit grows with the blocks. -/
namespace CountMotion

open Finset

theorem Terminator.mem_targets_redirect_iff {old new target : BlockId} {t : Terminator} :
    target ∈ (t.redirect old new).targets ↔ target ∈ t.targets ∧ target ≠ old ∨ old ∈ t.targets ∧ target = new := by
  rw [targets_redirect, List.mem_map]
  constructor
  · rintro ⟨x, hx, rfl⟩
    rw [redirect.swap]
    split
    · rename_i heq
      exact .inr ⟨heq ▸ hx, rfl⟩
    · rename_i hne
      exact .inl ⟨hx, hne⟩
  · rintro (⟨hx, hne⟩ | ⟨hx, rfl⟩)
    · exact ⟨target, hx, if_neg hne⟩
    · exact ⟨old, hx, if_pos rfl⟩

theorem Region.Natural.mem_exits {g : Graph} {entry e : Nat} {l : Region} (h : l.Natural g entry) :
    e ∈ l.exits ↔ e ∈ g.exits entry l.header := by
  simp only [h.exit_iff, Graph.mem_exits, h.holds_iff]

namespace Routine

variable {r wider : Routine} {odd : Var → Prop} {target b t : BlockId} {sources : List BlockId}

theorem Wired.edge_iff (h : r.Wired) : r.flow.Edge b t ↔ t ∈ (r.codeAt b).term.targets :=
  ⟨mem_targets_of_edge, h.edge⟩

theorem Lawful.rewires (h : r.Lawful odd) (htarget : target < r.blocks.length)
    (hs : ∀ x ∈ sources, r.flow.Edge x target) :
    r.flow.Rewires (r.detoured target sources).flow target (· ∈ sources) := by
  have hwide : (r.detoured target sources).Wired := (h.detours ⟨target, sources, htarget, .inl rfl⟩).wired
  refine ⟨by rw [size_flow, size_flow, length_detoured], by rwa [size_flow], hs _, fun {x y} => ?_⟩
  have hlt : ∀ y, r.flow.Edge x y → x < r.blocks.length := fun y he => size_flow ▸ he.lt_size
  by_cases hx : x < r.blocks.length
  · rw [hwide.edge_iff, h.wired.edge_iff, size_flow, codeAt_detoured hx]
    by_cases hmem : x ∈ sources
    · rw [if_pos hmem]
      simp only [Terminator.mem_targets_redirect_iff, mem_targets_of_edge (hs x hmem), hmem, Nat.ne_of_lt hx, true_and,
        false_and, or_false]
    · rw [if_neg hmem]
      simp only [hmem, Nat.ne_of_lt hx, false_and, not_false_eq_true, and_true, or_false]
  · have hold : ∀ y, ¬ r.flow.Edge x y := fun y he => hx (hlt y he)
    have hmem : x ∉ sources := fun hm => hold target (hs x hm)
    simp only [hold, hmem, false_and, false_or, size_flow]
    constructor
    · intro he
      have hsize := he.lt_size
      rw [size_flow, length_detoured] at hsize
      obtain rfl : x = r.blocks.length := by omega
      rw [hwide.edge_iff, codeAt_detoured_last] at he
      exact ⟨rfl, List.mem_singleton.mp he⟩
    · rintro ⟨rfl, rfl⟩
      rw [hwide.edge_iff, codeAt_detoured_last]
      exact .head _

/-- Every addition brings the loops nearer to what they need. -/
theorem Completes.lack_lt (hc : r.Completes wider) (h : r.Lawful odd) :
    wider.flow.lack wider.entry < r.flow.lack r.entry ∧
      wider.flow.crossings wider.entry = r.flow.crossings r.entry := by
  have hentry : r.entry ≠ r.flow.size := by
    rw [size_flow]
    exact Nat.ne_of_lt h.entry
  cases hc with
  | preheader header lacks outside =>
    have hw := h.rewires (size_flow ▸ header.lt_size) fun x hx => ((outside x).mp hx).1
    exact hw.lack_preheader header outside hentry (by rw [size_flow]) lacks
  | exit header left inside used shared =>
    obtain ⟨x, hx⟩ := used
    have hw := h.rewires (size_flow ▸ ((inside x).mp hx).1.2) fun x hx => ((inside x).mp hx).1
    exact hw.lack_exit header left inside hentry ⟨x, hx⟩ shared

structure Finished (r : Routine) : Prop where
  canonical : ∃ dom f, r.domTree = .ok dom ∧ Forest.build r dom = .ok f ∧ ∀ l ∈ f.regions, f.canonical l = .ok true
  still : ∀ limit, canonicalizeUpTo limit r = .ok (r, false)

theorem finished_of_canonicalizeOnce (h : r.entry < r.blocks.length) (hnone : r.canonicalizeOnce = .ok none) :
    r.Finished := by
  obtain ⟨dom, f, hdom, hbuild, -, ⟨-, hall⟩ | ⟨wider, hsome, -⟩⟩ := canonicalizeOnce_cases h
  · refine ⟨⟨dom, f, hdom, hbuild, hall⟩, fun limit => ?_⟩
    cases limit with
    | zero => rfl
    | succ limit =>
      rw [canonicalizeUpTo, hnone]
      rfl
  · rw [hnone] at hsome
    cases hsome

theorem changed_of_canonicalizeOnce {base : Routine} {limit : Nat} {changed : Bool}
    (hsome : r.canonicalizeOnce = .ok (some wider)) (h : canonicalizeUpTo (limit + 1) r = .ok (base, changed)) :
    changed = true := by
  rw [canonicalizeUpTo, hsome] at h
  obtain ⟨o, ho, h⟩ := bind_eq_ok.mp h
  obtain rfl := Except.ok.inj ho
  obtain ⟨x, -, hx⟩ := bind_eq_ok.mp h
  exact (congrArg Prod.snd (Except.ok.inj hx)).symm

/-- Canonicalization finishes, or spends its limit, which then is less than what the loops lacked. -/
theorem canonicalizeUpTo_cases (limit : Nat) (h : r.Lawful odd) : ∃ base changed,
    canonicalizeUpTo limit r = .ok (base, changed) ∧ base.Lawful odd ∧
      base.flow.crossings base.entry = r.flow.crossings r.entry ∧ base.blocks.length ≤ r.blocks.length + limit ∧
      (base.Finished ∨ base.blocks.length = r.blocks.length + limit ∧ limit < r.flow.lack r.entry ∧
        ∃ wider, base.canonicalizeOnce = .ok (some wider)) := by
  induction limit generalizing r with
  | zero =>
    refine ⟨r, false, rfl, h, rfl, Nat.le_refl _, ?_⟩
    obtain ⟨-, -, -, -, -, ⟨hnone, -⟩ | ⟨wider, hsome, hc⟩⟩ := canonicalizeOnce_cases h.entry
    · exact .inl (finished_of_canonicalizeOnce h.entry hnone)
    · exact .inr ⟨rfl, Nat.zero_lt_of_lt (hc.lack_lt h).1, wider, hsome⟩
  | succ limit ih =>
    obtain ⟨-, -, -, -, -, ⟨hnone, -⟩ | ⟨wider, hsome, hc⟩⟩ := canonicalizeOnce_cases h.entry
    · have hdone := finished_of_canonicalizeOnce h.entry hnone
      exact ⟨r, false, hdone.still _, h, rfl, Nat.le_add_right _ _, .inl hdone⟩
    · obtain ⟨base, changed, hok, hbase, hcrossings, hlen, hcases⟩ := ih (h.detours hc.detours)
      have hwider : wider.blocks.length = r.blocks.length + 1 := by
        cases hc <;> exact length_detoured
      obtain ⟨hlack, hkept⟩ := hc.lack_lt h
      refine ⟨base, true, ?_, hbase, hcrossings.trans hkept, by omega, hcases.imp_right fun hspent => ?_⟩
      · rw [canonicalizeUpTo, hsome]
        simp only [bind, Except.bind, hok]
        rfl
      · exact ⟨by omega, by omega, hspent.2.2⟩

theorem dedicated_of_canonical {f : Forest} (hf : f.Exact r.flow r.entry)
    (hall : ∀ l ∈ f.regions, f.canonical l = .ok true) : r.flow.Dedicated r.entry := by
  intro header x y e hh hx hin hout hy
  obtain ⟨i, l, hl, rfl⟩ := hf.exists_loop hh
  have hnat := hf.natural hl
  obtain ⟨-, hexits⟩ := (hf.canonical_iff hl).mp (hall l (List.mem_of_getElem? hl.2))
  have he : e ∈ l.exits := hnat.mem_exits.mpr (Graph.mem_exits.mpr ⟨hout, x, hx, hin⟩)
  exact (hnat.holds_iff y).mp (hexits e he y hy)

theorem exists_not_canonical {f : Forest} (hf : f.Exact r.flow r.entry) (h : ¬ r.flow.Dedicated r.entry) :
    ∃ l ∈ f.regions, f.canonical l = .ok false := by
  by_contra hno
  refine h (dedicated_of_canonical hf fun l hl => ?_)
  obtain ⟨i, hi⟩ := List.getElem?_of_mem hl
  cases i with
  | zero => exact hf.canonical_root hi
  | succ i =>
    obtain ⟨c, hc⟩ : ∃ c, f.canonical l = .ok c := ⟨_, hf.canonical_eq ⟨Nat.succ_ne_zero i, hi⟩⟩
    cases c with
    | true => exact hc
    | false => exact absurd ⟨l, hl, hc⟩ hno

end Routine

namespace Forest

variable {f : Forest} {g : Graph} {entry : Nat}

/-- A preheader for each loop, and two blocks for each of its exits. -/
def demand (f : Forest) : Nat := (f.regions.tail.map fun l => 1 + 2 * l.exits.length).sum

theorem isLoop_succ {i : Nat} {l : Region} : f.IsLoop (i + 1) l ↔ f.regions.tail[i]? = some l := by
  rw [IsLoop, List.getElem?_tail]
  exact and_iff_right (Nat.succ_ne_zero i)

theorem Exact.headers_nodup (hf : Exact g entry f) : (f.regions.tail.map Region.header).Nodup := by
  refine List.nodup_iff_getElem?_ne_getElem?.mpr fun i j hij hj heq => ?_
  rw [List.length_map] at hj
  have hi := Nat.lt_trans hij hj
  rw [List.getElem?_map, List.getElem?_map, List.getElem?_eq_getElem hi, List.getElem?_eq_getElem hj] at heq
  have := hf.header_inj (isLoop_succ.mpr (List.getElem?_eq_getElem hi)) (isLoop_succ.mpr (List.getElem?_eq_getElem hj))
    (Option.some.inj heq)
  omega

theorem Exact.headers_eq (hf : Exact g entry f) : g.headers entry = (f.regions.tail.map Region.header).toFinset := by
  ext h
  rw [Graph.mem_headers, List.mem_toFinset, List.mem_map]
  constructor
  · intro hh
    obtain ⟨i, l, hl, rfl⟩ := hf.exists_loop hh
    obtain ⟨i, rfl⟩ := Nat.exists_eq_succ_of_ne_zero hl.1
    exact ⟨l, List.mem_of_getElem? (isLoop_succ.mp hl), rfl⟩
  · rintro ⟨l, hl, rfl⟩
    obtain ⟨i, hi⟩ := List.getElem?_of_mem hl
    exact (hf.natural (isLoop_succ.mpr hi)).header

theorem Exact.lack_le (hf : Exact g entry f) : g.lack entry ≤ f.demand := by
  refine (g.lack_le entry).trans ?_
  rw [hf.headers_eq, List.sum_toFinset _ hf.headers_nodup, List.map_map]
  refine List.sum_le_sum fun l hl => ?_
  obtain ⟨i, hi⟩ := List.getElem?_of_mem hl
  have hnat := hf.natural (isLoop_succ.mpr hi)
  have hexits : g.exits entry l.header ⊆ l.exits.toFinset :=
    fun e he => List.mem_toFinset.mpr (hnat.mem_exits.mpr he)
  have hcard := (card_le_card hexits).trans l.exits.toFinset_card_le
  simp only [Function.comp_apply]
  omega

end Forest

/-- Canonicalization finishes, or it has spent its limit on loops that demand more. With a limit
that meets the demand of the loops it always finishes. -/
theorem canonicalize_finishes_or_spends (r : Routine) (h : r.check = .ok ()) : ∃ dom f base changed,
    r.domTree = .ok dom ∧ Forest.build r dom = .ok f ∧ r.canonicalize = .ok (base, changed) ∧
      (base.Finished ∨ base.blocks.length = r.blocks.length + (4 * r.blocks.length + 8) ∧
        4 * r.blocks.length + 8 < f.demand) ∧
      ∀ limit, f.demand ≤ limit →
        ∃ base changed, Routine.canonicalizeUpTo limit r = .ok (base, changed) ∧ base.Finished := by
  have hlawful := Routine.lawful_of_check h fun _ => False
  obtain ⟨dom, hdom, hexact⟩ := r.domTree_exact hlawful.entry
  obtain ⟨f, hbuild, hf⟩ := Forest.build_exact hlawful.entry hexact
  have hlack := hf.lack_le
  obtain ⟨base, changed, hok, -, -, -, hcases⟩ := Routine.canonicalizeUpTo_cases (4 * r.blocks.length + 8) hlawful
  refine ⟨dom, f, base, changed, hdom, hbuild, hok, hcases.imp_right fun hspent => ?_, fun limit hlimit => ?_⟩
  · exact ⟨hspent.1, hspent.2.1.trans_le hlack⟩
  · obtain ⟨base, changed, hok, -, -, -, hdone | ⟨-, hspent, -⟩⟩ := Routine.canonicalizeUpTo_cases limit hlawful
    · exact ⟨base, changed, hok, hdone⟩
    · omega

section Crowded

/-- Loops each inside the one before, all left to the same exits from each of their headers. -/
def crowded (n : Nat) : Routine where
  name := "crowded"
  params := [0]
  blocks :=
    (List.range n).map (fun i => ⟨i, [], .switch 0
      (((List.range (2 * n)).filter fun t => n ≤ t ∨ t = i + 1 ∨ i + 1 = n).map fun t => (t, t)) n⟩) ++
    (List.range n).map fun i => ⟨n + i, [], .ret 0⟩
  entry := 0
  storage := [.trivial]

theorem canonicalize_finishes_or_spends_crowded : (crowded 2).check = .ok () ∧
    ((crowded 2).domTree.bind (Forest.build (crowded 2))).map Forest.demand = .ok 12 ∧
    (crowded 2).canonicalize.map (fun x => (x.1.blocks.length, x.2)) = .ok (11, true) ∧
    ∃ dom f base changed, (crowded 2).domTree = .ok dom ∧ Forest.build (crowded 2) dom = .ok f ∧
      (crowded 2).canonicalize = .ok (base, changed) ∧
      (base.Finished ∨ base.blocks.length = (crowded 2).blocks.length + (4 * (crowded 2).blocks.length + 8) ∧
        4 * (crowded 2).blocks.length + 8 < f.demand) ∧
      ∀ limit, f.demand ≤ limit →
        ∃ base changed, Routine.canonicalizeUpTo limit (crowded 2) = .ok (base, changed) ∧ base.Finished :=
  ⟨rfl, by decide +kernel, by decide +kernel, canonicalize_finishes_or_spends (crowded 2) rfl⟩

variable {n a b h : Nat}

theorem length_crowded : (crowded n).blocks.length = 2 * n := by
  simp only [crowded, List.length_append, List.length_map, List.length_range]
  omega

theorem edge_crowded : (crowded n).flow.Edge a b ↔ a < n ∧ b < 2 * n ∧ (n ≤ b ∨ b = a + 1 ∨ a + 1 = n) := by
  rw [Routine.edge_flow, Routine.mem_next_flow, length_crowded]
  constructor
  · rintro ⟨x, hx, ht, hb⟩
    rw [crowded, List.getElem?_append, List.length_map, List.length_range] at hx
    split at hx
    · rename_i ha
      rw [List.getElem?_map, List.getElem?_range ha] at hx
      obtain rfl := Option.some.inj hx
      refine ⟨ha, hb, ?_⟩
      simp only [Terminator.targets, List.map_map, List.mem_append, List.mem_map, List.mem_filter, List.mem_range,
        List.mem_singleton, decide_eq_true_eq, Function.comp_apply] at ht
      rcases ht with ⟨t, ⟨-, ht⟩, rfl⟩ | rfl
      · exact ht
      · exact .inl (Nat.le_refl _)
    · obtain ⟨i, -, rfl⟩ := List.mem_map.mp (List.mem_of_getElem? hx)
      cases ht
  · rintro ⟨ha, hb, ht⟩
    refine ⟨_, by rw [crowded, List.getElem?_append_left (by simpa using ha), List.getElem?_map,
      List.getElem?_range ha]; rfl, ?_, hb⟩
    refine List.mem_append_left _ (List.mem_map.mpr ⟨(b, b), ?_, rfl⟩)
    exact List.mem_map.mpr ⟨b, List.mem_filter.mpr ⟨List.mem_range.mpr hb, decide_eq_true ht⟩, rfl⟩

theorem reaches_crowded (ha : a < n) : (crowded n).flow.Reaches 0 a := by
  induction a with
  | zero => exact .refl _ 0
  | succ a ih =>
    exact (ih (by omega)).edge (edge_crowded.mpr ⟨by omega, by omega, .inr (.inl rfl)⟩)

theorem lt_of_path_crowded (hp : (crowded n).flow.Path (· ≠ h) 0 a) (hh : h < n) : a < h ∨ n ≤ a := by
  induction hp with
  | here hne => exact .inl (Nat.pos_of_ne_zero (Ne.symm hne))
  | snoc _ he hne ih =>
    obtain ⟨ha, hb, hb'⟩ := edge_crowded.mp he
    omega

theorem header_crowded (hh : h < n) : (crowded n).flow.Header 0 h := by
  have hback : (crowded n).flow.Edge (n - 1) h := edge_crowded.mpr ⟨by omega, by omega, .inr (.inr (by omega))⟩
  refine ⟨n - 1, hback, reaches_crowded (by omega), fun hp => ?_⟩
  have := lt_of_path_crowded hp hh
  omega

theorem crossed_crowded (ha : n ≤ a) (ha' : a < 2 * n) :
    range n ⊆ (crowded n).flow.crossed 0 ((crowded n).flow.Edge · a) a := by
  intro h hh
  have hheader := header_crowded (mem_range.mp hh)
  refine Graph.mem_crossed.mpr ⟨fun hin => ?_, h, edge_crowded.mpr ⟨mem_range.mp hh, ha', .inl ha⟩,
    hheader, .inl rfl, fun _ _ hin => hin⟩
  obtain ⟨y, he, -⟩ := hin.exists_next hheader
  exact Nat.not_lt.mpr ha (edge_crowded.mp he).1

theorem crossings_crowded (n : Nat) : n * n ≤ (crowded n).flow.crossings 0 := by
  have hsize : (crowded n).flow.size = 2 * n := by rw [Routine.size_flow, length_crowded]
  have hexits : Ico n (2 * n) ⊆ range (crowded n).flow.size := by
    intro a ha
    rw [hsize]
    exact mem_range.mpr (mem_Ico.mp ha).2
  calc n * n = ∑ _ ∈ Ico n (2 * n), n := by
        rw [sum_const_nat fun _ _ => rfl, Nat.card_Ico, Nat.two_mul, Nat.add_sub_cancel]
    _ ≤ ∑ a ∈ Ico n (2 * n), #((crowded n).flow.crossed 0 ((crowded n).flow.Edge · a) a) := by
        refine sum_le_sum fun a ha => ?_
        obtain ⟨ha, ha'⟩ := mem_Ico.mp ha
        simpa only [card_range] using card_le_card (crossed_crowded ha ha')
    _ ≤ (crowded n).flow.crossings 0 := sum_le_sum_of_subset hexits

/-- Where eleven loops share eleven exits, the limit is spent before all loops are canonical. -/
theorem canonicalize_stops_short : (crowded 11).check = .ok () ∧ ∃ base changed,
    (crowded 11).canonicalize = .ok (base, changed) ∧
      (∃ dom f, base.domTree = .ok dom ∧ Forest.build base dom = .ok f ∧
        ∃ l ∈ f.regions, f.canonical l = .ok false) ∧
      ∃ more, base.canonicalize = .ok (more, true) := by
  have hcheck : (crowded 11).check = .ok () := by decide +kernel
  refine ⟨hcheck, ?_⟩
  obtain ⟨base, changed, hok, hbase, hcrossings, hlen, hcases⟩ :=
    Routine.canonicalizeUpTo_cases (4 * (crowded 11).blocks.length + 8)
      (Routine.lawful_of_check hcheck fun _ => False)
  -- dedicated exits would take a block for each of the crossings
  have hshared : ¬ base.flow.Dedicated base.entry := by
    intro hd
    have hle := hd.crossings_le
    have hmany := crossings_crowded 11
    rw [hcrossings, Routine.size_flow] at hle
    rw [length_crowded] at hlen
    exact absurd (hmany.trans (hle.trans hlen)) (by decide)
  obtain ⟨dom, hdom, hexact⟩ := base.domTree_exact hbase.entry
  obtain ⟨f, hbuild, hf⟩ := Forest.build_exact hbase.entry hexact
  refine ⟨base, changed, hok, ⟨dom, f, hdom, hbuild, Routine.exists_not_canonical hf hshared⟩, ?_⟩
  obtain hdone | ⟨-, -, wider, hsome⟩ := hcases
  · obtain ⟨dom', f', hdom', hbuild', hall⟩ := hdone.canonical
    obtain rfl := Except.ok.inj (hdom.symm.trans hdom')
    obtain rfl := Except.ok.inj (hbuild.symm.trans hbuild')
    exact absurd (Routine.dedicated_of_canonical hf hall) hshared
  · obtain ⟨more, changed, hmore, -⟩ := Routine.canonicalize_total hbase.entry
    obtain rfl := Routine.changed_of_canonicalizeOnce hsome hmore
    exact ⟨more, hmore⟩

end Crowded

end CountMotion
