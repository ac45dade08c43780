import CountMotion.Loop.Canonical
import CountMotion.Proofs.SoundFacts
import CountMotion.Proofs.Total

/-! Canonicalization always succeeds, and only adds empty blocks on the way to blocks that exist. -/
namespace CountMotion.Routine

variable {r : Routine} {target : Nat} {sources : List Nat}

/-- The routine with a new block on the way from the sources to the target. -/
def detoured (r : Routine) (target : Nat) (sources : List Nat) : Routine :=
  { r with
    blocks := r.blocks.mapIdx (fun b x =>
        if b ∈ sources then { x with term := x.term.redirect target r.blocks.length } else x) ++
      [⟨r.blocks.length, [], .jump target⟩] }

theorem length_detoured : (r.detoured target sources).blocks.length = r.blocks.length + 1 := by
  simp [detoured]

theorem bodies_detoured (r : Routine) (target : Nat) (sources : List Nat) :
    (r.detoured target sources).blocks.map (fun x => (x.id, x.body)) =
      r.blocks.map (fun x => (x.id, x.body)) ++ [(r.blocks.length, [])] := by
  rw [detoured, List.map_append]
  congr 1
  refine List.ext_getElem? fun n => ?_
  simp only [List.getElem?_map, List.getElem?_mapIdx]
  cases r.blocks[n]? with
  | none => rfl
  | some x => by_cases hn : n ∈ sources <;> simp [hn]

theorem codeAt_detoured {b : Nat} (h : b < r.blocks.length) : (r.detoured target sources).codeAt b =
    if b ∈ sources then { r.codeAt b with term := (r.codeAt b).term.redirect target r.blocks.length } else r.codeAt b := by
  refine codeAt_eq ?_
  rw [detoured, List.getElem?_append_left (by simpa using h), List.getElem?_mapIdx, getElem?_codeAt h]
  rfl

theorem codeAt_detoured_last (r : Routine) (target : Nat) (sources : List Nat) :
    (r.detoured target sources).codeAt r.blocks.length = ⟨r.blocks.length, [], .jump target⟩ := by
  refine codeAt_eq ?_
  rw [detoured, List.getElem?_append_right (by simp)]
  simp

theorem detour_eq (h : ∀ s ∈ sources, s < r.blocks.length) (hn : sources.Nodup) :
    r.detour target sources = .ok (r.detoured target sources, r.blocks.length) := by
  -- after some sources, exactly these lead to the new block
  obtain ⟨wired, hok, rfl⟩ := foldlM_total
    (f := fun (x : Routine) (source : Nat) =>
      x.modifyBlock source fun b => { b with term := b.term.redirect target r.nextBlock })
    (fun done x => x = r.detoured target done) (l := sources) (b := r.detoured target []) rfl
    (by
      rintro before s after _ hl rfl
      have hs : s < r.blocks.length := h s (by rw [← hl]; simp)
      have hnew : s ∉ before := by
        rw [← hl] at hn
        exact fun hmem => (List.nodup_append.mp hn).2.2 s hmem s (.head _) rfl
      refine ⟨_, by rw [modifyBlock, if_pos (by rw [length_detoured]; exact Nat.lt_succ_of_lt hs)], ?_⟩
      simp only [detoured, Routine.mk.injEq, and_true, true_and]
      refine List.ext_getElem? fun n => ?_
      rw [List.getElem?_modify]
      by_cases hlt : n < r.blocks.length
      · rw [List.getElem?_append_left (by simpa using hlt), List.getElem?_append_left (by simpa using hlt),
          List.getElem?_mapIdx, List.getElem?_mapIdx, List.getElem?_eq_getElem hlt]
        by_cases hsn : s = n
        · subst hsn
          simp [hnew, nextBlock]
        · simp [hsn, Ne.symm hsn]
      · have hsn : s ≠ n := by omega
        rw [List.getElem?_append_right (by simpa using hlt), List.getElem?_append_right (by simpa using hlt)]
        simp [hsn])
  have happend : r.append ⟨r.nextBlock, [], .jump target⟩ = .ok (r.detoured target []) := by
    rw [append, if_pos rfl]
    simp [detoured, nextBlock, List.mapIdx_eq_zipIdx_map]
  rw [detour]
  simp only [bind, Except.bind, happend]
  rw [hok]
  rfl

/-- One addition: a detour to an existing block, which the entry follows if it was the target. -/
structure Detours (r wider : Routine) : Prop where
  detoured : ∃ target sources, target < r.blocks.length ∧
    (wider = r.detoured target sources ∨
      r.entry = target ∧ wider = { r.detoured target sources with entry := r.blocks.length })

inductive Widens : Routine → Routine → Prop where
  | refl (r : Routine) : Widens r r
  | step {r wider base : Routine} (h : r.Detours wider) (rest : Widens wider base) : Widens r base

theorem Detours.entry_lt {wider : Routine} (h : r.Detours wider) (hr : r.entry < r.blocks.length) :
    wider.entry < wider.blocks.length := by
  obtain ⟨target, sources, -, rfl | ⟨-, rfl⟩⟩ := h.detoured
  · rw [length_detoured]
    exact Nat.lt_succ_of_lt hr
  · exact Nat.lt_of_lt_of_eq (Nat.lt_succ_self _) length_detoured.symm

theorem Widens.entry_lt {base : Routine} (h : r.Widens base) (hr : r.entry < r.blocks.length) :
    base.entry < base.blocks.length := by
  induction h with
  | refl => exact hr
  | step hd _ ih => exact ih (hd.entry_lt hr)

theorem Widens.same {base : Routine} (h : r.Widens base) : base.name = r.name ∧ base.storage = r.storage := by
  induction h with
  | refl => exact ⟨rfl, rfl⟩
  | step hd _ ih =>
    obtain ⟨target, sources, -, rfl | ⟨-, rfl⟩⟩ := hd.detoured
    · exact ih
    · exact ih

/-- One addition: a preheader for a loop without one, or for a loop that shares an exit, one of its own. -/
inductive Completes (r : Routine) : Routine → Prop where
  | preheader {h : BlockId} {sources : List BlockId} (header : r.flow.Header r.entry h)
      (lacks : ∀ p, ¬ r.flow.Preheader r.entry h p)
      (outside : ∀ x, x ∈ sources ↔ r.flow.Edge x h ∧ ¬ r.flow.InLoop r.entry h x) :
      Completes r { r.detoured h sources with entry := if r.entry = h then r.blocks.length else r.entry }
  | exit {h e : BlockId} {sources : List BlockId} (header : r.flow.Header r.entry h)
      (left : ¬ r.flow.InLoop r.entry h e)
      (inside : ∀ x, x ∈ sources ↔ r.flow.Edge x e ∧ r.flow.InLoop r.entry h x) (used : ∃ x, x ∈ sources)
      (shared : ∃ x, r.flow.Edge x e ∧ ¬ r.flow.InLoop r.entry h x) : Completes r (r.detoured e sources)

theorem Completes.detours {wider : Routine} (h : r.Completes wider) : r.Detours wider := by
  cases h with
  | @preheader h sources header =>
    obtain ⟨l, hl⟩ := header
    refine ⟨h, sources, size_flow ▸ hl.edge.2, ?_⟩
    by_cases hentry : r.entry = h
    · exact .inr ⟨hentry, by rw [if_pos hentry]⟩
    · exact .inl (by rw [if_neg hentry]; rfl)
  | @exit h e sources _ _ inside used =>
    obtain ⟨x, hx⟩ := used
    exact ⟨e, sources, size_flow ▸ ((inside x).mp hx).1.2, .inl rfl⟩

/-- The first thing that a loop lacks, with the edges read without a check. -/
def lacking (f : Forest) (l : Region) : Option Lack :=
  match l.preheader with
  | none => some (.preheader l.header ((f.back.next l.header).filter fun p => !l.holds p))
  | some _ =>
    l.exits.findSome? fun e =>
      if (f.back.next e).all l.holds then none else some (.dedicatedExit e ((f.back.next e).filter l.holds))

section Lack

variable {f : Forest} {l : Region} {i : Nat}

theorem lackOf_eq (hf : f.Shaped r.flow r.entry) (hl : f.IsLoop i l) : lackOf f l = .ok (lacking f l) := by
  rw [lackOf, lacking]
  cases l.preheader with
  | none =>
    obtain ⟨x, hx⟩ := (hf.natural hl).header
    rw [hf.readAt_back hx.edge.2]
    rfl
  | some p =>
    refine findSomeM?_total fun e he => ?_
    rw [hf.readAt_back (hf.exit_lt hl he)]
    rfl

theorem canonical_of_lacking (hf : f.Shaped r.flow r.entry) (hl : f.IsLoop i l) (h : lacking f l = none) :
    f.canonical l = .ok true := by
  rw [lacking] at h
  cases hp : l.preheader with
  | none => rw [hp] at h; cases h
  | some p =>
    rw [hp] at h
    refine (hf.canonical_iff hl).mpr ⟨⟨p, hp⟩, fun e he u hu => ?_⟩
    have hnone := List.findSome?_eq_none_iff.mp h e he
    split at hnone
    · next hall => exact List.all_eq_true.mp hall u ((hf.back_iff u e).mpr hu)
    · cases hnone

/-- What a loop lacks is supplied by one addition. -/
theorem supply_lacking (hf : f.Shaped r.flow r.entry) (hl : f.IsLoop i l) {lack : Lack}
    (h : lacking f l = some lack) : ∃ wider, r.supply lack = .ok wider ∧ r.Completes wider := by
  have hnat := hf.natural hl
  have hdetour : ∀ (b : Nat) (keep : Nat → Bool), r.detour b ((f.back.next b).filter keep) =
      .ok (r.detoured b ((f.back.next b).filter keep), r.blocks.length) := by
    intro b keep
    refine detour_eq (fun s hs => ?_) ((hf.nodup_back b).filter _)
    rw [← size_flow]
    exact ((hf.back_iff s b).mp (List.mem_filter.mp hs).1).lt_size
  rw [lacking] at h
  split at h
  · next hnone =>
    obtain rfl := Option.some.inj h
    refine ⟨_, by rw [supply, hdetour]; rfl, .preheader hnat.header (fun p hp => ?_) fun x => ?_⟩
    · rw [(hnat.preheader_iff p).mpr hp] at hnone
      cases hnone
    · rw [List.mem_filter, hf.back_iff, ← hnat.holds_iff, Bool.not_eq_true', Bool.not_eq_true]
  · obtain ⟨e, he, hlack⟩ := List.exists_of_findSome?_eq_some h
    split at hlack
    · cases hlack
    · next hshared =>
      obtain rfl := Option.some.inj hlack
      have hinside : ∀ x, x ∈ (f.back.next e).filter l.holds ↔ r.flow.Edge x e ∧ r.flow.InLoop r.entry l.header x := by
        intro x
        rw [List.mem_filter, hf.back_iff, ← hnat.holds_iff]
      obtain ⟨hout, x, hx, hin⟩ := (hnat.exit_iff e).mp he
      refine ⟨_, by rw [supply, hdetour]; rfl, .exit hnat.header (fun hin => hout ((hnat.holds_iff e).mpr hin)) hinside
        ⟨x, (hinside x).mpr ⟨hx, (hnat.holds_iff x).mp hin⟩⟩ ?_⟩
      obtain ⟨y, hy, hyout⟩ := List.all_eq_false.mp (Bool.not_eq_true _ ▸ hshared)
      exact ⟨y, (hf.back_iff y e).mp hy, fun hin => hyout ((hnat.holds_iff y).mpr hin)⟩

end Lack

/-- Either all loops are canonical, or the first that is not gets one addition. -/
theorem canonicalizeOnce_cases (h : r.entry < r.blocks.length) :
    ∃ dom f, r.domTree = .ok dom ∧ Forest.build r dom = .ok f ∧ f.Exact r.flow r.entry ∧
      (r.canonicalizeOnce = .ok none ∧ (∀ l ∈ f.regions, f.canonical l = .ok true) ∨
        ∃ wider, r.canonicalizeOnce = .ok (some wider) ∧ r.Completes wider) := by
  obtain ⟨dom, hdom, hexact⟩ := r.domTree_exact h
  obtain ⟨f, hbuild, hf⟩ := Forest.build_exact h hexact
  refine ⟨dom, f, hdom, hbuild, hf, ?_⟩
  have hloop : ∀ l ∈ f.regions.tail, ∃ i, f.IsLoop i l := by
    intro l hl
    obtain ⟨i, hi⟩ := List.getElem?_of_mem hl
    rw [List.getElem?_tail] at hi
    exact ⟨i + 1, Nat.succ_ne_zero i, hi⟩
  have hlacks : f.regions.tail.findSomeM? (lackOf f) = .ok (f.regions.tail.findSome? (lacking f)) := by
    refine findSomeM?_total fun l hl => ?_
    obtain ⟨i, hi⟩ := hloop l hl
    exact lackOf_eq hf.toShaped hi
  rw [canonicalizeOnce, hdom]
  simp only [bind, Except.bind, hbuild, hlacks]
  cases hlack : f.regions.tail.findSome? (lacking f) with
  | none =>
    refine .inl ⟨rfl, fun l hl => ?_⟩
    obtain ⟨i, hi⟩ := List.getElem?_of_mem hl
    cases i with
    | zero => exact hf.canonical_root hi
    | succ i =>
      refine canonical_of_lacking hf.toShaped ⟨Nat.succ_ne_zero i, hi⟩ ?_
      rw [← List.getElem?_tail] at hi
      exact List.findSome?_eq_none_iff.mp hlack l (List.mem_of_getElem? hi)
  | some lack =>
    obtain ⟨l, hmem, hl⟩ := List.exists_of_findSome?_eq_some hlack
    obtain ⟨i, hi⟩ := hloop l hmem
    obtain ⟨wider, hsupply, hc⟩ := supply_lacking hf.toShaped hi hl
    refine .inr ⟨wider, ?_, hc⟩
    simp only [hsupply]
    rfl

theorem canonicalizeOnce_total (h : r.entry < r.blocks.length) : ∃ o, r.canonicalizeOnce = .ok o ∧
    ∀ wider, o = some wider → r.Detours wider := by
  obtain ⟨-, -, -, -, -, ⟨hnone, -⟩ | ⟨wider, hsome, hc⟩⟩ := canonicalizeOnce_cases h
  · exact ⟨none, hnone, fun _ hw => by cases hw⟩
  · exact ⟨some wider, hsome, fun _ hw => Option.some.inj hw ▸ hc.detours⟩

private theorem canonicalizeUpTo_total (limit : Nat) (h : r.entry < r.blocks.length) : ∃ base changed,
    canonicalizeUpTo limit r = .ok (base, changed) ∧ r.Widens base ∧ (changed = false → base = r) := by
  induction limit generalizing r with
  | zero => exact ⟨r, false, rfl, .refl r, fun _ => rfl⟩
  | succ limit ih =>
    obtain ⟨o, ho, hdetours⟩ := canonicalizeOnce_total h
    rw [canonicalizeUpTo, ho]
    cases o with
    | none => exact ⟨r, false, rfl, .refl r, fun _ => rfl⟩
    | some wider =>
      have hd := hdetours wider rfl
      obtain ⟨base, changed, hok, hbase, -⟩ := ih (hd.entry_lt h)
      refine ⟨base, true, ?_, .step hd hbase, fun hc => by cases hc⟩
      simp only [bind, Except.bind, hok]
      rfl

/-- What every addition keeps, canonicalization keeps. -/
theorem canonicalizeUpTo_keeps {p : Routine → Prop} (hentry : ∀ {r}, p r → r.entry < r.blocks.length)
    (hstep : ∀ {r wider}, p r → r.Completes wider → p wider) {limit : Nat} {base : Routine} {changed : Bool} (h : p r)
    (hok : canonicalizeUpTo limit r = .ok (base, changed)) : p base := by
  induction limit generalizing r changed with
  | zero =>
    cases hok
    exact h
  | succ limit ih =>
    rw [canonicalizeUpTo] at hok
    obtain ⟨-, -, -, -, -, ⟨hnone, -⟩ | ⟨wider, hsome, hc⟩⟩ := canonicalizeOnce_cases (hentry h)
    · rw [hnone] at hok
      cases hok
      exact h
    · rw [hsome] at hok
      obtain ⟨o, ho, hok⟩ := bind_eq_ok.mp hok
      obtain rfl := Except.ok.inj ho
      obtain ⟨⟨last, _⟩, hrest, hlast⟩ := bind_eq_ok.mp hok
      obtain rfl : last = base := congrArg Prod.fst (Except.ok.inj hlast)
      exact ih (hstep h hc) hrest

theorem canonicalize_total (h : r.entry < r.blocks.length) : ∃ base changed,
    r.canonicalize = .ok (base, changed) ∧ base.entry < base.blocks.length ∧ (changed = false → base = r) ∧
      r.Widens base := by
  obtain ⟨base, changed, hbase, hwide, hsame⟩ := canonicalizeUpTo_total (4 * r.blocks.length + 8) h
  exact ⟨base, changed, hbase, hwide.entry_lt h, hsame, hwide⟩

end CountMotion.Routine
