import CountMotion.Proofs.Agreement

/-! Closures of a pairing whose directions agree: each is found from any of its retains, two are
equal or disjoint, and a round finds the same exchanges in whatever order it tries its seeds. -/
namespace CountMotion

namespace Pairing

variable {p q : Pairing} {seed x : Point} {c c' : Closure} {m n : Member}

/-- Partners have each other, unless one is loose. -/
def Mutual (p : Pairing) : Prop :=
  ∀ m n e, n ∈ p.partners m → p.entry? n = some e → e.loose = false → m ∈ p.partners n

theorem Mutual.mem_iff {d : Point} {e e' : Entry} (hp : p.Mutual) (hx : p.retains.get? x = some e)
    (hd : p.releases.get? d = some e') (hloose : e.loose = false) (hloose' : e'.loose = false) :
    d ∈ e.partners ↔ x ∈ e'.partners := by
  constructor
  · intro hmem
    have hback := hp (.retain x) (.release d) e' (mem_partners_retain.mpr ⟨e, d, hx, hmem, rfl⟩) hd hloose'
    obtain ⟨e₀, x₀, hd₀, hmem₀, heq⟩ := mem_partners_release.mp hback
    rwa [Option.some.inj (hd.symm.trans hd₀), Member.retain.inj heq]
  · intro hmem
    have hback := hp (.release d) (.retain x) e (mem_partners_release.mpr ⟨e', x, hd, hmem, rfl⟩) hx hloose
    obtain ⟨e₀, d₀, hx₀, hmem₀, heq⟩ := mem_partners_retain.mp hback
    rwa [Option.some.inj (hx.symm.trans hx₀), Member.release.inj heq]

theorem partners_eq_nil (h : p.entry? m = none) : p.partners m = [] := by
  cases m <;> simp only [partners, h]

theorem partners_congr (h : q.entry? m = p.entry? m) : q.partners m = p.partners m := by
  cases m <;> simp only [partners, h]

namespace Closes

theorem has (h : p.Closes seed c) (h' : p.Closes seed c') (hm : c.Has m) : c'.Has m :=
  h.tied (s := c'.Has) h'.seeded (fun _ _ hm hq => h'.closed hm hq) m hm

private theorem le_antisymm {x y : Point} (hxy : x.le y) (hyx : y.le x) : x = y := by
  obtain ⟨b, i⟩ := x
  obtain ⟨b', i'⟩ := y
  simp only [Point.le, Bool.or_eq_true, Bool.and_eq_true, decide_eq_true_eq, beq_iff_eq] at hxy hyx
  rcases hxy with hlt | ⟨rfl, hle⟩
  · rcases hyx with hgt | ⟨rfl, -⟩
    · exact absurd (Nat.lt_trans hlt hgt) (Nat.lt_irrefl _)
    · exact absurd hlt (Nat.lt_irrefl _)
  · rcases hyx with hgt | ⟨-, hge⟩
    · exact absurd hgt (Nat.lt_irrefl _)
    · rw [Nat.le_antisymm hle hge]

theorem unique (h : p.Closes seed c) (h' : p.Closes seed c') : c' = c := by
  have hhas : ∀ m, c'.Has m ↔ c.Has m := fun m => ⟨h'.has h, h.has h'⟩
  have hretains : c'.retains = c.retains :=
    List.Perm.eq_of_pairwise (fun _ _ _ _ => le_antisymm) h'.sorted_retains h.sorted_retains
      ((List.perm_ext_iff_of_nodup h'.nodup_retains h.nodup_retains).mpr fun x => hhas (.retain x))
  have hreleases : c'.releases = c.releases :=
    List.Perm.eq_of_pairwise (fun _ _ _ _ => le_antisymm) h'.sorted_releases h.sorted_releases
      ((List.perm_ext_iff_of_nodup h'.nodup_releases h.nodup_releases).mpr fun x => hhas (.release x))
  have hroot : c'.root = c.root := by
    obtain ⟨e, he, -, hroot, -⟩ := sound_iff.mp (h.sound (m := .retain seed) h.seeded)
    obtain ⟨e', he', -, hroot', -⟩ := sound_iff.mp (h'.sound (m := .retain seed) h'.seeded)
    rw [← hroot, ← hroot', Option.some.inj (he.symm.trans he')]
  have hused : c'.used = c.used := by
    rw [Bool.eq_iff_iff, h'.used, h.used]
    simp only [hhas]
  cases c
  cases c'
  simp_all

/-- The seed has an entry, so closing succeeds where everything found is sound. -/
theorem close_eq (h : p.Closes seed c) : p.close seed = some c := by
  obtain ⟨e, he, -, hroot, -⟩ := sound_iff.mp (h.sound (m := .retain seed) h.seeded)
  have hall : (explore p.members p.partners [.retain seed] []).all (p.sound e.root) := by
    rw [List.all_eq_true, hroot]
    refine fun m hm => h.sound ?_
    refine explore_induct (p := c.Has) (by simp) (fun a ha _ => ?_) (fun a b _ ha hb _ => h.closed ha hb) m hm
    rw [List.mem_singleton.mp ha]
    exact h.seeded
  have hsome : (p.close seed).isSome := by
    rw [close, show p.retains.get? seed = some e from he, Option.bind_eq_bind, Option.bind_some]
    dsimp only
    rw [if_pos hall]
    rfl
  obtain ⟨c', hc'⟩ := Option.isSome_iff_exists.mp hsome
  rw [hc', h.unique (closes_of_close hc')]

theorem of_mem (hp : p.Mutual) (h : p.Closes seed c) (hx : x ∈ c.retains) : p.Closes x c := by
  refine { h with seeded := hx, tied := fun {s} hs hstep => ?_ }
  -- what holds of a member and passes to partners holds of the seed, from which the member was found
  have hback : ∀ m, c.Has m → c.Has m ∧ (s m → s (.retain seed)) := by
    refine h.tied (s := fun m => c.Has m ∧ (s m → s (.retain seed))) ⟨h.seeded, id⟩ fun m n hm hn => ?_
    have hhas := h.closed hm.1 hn
    obtain ⟨e, he, hloose, -⟩ := sound_iff.mp (h.sound hhas)
    exact ⟨hhas, fun hs => hm.2 (hstep n m hs (hp m n e hn he hloose))⟩
  exact h.tied ((hback (.retain x) hx).2 hs) hstep

/-- Two closures that share an operation are the same. -/
theorem eq_of_has (hp : p.Mutual) {seed' : Point} (h : p.Closes seed c) (h' : p.Closes seed' c') (hm : c.Has m)
    (hm' : c'.Has m) : c' = c := by
  cases m with
  | retain x => exact (h.of_mem hp hm).unique (h'.of_mem hp hm')
  | release y =>
    obtain ⟨e, he, -, -, hne, -⟩ := sound_iff.mp (h.sound hm)
    obtain ⟨x, hx⟩ := List.exists_mem_of_ne_nil _ hne
    have hpart : .retain x ∈ p.partners (.release y) := mem_partners_release.mpr ⟨e, x, he, hx, rfl⟩
    exact (h.of_mem hp (h.closed hm hpart)).unique (h'.of_mem hp (h'.closed hm' hpart))

theorem congr (h : p.Closes seed c) (hq : ∀ m, c.Has m → q.entry? m = p.entry? m) : q.Closes seed c := by
  have hpart : ∀ m, c.Has m → q.partners m = p.partners m := fun m hm => partners_congr (hq m hm)
  refine { h with
    sound := fun {m} hm => ?_
    closed := fun {m n} hm hn => ?_
    tied := fun {s} hs hstep m hm => ?_
    used := ?_ }
  · obtain ⟨e, he, hloose, hroot, hne, hsome⟩ := sound_iff.mp (h.sound hm)
    refine sound_iff.mpr ⟨e, (hq m hm).trans he, hloose, hroot, hne, fun n hn => ?_⟩
    rw [hpart m hm] at hn
    rw [hq n (h.closed hm hn)]
    exact hsome n hn
  · rw [hpart m hm] at hn
    exact h.closed hm hn
  · refine (h.tied (s := fun m => c.Has m ∧ s m) ⟨h.seeded, hs⟩ (fun m n hm hn => ?_) m hm).2
    refine ⟨h.closed hm.1 hn, hstep m n hm.2 ?_⟩
    rwa [hpart m hm.1]
  · rw [h.used]
    refine exists_congr fun m => exists_congr fun e => and_congr_right fun hm => ?_
    rw [hq m hm]

end Closes

theorem close_eq_some_iff : p.close seed = some c ↔ p.Closes seed c := ⟨closes_of_close, Closes.close_eq⟩

section Erasing

theorem entered_erase_of_has (h : c.Has m) : Pairing.entry? (p.erase c) m = none := by
  cases m with
  | retain x => exact (TombMap.get?_foldl_erase _).trans (if_pos h)
  | release x => exact (TombMap.get?_foldl_erase _).trans (if_pos h)

theorem entered_erase (h : ¬ c.Has m) : Pairing.entry? (p.erase c) m = p.entry? m := by
  cases m with
  | retain x => exact (TombMap.get?_foldl_erase _).trans (if_neg h)
  | release x => exact (TombMap.get?_foldl_erase _).trans (if_neg h)

theorem entered_erased {erased : List Closure} (h : ∀ c ∈ erased, ¬ c.Has m) :
    Pairing.entry? (erased.foldl erase p) m = p.entry? m := by
  induction erased generalizing p with
  | nil => rfl
  | cons c erased ih =>
    rw [List.foldl_cons, ih fun d hd => h d (.tail _ hd), entered_erase (h c (.head _))]

theorem not_has_of_entered {e : Entry} (h : Pairing.entry? (p.erase c) m = some e) : ¬ c.Has m := by
  intro hm
  cases (entered_erase_of_has hm).symm.trans h

theorem Mutual.erase (hp : p.Mutual) (c : Closure) : (p.erase c).Mutual := by
  intro m n e hn he hloose
  have hm : ¬ c.Has m := by
    intro hm
    rw [partners_eq_nil (entered_erase_of_has hm)] at hn
    cases hn
  have hout := not_has_of_entered he
  rw [partners_congr (entered_erase hm)] at hn
  rw [entered_erase hout] at he
  rw [partners_congr (entered_erase hout)]
  exact hp m n e hn he hloose

/-- Erasing a closure takes it from all seeds, and no other closure from any. -/
theorem close_erase (hp : p.Mutual) (hc : p.close seed = some c) :
    (p.erase c).close x = some c' ↔ p.close x = some c' ∧ c' ≠ c := by
  rw [close_eq_some_iff, close_eq_some_iff]
  have hc := closes_of_close hc
  constructor
  · intro h
    have hout : ∀ m, c'.Has m → ¬ c.Has m := by
      intro m hm
      obtain ⟨e, he, -⟩ := sound_iff.mp (h.sound hm)
      exact not_has_of_entered he
    refine ⟨h.congr fun m hm => (entered_erase (hout m hm)).symm, fun heq => ?_⟩
    exact hout (.retain x) h.seeded (heq ▸ h.seeded)
  · rintro ⟨h, hne⟩
    exact h.congr fun m hm => entered_erase fun hm' => hne (hc.eq_of_has hp h hm' hm)

/-- Erasing any closures leaves every other one. -/
theorem close_erased {erased : List Closure} (hp : p.Mutual) (herased : ∀ c ∈ erased, ∃ seed, p.close seed = some c)
    (hc : p.close seed = some c) (hout : c ∉ erased) : (erased.foldl erase p).close seed = some c := by
  have hc := closes_of_close hc
  refine (hc.congr fun m hm => entered_erased fun d hd hm' => ?_).close_eq
  obtain ⟨seed', hd'⟩ := herased d hd
  exact hout (hc.eq_of_has hp (closes_of_close hd') hm hm' ▸ hd)

end Erasing

def closures (p : Pairing) (seeds : List Point) : List Closure := (seeds.filterMap p.close).eraseDups

theorem mem_closures {seeds : List Point} : c ∈ p.closures seeds ↔ ∃ seed ∈ seeds, p.close seed = some c := by
  rw [closures, List.mem_eraseDups, List.mem_filterMap]

theorem Closes.mem_closures (h : p.Closes seed c) : c ∈ p.closures p.retains.keys := by
  obtain ⟨e, he, -⟩ := sound_iff.mp (h.sound (m := .retain seed) h.seeded)
  exact Pairing.mem_closures.mpr ⟨seed, TombMap.mem_keys_of_get? he, h.close_eq⟩

theorem closures_snoc_old {seeds : List Point} (h : ∀ c, p.close seed = some c → c ∈ p.closures seeds) :
    p.closures (seeds ++ [seed]) = p.closures seeds := by
  rw [closures, List.filterMap_append, List.eraseDups_append, ← closures]
  cases hc : p.close seed with
  | none => simp [hc]
  | some c =>
    have hmem : c ∈ seeds.filterMap p.close := List.mem_eraseDups.mp (h c hc)
    rw [List.filterMap_cons_some hc, List.filterMap_nil, List.removeAll, List.filter_cons_of_neg (by simpa using hmem)]
    simp

theorem closures_snoc_new {seeds : List Point} (hc : p.close seed = some c) (h : c ∉ p.closures seeds) :
    p.closures (seeds ++ [seed]) = p.closures seeds ++ [c] := by
  rw [closures, List.filterMap_append, List.eraseDups_append, ← closures]
  have hmem : c ∉ seeds.filterMap p.close := fun hmem => h (List.mem_eraseDups.mpr hmem)
  rw [List.filterMap_cons_some hc, List.filterMap_nil, List.removeAll, List.filter_cons_of_pos (by simpa using hmem)]
  rfl

theorem closures_perm {seeds seeds' : List Point} (h : seeds'.Perm seeds) :
    (p.closures seeds').Perm (p.closures seeds) := by
  refine (List.perm_ext_iff_of_nodup (nodup_eraseDups _) (nodup_eraseDups _)).mpr fun c => ?_
  rw [List.mem_eraseDups, List.mem_eraseDups]
  exact (h.filterMap p.close).mem_iff

end Pairing

namespace Flat

variable {f : Flat} {frozen : List (BlockId × Var)}

/-- A round that tries its seeds in some order. -/
def findingsFrom (f : Flat) (frozen : List (BlockId × Var)) (seeds : List Point) : Except Fault Findings := do
  let pairing ← f.pairing
  let (_, exchanges) ← seeds.foldlM (fun (p, found) seed => do
    let (p, x) ← f.matchSeed frozen p seed
    return (p, found ++ x.toList)) (pairing, [])
  return ⟨exchanges, pairing.nested⟩

theorem findings_eq (h : f.Indexed) (frozen : List (BlockId × Var)) :
    f.findings frozen = f.findingsFrom frozen f.paired.retains.keys := by
  rw [findings, findingsFrom, pairing_eq h]
  rfl

theorem exchange_total (h : f.Current) (frozen : List (BlockId × Var)) (c : Closure) :
    ∃ o, f.exchange frozen c = .ok o := by
  rw [exchange]
  split
  · obtain ⟨up, hup, -⟩ := mergeRetains_total h c.root c.retains
    obtain ⟨down, hdown, -⟩ := mergeReleases_total h frozen c.root c.releases
    rw [hup]
    simp only [bind, Except.bind]
    rw [hdown]
    simp only [pure, Except.pure]
    split <;> exact ⟨_, rfl⟩
  · exact ⟨_, rfl⟩

/-- Whatever the order of its seeds, a round exchanges each closure around one of them once. -/
theorem findingsFrom_eq (h : f.Indexed) (hp : f.paired.Mutual) {o : Closure → Option Exchange}
    (ho : ∀ c, f.exchange frozen c = .ok (o c)) (seeds : List Point) :
    f.findingsFrom frozen seeds = .ok ⟨(f.paired.closures seeds).filterMap o, f.paired.nested⟩ := by
  obtain ⟨⟨p, xs⟩, hok, -, -, rfl⟩ := foldlM_total
    (f := fun (s : Pairing × List Exchange) seed => do
      let x ← f.matchSeed frozen s.1 seed
      return (x.1, s.2 ++ x.2.toList))
    -- the closures around the seeds tried so far are gone from the pairing, and no other
    (fun tried (s : Pairing × List Exchange) => s.1.Mutual ∧
      (∀ seed c, s.1.close seed = some c ↔ f.paired.close seed = some c ∧ c ∉ f.paired.closures tried) ∧
      s.2 = (f.paired.closures tried).filterMap o) (l := seeds) (b := (f.paired, []))
    ⟨hp, fun seed c => by simp [Pairing.closures], rfl⟩
    (by
      rintro tried seed - ⟨p, xs⟩ - ⟨hmutual, hclose, hxs⟩
      dsimp only at hmutual hclose hxs
      cases hseed : p.close seed with
      | none =>
        have hold : ∀ c, f.paired.close seed = some c → c ∈ f.paired.closures tried := by
          intro c hc
          by_contra hnew
          cases hseed.symm.trans ((hclose seed c).mpr ⟨hc, hnew⟩)
        refine ⟨(p, xs), ?_, ?_⟩
        · simp only [matchSeed, hseed, bind, Except.bind, Option.toList_none, List.append_nil]
          rfl
        · rw [Pairing.closures_snoc_old hold]
          exact ⟨hmutual, hclose, hxs⟩
      | some c =>
        obtain ⟨hc, hnew⟩ := (hclose seed c).mp hseed
        refine ⟨(p.erase c, xs ++ (o c).toList), by simp only [matchSeed, hseed, ho]; rfl, hmutual.erase c,
          fun seed' c' => ?_, ?_⟩
        · rw [Pairing.close_erase hmutual hseed, hclose, Pairing.closures_snoc_new hc hnew]
          simp [and_assoc]
        · rw [Pairing.closures_snoc_new hc hnew, List.filterMap_append, ← hxs]
          cases h : o c <;> simp [h])
  rw [findingsFrom]
  exact bind_eq_ok.mpr ⟨_, pairing_eq h, bind_eq_ok.mpr ⟨_, hok, rfl⟩⟩

theorem findingsFrom_perm (hp : f.paired.Mutual) (h : f.Current) (frozen : List (BlockId × Var)) {seeds : List Point}
    (hperm : seeds.Perm f.paired.retains.keys) :
    ∃ found found', f.findings frozen = .ok found ∧ f.findingsFrom frozen seeds = .ok found' ∧
      found'.exchanges.Perm found.exchanges ∧ found'.superseded = found.superseded := by
  choose o ho using exchange_total h frozen
  rw [findings_eq h.indexed, findingsFrom_eq h.indexed hp ho, findingsFrom_eq h.indexed hp ho]
  exact ⟨_, _, rfl, rfl, (Pairing.closures_perm hperm).filterMap o, rfl⟩

end Flat

theorem Layout.standing_of_findingsFrom {y : Layout} (h : y.Sound) {frozen : List (BlockId × Var)} {seeds : List Point}
    {found : Findings} (hfound : y.flat.findingsFrom frozen seeds = .ok found) {x : Exchange}
    (hx : x ∈ found.exchanges) :
    ∃ c down up, c.Standing y down up ∧ y.flat.exchange frozen c = .ok (some x) := by
  rw [Flat.findingsFrom, Flat.pairing_eq (indexed h)] at hfound
  obtain ⟨_, ⟨⟩, hfound⟩ := bind_eq_ok.mp hfound
  obtain ⟨s, hs, hfound⟩ := bind_eq_ok.mp hfound
  obtain rfl := Except.ok.inj hfound
  refine (foldlM_keeps (fun _ (s : Pairing × List Exchange) => s.1.Within y.flat ∧ s.1.Filed y.flat ∧
    ∀ x ∈ s.2, ∃ c down up, c.Standing y down up ∧ y.flat.exchange frozen c = .ok (some x))
    ⟨y.flat.paired_within, y.flat.paired_filed, by simp⟩ (fun _ seed _ s s' _ hstep hinv => ?_) hs).2.2 x hx
  obtain ⟨hwithin, hfiled, hall⟩ := hinv
  obtain ⟨⟨p', o⟩, hmatch, hs'⟩ := bind_eq_ok.mp hstep
  obtain rfl := Except.ok.inj hs'
  rw [Flat.matchSeed] at hmatch
  cases hclose : s.1.close seed with
  | none =>
    rw [hclose] at hmatch
    obtain ⟨rfl, rfl⟩ := Prod.mk.inj (Except.ok.inj hmatch)
    exact ⟨hwithin, hfiled, by simpa using hall⟩
  | some c =>
    rw [hclose] at hmatch
    obtain ⟨o, ho, hmatch⟩ := bind_eq_ok.mp hmatch
    obtain ⟨rfl, rfl⟩ := Prod.mk.inj (Except.ok.inj hmatch)
    obtain ⟨down, up, hc⟩ := Pairing.close_standing h hwithin hfiled hclose
    refine ⟨hwithin.erase c, hfiled.erase c, fun x hx => ?_⟩
    rcases List.mem_append.mp hx with hx | hx
    · exact hall x hx
    · exact ⟨c, down, up, hc, by rw [ho, Option.mem_toList.mp hx]⟩

theorem Flat.pairing_mutual {f : Flat}
    (hrelease : ∀ x d, ¬ f.releaseLedger.Loose d → f.retainLedger.Tied x d → f.releaseLedger.Tied d x)
    (hretain : ∀ x d, ¬ f.retainLedger.Loose x → f.releaseLedger.Tied d x → f.retainLedger.Tied x d) :
    f.paired.Mutual := by
  intro m n e' hn he' hloose
  cases m with
  | retain x =>
    obtain ⟨e, d, hx, hd, rfl⟩ := Pairing.mem_partners_retain.mp hn
    have he' : f.releaseLedger.entries.get? d = some e' := he'
    have htied := hrelease x d (by simp [Ledger.loose_iff he', hloose]) ⟨e, hx, hd⟩
    exact Pairing.mem_partners_release.mpr ⟨e', x, he', (Ledger.tied_iff he').mp htied, rfl⟩
  | release d =>
    obtain ⟨e, x, hd, hx, rfl⟩ := Pairing.mem_partners_release.mp hn
    have he' : f.retainLedger.entries.get? x = some e' := he'
    have htied := hretain x d (by simp [Ledger.loose_iff he', hloose]) ⟨e, hd, hx⟩
    exact Pairing.mem_partners_retain.mpr ⟨e', d, he', (Ledger.tied_iff he').mp htied, rfl⟩

theorem Layout.pairing_mutual {y : Layout} (h : y.Sound) : y.flat.paired.Mutual :=
  Flat.pairing_mutual (fun _ _ => tied_release h) fun _ _ => tied_retain h

/-- Both directions of a pairing tell the same of operations that are not loose. So closures do not
depend on the seed, share no operations and do not need each other, and the seeds of a round may be
tried in any order. -/
theorem directions_agree (r : Routine) (k : Facts) (id : RegionId) (summary : Option (RegionId → Option Summary))
    (f : Flat) (h : r.check = .ok ()) (hk : r.facts = .ok k) (hf : Flat.build r k id summary = .ok f) :
    ∃ p, f.pairing = .ok p ∧
      (∀ x d e e', p.retains.get? x = some e → p.releases.get? d = some e' → e.loose = false →
        e'.loose = false → (d ∈ e.partners ↔ x ∈ e'.partners)) ∧
      (∀ seed c, p.close seed = some c → ∀ x ∈ c.retains, p.close x = some c) ∧
      (∀ seed seed' c c', p.close seed = some c → p.close seed' = some c' →
        c' = c ∨ (∀ x ∈ c.retains, x ∉ c'.retains) ∧ ∀ d ∈ c.releases, d ∉ c'.releases) ∧
      (∀ seed c (erased : List Closure), p.close seed = some c →
        (∀ c' ∈ erased, ∃ seed', p.close seed' = some c') → c ∉ erased →
        (erased.foldl Pairing.erase p).close seed = some c) ∧
      ∀ frozen seeds, seeds.Perm p.retains.keys →
        ∃ found found', f.findings frozen = .ok found ∧ f.findingsFrom frozen seeds = .ok found' ∧
          found'.exchanges.Perm found.exchanges ∧ found'.superseded = found.superseded := by
  obtain ⟨k', hk', hsound⟩ := Routine.facts_total (Routine.entry_lt_of_check h)
  obtain rfl := Except.ok.inj (hk.symm.trans hk')
  obtain ⟨y, hy, hflat, hcurrent⟩ := hsound.exists_layout hf
  have hmutual : f.paired.Mutual := hflat ▸ Layout.pairing_mutual hy
  refine ⟨f.paired, Flat.pairing_eq hcurrent.indexed,
    fun x d e e' hx hd hloose hloose' => hmutual.mem_iff hx hd hloose hloose', fun seed c hc x hx => ?_,
    fun seed seed' c c' hc hc' => ?_, fun seed c erased hc herased hout => Pairing.close_erased hmutual herased hc hout,
    fun frozen seeds hperm => Flat.findingsFrom_perm hmutual hcurrent frozen hperm⟩
  · exact ((Pairing.closes_of_close hc).of_mem hmutual hx).close_eq
  · by_cases heq : c' = c
    · exact .inl heq
    · have hfree : ∀ m, c.Has m → ¬ c'.Has m := fun m hm hm' =>
        heq ((Pairing.closes_of_close hc).eq_of_has hmutual (Pairing.closes_of_close hc') hm hm')
      exact .inr ⟨fun x => hfree (.retain x), fun d => hfree (.release d)⟩

/-- Two ways retain, the root is read where they meet, and two ways release. -/
def crossedPairs : Routine where
  name := "crossed_pairs"
  params := [0, 1]
  blocks := [
    ⟨0, [], .branch 1 1 2⟩,
    ⟨1, [.retain 0 .strong], .jump 3⟩,
    ⟨2, [.retain 0 .strong], .jump 3⟩,
    ⟨3, [.call 2 1 [0] .readOnly], .branch 1 4 5⟩,
    ⟨4, [.release 0 .strong], .ret 1⟩,
    ⟨5, [.release 0 .strong], .ret 1⟩]
  entry := 0
  storage := [.reference, .trivial, .trivial]

theorem directions_agree_crossedPairs : crossedPairs.check = .ok () ∧
    ∃ k f p, crossedPairs.facts = .ok k ∧ Flat.build crossedPairs k 0 none = .ok f ∧ f.pairing = .ok p ∧
      (p.close ⟨1, 0⟩).map (fun c => (c.retains, c.releases)) = some ([⟨1, 0⟩, ⟨2, 0⟩], [⟨4, 0⟩, ⟨5, 0⟩]) ∧
      (∀ x d e e', p.retains.get? x = some e → p.releases.get? d = some e' → e.loose = false →
        e'.loose = false → (d ∈ e.partners ↔ x ∈ e'.partners)) ∧
      (∀ seed c, p.close seed = some c → ∀ x ∈ c.retains, p.close x = some c) ∧
      (∀ seed seed' c c', p.close seed = some c → p.close seed' = some c' →
        c' = c ∨ (∀ x ∈ c.retains, x ∉ c'.retains) ∧ ∀ d ∈ c.releases, d ∉ c'.releases) ∧
      (∀ seed c (erased : List Closure), p.close seed = some c →
        (∀ c' ∈ erased, ∃ seed', p.close seed' = some c') → c ∉ erased →
        (erased.foldl Pairing.erase p).close seed = some c) ∧
      ∀ frozen seeds, seeds.Perm p.retains.keys →
        ∃ found found', f.findings frozen = .ok found ∧ f.findingsFrom frozen seeds = .ok found' ∧
          found'.exchanges.Perm found.exchanges ∧ found'.superseded = found.superseded := by
  have hclose : (crossedPairs.facts.bind fun k => (Flat.build crossedPairs k 0 none).bind fun f =>
      f.pairing.map fun p => (p.close ⟨1, 0⟩).map fun c => (c.retains, c.releases)) =
      .ok (some ([⟨1, 0⟩, ⟨2, 0⟩], [⟨4, 0⟩, ⟨5, 0⟩])) := by decide +kernel
  obtain ⟨k, hk, hclose⟩ := bind_eq_ok.mp hclose
  obtain ⟨f, hf, hclose⟩ := bind_eq_ok.mp hclose
  obtain ⟨p, hp, hagree⟩ := directions_agree crossedPairs k 0 none f rfl hk hf
  rw [hp] at hclose
  exact ⟨rfl, k, f, p, hk, hf, hp, Except.ok.inj hclose, hagree⟩

end CountMotion
