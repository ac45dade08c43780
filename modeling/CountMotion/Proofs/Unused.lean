import CountMotion.Proofs.WholeView

/-! Operations on a root that nothing uses are deleted and never merged. With no loop collapsed,
nothing uses a trivial root. -/
namespace CountMotion

section Walks

variable {w : Walk Nat} {root : Var} {l : Ledger} {own : Point → Var → Prop} {idle : Var → Prop}

/-- Every entry is filed under the root of its operation, and is not used if the root is idle. -/
def Ledger.Idle (l : Ledger) (own : Point → Var → Prop) (idle : Var → Prop) : Prop :=
  l.entries.All fun x e => own x e.root ∧ (idle e.root → e.used = false)

/-- The pending operations are on the root, and not used if the root is idle. -/
structure Pending.Idle (p : Pending) (own : Point → Var → Prop) (idle : Var → Prop) (root : Var) : Prop where
  own : ∀ x ∈ p.points, own x root
  unused : idle root → p.used = false

/-- A walk of a root has come to a ledger and a state in which idle roots are not used. -/
structure Walk.Idle (own : Point → Var → Prop) (idle : Var → Prop) (root : Var) (s : Ledger × Option Pending) : Prop where
  ledger : s.1.Idle own idle
  pending : ∀ p, s.2 = some p → p.Idle own idle root

theorem Ledger.Idle.loosen (h : l.Idle own idle) (p : Option Pending) : (l.loosen p).Idle own idle :=
  TombMap.All.foldl_update (f := fun e : Entry => { e with loose := true }) h fun _ _ _ he => he

theorem Pending.Idle.merge {p q : Pending} (hp : p.Idle own idle root) (hq : q.Idle own idle root) :
    (p.merge q).Idle own idle root where
  own x hx := (List.mem_append.mp hx).elim (hp.own x) fun hx => hq.own x (List.mem_filter.mp hx).1
  unused h := by rw [Pending.merge, hp.unused h, hq.unused h]; rfl

theorem Pending.Idle.mergeAll {ps : List Pending} (h : ∀ p ∈ ps, p.Idle own idle root) {p : Pending}
    (hp : Pending.mergeAll ps = some p) : p.Idle own idle root := by
  have hfold : ∀ (rest : List Pending) (q : Pending), q.Idle own idle root → (∀ p ∈ rest, p.Idle own idle root) →
      (rest.foldl Pending.merge q).Idle own idle root := by
    intro rest
    induction rest with
    | nil => exact fun q hq _ => hq
    | cons a rest ih => exact fun q hq ha => ih _ (hq.merge (ha a (.head _))) fun p hp => ha p (.tail _ hp)
  cases ps with
  | nil => cases hp
  | cons q rest =>
    obtain rfl := Option.some.inj hp
    exact hfold rest q (h q (.head _)) fun p hp => h p (.tail _ hp)

namespace Walk.Idle

theorem drop (h : l.Idle own idle) : Walk.Idle own idle root (l, none) :=
  ⟨h, fun _ hp => nomatch hp⟩

theorem answer {p : Option Pending} (huniq : ∀ x a b, own x a → own x b → a = b)
    (h : Walk.Idle own idle root (l, p)) (point : Point) : (l.answer p point).Idle own idle := by
  cases p with
  | none => exact h.ledger
  | some p =>
    have hp := h.pending p rfl
    refine TombMap.All.foldl_update
      (f := fun e : Entry => { e with partners := e.partners ++ [point], used := e.used || p.used }) h.ledger
      fun x hx e he => ⟨he.1, fun hidle => ?_⟩
    obtain rfl := huniq x _ _ (hp.own x hx) he.1
    rw [he.2 hidle, hp.unused hidle]
    rfl

theorem step {s : Ledger × Option Pending} (huniq : ∀ x a b, own x a → own x b → a = b)
    (h : Walk.Idle own idle root s) {x : Point × Effect} (hopens : x.2 = w.opens → own x.1 root)
    (huse : idle root → x.2 ≠ .use) : Walk.Idle own idle root (w.step root s x) := by
  obtain ⟨l, p⟩ := s
  obtain ⟨point, e⟩ := x
  simp only [Walk.step]
  split
  · rename_i he
    refine ⟨(h.ledger.loosen p).insertNew ⟨hopens he, fun _ => rfl⟩, fun q hq => ?_⟩
    obtain rfl := Option.some.inj hq
    exact ⟨fun x hx => List.mem_singleton.mp hx ▸ hopens he, fun _ => rfl⟩
  split
  · exact drop (h.answer huniq point)
  split
  · exact drop (h.ledger.loosen p)
  split
  · refine ⟨h.ledger, fun q hq => ?_⟩
    obtain ⟨p, rfl, rfl⟩ := Option.map_eq_some_iff.mp hq
    exact ⟨(h.pending p rfl).own, fun hidle => absurd ‹_› (huse hidle)⟩
  · exact h

theorem visit {s : Ledger × List (Nat × Option Pending)} {n : Nat} (huniq : ∀ x a b, own x a → own x b → a = b)
    (h : s.1.Idle own idle) (hs : ∀ m p, (s.2.lookup m).join = some p → p.Idle own idle root)
    (hopens : ∀ x ∈ w.effects n, x.2 = w.opens → own x.1 root) (huse : ∀ x ∈ w.effects n, idle root → x.2 ≠ .use) :
    (w.visit root s n).1.Idle own idle ∧ ∀ m p, ((w.visit root s n).2.lookup m).join = some p → p.Idle own idle root := by
  have harrive : Walk.Idle own idle root (w.arriveFrom s.1 (fun m => (s.2.lookup m).join) n) := by
    rw [Walk.arriveFrom]
    split
    · exact drop (h.loosen _)
    · refine ⟨h, fun p hp => .mergeAll (fun q hq => ?_) hp⟩
      obtain ⟨m, -, hm⟩ := List.mem_filterMap.mp hq
      exact hs m q hm
  have hsteps : ∀ (xs : List (Point × Effect)) (t : Ledger × Option Pending),
      (∀ x ∈ xs, x.2 = w.opens → own x.1 root) → (∀ x ∈ xs, idle root → x.2 ≠ .use) →
      Walk.Idle own idle root t → Walk.Idle own idle root (xs.foldl (w.step root) t) := by
    intro xs
    induction xs with
    | nil => exact fun t _ _ ht => ht
    | cons x xs ih =>
      exact fun t ho hu ht => ih _ (fun y hy => ho y (.tail _ hy)) (fun y hy => hu y (.tail _ hy))
        (ht.step huniq (ho x (.head _)) (hu x (.head _)))
  have hend := hsteps (w.effects n) _ hopens huse harrive
  have hdepart : Walk.Idle own idle root (w.depart n ((w.effects n).foldl (w.step root)
      (w.arriveFrom s.1 (fun m => (s.2.lookup m).join) n))) := by
    rw [Walk.depart]
    split
    · exact drop (hend.ledger.loosen _)
    split
    · exact drop hend.ledger
    · exact hend
  refine ⟨hdepart.ledger, fun m p hp => ?_⟩
  rw [Walk.visit, List.lookup_cons] at hp
  split at hp
  · exact hdepart.pending p hp
  · exact hs m p hp

end Walk.Idle

/-- No walk marks an operation on an idle root as used. -/
theorem Ledger.Idle.runs {walk : Var → Walk Nat} (huniq : ∀ x a b, own x a → own x b → a = b) (roots : List Var)
    (h : l.Idle own idle)
    (hopens : ∀ root, ∀ n ∈ (walk root).order, ∀ x ∈ (walk root).effects n, x.2 = (walk root).opens → own x.1 root)
    (huse : ∀ root, idle root → ∀ n, ∀ x ∈ (walk root).effects n, x.2 ≠ .use) :
    (roots.foldl (fun l root => (walk root).run root l) l).Idle own idle := by
  have hrun : ∀ (root : Var) (ns : List Nat) (s : Ledger × List (Nat × Option Pending)),
      (∀ n ∈ ns, n ∈ (walk root).order) → s.1.Idle own idle → (∀ m p, (s.2.lookup m).join = some p → p.Idle own idle root) →
      (ns.foldl ((walk root).visit root) s).1.Idle own idle := by
    intro root ns
    induction ns with
    | nil => exact fun s _ hs _ => hs
    | cons n ns ih =>
      intro s hn hs hp
      obtain ⟨hs', hp'⟩ := Walk.Idle.visit (n := n) huniq hs hp (hopens root n (hn n (.head _)))
        fun x hx hidle => huse root hidle n x hx
      exact ih _ (fun m hm => hn m (.tail _ hm)) hs' hp'
  induction roots generalizing l with
  | nil => exact h
  | cons root roots ih => exact ih (hrun root _ (l, []) (fun _ hn => hn) h (fun _ _ hp => nomatch hp))

end Walks

section Closures

variable {f : Flat} {r : Routine} {k : Facts} {p : Pairing} {c : Closure} {idle : Var → Prop} {seed : Point}

structure Pairing.Idle (p : Pairing) (idle : Var → Prop) : Prop where
  retains : p.retains.All fun _ e => idle e.root → e.used = false
  releases : p.releases.All fun _ e => idle e.root → e.used = false

/-- The effects of the region never use an idle root. -/
def Flat.Idle (f : Flat) (idle : Var → Prop) : Prop := ∀ root, idle root → ∀ n, ∀ x ∈ f.effects root n, x.2 ≠ .use

theorem Flat.Idle.pairing (hf : f.Sound r k) (h : f.Idle idle) : f.paired.Idle idle := by
  have hretain : ∀ x a b, f.Acts .retain x a → f.Acts .retain x b → a = b := by
    intro x a b ha hb
    obtain ⟨v, kind, hi, hv⟩ := hf.retain_at ha
    obtain ⟨v', kind', hi', hv'⟩ := hf.retain_at hb
    obtain ⟨rfl, -⟩ := Instr.retain.inj (Option.some.inj (hi.symm.trans hi'))
    exact Option.some.inj (hv.symm.trans hv')
  have hrelease : ∀ x a b, f.Acts .release x a → f.Acts .release x b → a = b := by
    intro x a b ha hb
    obtain ⟨v, kind, hi, hv⟩ := hf.release_at ha
    obtain ⟨v', kind', hi', hv'⟩ := hf.release_at hb
    obtain ⟨rfl, -⟩ := Instr.release.inj (Option.some.inj (hi.symm.trans hi'))
    exact Option.some.inj (hv.symm.trans hv')
  have hdown : (f.rootList.foldl (fun l root => (f.downWalk root).run root l) .empty).Idle (f.Acts .retain) idle := by
    refine Ledger.Idle.runs hretain f.rootList (TombMap.All.empty) (fun root n hn x hx he => ⟨n, hn, ?_⟩) h
    rw [← show x.2 = .retain from he]
    exact hx
  have hup : (f.rootList.foldl (fun l root => (f.upWalk root).run root l) .empty).Idle (f.Acts .release) idle := by
    refine Ledger.Idle.runs hrelease f.rootList (TombMap.All.empty)
      (fun root n hn x hx he => ⟨n, List.mem_reverse.mp hn, ?_⟩)
      fun root hidle n x hx => h root hidle n x (List.mem_reverse.mp hx)
    rw [← show x.2 = .release from he]
    exact List.mem_reverse.mp hx
  exact ⟨fun x e he => (hdown x e he).2, fun x e he => (hup x e he).2⟩

theorem Pairing.Idle.close (h : p.Idle idle) (hc : p.close seed = some c) (hidle : idle c.root) : c.used = false := by
  rw [Pairing.close, Option.bind_eq_bind, Option.bind_eq_some_iff] at hc
  obtain ⟨e, -, hc⟩ := hc
  dsimp only at hc
  split at hc
  · rename_i hall
    obtain rfl := Option.some.inj hc
    refine List.any_eq_false.mpr fun m hm => ?_
    have hsound := List.all_eq_true.mp hall m hm
    rw [Pairing.sound] at hsound
    cases hm : p.entry? m with
    | none => simp
    | some e' =>
      rw [hm] at hsound
      simp only [Bool.and_eq_true, beq_iff_eq] at hsound
      obtain ⟨⟨⟨-, hroot⟩, -⟩, -⟩ := hsound
      have hused : e'.used = false := by
        cases m with
        | retain x => exact h.retains.get? hm (hroot ▸ hidle)
        | release x => exact h.releases.get? hm (hroot ▸ hidle)
      simp [hused]
  · cases hc

theorem Pairing.Idle.matchSeed {frozen : List (BlockId × Var)} {p' : Pairing} {o : Option Exchange} (h : p.Idle idle)
    (hm : f.matchSeed frozen p seed = .ok (p', o)) : p'.Idle idle ∧ ∀ x, o = some x → idle x.root → x.added = [] := by
  rw [Flat.matchSeed] at hm
  cases hc : p.close seed with
  | none =>
    rw [hc] at hm
    obtain ⟨rfl, rfl⟩ := Prod.mk.inj (Except.ok.inj hm)
    exact ⟨h, fun x hx => absurd hx (Option.some_ne_none x).symm⟩
  | some c =>
    rw [hc] at hm
    obtain ⟨o, ho, hm⟩ := bind_eq_ok.mp hm
    obtain ⟨rfl, rfl⟩ := Prod.mk.inj (Except.ok.inj hm)
    refine ⟨⟨h.retains.foldl_erase _, h.releases.foldl_erase _⟩, fun x hx hidle => ?_⟩
    rw [Flat.exchange] at ho
    split at ho
    · rename_i hused
      obtain ⟨up, -, ho⟩ := bind_eq_ok.mp ho
      obtain ⟨down, -, ho⟩ := bind_eq_ok.mp ho
      split at ho
      · obtain rfl := Except.ok.inj ho
        cases hx
      · obtain rfl := Except.ok.inj ho
        obtain rfl := Option.some.inj hx
        rw [h.close hc hidle] at hused
        cases hused
    · obtain rfl := Except.ok.inj ho
      obtain rfl := Option.some.inj hx
      rfl

/-- Exchanges on idle roots put nothing in. -/
theorem Flat.Idle.findings (hf : f.Sound r k) (h : f.Idle idle) {frozen : List (BlockId × Var)} {found : Findings}
    (hfound : f.findings frozen = .ok found) {x : Exchange} (hx : x ∈ found.exchanges) (hidle : idle x.root) :
    x.added = [] := by
  have hkeeps : ∀ s : Pairing × List Exchange, f.paired.retains.keys.foldlM (fun (s : Pairing × List Exchange) seed => do
      let y ← f.matchSeed frozen s.1 seed
      return (y.1, s.2 ++ y.2.toList)) (f.paired, []) = .ok s →
      s.1.Idle idle ∧ ∀ y ∈ s.2, idle y.root → y.added = [] := by
    intro s hs
    refine foldlM_keeps (fun _ (s : Pairing × List Exchange) => s.1.Idle idle ∧ ∀ y ∈ s.2, idle y.root → y.added = [])
      ⟨h.pairing hf, by simp⟩ (fun _ seed _ s s' _ hstep hinv => ?_) hs
    obtain ⟨⟨p', o⟩, hmatch, hs'⟩ := bind_eq_ok.mp hstep
    obtain rfl := Except.ok.inj hs'
    obtain ⟨hp', ho⟩ := hinv.1.matchSeed hmatch
    refine ⟨hp', fun y hy => ?_⟩
    rcases List.mem_append.mp hy with hy | hy
    · exact hinv.2 y hy
    · exact ho y (Option.mem_toList.mp hy)
  rw [Flat.findings, Flat.pairing_eq hf.current.indexed] at hfound
  obtain ⟨_, ⟨⟩, hfound⟩ := bind_eq_ok.mp hfound
  obtain ⟨s, hs, hfound⟩ := bind_eq_ok.mp hfound
  obtain rfl := Except.ok.inj hfound
  exact (hkeeps s hs).2 x hx hidle

end Closures

section Trivial

variable {r : Routine} {k : Facts} {region : Region} {root : Var}

theorem Facts.Sound.mayAlias_trivial (hk : k.Sound r) (h : r.storage[root]? = some .trivial) (v : Var) :
    k.mayAlias v root = false := by
  have : k.aliasing.isCounted root = false := by
    rw [Alias.isCounted, hk.counted, List.getElem?_map, h]
    rfl
  simp [mayAlias, Alias.mayAlias, this]

theorem Facts.Sound.effectAt_trivial (hk : k.Sound r) (h : r.storage[root]? = some .trivial) (b : Block) (index : Nat) :
    k.effectAt root b index ≠ .use := by
  have hno := hk.mayAlias_trivial h
  have hinstr : ∀ i, k.effect root i ≠ .use := by
    intro i
    fun_cases k.effect root i <;> simp_all [Facts.useIf]
  have hterm : ∀ t, k.termEffect root t ≠ .use := by
    intro t
    fun_cases k.termEffect root t <;> simp_all [Facts.useIf]
  rw [effectAt]
  split
  · exact hinstr _
  · exact hterm _

theorem Layout.whole_idle (hk : k.Sound r) (hr : k.forest.regions[0]? = some region) :
    (whole r k region).flat.Idle fun root => r.storage[root]? = some .trivial := by
  intro root hroot n x hx
  cases hn : (whole r k region).places[n]? with
  | none =>
    rw [Flat.effects, getElem?_nodes, hn] at hx
    cases hx
  | some place =>
    have hplace := List.mem_of_getElem? hn
    rw [whole_places hk hr] at hplace
    obtain ⟨b, -, rfl⟩ := List.mem_map.mp hplace
    rw [effects_block hn, Facts.blockEffects] at hx
    obtain ⟨index, -, rfl⟩ := List.mem_map.mp (List.mem_filter.mp hx).1
    exact hk.effectAt_trivial hroot _ index

end Trivial

end CountMotion
