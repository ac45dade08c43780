import CountMotion.Proofs.Balance
import CountMotion.Proofs.FixedPoint
import CountMotion.Proofs.SeedOrder
import CountMotion.Proofs.WellNested

/-! A retain and a later release in one block, with nothing in between that concerns their root,
answer each other and nothing else. A round finds every such pair, so rounds rest where there is none. -/
namespace CountMotion

structure Entry.Sole (e : Entry) (root : Var) (d : Point) : Prop where
  root : e.root = root
  tight : e.loose = false
  unused : e.used = false
  answer : d ∈ e.partners
  only : ∀ x ∈ e.partners, x = d

namespace Ledger

variable {l : Ledger} {p : Option Pending} {x z d : Point}

/-- All that the ledger tells of the first operation is that the second answers it. -/
def Only (l : Ledger) (z d : Point) : Prop :=
  l.entries.All fun x e => x = z → e.loose = false ∧ e.used = false ∧ ∀ y ∈ e.partners, y = d

namespace Only

theorem loosen (h : l.Only z d) (hp : ¬ Awaits p z) : (l.loosen p).Only z d := by
  refine TombMap.All.foldl_update (f := fun e : Entry => { e with loose := true }) h fun x hx e _ hxz => ?_
  cases p with
  | none => cases hx
  | some q => exact absurd (awaits_some.mpr (hxz ▸ hx)) hp

theorem answer (h : l.Only z d) (hp : ∀ q, p = some q → z ∈ q.points → x = d ∧ q.used = false) :
    (l.answer p x).Only z d := by
  cases p with
  | none => exact h
  | some q =>
    refine TombMap.All.foldl_update
      (f := fun e : Entry => { e with partners := e.partners ++ [x], used := e.used || q.used }) h
      fun a ha e he haz => ?_
    obtain ⟨rfl, hused⟩ := hp q rfl (haz ▸ ha)
    obtain ⟨hloose, hunused, hpartners⟩ := he haz
    refine ⟨hloose, by simp [hunused, hused], fun y hy => ?_⟩
    rcases List.mem_append.mp hy with hy | hy
    · exact hpartners y hy
    · exact List.mem_singleton.mp hy

theorem start (h : l.Only z d) (hp : ¬ Awaits p z) (root : Var) (x : Point) : (l.start root p x).Only z d :=
  (h.loosen hp).insertNew fun _ => ⟨rfl, rfl, fun _ hy => absurd hy List.not_mem_nil⟩

theorem sole (h : l.Only z d) (ht : l.Tied z d) : ∃ e, l.entries.get? z = some e ∧ e.Sole e.root d := by
  obtain ⟨e, he, hd⟩ := ht
  obtain ⟨hloose, hused, honly⟩ := TombMap.All.get? h he rfl
  exact ⟨e, he, rfl, hloose, hused, hd, honly⟩

end Only

end Ledger

/-- Two operations that answer only each other close on each other. -/
theorem Pairing.closes_pair {p : Pairing} {x d : Point} {e e' : Entry} {root : Var} (hx : p.retains.get? x = some e)
    (hd : p.releases.get? d = some e') (he : e.Sole root d) (he' : e'.Sole root x) :
    p.Closes x ⟨root, [x], [d], false⟩ := by
  have hretain : ∀ m, m ∈ p.partners (.retain x) ↔ m = .release d := by
    intro m
    rw [mem_partners_retain]
    constructor
    · rintro ⟨e₀, d₀, hx₀, hd₀, rfl⟩
      obtain rfl := Option.some.inj (hx.symm.trans hx₀)
      rw [he.only d₀ hd₀]
    · rintro rfl
      exact ⟨e, d, hx, he.answer, rfl⟩
  have hrelease : ∀ m, m ∈ p.partners (.release d) ↔ m = .retain x := by
    intro m
    rw [mem_partners_release]
    constructor
    · rintro ⟨e₀, x₀, hd₀, hx₀, rfl⟩
      obtain rfl := Option.some.inj (hd.symm.trans hd₀)
      rw [he'.only x₀ hx₀]
    · rintro rfl
      exact ⟨e', x, hd, he'.answer, rfl⟩
  have hhas : ∀ m, Closure.Has ⟨root, [x], [d], false⟩ m ↔ m = .retain x ∨ m = .release d := by
    intro m
    cases m <;> simp [Closure.Has]
  refine {
    seeded := .head _
    sound := fun {m} hm => ?_
    closed := fun {m q} hm hq => ?_
    tied := fun {s} hs hstep m hm => ?_
    nodup_retains := List.nodup_singleton _
    nodup_releases := List.nodup_singleton _
    sorted_retains := List.pairwise_singleton _ _
    sorted_releases := List.pairwise_singleton _ _
    used := ⟨nofun, ?_⟩ }
  · rcases (hhas m).mp hm with rfl | rfl
    · refine sound_iff.mpr ⟨e, hx, he.tight, he.root, List.ne_nil_of_mem he.answer, fun q hq => ?_⟩
      rw [(hretain q).mp hq]
      exact Option.isSome_iff_exists.mpr ⟨e', hd⟩
    · refine sound_iff.mpr ⟨e', hd, he'.tight, he'.root, List.ne_nil_of_mem he'.answer, fun q hq => ?_⟩
      rw [(hrelease q).mp hq]
      exact Option.isSome_iff_exists.mpr ⟨e, hx⟩
  · rcases (hhas m).mp hm with rfl | rfl
    · exact (hhas q).mpr (.inr ((hretain q).mp hq))
    · exact (hhas q).mpr (.inl ((hrelease q).mp hq))
  · rcases (hhas m).mp hm with rfl | rfl
    · exact hs
    · exact hstep _ _ hs ((hretain _).mpr rfl)
  · rintro ⟨m, e₀, hm, he₀, hused⟩
    rcases (hhas m).mp hm with rfl | rfl
    · rw [Option.some.inj (he₀.symm.trans hx), he.unused] at hused
      cases hused
    · rw [Option.some.inj (he₀.symm.trans hd), he'.unused] at hused
      cases hused

namespace Walk

variable {w : Walk Nat} {root : Var} {l : Ledger} {out : Nat → Option Pending} {n : Nat} {x : Point × Effect}
  {xs before rest : List (Point × Effect)} {z d : Point} {s : Ledger × Option Pending}

/-- Where the first operation opens a state, the second answers it at once. -/
def Abuts (w : Walk Nat) (z d : Point) (xs : List (Point × Effect)) : Prop :=
  ∀ before rest, xs = before ++ (z, w.opens) :: rest → ∃ after, rest = (d, w.answers) :: after

theorem Abuts.tail (h : w.Abuts z d (x :: xs)) : w.Abuts z d xs := fun before rest hxs =>
  h (x :: before) rest (by rw [hxs]; rfl)

/-- With some effects ahead, the first operation awaits an answer only if the second comes next. -/
structure Between (w : Walk Nat) (z d : Point) (s : Ledger × Option Pending) (xs : List (Point × Effect)) : Prop where
  only : s.1.Only z d
  next : ∀ q, s.2 = some q → z ∈ q.points → q.used = false ∧ ∃ rest, xs = (d, w.answers) :: rest

namespace Between

theorem of_none (h : s.1.Only z d) (hs : s.2 = none) : w.Between z d s xs := by
  refine ⟨h, fun q hq => ?_⟩
  rw [hs] at hq
  cases hq

theorem not_awaits (h : w.Between z d s xs) (hx : xs.head?.map Prod.snd ≠ some w.answers) : ¬ Awaits s.2 z := by
  rintro ⟨q, hq, hz⟩
  obtain ⟨-, rest, rfl⟩ := h.next q hq hz
  exact hx rfl

theorem not_awaits_end (h : w.Between z d s []) : ¬ Awaits s.2 z := h.not_awaits (by simp)

theorem step (hw : w.Plain) (h : w.Between z d s (x :: xs)) (habuts : w.Abuts z d (x :: xs)) (root : Var) :
    w.Between z d (w.step root s x) xs := by
  have hnot : x.2 ≠ w.answers → ¬ Awaits s.2 z := fun hne => h.not_awaits fun heq => hne (Option.some.inj heq)
  rw [Walk.step]
  split
  · rename_i hopens
    refine ⟨h.only.start (hnot (hopens ▸ hw.ne)) root x.1, fun q hq hz => ?_⟩
    obtain rfl := Option.some.inj hq
    obtain rfl := List.mem_singleton.mp hz
    exact ⟨rfl, habuts [] xs (by rw [← hopens]; rfl)⟩
  split
  · refine .of_none (h.only.answer fun q hq hz => ?_) rfl
    obtain ⟨hused, rest, heq⟩ := h.next q hq hz
    obtain ⟨rfl, -⟩ := List.cons.inj heq
    exact ⟨rfl, hused⟩
  rename_i hanswers
  split
  · exact .of_none (h.only.loosen (hnot hanswers)) rfl
  split
  · refine ⟨h.only, fun q hq hz => ?_⟩
    obtain ⟨q', hq', rfl⟩ := Option.map_eq_some_iff.mp hq
    exact absurd ⟨q', hq', hz⟩ (hnot hanswers)
  · exact ⟨h.only, fun q hq hz => absurd ⟨q, hq, hz⟩ (hnot hanswers)⟩

theorem steps (hw : w.Plain) (h : w.Between z d s xs) (habuts : w.Abuts z d xs) (root : Var) :
    w.Between z d (xs.foldl (w.step root) s) [] := by
  induction xs generalizing s with
  | nil => exact h
  | cons x xs ih => exact ih (h.step hw habuts root) habuts.tail

theorem arrive {states : Nat → Option Pending} (hl : l.Only z d) (hs : ∀ m, ¬ Awaits (states m) z) (n : Nat)
    (xs : List (Point × Effect)) : w.Between z d (w.arriveFrom l states n) xs := by
  have hmerged : ¬ Awaits (Pending.mergeAll ((w.sources n).filterMap states)) z := by
    intro hz
    obtain ⟨q, hq, hz⟩ := (Pending.awaits_mergeAll _).mp hz
    obtain ⟨m, -, hm⟩ := List.mem_filterMap.mp hq
    exact hs m ⟨q, hm, hz⟩
  rw [Walk.arriveFrom]
  split
  · exact .of_none (hl.loosen hmerged) rfl
  · exact ⟨hl, fun q hq hz => absurd ⟨q, hq, hz⟩ hmerged⟩

theorem depart (h : w.Between z d s []) (n : Nat) : w.Between z d (w.depart n s) [] := by
  rw [Walk.depart]
  split
  · exact .of_none (h.only.loosen h.not_awaits_end) rfl
  split
  · exact .of_none h.only rfl
  · exact h

end Between

theorem run_only (hw : w.Plain) (habuts : ∀ n ∈ w.order, w.Abuts z d (w.effects n)) (root : Var) (hl : l.Only z d) :
    (w.run root l).Only z d := by
  refine run_induct (P := (·.Only z d)) (Q := fun _ p => ¬ Awaits p z) hl (fun _ => by simp)
    fun n hn l states hl hstates => ?_
  have hend := ((Between.arrive hl hstates n (w.effects n)).steps hw (habuts n hn) root).depart n
  exact ⟨hend.only, hend.not_awaits_end⟩

theorem runs_only {walk : Var → Walk Nat} (hw : ∀ root, (walk root).Plain) {roots : List Var}
    (habuts : ∀ root ∈ roots, ∀ n ∈ (walk root).order, (walk root).Abuts z d ((walk root).effects n))
    (hl : l.Only z d) : (roots.foldl (fun l root => (walk root).run root l) l).Only z d := by
  induction roots generalizing l with
  | nil => exact hl
  | cons root roots ih =>
    exact ih (fun a ha => habuts a (.tail _ ha)) (run_only (hw root) (habuts root (.head _)) root hl)

theorem Traced.tied_next (hw : w.Plain) (ht : w.Traced out l) (hn : n ∈ w.order)
    (heff : w.effects n = before ++ (z, w.opens) :: (d, w.answers) :: rest) : l.Tied z d := by
  have hmarks := (ht.told n hn).marks (before ++ [(z, w.opens)]) (d, w.answers) rest (by rw [heff]; simp)
  have hopened : w.along out n (before ++ [(z, w.opens)]) = some ⟨[z], false⟩ := by
    rw [along_snoc, after, if_pos rfl]
  exact (hmarks.answered hw.ne.symm rfl _ hopened z (.head _)).1

end Walk

private theorem filter_adjacent {α : Type} {p : α → Bool} {l : List α} {i j : Nat} {a b : α} (hij : i < j)
    (ha : l[i]? = some a) (hb : l[j]? = some b) (hpa : p a) (hpb : p b)
    (hno : ∀ n c, i < n → n < j → l[n]? = some c → p c = false) :
    ∃ before rest, l.filter p = before ++ a :: b :: rest := by
  obtain ⟨hi, rfl⟩ := List.getElem?_eq_some_iff.mp ha
  obtain ⟨hj, rfl⟩ := List.getElem?_eq_some_iff.mp hb
  have hsplit : l = l.take i ++ l[i] :: ((l.drop (i + 1)).take (j - (i + 1)) ++ l[j] :: l.drop (j + 1)) := by
    have hdrop : (l.drop (i + 1)).drop (j - (i + 1)) = l[j] :: l.drop (j + 1) := by
      rw [List.drop_drop, Nat.add_sub_cancel' hij, List.drop_eq_getElem_cons hj]
    rw [← hdrop, List.take_append_drop, ← List.drop_eq_getElem_cons hi, List.take_append_drop]
  have hnone : ((l.drop (i + 1)).take (j - (i + 1))).filter p = [] := by
    refine List.filter_eq_nil_iff.mpr fun c hc => ?_
    obtain ⟨n, hn⟩ := List.getElem?_of_mem hc
    rw [List.getElem?_take] at hn
    split at hn
    · rw [List.getElem?_drop] at hn
      exact Bool.not_eq_true _ ▸ hno _ c (by omega) (by omega) hn
    · cases hn
  refine ⟨(l.take i).filter p, (l.drop (j + 1)).filter p, ?_⟩
  rw [congrArg (List.filter p) hsplit, List.filter_append, List.filter_cons_of_pos hpa, List.filter_append, hnone,
    List.filter_cons_of_pos hpb, List.nil_append]

theorem Flat.retainLedger_entries (f : Flat) : f.retainLedger.entries = f.paired.retains := rfl

theorem Flat.releaseLedger_entries (f : Flat) : f.releaseLedger.entries = f.paired.releases := rfl

namespace Layout

variable {y : Layout} {root : Var} {b i j : Nat} {found : Findings}

/-- A retain and a later release of the region in one block, with nothing in between. -/
structure Redundant (y : Layout) (root : Var) (b i j : Nat) : Prop where
  lt : i < j
  retain : y.Own .retain root ⟨b, i⟩
  release : y.Own .release root ⟨b, j⟩
  idle : ∀ n, i < n → n < j → y.facts.effectAt root (y.routine.codeAt b) n = .nothing

namespace Redundant

theorem effects (h : y.Redundant root b i j) : ∃ n ∈ y.order, ∃ before rest,
    y.flat.effects root n = before ++ (⟨b, i⟩, .retain) :: (⟨b, j⟩, .release) :: rest := by
  obtain ⟨n, hn, hstands, hc, hretain⟩ := h.retain
  obtain ⟨-, -, -, -, hrelease⟩ := h.release
  obtain ⟨v, kind, hi, -⟩ := Facts.effectAt_eq_retain hretain
  obtain ⟨v', kind', hj, -⟩ := Facts.effectAt_eq_release hrelease
  have hpos : ∀ l, l < (y.routine.codeAt b).body.length + 1 → (y.trace root b (y.positions b))[l]? =
      some (⟨b, l⟩, y.facts.effectAt root (y.routine.codeAt b) l) := by
    intro l hl
    rw [trace, List.getElem?_map, positions, List.getElem?_range hl]
    rfl
  refine ⟨n, hn, ?_⟩
  rw [effects_stands hstands hc]
  refine filter_adjacent h.lt ((hpos i ?_).trans ?_) ((hpos j ?_).trans ?_) rfl rfl fun l c hil hlj hl => ?_
  · exact Nat.lt_succ_of_lt (List.getElem?_eq_some_iff.mp hi).1
  · rw [hretain]
  · exact Nat.lt_succ_of_lt (List.getElem?_eq_some_iff.mp hj).1
  · rw [hrelease]
  · have hlt : l < (y.routine.codeAt b).body.length := Nat.lt_trans hlj (List.getElem?_eq_some_iff.mp hj).1
    obtain rfl := Option.some.inj ((hpos l (Nat.lt_succ_of_lt hlt)).symm.trans hl)
    simp [h.idle l hil hlj]

theorem retain_only (h : y.Redundant root b i j) : y.flat.retainLedger.Only ⟨b, i⟩ ⟨b, j⟩ := by
  obtain ⟨n, -, before, rest, heff⟩ := h.effects
  refine Walk.runs_only y.flat.downWalk_plain (fun root' _ n' hn' before' rest' heff' => ?_) .empty
  have heff' : y.flat.effects root' n' = before' ++ (⟨b, i⟩, .retain) :: rest' := heff'
  have hmem : (⟨b, i⟩, Effect.retain) ∈ y.flat.effects root' n' := heff' ▸ List.mem_append_cons_self
  obtain rfl := (own_of_effects (.inl rfl) hn' hmem).1.root_unique (.inl rfl) h.retain
  obtain ⟨-, hrest⟩ := effects_unique (.inl rfl) heff heff'
  exact ⟨rest, hrest.symm⟩

theorem release_only (h : y.Redundant root b i j) : y.flat.releaseLedger.Only ⟨b, j⟩ ⟨b, i⟩ := by
  obtain ⟨n, -, before, rest, heff⟩ := h.effects
  refine Walk.runs_only y.flat.upWalk_plain (fun root' _ n' hn' before' rest' heff' => ?_) .empty
  have heff' : y.flat.effects root' n' = rest'.reverse ++ (⟨b, j⟩, .release) :: before'.reverse := by
    rw [List.reverse_eq_iff.mp heff']
    simp [Flat.upWalk]
  have hmem : (⟨b, j⟩, Effect.release) ∈ y.flat.effects root' n' := heff' ▸ List.mem_append_cons_self
  obtain rfl := (own_of_effects (.inr rfl) (List.mem_reverse.mp hn') hmem).1.root_unique (.inr rfl) h.release
  have heff : y.flat.effects root' n = (before ++ [(⟨b, i⟩, .retain)]) ++ (⟨b, j⟩, .release) :: rest := by
    rw [heff]
    simp
  obtain ⟨rfl, hrest⟩ := effects_unique (.inr rfl) heff heff'
  have hbefore : before ++ [(⟨b, i⟩, Effect.retain)] = rest'.reverse := by
    rw [heff, hrest] at heff'
    exact List.append_cancel_right heff'
  refine ⟨before.reverse, ?_⟩
  rw [← List.reverse_reverse rest', ← hbefore]
  simp [Flat.upWalk]

/-- The pair closes on each other, and is not used in between. -/
theorem closes (hy : y.Sound) (h : y.Redundant root b i j) :
    y.flat.paired.Closes ⟨b, i⟩ ⟨root, [⟨b, i⟩], [⟨b, j⟩], false⟩ := by
  obtain ⟨n, hn, before, rest, heff⟩ := h.effects
  obtain ⟨down, up, hdown, hup⟩ := exists_traced hy h.retain.mem_roots
  have heff' : (y.flat.upWalk root).effects n =
      rest.reverse ++ (⟨b, j⟩, .release) :: (⟨b, i⟩, .retain) :: before.reverse := by
    rw [show (y.flat.upWalk root).effects n = (y.flat.effects root n).reverse from rfl, heff]
    simp
  obtain ⟨e, he, hsole⟩ := h.retain_only.sole (hdown.tied_next (y.flat.downWalk_plain root) hn heff)
  obtain ⟨e', he', hsole'⟩ := h.release_only.sole
    (hup.tied_next (y.flat.upWalk_plain root) (List.mem_reverse.mpr hn) heff')
  rw [Flat.retainLedger_entries] at he
  rw [Flat.releaseLedger_entries] at he'
  obtain ⟨m, hm, hmem⟩ := y.flat.paired_filed.retains.get? he
  obtain ⟨m', hm', hmem'⟩ := y.flat.paired_filed.releases.get? he'
  rw [(own_of_effects (.inl rfl) hm hmem).1.root_unique (.inl rfl) h.retain] at hsole
  rw [(own_of_effects (.inr rfl) hm' hmem').1.root_unique (.inr rfl) h.release] at hsole'
  exact Pairing.closes_pair he he' hsole hsole'

/-- A round finds the pair, whatever is frozen. -/
theorem findings (hy : y.Sound) (hcur : y.flat.Current) (h : y.Redundant root b i j) {frozen : List (BlockId × Var)}
    (hfound : y.flat.findings frozen = .ok found) : ⟨root, [⟨b, i⟩], [⟨b, j⟩], [], []⟩ ∈ found.exchanges := by
  have hcloses := h.closes hy
  choose o ho using Flat.exchange_total hcur frozen
  have hall := (Flat.findings_eq hcur.indexed frozen).trans (Flat.findingsFrom_eq hcur.indexed (pairing_mutual hy) ho _)
  have hxs := congrArg Findings.exchanges (Except.ok.inj (hfound.symm.trans hall))
  have hexchange : y.flat.exchange frozen ⟨root, [⟨b, i⟩], [⟨b, j⟩], false⟩ =
      .ok (some ⟨root, [⟨b, i⟩], [⟨b, j⟩], [], []⟩) := rfl
  rw [hxs, List.mem_filterMap]
  exact ⟨_, hcloses.mem_closures, Except.ok.inj ((ho _).symm.trans hexchange)⟩

end Redundant

end Layout

/-- A body where a retain of the root and a later release of it have nothing between them that
concerns the root. -/
def Facts.Redundant (k : Facts) (root : Var) (body : List Instr) : Prop :=
  ∃ before v kind between v' kind' after,
    body = before ++ .retain v kind :: (between ++ .release v' kind' :: after) ∧
    k.root v = some root ∧ k.root v' = some root ∧ ∀ i ∈ between, k.effect root i = .nothing

section Rest

variable {r next : Routine} {k k' : Facts} {region : Region} {id b i j : Nat} {root : Var} {x : Block}
  {config : Config} {outcome : Outcome}

theorem Facts.redundant_of_rough (hrough : k.rough = k'.rough) {body : List Instr} :
    k.Redundant root body ↔ k'.Redundant root body := by
  show k.rough.Redundant root body ↔ k'.rough.Redundant root body
  rw [hrough]

theorem Facts.Sound.exists_whole (hk : k.Sound r) (hx : r.blocks[b]? = some x) :
    ∃ region, k.forest.regions[0]? = some region ∧ b ∈ region.blocks := by
  obtain ⟨region, hr, -⟩ := hk.forest.whole
  refine ⟨region, hr, ?_⟩
  rw [(Layout.whole_blocks hk hr).2]
  exact List.mem_range.mpr (List.getElem?_eq_some_iff.mp hx).1

theorem Facts.Sound.exists_innermost (hk : k.Sound r) (hx : r.blocks[b]? = some x) :
    ∃ region, k.forest.regions[k.forest.innermost b]? = some region ∧ b ∈ region.blocks ∧
      k.forest.innermost b ∈ 0 :: k.forest.upward := by
  rcases hk.forest.innermost_cases b with ⟨hzero, -⟩ | ⟨l, hl, hb, -⟩
  · obtain ⟨region, hr, hb⟩ := hk.exists_whole hx
    exact ⟨region, hzero ▸ hr, hb, hzero ▸ .head _⟩
  · exact ⟨l, hl.2, List.contains_iff_mem.mp hb, .tail _ (hk.forest.mem_upward.mpr ⟨l, hl⟩)⟩

theorem Facts.Redundant.exists_layout (hk : k.Sound r) (hr : k.forest.regions[id]? = some region)
    (summary : Option (Nat → Option Summary)) (hreach : r.flow.Reaches r.entry b) (hx : r.blocks[b]? = some x)
    (hb : b ∈ region.blocks) (hc : (Layout.of r k id region summary).child b = none) (h : k.Redundant root x.body) :
    ∃ i j, (Layout.of r k id region summary).Redundant root b i j := by
  obtain ⟨before, v, kind, between, v', kind', after, hbody, hv, hv', hbetween⟩ := h
  obtain ⟨n, hstands⟩ := Layout.exists_stands (y := Layout.of r k id region summary) hb
  have hn := ((Layout.of_entered hk hr summary).reached hstands).mpr hreach
  have heff : ∀ m i, x.body[m]? = some i → k.effectAt root (r.codeAt b) m = k.effect root i := by
    intro m i hi
    rw [Routine.codeAt_eq hx, effectAt, hi]
  have hretain : x.body[before.length]? = some (.retain v kind) := by simp [hbody]
  have hrelease : x.body[before.length + (between.length + 1)]? = some (.release v' kind') := by
    rw [hbody, List.getElem?_append_right (Nat.le_add_right _ _)]
    simp
  refine ⟨before.length, before.length + (between.length + 1), by omega, ⟨n, hn, hstands, hc, ?_⟩,
    ⟨n, hn, hstands, hc, ?_⟩, fun m him hmj => ?_⟩
  · exact (heff _ _ hretain).trans (if_pos hv)
  · exact (heff _ _ hrelease).trans (if_pos hv')
  · obtain ⟨d, rfl⟩ := Nat.exists_eq_add_of_lt him
    have hd : d < between.length := by omega
    have hi : x.body[before.length + d + 1]? = some between[d] := by
      rw [hbody, Nat.add_assoc, List.getElem?_append_right (Nat.le_add_right _ _)]
      simp [List.getElem?_append_left hd, hd]
    exact (heff _ _ hi).trans (hbetween _ (List.getElem_mem hd))

/-- Rounds over the whole routine do not rest while there is such a pair. -/
theorem Rounds.Rests.not_redundant (hk : k.Sound r) (hr : k.forest.regions[0]? = some region)
    (h : Rests r k false) : ¬ (Layout.whole r k region).Redundant root b i j := by
  intro hpair
  obtain ⟨c, c', h⟩ := h
  obtain ⟨found, _, _, _, ⟨f, pinned, hflat, hfound, -⟩, hrun, hround, -⟩ := run_total hk c false
  obtain ⟨rfl, rfl, rfl⟩ : _ = c' ∧ _ = r ∧ _ = false := by simpa using hrun.symm.trans h
  have hsound := Layout.of_sound hk hr none
  obtain rfl := Except.ok.inj ((hk.build_eq hr _).symm.trans hflat)
  have hmem := hpair.findings hsound (Layout.flat_current hk hr) hfound
  rw [hround.eq_nil rfl] at hmem
  cases hmem

theorem Sweep.Rests.exists_not_redundant (hk : k.Sound r) (hr : k.forest.regions[id]? = some region)
    (h : Rests r k id) :
    ∃ summary, ∀ root b i j, ¬ (Layout.of r k id region (some summary)).Redundant root b i j := by
  obtain ⟨s, s', more, hs, h⟩ := h
  obtain ⟨t, t', found, hoists, _, _, _, _, hfinds, hrun, hround, -, -⟩ := round_total hk hr (hs.current hk) false
  obtain ⟨rfl, rfl, rfl, rfl⟩ : _ = s' ∧ _ = r ∧ _ = false ∧ _ = more := by
    simpa using hrun.symm.trans h
  obtain ⟨f, hflat, hfound⟩ := hfinds.findings
  have hsound := Layout.of_sound hk hr (some t.get?)
  obtain rfl := Except.ok.inj ((hk.build_eq hr _).symm.trans hflat)
  refine ⟨t.get?, fun root b i j hpair => ?_⟩
  have hmem := List.mem_append_left hoists (hpair.findings hsound (Layout.flat_current hk hr) hfound)
  rw [hround.eq_nil rfl] at hmem
  cases hmem

theorem Runs.not_redundant (h : Runs config r outcome next)
    (hon : ¬ (!config.enabled || r.name.startsWith initializerMark)) (hfacts' : next.facts = .ok k')
    (hreach : next.flow.Reaches next.entry b) (hx : next.blocks[b]? = some x) : ¬ k'.Redundant root x.body := by
  intro hred
  cases h with
  | skipped hoff => exact hon hoff
  | @blockOnly k log c next _ hloops hfacts hk hlog hdesc =>
    rw [← Facts.redundant_of_rough (Routine.facts_of_bare hdesc.bare.symm hfacts hfacts')] at hred
    obtain ⟨hk, hrests⟩ := hlog.rests hk
    obtain ⟨region, hr, hb⟩ := hk.exists_whole hx
    obtain ⟨i, j, hpair⟩ := hred.exists_layout hk hr none hreach hx hb rfl
    exact hrests.not_redundant hk hr hpair
  | @loopAware base next changed k log s _ hloops hbase hwide hsame hfacts hk hlog hdesc =>
    rw [← Facts.redundant_of_rough (Routine.facts_of_bare hdesc.bare.symm hfacts hfacts')] at hred
    obtain ⟨hk, hrests⟩ := hlog.rests hk (SummaryTable.empty_fresh k base)
    obtain ⟨region, hr, hb, hmem⟩ := hk.exists_innermost hx
    obtain ⟨summary, hnone⟩ := (hrests _ hmem).exists_not_redundant hk hr
    obtain ⟨i, j, hpair⟩ := hred.exists_layout hk hr (some summary) hreach hx hb
      (hk.forest.childAt_innermost b)
    exact hnone root b i j hpair

end Rest

/-- No run that is not skipped leaves, in a block that control can come to, a retain and a later
release of one root with nothing in between that concerns the root. -/
theorem no_redundant_pair_survives (config : Config) (r : Routine) (cache : Cache) (h : r.check = .ok ())
    (hc : cache.Serves r) (hon : config.enabled) (hname : r.name.startsWith initializerMark = false) :
    ∃ outcome next cache' k, run config config.strategy r cache = .ok (outcome, next, cache') ∧ next.facts = .ok k ∧
      ∀ b x root, next.flow.Reaches next.entry b → next.blocks[b]? = some x → ¬ k.Redundant root x.body := by
  obtain ⟨outcome, next, cache', hrun, hruns⟩ := run_total config h hc
  obtain ⟨base, k, log, -, -, -, hk, hdesc⟩ := hruns.descends (Routine.entry_lt_of_check h)
  obtain ⟨k', hfacts', -⟩ := Routine.facts_total (hk.of_bare hdesc.bare).entry
  refine ⟨outcome, next, cache', k', hrun, hfacts', fun b x root hreach hx => ?_⟩
  exact hruns.not_redundant (by simp [hon, hname]) hfacts' hreach hx

/-- A loop with pairs inside pairs, under two names of their root and around a release of another. -/
def pairsInPairs : Routine where
  name := "pairs_in_pairs"
  params := [0, 1]
  blocks := [
    ⟨0, [.assign 2 (.var 0)], .jump 1⟩,
    ⟨1, [.retain 0 .strong, .retain 2 .strong, .construct 3 [], .retain 0 .strong, .assign 4 (.var 3),
      .release 4 .strong, .release 2 .strong, .release 0 .strong, .release 0 .strong], .branch 1 1 2⟩,
    ⟨2, [.release 2 .strong], .ret 1⟩]
  entry := 0
  storage := [.reference, .trivial, .reference, .reference, .reference]

private theorem pairsInPairs_redundant {k : Facts} (hk : pairsInPairs.facts = .ok k) :
    k.Redundant 0 (pairsInPairs.codeAt 1).body := by
  have hdesc := Routine.describes_of_check (r := pairsInPairs) rfl hk
  refine ⟨[.retain 0 .strong, .retain 2 .strong, .construct 3 []], 0, .strong, [.assign 4 (.var 3), .release 4 .strong],
    2, .strong, [.release 0 .strong, .release 0 .strong], rfl, hdesc.root 0, hdesc.root 2, ?_⟩
  have halias : k.mayAlias 4 0 = false := hdesc.mayAlias 4 0
  have hroot : k.root 4 = some 3 := hdesc.root 4
  simp [Facts.effect, hroot, halias]

theorem no_redundant_pair_survives_pairsInPairs : pairsInPairs.check = .ok () ∧ Cache.empty.Serves pairsInPairs ∧
    Config.default.enabled ∧ pairsInPairs.name.startsWith initializerMark = false ∧
    (∀ k, pairsInPairs.facts = .ok k → k.Redundant 0 (pairsInPairs.codeAt 1).body) ∧
    ∃ outcome next cache' k, run .default Config.default.strategy pairsInPairs .empty = .ok (outcome, next, cache') ∧
      next.facts = .ok k ∧
      ∀ b x root, next.flow.Reaches next.entry b → next.blocks[b]? = some x → ¬ k.Redundant root x.body := by
  have hname : pairsInPairs.name.startsWith initializerMark = false := by decide +kernel
  exact ⟨rfl, Cache.empty_serves _, rfl, hname, fun _ => pairsInPairs_redundant,
    no_redundant_pair_survives .default pairsInPairs .empty rfl (Cache.empty_serves _) rfl hname⟩

end CountMotion
