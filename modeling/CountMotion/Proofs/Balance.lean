import CountMotion.Proofs.Agreement

/-! Closures are balanced. On every way ahead from a retain the first effect that is not harmless is
a release of the closure, and on every way back from a release it is a retain of the closure. -/
namespace CountMotion

section Ways

variable {α : Type} {l m xs ys : List α} {x : α}

private theorem split_append (h : l ++ m = xs ++ x :: ys) :
    (∃ as, xs = l ++ as ∧ m = as ++ x :: ys) ∨ ∃ as, l = xs ++ x :: as ∧ ys = as ++ m := by
  rcases List.append_eq_append_iff.mp h with hl | ⟨as, hl, hm⟩
  · exact .inl hl
  · rcases List.cons_eq_append_iff.mp hm with ⟨rfl, hm⟩ | ⟨bs, rfl, hys⟩
    · exact .inl ⟨[], by simpa using hl.symm, hm.symm⟩
    · exact .inr ⟨bs, hl, hys⟩

/-- A way through nodes from just past an effect of the first one, and the effects met on it. -/
inductive Way (next : Nat → List Nat) (effects : Nat → List (Point × Effect)) (x : Point × Effect) :
    List Nat → List (Point × Effect) → Prop where
  | mk {n : Nat} {ns : List Nat} {before rest : List (Point × Effect)} (heff : effects n = before ++ x :: rest)
      (hnext : (n :: ns).IsChain fun a b => b ∈ next a) : Way next effects x (n :: ns) (rest ++ ns.flatMap effects)

/-- A way along the edges of the region. -/
def Flat.Ahead (f : Flat) (root : Var) : Point × Effect → List Nat → List (Point × Effect) → Prop :=
  Way f.succs (f.effects root)

def Flat.Back (f : Flat) (root : Var) : Point × Effect → List Nat → List (Point × Effect) → Prop :=
  Way f.preds fun n => (f.effects root n).reverse

end Ways

section Uses

variable {p q : Pending} {ps : List Pending} {x : Point}

/-- The operation awaits an answer, and the root was used since. -/
def AwaitsUsed (p : Option Pending) (x : Point) : Prop := ∃ q, p = some q ∧ x ∈ q.points ∧ q.used

theorem AwaitsUsed.awaits {p : Option Pending} (h : AwaitsUsed p x) : Awaits p x := by
  obtain ⟨q, hq, hx, -⟩ := h
  exact ⟨q, hq, hx⟩

theorem Pending.used_mergeAll (hq : q ∈ ps) (hused : q.used) (h : mergeAll ps = some p) : p.used := by
  have hfold : ∀ (ps : List Pending) (p : Pending), p.used ∨ (∃ q ∈ ps, q.used) → (ps.foldl merge p).used := by
    intro ps
    induction ps with
    | nil => simp
    | cons q ps ih =>
      intro p h
      refine ih _ ?_
      simpa [merge, or_assoc] using h
  cases ps with
  | nil => cases hq
  | cons a ps =>
    obtain rfl := Option.some.inj h
    rcases List.mem_cons.mp hq with rfl | hq
    · exact hfold ps q (.inl hused)
    · exact hfold ps a (.inr ⟨q, hq, hused⟩)

end Uses

namespace Walk

variable {w w' : Walk Nat} {l : Ledger} {out : Nat → Option Pending} {P : Nat → List (Point × Effect) → Prop} {n s : Nat}
  {ns : List Nat} {x : Point × Effect} {xs ys before rest met : List (Point × Effect)} {y z : Point}
  {next : Nat → List Nat}

def Takes (w : Walk Nat) (next : Nat → List Nat) : Prop := ∀ n, ∀ s ∈ next n, n ∈ w.order ∧ s ∈ w.order ∧ n ∈ w.sources s

theorem Carried.past (hP : w.Carried P) (h : P n before) (heff : w.effects n = before ++ (xs ++ rest))
    (hxs : ∀ x ∈ xs, x.2.harmless) : P n (before ++ xs) := by
  induction xs generalizing before with
  | nil => rwa [List.append_nil]
  | cons x xs ih =>
    have hx := hP.pass heff (hxs x (.head _)) h
    simpa using ih hx (by simpa using heff) fun a ha => hxs a (.tail _ ha)

theorem Carried.to_end (hP : w.Carried P) (h : P n before) (heff : w.effects n = before ++ rest)
    (hrest : ∀ x ∈ rest, x.2.harmless) : P n (w.effects n) := by
  have heff' : w.effects n = before ++ (rest ++ []) := by rw [heff, List.append_nil]
  exact heff ▸ hP.past h heff' hrest

section Ways

variable (hP : w.Carried P) (ht : w.Takes next) (h : P n before) (heff : w.effects n = before ++ rest)
  (hway : (n :: ns).IsChain fun a b => b ∈ next a)
include hP ht h heff hway

/-- What is carried holds at the ends of all nodes, where a way meets harmless effects only. -/
theorem Carried.ends (hall : ∀ x ∈ rest ++ ns.flatMap w.effects, x.2.harmless) : ∀ m ∈ n :: ns, P m (w.effects m) := by
  induction ns generalizing n before rest with
  | nil => simpa using hP.to_end h heff fun x hx => hall x (List.mem_append_left _ hx)
  | cons s ns ih =>
    have hend := hP.to_end h heff fun x hx => hall x (List.mem_append_left _ hx)
    obtain ⟨hs, hway⟩ := List.isChain_cons_cons.mp hway
    obtain ⟨hn, hso, hsource⟩ := ht n s hs
    exact List.forall_mem_cons.mpr ⟨hend, ih (hP.enter hso hn hsource hend) rfl hway fun x hx =>
      hall x (List.mem_append_right _ (by simpa using hx))⟩

theorem Carried.meets (hmet : rest ++ ns.flatMap w.effects = xs ++ x :: ys) (hxs : ∀ z ∈ xs, z.2.harmless) :
    ∃ m before rest ms, w.effects m = before ++ x :: rest ∧ P m before ∧
      (m :: ms).IsChain (fun a b => b ∈ next a) ∧ rest ++ ms.flatMap w.effects = ys := by
  induction ns generalizing n before rest xs with
  | nil =>
    obtain rfl : rest = xs ++ x :: ys := by simpa using hmet
    exact ⟨n, before ++ xs, ys, [], by simpa using heff, hP.past h heff hxs, hway, by simp⟩
  | cons s ns ih =>
    rcases split_append hmet with ⟨as, rfl, htail⟩ | ⟨as, rfl, hys⟩
    · have hend := hP.to_end h heff fun a ha => hxs a (List.mem_append_left _ ha)
      obtain ⟨hs, hway⟩ := List.isChain_cons_cons.mp hway
      obtain ⟨hn, hso, hsource⟩ := ht n s hs
      exact ih (hP.enter hso hn hsource hend) rfl hway htail fun a ha => hxs a (List.mem_append_right _ ha)
    · exact ⟨n, before ++ xs, as, s :: ns, by simpa using heff, hP.past h heff hxs, hway, hys.symm⟩

end Ways

theorem Flows.origin (h : w.Flows z n before) : ∃ m ∈ w.order, (z, w.opens) ∈ w.effects m := by
  induction h with
  | opens hn heff => exact ⟨_, hn, heff ▸ List.mem_append_cons_self⟩
  | pass _ _ _ ih => exact ih
  | enter _ _ _ ih => exact ih

theorem flows_carried (w : Walk Nat) (z : Point) : w.Carried (w.Flows z) := ⟨.pass, fun hn _ => .enter hn⟩

theorem awaitsUsed_into (hb : ¬ w.blocked out n) (hs : s ∈ w.sources n) (h : AwaitsUsed (out s) z) :
    AwaitsUsed (w.into out n) z := by
  obtain ⟨q, hq, hmem, hused⟩ := h
  obtain ⟨p, hp, hz⟩ := (awaits_into hb).mpr ⟨s, hs, q, hq, hmem⟩
  refine ⟨p, hp, hz, Pending.used_mergeAll (List.mem_filterMap.mpr ⟨s, hs, hq⟩) hused ?_⟩
  rwa [into, if_neg hb] at hp

section Answers

variable (hw : w.Plain) (hg : w.Goes) (ht : w.Traced out l) (hz : ¬ l.Loose z)
include hw hg ht hz

/-- An effect that an operation comes to and that is not harmless answers it. -/
theorem Flows.answered (h : w.Flows z n before) (heff : w.effects n = before ++ x :: rest) (hx : ¬ x.2.harmless) :
    x.2 = w.answers ∧ l.Tied z x.1 := by
  have hmarks := (ht.told n h.mem_order).marks _ _ _ heff
  rcases hw.marks_cases hmarks (h.awaits hw hg ht hz) with hloose | hanswers | ⟨hharmless, -⟩
  · exact absurd hloose hz
  · exact hanswers
  · exact absurd hharmless hx

theorem Flows.not_escapes (h : w.Flows z n (w.effects n)) : ¬ w.escapes n :=
  fun he => hz ((ht.told n h.mem_order).escaped he z (h.awaits hw hg ht hz))

theorem Traced.used_carried : w.Carried fun n before => n ∈ w.order ∧ AwaitsUsed (w.along out n before) z where
  pass _ hx h := by
    obtain ⟨hn, q, hq, hmem, hused⟩ := h
    refine ⟨hn, ?_⟩
    rw [along_snoc, hw.after_of_harmless hx, hq]
    exact ⟨_, rfl, hmem, by simp [hused]⟩
  enter hn hso hs h := by
    obtain ⟨hout, hblocked⟩ := ht.goes_on hg hz hn hso hs h.2.awaits
    exact ⟨hn, awaitsUsed_into hblocked hs (hout ▸ h.2)⟩

/-- A use after which an operation is answered is entered for it. -/
theorem Flows.used (htakes : w.Takes next) {u : Point × Effect} (h : w.Flows z n before)
    (heff : w.effects n = before ++ u :: rest) (hu : u.2 = .use) (hway : (n :: ns).IsChain fun a b => b ∈ next a)
    (hmet : rest ++ ns.flatMap w.effects = xs ++ x :: ys) (hxs : ∀ z ∈ xs, z.2.harmless) (hx : x.2 = w.answers) :
    l.Used z := by
  have hafter : AwaitsUsed (w.along out n (before ++ [u])) z := by
    obtain ⟨q, hq, hmem⟩ := h.awaits hw hg ht hz
    rw [along_snoc, hw.after_of_harmless (by rw [hu]; rfl), hq]
    exact ⟨_, rfl, hmem, by simp [hu]⟩
  have hrest : w.effects n = (before ++ [u]) ++ rest := by simpa using heff
  obtain ⟨m, _, _, _, heff, ⟨hm, q, hq, hmem, hused⟩, -⟩ :=
    (ht.used_carried hw hg hz).meets htakes ⟨h.mem_order, hafter⟩ hrest hway hmet hxs
  have hopens : x.2 ≠ w.opens := fun he => hw.ne (he.symm.trans hx)
  exact (((ht.told m hm).marks _ _ _ heff).answered hopens hx q hq z hmem).2 hused

end Answers

section Ways

variable (hw : w.Plain) (hg : w.Goes) (ht : w.Traced out l) (hz : ¬ l.Loose z) (htakes : w.Takes next)
  (horder : ∀ n, (z, w.opens) ∈ w.effects n → n ∈ w.order) (h : Way next w.effects (z, w.opens) ns met)
include htakes horder h

/-- An operation comes to the ends of all nodes, where a way from it meets harmless effects only. -/
theorem flows_of_way (hall : ∀ x ∈ met, x.2.harmless) : ∀ m ∈ ns, w.Flows z m (w.effects m) := by
  obtain ⟨heff, hway⟩ := h
  have hstart := Flows.opens (horder _ (heff ▸ List.mem_append_cons_self)) heff
  exact (w.flows_carried z).ends htakes hstart (by simpa using heff) hway hall

include hw hg ht hz

/-- The first effect that is not harmless on a way from an operation answers it. If no use is entered
for the operation, none comes before. -/
theorem answered_of_way (hmet : met = xs ++ x :: ys) (hxs : ∀ z ∈ xs, z.2.harmless) (hx : ¬ x.2.harmless) :
    x.2 = w.answers ∧ l.Tied z x.1 ∧ (¬ l.Used z → ∀ u ∈ xs, u.2 ≠ .use) := by
  obtain @⟨n, ns, before, rest, heff, hway⟩ := h
  have hstart := Flows.opens (horder _ (heff ▸ List.mem_append_cons_self)) heff
  have hrest : w.effects n = (before ++ [(z, w.opens)]) ++ rest := by simpa using heff
  obtain ⟨m, before', rest', ms, heff', hflow, -⟩ :=
    (w.flows_carried z).meets htakes hstart hrest hway hmet hxs
  obtain ⟨hanswers, htied⟩ := hflow.answered hw hg ht hz heff' hx
  refine ⟨hanswers, htied, fun hunused u hu huse => hunused ?_⟩
  obtain ⟨as, bs, rfl⟩ := List.append_of_mem hu
  rw [List.append_assoc, List.cons_append] at hmet
  obtain ⟨m, before', rest', ms, heff', hflow, hway', hmet'⟩ :=
    (w.flows_carried z).meets htakes hstart hrest hway hmet fun a ha => hxs a (List.mem_append_left _ ha)
  exact hflow.used hw hg ht hz htakes heff' huse hway' hmet'
    (fun a ha => hxs a (List.mem_append_right _ (.tail _ ha))) hanswers

end Ways

section Starving

/-- Nothing is pending where nothing is pending at a source that is not exempt. -/
theorem Traced.starved_carried (hw : w.Plain) (ht : w.Traced out l)
    (hexempt : ∀ n, ∀ s ∈ w.sources n, w.exempt n → w.exempt s) :
    w.Carried fun n before => w.along out n before = none ∧ ¬ w.exempt n where
  pass _ hx h := by
    refine ⟨?_, h.2⟩
    rw [along_snoc, hw.after_of_harmless hx, h.1]
    rfl
  enter {n s} _ hso hs h := by
    have hout : out s = none := by rw [ht.out_eq s hso, leave, h.1, ite_self]
    have hblocked : w.blocked out n := by
      rw [blocked, Bool.or_eq_true, List.any_eq_true]
      exact .inr ⟨s, hs, by simpa [hout] using h.2⟩
    refine ⟨?_, fun he => h.2 (hexempt n s hs he)⟩
    rw [along, List.foldl_nil, into, if_pos hblocked]

/-- An operation whose answer is not loose comes to no end where nothing is pending the other way. -/
theorem Dual.fed (hd : w.Dual w') (hw : w'.Plain) (hg : w'.Goes) (ht : w'.Traced out l) (hy : ¬ l.Loose y)
    (hexempt : ∀ n, ∀ s ∈ w'.sources n, w'.exempt n → w'.exempt s) (hm : w.Meets z y)
    (hplace : ∀ n before rest n' before' rest', w.effects n = before ++ (z, w.opens) :: rest →
      w.effects n' = before' ++ (z, w.opens) :: rest' → n = n' ∧ rest = rest')
    (h : w.Flows z n (w.effects n)) (hn : ¬ w'.exempt n) : w'.into out n ≠ none := by
  intro hnone
  obtain ⟨m, before, rest, -, heff, hstarved, -⟩ :=
    hd.returns (ht.starved_carried hw hexempt) h (List.append_nil _).symm ⟨hnone, hn⟩
  obtain ⟨m', before', rest', -, heff', hawaits⟩ := hd.pending hw hg ht hy hm
  obtain ⟨rfl, rfl⟩ := hplace _ _ _ _ _ _ heff heff'
  rw [hstarved] at hawaits
  exact not_awaits_none y hawaits

end Starving

end Walk

namespace Layout

variable {y : Layout} {root : Var} {n n' s : Nat} {p : Point} {e : Effect}
  {before before' rest rest' : List (Point × Effect)}

theorem downWalk_takes (h : y.Sound) (root : Var) : (y.flat.downWalk root).Takes y.flat.succs := by
  intro n s hs
  obtain ⟨hn, hso⟩ := mem_order_of_succs h hs
  exact ⟨hn, hso, mem_preds_iff.mpr hs⟩

theorem upWalk_takes (h : y.Sound) (root : Var) : (y.flat.upWalk root).Takes y.flat.preds := by
  intro n m hm
  obtain ⟨hmo, hn⟩ := mem_order_of_succs h (mem_preds_iff.mp hm)
  exact ⟨List.mem_reverse.mpr hn, List.mem_reverse.mpr hmo, mem_preds_iff.mp hm⟩

theorem preds_ne_nil (h : y.Sound) (hn : n ∈ y.order) (hblind : ¬ y.flat.blindEntry n) : y.flat.preds n ≠ [] := by
  rcases (searchOrder h).entered n hn with rfl | ⟨m, he, hlt⟩
  · exact absurd (by simp [Flat.blindEntry, flat]) hblind
  · have hm : m ∈ y.order := List.idxOf_lt_length_iff.mp (Nat.lt_of_lt_of_le hlt List.idxOf_le_length)
    exact List.ne_nil_of_mem (mem_preds.mpr ⟨hm, edge_graph.mp he, hlt⟩)

theorem nodup_effects_block {b : Nat} (h : y.places[n]? = some (.block b)) : (y.flat.effects root n).Nodup := by
  rw [effects_block h, Facts.blockEffects]
  refine List.Nodup.filter _ (List.nodup_range.map fun i j hij => ?_)
  exact congrArg (fun x : Point × Effect => x.1.index) hij

theorem effects_unique (he : e = .retain ∨ e = .release) (h : y.flat.effects root n = before ++ (p, e) :: rest)
    (h' : y.flat.effects root n' = before' ++ (p, e) :: rest') : n = n' ∧ rest = rest' := by
  have hmem : (p, e) ∈ y.flat.effects root n := h ▸ List.mem_append_cons_self
  have hmem' : (p, e) ∈ y.flat.effects root n' := h' ▸ List.mem_append_cons_self
  have hplace := (effects_own hmem he).1
  obtain rfl := node_unique hplace (effects_own hmem' he).1
  have hnodup : (y.flat.effects root n).Nodup := nodup_effects_block hplace
  rw [h, List.nodup_append, List.nodup_cons] at hnodup
  obtain ⟨-, ⟨hrest, -⟩, hbefore⟩ := hnodup
  obtain ⟨-, -, heq⟩ := (List.append_cons_inj_of_notMem (fun hmem => hbefore _ hmem _ (.head _) rfl) hrest).mp
    (h.symm.trans h')
  exact ⟨rfl, heq⟩

theorem Own.mem_order (h : y.Own e root p) (he : e = .retain ∨ e = .release)
    (hn : (p, e) ∈ y.flat.effects root n) : n ∈ y.order := by
  obtain ⟨m, hm, hstands, hc, -⟩ := h
  exact node_unique (effects_own hn he).1 (hstands.own hc) ▸ hm

theorem Own.root_unique {root' : Var} (he : e = .retain ∨ e = .release) (h : y.Own e root p) (h' : y.Own e root' p) :
    root = root' := by
  rcases he with rfl | rfl
  · obtain ⟨v, kind, hi, hv⟩ := h.retain_at
    obtain ⟨v', kind', hi', hv'⟩ := h'.retain_at
    obtain ⟨rfl, -⟩ := Instr.retain.inj (Option.some.inj (hi.symm.trans hi'))
    exact Option.some.inj (hv.symm.trans hv')
  · obtain ⟨v, kind, hi, hv⟩ := h.release_at
    obtain ⟨v', kind', hi', hv'⟩ := h'.release_at
    obtain ⟨rfl, -⟩ := Instr.release.inj (Option.some.inj (hi.symm.trans hi'))
    exact Option.some.inj (hv.symm.trans hv')

theorem Own.meets {d : Point} (h : y.Own .retain root p) (hd : y.flat.retainLedger.Tied p d) :
    (y.flat.downWalk root).Meets p d := by
  obtain ⟨root', -, hmeets⟩ := meets_of_retainLedger hd
  obtain ⟨_, _, _, heff, hflow⟩ := hmeets
  obtain ⟨n, hn, hmem⟩ := hflow.origin
  rw [h.root_unique (.inl rfl) (own_of_effects (.inl rfl) hn hmem).1]
  exact ⟨_, _, _, heff, hflow⟩

end Layout

section Traps

variable {r : Routine} {k : Facts} {id : Nat} {region : Region} {summary : Option (Nat → Option Summary)} {b n s : Nat}

theorem Facts.Sound.traps_of_path {p : Nat → Prop} {a : Nat} (hk : k.Sound r) (h : r.flow.Path p a b)
    (ha : k.traps a) : k.traps b := by
  induction h with
  | here => exact ha
  | snoc _ he _ ih => exact hk.traps_next ih he.1

theorem Facts.Sound.traps_loop {c : Nat} {l : Region} (hk : k.Sound r) (hl : k.forest.IsLoop c l) (hb : l.holds b) :
    k.traps l.header ↔ k.traps b := by
  have hnat := hk.forest.natural hl
  have hin := (hnat.holds_iff b).mp hb
  refine ⟨hk.traps_of_path (hin.path_from_header hnat.header), fun h => ?_⟩
  obtain ⟨latch, hlatch, hpath⟩ := hin.path_to_latch hnat.header
  exact hk.traps_next (hk.traps_of_path hpath h) hlatch.edge.1

theorem Layout.traps_stands (hk : k.Sound r) (h : (Layout.of r k id region summary).Stands b n) :
    (Layout.of r k id region summary).flat.traps n ↔ k.traps b := by
  rw [Flat.traps, Layout.getElem?_nodes, h.2, Layout.placeOf]
  cases hc : (Layout.of r k id region summary).child b with
  | none => rfl
  | some c =>
    obtain ⟨_, -, hc⟩ := Option.bind_eq_some_iff.mp hc
    obtain ⟨-, l, hl, hb⟩ := hk.forest.childAt_spec hc
    show k.traps ((k.forest.regions[c]?.map Region.header).getD 0) ↔ k.traps b
    rw [hl.2]
    exact hk.traps_loop hl hb

theorem Layout.traps_succs (hk : k.Sound r) (hr : k.forest.regions[id]? = some region) :
    ∀ n, ∀ s ∈ (Layout.of r k id region summary).flat.succs n, (Layout.of r k id region summary).flat.traps n →
      (Layout.of r k id region summary).flat.traps s := by
  intro n s hs hn
  obtain ⟨-, hnext, -⟩ := Layout.mem_succs.mp hs
  obtain ⟨b, t, htarget, hb, ht⟩ := Layout.exists_target hnext
  refine (Layout.traps_stands hk ht).mpr (hk.traps_next ((Layout.traps_stands hk hb).mp hn) ?_)
  exact Routine.mem_next_flow.mpr ⟨_, Routine.getElem?_codeAt (hk.blocks_lt hr hb.1), htarget, hk.blocks_lt hr ht.1⟩

end Traps

/-- Retains and releases of a closure answer each other on every way through the region. -/
structure Closure.Balanced (c : Closure) (f : Flat) : Prop where
  ne_nil : c.retains ≠ [] ∧ c.releases ≠ []
  retains : ∀ x ∈ c.retains, f.Acts .retain x c.root
  releases : ∀ x ∈ c.releases, f.Acts .release x c.root
  /-- The first effect ahead of a retain that is not harmless is a release of the closure. If the
  closure is not used, no use comes before. -/
  answered : ∀ x ∈ c.retains, ∀ ns met, f.Ahead c.root (x, .retain) ns met →
    ∀ xs y ys, met = xs ++ y :: ys → (∀ z ∈ xs, z.2.harmless) → ¬ y.2.harmless →
      y.2 = .release ∧ y.1 ∈ c.releases ∧ (c.used = false → ∀ z ∈ xs, z.2 ≠ .use)
  /-- Up to there, no way comes to an edge back or to where control may leave for somewhere that the
  root still matters, and it ends only in code that traps. -/
  ahead : ∀ x ∈ c.retains, ∀ ns met, f.Ahead c.root (x, .retain) ns met → (∀ z ∈ met, z.2.harmless) →
    ∀ m ∈ ns, ¬ f.liveEscape c.root m ∧ (f.succs m = [] → f.traps m)
  /-- The first effect back from a release that is not harmless is a retain of the closure. -/
  asked : ∀ x ∈ c.releases, ∀ ns met, f.Back c.root (x, .release) ns met →
    ∀ xs y ys, met = xs ++ y :: ys → (∀ z ∈ xs, z.2.harmless) → ¬ y.2.harmless → y.2 = .retain ∧ y.1 ∈ c.retains
  /-- Up to there, no way comes to the entry of the region or to the end of an edge back, and it
  goes on. -/
  back : ∀ x ∈ c.releases, ∀ ns met, f.Back c.root (x, .release) ns met → (∀ z ∈ met, z.2.harmless) →
    ∀ m ∈ ns, ¬ f.blindEntry m ∧ f.preds m ≠ []

namespace Closure.Standing

variable {c : Closure} {y : Layout} {down up : Nat → Option Pending} {x : Point} {ns : List Nat}
  {met : List (Point × Effect)}

/-- A way from a retain over harmless effects ends only where control traps. Elsewhere no release
would be pending, looking back, and the retain would have none to answer it. -/
theorem ends_trapping (hc : c.Standing y down up)
    (htraps : ∀ n, ∀ s ∈ y.flat.succs n, y.flat.traps n → y.flat.traps s) (hx : x ∈ c.retains) {m : Nat}
    (hflow : (y.flat.downWalk c.root).Flows x m (y.flat.effects c.root m)) (hend : y.flat.succs m = []) :
    y.flat.traps m := by
  obtain ⟨d, hd, htied⟩ := hc.tight.answered x hx
  have hnone : (y.flat.upWalk c.root).into up m = none := by
    have hsources : (y.flat.upWalk c.root).sources m = [] := hend
    rw [Walk.into, hsources]
    exact ite_self _
  refine Decidable.not_not.mp fun hlive => ?_
  exact (y.downWalk_dual c.root).fed (y.flat.upWalk_plain c.root) (y.upWalk_goes c.root) hc.up
    (hc.tight.release d hd) htraps ((hc.retains x hx).meets htied)
    (fun _ _ _ _ _ _ => Layout.effects_unique (.inl rfl)) hflow hlive hnone

theorem balanced {p : Pairing} (hc : c.Standing y down up) (hd : c.Drawn p y.flat) (h : y.Sound)
    (htraps : ∀ n, ∀ s ∈ y.flat.succs n, y.flat.traps n → y.flat.traps s) : c.Balanced y.flat := by
  have hdown := y.flat.downWalk_plain c.root
  have hdownGoes := y.downWalk_goes c.root
  have hup := y.flat.upWalk_plain c.root
  have hupGoes := y.upWalk_goes c.root
  have htakes := Layout.downWalk_takes h c.root
  have htakes' := Layout.upWalk_takes h c.root
  have hretain : ∀ x ∈ c.retains, ∀ n, (x, .retain) ∈ y.flat.effects c.root n → n ∈ y.order :=
    fun x hx _ hn => (hc.retains x hx).mem_order (.inl rfl) hn
  have hrelease : ∀ x ∈ c.releases, ∀ n, (x, .release) ∈ (y.flat.effects c.root n).reverse → n ∈ y.order.reverse :=
    fun x hx _ hn => List.mem_reverse.mpr ((hc.releases x hx).mem_order (.inr rfl) (List.mem_reverse.mp hn))
  refine ⟨⟨hc.ne_nil, ?_⟩, fun x hx => (hd.retains x hx).1, fun x hx => (hd.releases x hx).1,
    fun x hx ns met hway xs z ys hmet hxs hz => ?_, fun x hx ns met hway hall m hm => ?_,
    fun x hx ns met hway xs z ys hmet hxs hz => ?_, fun x hx ns met hway hall m hm => ?_⟩
  · obtain ⟨x, hx⟩ := List.exists_mem_of_ne_nil _ hc.ne_nil
    obtain ⟨d, hd, -⟩ := hc.tight.answered x hx
    exact List.ne_nil_of_mem hd
  · obtain ⟨hrelease, htied, hused⟩ := Walk.answered_of_way hdown hdownGoes hc.down (hc.tight.retain x hx) htakes
      (hretain x hx) hway hmet hxs hz
    exact ⟨hrelease, hc.tight.answers x hx _ htied, fun hunused => hused (hc.tight.spared hunused x hx)⟩
  · have hflow := Walk.flows_of_way htakes (hretain x hx) hway hall m hm
    exact ⟨hflow.not_escapes hdown hdownGoes hc.down (hc.tight.retain x hx), hc.ends_trapping htraps hx hflow⟩
  · obtain ⟨hretain, htied, -⟩ := Walk.answered_of_way hup hupGoes hc.up (hc.tight.release x hx) htakes'
      (hrelease x hx) hway hmet hxs hz
    exact ⟨hretain, hc.tight.asks x hx _ htied⟩
  · have hflow := Walk.flows_of_way htakes' (hrelease x hx) hway hall m hm
    have hblind := hflow.not_escapes hup hupGoes hc.up (hc.tight.release x hx)
    exact ⟨hblind, Layout.preds_ne_nil h (List.mem_reverse.mp hflow.mem_order) hblind⟩

end Closure.Standing

/-- The closures of a region are balanced on every way through it. -/
theorem closures_balanced (r : Routine) (k : Facts) (id : RegionId) (summary : Option (RegionId → Option Summary))
    (f : Flat) (h : r.check = .ok ()) (hk : r.facts = .ok k) (hf : Flat.build r k id summary = .ok f) :
    ∃ p, f.pairing = .ok p ∧ ∀ seed c, p.close seed = some c → c.Balanced f := by
  obtain ⟨k', hk', hsound⟩ := Routine.facts_total (Routine.entry_lt_of_check h)
  obtain rfl := Except.ok.inj (hk.symm.trans hk')
  obtain ⟨region, hr, rfl⟩ := hsound.exists_region hf
  have hy := Layout.of_sound hsound hr summary
  refine ⟨_, Flat.pairing_eq (Layout.indexed hy), fun seed c hc => ?_⟩
  obtain ⟨down, up, hstanding⟩ := Pairing.close_standing hy (Flat.paired_within _) (Flat.paired_filed _) hc
  exact hstanding.balanced (Pairing.close_drawn (Flat.paired_filed _) hc) hy (Layout.traps_succs hsound hr)

/-- The root is retained before a loop that may be left for a trap, and released after it. -/
def guardedLoop : Routine where
  name := "guarded_loop"
  params := [0, 1]
  blocks := [
    ⟨0, [.retain 0 .strong], .branch 1 1 2⟩,
    ⟨1, [], .trap⟩,
    ⟨2, [], .jump 3⟩,
    ⟨3, [.call 2 1 [0] .readOnly], .branch 1 3 4⟩,
    ⟨4, [], .branch 1 5 6⟩,
    ⟨5, [.release 0 .strong], .ret 1⟩,
    ⟨6, [.release 0 .strong], .ret 1⟩]
  entry := 0
  storage := [.reference, .trivial, .trivial]

def guardedLoop.summary (_ : RegionId) : Option Summary :=
  some { roots := [], used := [0], observed := [], released := [], mayRelease := false, returns := false }

theorem closures_balanced_guardedLoop : guardedLoop.check = .ok () ∧
    ∃ k f p c, guardedLoop.facts = .ok k ∧ Flat.build guardedLoop k 0 (some guardedLoop.summary) = .ok f ∧
      f.pairing = .ok p ∧ p.close ⟨0, 0⟩ = some c ∧
      (c.retains, c.releases, c.used) = ([⟨0, 0⟩], [⟨5, 0⟩, ⟨6, 0⟩], true) ∧ c.Balanced f := by
  have hclose : (guardedLoop.facts.bind fun k =>
      (Flat.build guardedLoop k 0 (some guardedLoop.summary)).bind fun f => f.pairing.map fun p =>
        (p.close ⟨0, 0⟩).map fun c => (c.retains, c.releases, c.used)) =
      .ok (some ([⟨0, 0⟩], [⟨5, 0⟩, ⟨6, 0⟩], true)) := by decide +kernel
  obtain ⟨k, hk, hclose⟩ := bind_eq_ok.mp hclose
  obtain ⟨f, hf, hclose⟩ := bind_eq_ok.mp hclose
  obtain ⟨p, hp, hbalanced⟩ := closures_balanced guardedLoop k 0 _ f rfl hk hf
  rw [hp] at hclose
  obtain ⟨c, hc, hmembers⟩ := Option.map_eq_some_iff.mp (Except.ok.inj hclose)
  exact ⟨rfl, k, f, p, c, hk, hf, hp, hc, hmembers, hbalanced _ c hc⟩

end CountMotion
