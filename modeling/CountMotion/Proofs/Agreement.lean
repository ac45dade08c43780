import CountMotion.Proofs.Closures

/-! The two directions of a pairing agree. An operation is answered where it comes to over harmless
effects, and the answer comes back to it the same way. -/
namespace CountMotion

namespace Ledger

variable {l : Ledger} {own : Point → Point → Prop} {p : Option Pending} {x : Point}

def Ties (l : Ledger) (own : Point → Point → Prop) : Prop := l.entries.All fun z e => ∀ y ∈ e.partners, own z y

theorem Ties.tied (h : l.Ties own) {y : Point} (hy : l.Tied x y) : own x y := by
  obtain ⟨e, he, hmem⟩ := hy
  exact TombMap.All.get? h he y hmem

theorem Ties.loosen (h : l.Ties own) (p : Option Pending) : (l.loosen p).Ties own :=
  TombMap.All.foldl_update (f := fun e : Entry => { e with loose := true }) h fun _ _ _ he => he

theorem Ties.answer (h : l.Ties own) (hx : ∀ z, Awaits p z → own z x) : (l.answer p x).Ties own := by
  cases p with
  | none => exact h
  | some p =>
    refine TombMap.All.foldl_update
      (f := fun e : Entry => { e with partners := e.partners ++ [x], used := e.used || p.used }) h
      fun z hz e he y hy => ?_
    rcases List.mem_append.mp hy with hy | hy
    · exact he y hy
    · rw [List.mem_singleton.mp hy]
      exact hx z (awaits_some.mpr hz)

theorem Ties.start (h : l.Ties own) (root : Var) (p : Option Pending) (x : Point) : (l.start root p x).Ties own :=
  (h.loosen p).insertNew fun _ hy => absurd hy List.not_mem_nil

end Ledger

namespace Walk

variable {w w' : Walk Nat} {root : Var} {l : Ledger} {p : Option Pending} {out : Nat → Option Pending} {n : Nat}
  {x : Point × Effect} {xs before rest : List (Point × Effect)} {y z : Point} {own : Point → Point → Prop}

/-- The operation comes over harmless effects to a place in a node, past some of its effects. -/
inductive Flows (w : Walk Nat) (z : Point) : Nat → List (Point × Effect) → Prop where
  | opens {n : Nat} {before rest : List (Point × Effect)} (hn : n ∈ w.order)
      (heff : w.effects n = before ++ (z, w.opens) :: rest) : Flows w z n (before ++ [(z, w.opens)])
  | pass {n : Nat} {before rest : List (Point × Effect)} {x : Point × Effect} (heff : w.effects n = before ++ x :: rest)
      (hx : x.2.harmless) (hz : Flows w z n before) : Flows w z n (before ++ [x])
  | enter {n s : Nat} (hn : n ∈ w.order) (hs : s ∈ w.sources n) (hz : Flows w z s (w.effects s)) : Flows w z n []

theorem Flows.mem_order (h : w.Flows z n before) : n ∈ w.order := by
  induction h with
  | opens hn => exact hn
  | pass _ _ _ ih => exact ih
  | enter hn => exact hn

/-- A property of places that goes on past harmless effects and along edges. -/
structure Carried (w : Walk Nat) (P : Nat → List (Point × Effect) → Prop) : Prop where
  pass : ∀ {n before rest x}, w.effects n = before ++ x :: rest → x.2.harmless → P n before → P n (before ++ [x])
  enter : ∀ {n s}, n ∈ w.order → s ∈ w.order → s ∈ w.sources n → P s (w.effects s) → P n []

theorem Flows.carries {P : Nat → List (Point × Effect) → Prop} (hP : w.Carried P)
    (hopens : ∀ {n before}, P n (before ++ [(z, w.opens)])) (h : w.Flows z n before) : P n before := by
  induction h with
  | opens => exact hopens
  | pass heff hx _ ih => exact hP.pass heff hx ih
  | enter hn hs hflow ih => exact hP.enter hn hflow.mem_order hs ih

/-- The operation comes to an effect that answers it. -/
def Meets (w : Walk Nat) (z y : Point) : Prop :=
  ∃ n before rest, w.effects n = before ++ (y, w.answers) :: rest ∧ w.Flows z n before

section Recording

theorem Plain.flows_after (hw : w.Plain) (hn : n ∈ w.order) (heff : w.effects n = before ++ x :: rest)
    (hp : ∀ z, Awaits p z → w.Flows z n before) (hz : Awaits (w.after p x) z) : w.Flows z n (before ++ [x]) := by
  rcases awaits_after hz with ⟨hx, rfl⟩ | ⟨⟨hopens, hanswers, hint⟩, hz⟩
  · obtain ⟨z, e⟩ := x
    obtain rfl : e = w.opens := hx
    exact .opens hn heff
  · exact .pass heff (hw.harmless hopens hanswers hint) (hp z hz)

/-- A ledger whose answers were met, and a state of operations that came to a place in a node. -/
structure Met (w : Walk Nat) (own : Point → Point → Prop) (n : Nat) (before : List (Point × Effect))
    (s : Ledger × Option Pending) : Prop where
  ties : s.1.Ties own
  flows : ∀ z, Awaits s.2 z → w.Flows z n before

theorem step_snd (root : Var) (s : Ledger × Option Pending) (x : Point × Effect) :
    (w.step root s x).2 = w.after s.2 x := by
  simp only [step, after]
  repeat' split
  all_goals rfl

theorem Met.step {s : Ledger × Option Pending} (hw : w.Plain) (hown : ∀ z y, w.Meets z y → own z y) (root : Var)
    (hn : n ∈ w.order) (heff : w.effects n = before ++ x :: rest) (h : w.Met own n before s) :
    w.Met own n (before ++ [x]) (w.step root s x) := by
  refine ⟨?_, fun z hz => hw.flows_after hn heff h.flows (step_snd root s x ▸ hz)⟩
  simp only [Walk.step]
  split
  · exact h.ties.start root s.2 x.1
  split
  · rename_i hanswers
    refine h.ties.answer fun z hz => hown z x.1 ⟨n, before, rest, ?_, h.flows z hz⟩
    rw [heff, ← hanswers]
  split
  · exact h.ties.loosen s.2
  split <;> exact h.ties

theorem Met.steps {s : Ledger × Option Pending} (hw : w.Plain) (hown : ∀ z y, w.Meets z y → own z y) (root : Var)
    (hn : n ∈ w.order) (heff : w.effects n = before ++ xs) (h : w.Met own n before s) :
    w.Met own n (w.effects n) (xs.foldl (w.step root) s) := by
  induction xs generalizing before s with
  | nil => rwa [heff, List.append_nil]
  | cons x xs ih =>
    rw [List.foldl_cons]
    exact ih (by simpa using heff) (h.step hw hown root hn heff)

theorem Met.arrive {states : Nat → Option Pending} (hn : n ∈ w.order) (hl : l.Ties own)
    (hs : ∀ m z, Awaits (states m) z → w.Flows z m (w.effects m)) : w.Met own n [] (w.arriveFrom l states n) := by
  rw [Walk.arriveFrom]
  split
  · exact ⟨hl.loosen _, fun z hz => absurd hz (by simp)⟩
  · refine ⟨hl, fun z hz => ?_⟩
    obtain ⟨q, hq, hz⟩ := (Pending.awaits_mergeAll _).mp hz
    obtain ⟨m, hm, hq⟩ := List.mem_filterMap.mp hq
    exact .enter hn hm (hs m z ⟨q, hq, hz⟩)

theorem Met.depart {s : Ledger × Option Pending} (h : w.Met own n (w.effects n) s) :
    w.Met own n (w.effects n) (w.depart n s) := by
  rw [Walk.depart]
  split
  · exact ⟨h.ties.loosen s.2, fun z hz => absurd hz (by simp)⟩
  split
  · exact ⟨h.ties, fun z hz => absurd hz (by simp)⟩
  · exact h

/-- One walk records only what operations come to. -/
theorem run_ties (hw : w.Plain) (hown : ∀ z y, w.Meets z y → own z y) (root : Var) (hl : l.Ties own) :
    (w.run root l).Ties own := by
  refine run_induct (P := (·.Ties own)) (Q := fun n p => ∀ z, Awaits p z → w.Flows z n (w.effects n)) hl
    (fun n z hz => absurd hz (by simp)) fun n hn l states hl hstates => ?_
  have hmet := ((Met.arrive hn hl hstates).steps hw hown root hn rfl).depart
  exact ⟨hmet.ties, hmet.flows⟩

theorem runs_ties {walk : Var → Walk Nat} (hw : ∀ root, (walk root).Plain) {roots : List Var}
    (hown : ∀ root ∈ roots, ∀ z y, (walk root).Meets z y → own z y) (hl : l.Ties own) :
    (roots.foldl (fun l root => (walk root).run root l) l).Ties own := by
  induction roots generalizing l with
  | nil => exact hl
  | cons root roots ih =>
    exact ih (fun a ha => hown a (.tail _ ha)) (run_ties (hw root) (hown root (.head _)) root hl)

theorem runs_meet {walk : Var → Walk Nat} (hw : ∀ root, (walk root).Plain) {roots : List Var}
    (h : (roots.foldl (fun l root => (walk root).run root l) .empty).Tied z y) :
    ∃ root ∈ roots, (walk root).Meets z y := by
  have hties : (roots.foldl (fun l root => (walk root).run root l) .empty).Ties
      fun z y => ∃ root ∈ roots, (walk root).Meets z y :=
    runs_ties hw (fun root hroot _ _ h => ⟨root, hroot, h⟩) TombMap.All.empty
  exact hties.tied h

end Recording

section Duality

def Goes (w : Walk Nat) : Prop := ∀ n s, s ∈ w.sources n → w.ends s = false

/-- What awaits an answer at the end of a node, and is not loose, goes on along every edge. -/
theorem Traced.goes_on {s : Nat} (hg : w.Goes) (ht : w.Traced out l) (hz : ¬ l.Loose z) (hn : n ∈ w.order)
    (hso : s ∈ w.order) (hs : s ∈ w.sources n) (h : Awaits (w.along out s (w.effects s)) z) :
    out s = w.along out s (w.effects s) ∧ ¬ w.blocked out n := by
  have hescapes : ¬ w.escapes s := fun he => hz ((ht.told s hso).escaped he z h)
  have hout : out s = w.along out s (w.effects s) := by
    rw [ht.out_eq s hso, leave, hg n s hs, Bool.or_false, if_neg hescapes]
  exact ⟨hout, fun hb => hz ((ht.told n hn).blocked hb s hs z (hout ▸ h))⟩

theorem along_snoc : w.along out n (before ++ [x]) = w.after (w.along out n before) x := by
  rw [along, List.foldl_append]
  rfl

theorem Traced.awaits_carried (hw : w.Plain) (hg : w.Goes) (ht : w.Traced out l) (hz : ¬ l.Loose z) :
    w.Carried fun n before => Awaits (w.along out n before) z where
  pass _ hx h := by
    rw [along_snoc]
    exact (hw.awaits_of_harmless hx).mpr h
  enter hn hso hs h := by
    obtain ⟨hout, hblocked⟩ := ht.goes_on hg hz hn hso hs h
    exact (awaits_into hblocked).mpr ⟨_, hs, hout ▸ h⟩

theorem awaits_opened : Awaits (w.along out n (before ++ [(z, w.opens)])) z := by
  rw [along_snoc]
  exact Plain.awaits_self rfl

theorem Flows.awaits (hw : w.Plain) (hg : w.Goes) (ht : w.Traced out l) (hz : ¬ l.Loose z) (h : w.Flows z n before) :
    Awaits (w.along out n before) z :=
  h.carries (ht.awaits_carried hw hg hz) awaits_opened

/-- The second walk takes the edges and the effects of the first the other way. -/
structure Dual (w w' : Walk Nat) : Prop where
  order : ∀ n ∈ w.order, n ∈ w'.order
  sources : ∀ n s, s ∈ w.sources n → n ∈ w'.sources s
  effects : ∀ n, w'.effects n = (w.effects n).reverse
  opens : w'.opens = w.answers
  answers : w'.answers = w.opens

/-- What holds, the other way, at a place to which an operation comes, holds at the operation. -/
theorem Dual.returns {P : Nat → List (Point × Effect) → Prop} (hd : w.Dual w') (hP : w'.Carried P)
    (h : w.Flows z n before) (heff : w.effects n = before ++ rest) (hrest : P n rest.reverse) :
    ∃ n before rest, n ∈ w'.order ∧ w.effects n = before ++ (z, w.opens) :: rest ∧ P n rest.reverse := by
  induction h generalizing rest with
  | @opens n before after hn heff' =>
    obtain rfl : after = rest := by simpa [heff'] using heff
    exact ⟨n, before, after, hd.order n hn, heff', hrest⟩
  | @pass n before after x heff' hx _ ih =>
    obtain rfl : after = rest := by simpa [heff'] using heff
    have hback : w'.effects n = after.reverse ++ x :: before.reverse := by simp [hd.effects, heff']
    exact ih heff' (List.reverse_cons ▸ hP.pass hback hx hrest)
  | @enter n s hn hs hflow ih =>
    rw [← show w.effects n = rest from heff, ← hd.effects] at hrest
    exact ih (List.append_nil _).symm
      (hP.enter (hd.order s hflow.mem_order) (hd.order n hn) (hd.sources n s hs) hrest)

/-- An answer that is not loose is pending, the other way, at the operation that comes to it. -/
theorem Dual.pending (hd : w.Dual w') (hw' : w'.Plain) (hg : w'.Goes) (ht : w'.Traced out l) (hy : ¬ l.Loose y)
    (h : w.Meets z y) : ∃ n before rest, n ∈ w'.order ∧ w.effects n = before ++ (z, w.opens) :: rest ∧
      Awaits (w'.along out n rest.reverse) y := by
  obtain ⟨n, before, rest, heff, hflow⟩ := h
  refine hd.returns (ht.awaits_carried hw' hg hy) hflow heff ?_
  rw [List.reverse_cons, ← hd.opens]
  exact awaits_opened

theorem Dual.tied (hd : w.Dual w') (hw' : w'.Plain) (hg : w'.Goes) (ht : w'.Traced out l) (hy : ¬ l.Loose y)
    (h : w.Meets z y) : l.Tied y z := by
  obtain ⟨n, before, rest, hn, heff, hawaits⟩ := hd.pending hw' hg ht hy h
  have heff' : w'.effects n = rest.reverse ++ (z, w'.answers) :: before.reverse := by
    rw [hd.effects, heff, hd.answers]
    simp
  rcases hw'.marks_cases ((ht.told n hn).marks _ _ _ heff') hawaits with hloose | ⟨-, htied⟩ | ⟨hharmless, -⟩
  · exact absurd hloose hy
  · exact htied
  · rcases hw'.answers with ha | ha <;> rw [ha] at hharmless <;> cases hharmless

end Duality

end Walk

namespace Layout

variable {y : Layout}

theorem mem_preds_iff {m n : Nat} : m ∈ y.flat.preds n ↔ n ∈ y.flat.succs m := mem_preds.trans mem_succs.symm

theorem downWalk_goes (y : Layout) (root : Var) : (y.flat.downWalk root).Goes := by
  intro n s hs
  have := List.ne_nil_of_mem (mem_preds_iff.mp hs)
  simpa [Flat.downWalk] using this

theorem upWalk_goes (y : Layout) (root : Var) : (y.flat.upWalk root).Goes := fun _ _ _ => rfl

theorem downWalk_dual (y : Layout) (root : Var) : (y.flat.downWalk root).Dual (y.flat.upWalk root) where
  order _ hn := List.mem_reverse.mpr hn
  sources _ _ hs := mem_preds_iff.mp hs
  effects _ := rfl
  opens := rfl
  answers := rfl

theorem upWalk_dual (y : Layout) (root : Var) : (y.flat.upWalk root).Dual (y.flat.downWalk root) where
  order _ hn := List.mem_reverse.mp hn
  sources _ _ hs := mem_preds_iff.mpr hs
  effects _ := (List.reverse_reverse _).symm
  opens := rfl
  answers := rfl

/-- A retain is paired with the releases that it comes to. -/
theorem meets_of_retainLedger {x d : Point} (h : y.flat.retainLedger.Tied x d) :
    ∃ root ∈ y.flat.rootList, (y.flat.downWalk root).Meets x d := Walk.runs_meet y.flat.downWalk_plain h

theorem meets_of_releaseLedger {x d : Point} (h : y.flat.releaseLedger.Tied d x) :
    ∃ root ∈ y.flat.rootList, (y.flat.upWalk root).Meets d x := Walk.runs_meet y.flat.upWalk_plain h

/-- A release that answers a retain is answered by it, unless it is loose. -/
theorem tied_release (h : y.Sound) {x d : Point} (hd : ¬ y.flat.releaseLedger.Loose d)
    (hx : y.flat.retainLedger.Tied x d) : y.flat.releaseLedger.Tied d x := by
  obtain ⟨root, hroot, hmeets⟩ := meets_of_retainLedger hx
  obtain ⟨-, up, -, hup⟩ := exists_traced h hroot
  exact (y.downWalk_dual root).tied (y.flat.upWalk_plain root) (y.upWalk_goes root) hup hd hmeets

theorem tied_retain (h : y.Sound) {x d : Point} (hx : ¬ y.flat.retainLedger.Loose x)
    (hd : y.flat.releaseLedger.Tied d x) : y.flat.retainLedger.Tied x d := by
  obtain ⟨root, hroot, hmeets⟩ := meets_of_releaseLedger hd
  obtain ⟨down, -, hdown, -⟩ := exists_traced h hroot
  exact (y.upWalk_dual root).tied (y.flat.downWalk_plain root) (y.downWalk_goes root) hdown hx hmeets

end Layout

end CountMotion
