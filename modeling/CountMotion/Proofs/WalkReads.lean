import CountMotion.Proofs.FlatReads

/-! The walks over a flat region by the numbers of the nodes. The states stand in a list instead of a
table, and the walks that run agree. -/
namespace CountMotion

namespace Walk

variable {w : Walk Nat} {l : Ledger} {states : Nat → Option Pending} {n : Nat}

/-- The state at the start of a node: the union of what its sources have, if each has one. -/
def arriveFrom (w : Walk Nat) (l : Ledger) (states : Nat → Option Pending) (n : Nat) : Ledger × Option Pending :=
  let merged := Pending.mergeAll ((w.sources n).filterMap states)
  if w.blind n || (w.sources n).any (fun s => (states s).isNone && !w.exempt s) then (l.loosen merged, none)
  else (l, merged)

def visit (w : Walk Nat) (root : Var) (s : Ledger × List (Nat × Option Pending)) (n : Nat) :
    Ledger × List (Nat × Option Pending) :=
  let arrived := w.arriveFrom s.1 (fun m => (s.2.lookup m).join) n
  let (l, p) := w.depart n ((w.effects n).foldl (w.step root) arrived)
  (l, (n, p) :: s.2)

def run (w : Walk Nat) (root : Var) (l : Ledger) : Ledger := (w.order.foldl (w.visit root) (l, [])).1

theorem arriveFrom_eq : w.arriveFrom l states n = w.arrive l ((w.sources n).map fun m => (states m, w.exempt m)) n := by
  rw [arriveFrom, arrive, List.filterMap_map, List.any_map]
  rfl

/-- The walk says of each node what the other says of its number. -/
structure Numbers (f : Flat) (w : Walk (Nat × Node)) (v : Walk Nat) : Prop where
  order : w.order = v.order
  opens : w.opens = v.opens
  answers : w.answers = v.answers
  sources : ∀ {n x}, f.nodes[n]? = some x → w.sources (n, x) = v.sources n
  blind : ∀ {n x}, f.nodes[n]? = some x → w.blind (n, x) = v.blind n
  exempt : ∀ {n x}, f.nodes[n]? = some x → w.exempt (n, x) = v.exempt n
  effects : ∀ {n x}, f.nodes[n]? = some x → w.effects (n, x) = v.effects n
  escapes : ∀ {n x}, f.nodes[n]? = some x → w.escapes (n, x) = v.escapes n
  ends : ∀ {n x}, f.nodes[n]? = some x → w.ends (n, x) = v.ends n
  inside : ∀ n ∈ v.order, n < f.size
  sources_inside : ∀ n, ∀ m ∈ v.sources n, m < f.size

structure Tabled (f : Flat) (states : List (Nat × Option Pending)) (table : List (Option Pending)) : Prop where
  length : table.length = f.size
  state : ∀ n < f.size, table[n]? = some (states.lookup n).join

theorem Tabled.start (f : Flat) : Tabled f [] (List.replicate f.size none) where
  length := List.length_replicate
  state n hn := by simp [hn]

theorem Tabled.set {f : Flat} {states : List (Nat × Option Pending)} {table : List (Option Pending)} {n : Nat}
    (h : Tabled f states table) (hn : n < f.size) (p : Option Pending) :
    Tabled f ((n, p) :: states) (table.set n p) where
  length := by rw [List.length_set, h.length]
  state m hm := by
    rw [List.getElem?_set]
    by_cases hnm : n = m
    · subst hnm
      simp [h.length, hn]
    · have : (m == n) = false := by simpa using Ne.symm hnm
      rw [if_neg hnm, h.state m hm, List.lookup_cons, this]

section Agreement

variable {f : Flat} {w : Walk (Nat × Node)} {v : Walk Nat} {root : Var} {table : List (Option Pending)}

theorem Numbers.through_eq (h : Numbers f w v) {x : Node} (hx : f.nodes[n]? = some x)
    (sources : List (Option Pending × Bool)) : w.through root l sources (n, x) = v.through root l sources n := by
  have hstep : w.step root = v.step root := by
    funext s e
    rw [step, step, h.opens, h.answers]
  rw [through, through, depart, depart, arrive, arrive, hstep, h.blind hx, h.effects hx, h.escapes hx, h.ends hx]

theorem Numbers.visit_eq (h : Numbers f w v) {states : List (Nat × Option Pending)} (ht : Tabled f states table)
    (hn : n < f.size) : ∃ table', f.visit w root (l, table) n = .ok ((v.visit root (l, states) n).1, table') ∧
      Tabled f (v.visit root (l, states) n).2 table' := by
  have hx : f.nodes[n]? = some f.nodes[n] := List.getElem?_eq_getElem hn
  have hsources : ((w.sources (n, f.nodes[n])).mapM fun m => do
      return (← readAt table m, w.exempt (m, ← f.node m))) =
      .ok ((v.sources n).map fun m => ((states.lookup m).join, v.exempt m)) := by
    rw [h.sources hx]
    refine mapM_total fun m hm => ?_
    have hlt := h.sources_inside n m hm
    rw [readAt_eq_ok.mpr (ht.state m hlt), Flat.node, readAt_of_lt hlt]
    exact congrArg (fun e => Except.ok ((states.lookup m).join, e)) (h.exempt (List.getElem?_eq_getElem hlt))
  have hthrough : v.visit root (l, states) n =
      ((v.through root l ((v.sources n).map fun m => ((states.lookup m).join, v.exempt m)) n).1,
        (n, (v.through root l ((v.sources n).map fun m => ((states.lookup m).join, v.exempt m)) n).2) :: states) := by
    rw [visit, through, arriveFrom_eq]
  rw [hthrough]
  refine ⟨_, ?_, ht.set hn _⟩
  refine bind_eq_ok.mpr ⟨_, readAt_of_lt hn, bind_eq_ok.mpr ⟨_, hsources, ?_⟩⟩
  simp only [h.through_eq hx]
  exact bind_eq_ok.mpr ⟨_, writeAt_of_lt (ht.length.symm ▸ hn) _, rfl⟩

theorem Numbers.follow_eq (h : Numbers f w v) (root : Var) (l : Ledger) : f.follow w root l = .ok (v.run root l) := by
  obtain ⟨⟨last, table⟩, hok, hlast⟩ := foldlM_total (f := f.visit w root) (l := w.order)
    (b := (l, List.replicate f.size none))
    (fun taken s => s.1 = (taken.foldl (v.visit root) (l, [])).1 ∧ Tabled f (taken.foldl (v.visit root) (l, [])).2 s.2)
    ⟨rfl, .start f⟩ (by
      rintro taken n later ⟨_, table⟩ hl ⟨rfl, ht⟩
      have hn : n < f.size := h.inside n (by rw [← h.order, ← hl]; simp)
      obtain ⟨table', hok, ht'⟩ := h.visit_eq (l := (taken.foldl (v.visit root) (l, [])).1) ht hn
      rw [List.foldl_append]
      exact ⟨_, hok, rfl, ht'⟩)
  refine bind_eq_ok.mpr ⟨_, hok, ?_⟩
  rw [run, ← h.order, ← hlast.1]
  rfl

end Agreement

end Walk

namespace Flat

def downWalk (f : Flat) (root : Var) : Walk Nat where
  order := f.order
  sources := f.preds
  blind n := f.blindEntry n || (f.preds n).isEmpty
  exempt _ := false
  effects := f.effects root
  opens := .retain
  answers := .release
  escapes := f.liveEscape root
  ends n := (f.succs n).isEmpty

def upWalk (f : Flat) (root : Var) : Walk Nat where
  order := f.order.reverse
  sources := f.succs
  blind := f.liveEscape root
  exempt := f.traps
  effects n := (f.effects root n).reverse
  opens := .release
  answers := .retain
  escapes := f.blindEntry
  ends _ := false

def paired (f : Flat) : Pairing :=
  let down := f.rootList.foldl (fun l root => (f.downWalk root).run root l) .empty
  let up := f.rootList.foldl (fun l root => (f.upWalk root).run root l) .empty
  ⟨down.entries, up.entries, down.nested || up.nested⟩

variable {f : Flat}

theorem downWalk_numbers (h : f.Indexed) (root : Var) : Walk.Numbers f (f.topDown root) (f.downWalk root) where
  order := rfl
  opens := rfl
  answers := rfl
  sources hx := (shows hx).preds.symm
  blind hx := by simp only [topDown, downWalk, (shows hx).blindEntry, (shows hx).preds]
  exempt _ := rfl
  effects hx := ((shows hx).effects root).symm
  escapes hx := ((shows hx).liveEscape root).symm
  ends hx := by simp only [topDown, downWalk, (shows hx).succs]
  inside := h.order
  sources_inside := h.preds

theorem upWalk_numbers (h : f.Indexed) (root : Var) : Walk.Numbers f (f.bottomUp root) (f.upWalk root) where
  order := rfl
  opens := rfl
  answers := rfl
  sources hx := (shows hx).succs.symm
  blind hx := ((shows hx).liveEscape root).symm
  exempt hx := (shows hx).traps.symm
  effects hx := by simp only [bottomUp, upWalk, (shows hx).effects]
  escapes hx := (shows hx).blindEntry.symm
  ends _ := rfl
  inside n hn := h.order n (List.mem_reverse.mp hn)
  sources_inside := h.succs

/-- The pairing never asks for a node that is missing. -/
theorem pairing_eq (h : f.Indexed) : f.pairing = .ok f.paired := by
  have hdown : f.rootList.foldlM (fun l root => f.follow (f.topDown root) root l) .empty =
      .ok (f.rootList.foldl (fun l root => (f.downWalk root).run root l) .empty) :=
    foldlM_plain fun l root _ => (downWalk_numbers h root).follow_eq root l
  have hup : f.rootList.foldlM (fun l root => f.follow (f.bottomUp root) root l) .empty =
      .ok (f.rootList.foldl (fun l root => (f.upWalk root).run root l) .empty) :=
    foldlM_plain fun l root _ => (upWalk_numbers h root).follow_eq root l
  exact bind_eq_ok.mpr ⟨_, roots_eq h, bind_eq_ok.mpr ⟨_, hdown, bind_eq_ok.mpr ⟨_, hup, rfl⟩⟩⟩

end Flat

/-- A trip with the nets of the nodes visited in a list. -/
structure Tour where
  nets : List (Nat × Net)
  ends : List Net
  alternating : Bool

namespace Tour

def start : Tour := ⟨[], [], true⟩

def into (t : Tour) (f : Flat) (n : Nat) : Net :=
  if n = f.entry then .known 0 else .agreeAll ((f.preds n).filterMap fun m => t.nets.lookup m)

def visit (f : Flat) (root : Var) (t : Tour) (n : Nat) : Tour :=
  let after := (f.nodes[n]?.map fun x => Trip.through f root x (t.into f n, t.alternating)).getD
    (t.into f n, t.alternating)
  { nets := (n, after.1) :: t.nets
    ends := if f.liveEscape root n then t.ends ++ [after.1] else t.ends
    alternating := after.2 }

structure Follows (f : Flat) (t : Tour) (u : Trip) : Prop where
  length : u.nets.length = f.size
  net : ∀ n < f.size, u.nets[n]? = some (t.nets.lookup n)
  ends : u.ends = t.ends
  alternating : u.alternating = t.alternating

variable {f : Flat} {root : Var} {t : Tour} {u : Trip} {n : Nat}

theorem Follows.visit (h : f.Indexed) (hu : Follows f t u) (hn : n < f.size) :
    ∃ u', Trip.visit f root u n = .ok u' ∧ Follows f (t.visit f root n) u' := by
  have hx : f.nodes[n]? = some f.nodes[n] := List.getElem?_eq_getElem hn
  have hbefore : f.nodes[n].preds.mapM (readAt u.nets) = .ok ((f.preds n).map fun m => t.nets.lookup m) := by
    rw [← (Flat.shows hx).preds]
    exact mapM_total fun m hm => readAt_eq_ok.mpr (hu.net m (h.preds n m hm))
  have hinto : (if n = f.entry then Net.known 0 else .agreeAll (((f.preds n).map fun m => t.nets.lookup m).filterMap id)) =
      t.into f n := by
    rw [into, List.filterMap_map]
    rfl
  have hvisit : t.visit f root n =
      ⟨(n, (Trip.through f root f.nodes[n] (t.into f n, t.alternating)).1) :: t.nets,
        if f.nodes[n].liveEscape f root then t.ends ++ [(Trip.through f root f.nodes[n] (t.into f n, t.alternating)).1]
          else t.ends,
        (Trip.through f root f.nodes[n] (t.into f n, t.alternating)).2⟩ := by
    simp only [Tour.visit, hx, Option.map_some, Option.getD_some, (Flat.shows hx).liveEscape]
  rw [hvisit, ← hu.ends, ← hu.alternating, ← hinto]
  refine ⟨_, bind_eq_ok.mpr ⟨_, readAt_of_lt hn, bind_eq_ok.mpr ⟨_, hbefore,
    bind_eq_ok.mpr ⟨_, writeAt_of_lt (hu.length.symm ▸ hn) _, rfl⟩⟩⟩, ?_, fun m hm => ?_, rfl, rfl⟩
  · rw [List.length_set, hu.length]
  · rw [List.getElem?_set]
    by_cases hnm : n = m
    · subst hnm
      rw [if_pos rfl, if_pos (hu.length.symm ▸ hn), List.lookup_cons_self]
      rfl
    · have : (m == n) = false := by simpa using Ne.symm hnm
      rw [if_neg hnm, hu.net m hm, List.lookup_cons, this]

end Tour

def Flat.walk (f : Flat) (root : Var) : Tour := f.order.foldl (Tour.visit f root) .start

/-- The shape of a loop for one root, and whether its operations alternate, by a tour. -/
def Flat.toured (f : Flat) (root : Var) : Shape × Bool :=
  (Trip.shape (f.walk root).ends, (f.walk root).alternating && Trip.shape (f.walk root).ends != .unknown)

theorem Flat.trip_eq {f : Flat} (h : f.Indexed) (root : Var) : f.trip root = .ok (f.toured root) := by
  have start : Tour.Follows f .start (.start f.size) :=
    ⟨List.length_replicate, fun n hn => by simp [Trip.start, Tour.start, hn], rfl, rfl⟩
  obtain ⟨u, hok, hu⟩ := foldlM_total (l := f.order)
    (fun taken u => Tour.Follows f (taken.foldl (Tour.visit f root) .start) u) start
    (by
      intro taken n later u hl hu
      rw [List.foldl_append]
      exact hu.visit h (h.order n (by rw [← hl]; simp)))
  refine bind_eq_ok.mpr ⟨u, hok, ?_⟩
  rw [hu.ends, hu.alternating]
  rfl

end CountMotion
