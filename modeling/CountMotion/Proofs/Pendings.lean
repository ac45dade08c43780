import CountMotion.Proofs.Ledger
import CountMotion.Proofs.Search
import Mathlib.Data.List.Basic

/-! What a walk records: the operations that await an answer at each place, and what becomes of
them in the ledger. -/
namespace CountMotion

namespace TombMap

variable {α β : Type} [DecidableEq α] {m : TombMap α β} {a x : α} {b c : β}

theorem get?_update {f : β → β} : (m.update a f).get? x = if x = a then (m.get? x).map f else m.get? x := by
  rw [get?, get?, update, slot?_onSlot]
  split
  · rcases m.slot? x with _ | _ | b <;> rfl
  · rfl

def Whole (m : TombMap α β) : Prop := ∀ e ∈ m.entries, e.2.isSome

omit [DecidableEq α] in
theorem whole_empty : (empty : TombMap α β).Whole := nofun

theorem whole_iff : m.Whole ↔ ∀ a s, m.slot? a = some s → s.isSome := by
  constructor
  · intro h a s hs
    exact h (a, s) (slot?_eq_some_iff.mp hs)
  · rintro h ⟨a, s⟩ he
    exact h a s (slot?_eq_some_iff.mpr he)

theorem Whole.update (h : m.Whole) (a : α) (f : β → β) : (m.update a f).Whole := by
  refine whole_iff.mpr fun x s hs => ?_
  rw [TombMap.update, slot?_onSlot] at hs
  split at hs
  · obtain ⟨t, ht, rfl⟩ := Option.map_eq_some_iff.mp hs
    rw [Option.isSome_map]
    exact whole_iff.mp h x t ht
  · exact whole_iff.mp h x s hs

theorem Whole.insertNew (h : m.Whole) (a : α) (b : β) : (m.insertNew a b).Whole := by
  refine whole_iff.mpr fun x s hs => ?_
  rw [slot?_insertNew] at hs
  split at hs
  · cases hs
    rfl
  · exact whole_iff.mp h x s hs

theorem get?_insertNew_of_some (h : m.get? x = some c) (a : α) (b : β) : (m.insertNew a b).get? x = some c := by
  rw [get?_eq_some_iff] at h ⊢
  rw [slot?_insertNew, if_neg, h]
  rintro ⟨rfl, hnew⟩
  cases h.symm.trans (slot?_eq_none_iff.mpr hnew)

theorem get?_insertNew_self (h : m.Whole) (a : α) (b : β) : ∃ c, (m.insertNew a b).get? a = some c := by
  have hknown : a ∈ (m.insertNew a b).order := by
    rw [order_insertNew]
    split
    · assumption
    · exact List.mem_append_right _ (.head _)
  obtain ⟨s, hs⟩ := Option.ne_none_iff_exists'.mp fun hnone => slot?_eq_none_iff.mp hnone hknown
  obtain ⟨c, rfl⟩ := Option.isSome_iff_exists.mp (whole_iff.mp (h.insertNew a b) a s hs)
  exact ⟨c, get?_eq_some_iff.mpr hs⟩

end TombMap

namespace Ledger

variable {l l' l'' : Ledger} {x y : Point} {p : Pending} {root : Var}

def Has (l : Ledger) (x : Point) : Prop := ∃ e, l.entries.get? x = some e

def Loose (l : Ledger) (x : Point) : Prop := ∃ e, l.entries.get? x = some e ∧ e.loose

def Used (l : Ledger) (x : Point) : Prop := ∃ e, l.entries.get? x = some e ∧ e.used

/-- The second operation answers the first. -/
def Tied (l : Ledger) (x y : Point) : Prop := ∃ e, l.entries.get? x = some e ∧ y ∈ e.partners

section Entries

variable {e : Entry} (h : l.entries.get? x = some e)
include h

theorem loose_iff : l.Loose x ↔ e.loose := by simp [Loose, h]

theorem used_iff : l.Used x ↔ e.used := by simp [Used, h]

theorem tied_iff : l.Tied x y ↔ y ∈ e.partners := by simp [Tied, h]

end Entries

/-- Nothing that was recorded is lost. -/
def Grows (l l' : Ledger) : Prop := ∀ x e, l.entries.get? x = some e → ∃ e', l'.entries.get? x = some e' ∧
  (e.loose → e'.loose) ∧ (e.used → e'.used) ∧ ∀ y ∈ e.partners, y ∈ e'.partners

namespace Grows

theorem refl (l : Ledger) : l.Grows l := fun _ e h => ⟨e, h, id, id, fun _ h => h⟩

theorem trans (h : l.Grows l') (h' : l'.Grows l'') : l.Grows l'' := by
  intro x e he
  obtain ⟨e', he', hloose, hused, hpart⟩ := h x e he
  obtain ⟨e'', he'', hloose', hused', hpart'⟩ := h' x e' he'
  exact ⟨e'', he'', hloose' ∘ hloose, hused' ∘ hused, fun y hy => hpart' y (hpart y hy)⟩

theorem has (h : l.Grows l') (hx : l.Has x) : l'.Has x := by
  obtain ⟨e, he⟩ := hx
  obtain ⟨e', he', -⟩ := h x e he
  exact ⟨e', he'⟩

theorem loose (h : l.Grows l') (hx : l.Loose x) : l'.Loose x := by
  obtain ⟨e, he, hl⟩ := hx
  obtain ⟨e', he', hloose, -⟩ := h x e he
  exact ⟨e', he', hloose hl⟩

theorem used (h : l.Grows l') (hx : l.Used x) : l'.Used x := by
  obtain ⟨e, he, hu⟩ := hx
  obtain ⟨e', he', -, hused, -⟩ := h x e he
  exact ⟨e', he', hused hu⟩

theorem tied (h : l.Grows l') (hx : l.Tied x y) : l'.Tied x y := by
  obtain ⟨e, he, hy⟩ := hx
  obtain ⟨e', he', -, -, hpart⟩ := h x e he
  exact ⟨e', he', hpart y hy⟩

end Grows

private theorem foldl_update {f : Entry → Entry} (mark : Entry → Prop) (hmark : ∀ e, mark (f e))
    (hf : ∀ e, (e.loose → (f e).loose) ∧ (e.used → (f e).used) ∧ ∀ y ∈ e.partners, y ∈ (f e).partners)
    (points : List Point) (m : TombMap Point Entry) (x : Point) (e : Entry) (he : m.get? x = some e) :
    ∃ e', (points.foldl (fun m x => m.update x f) m).get? x = some e' ∧ (e.loose → e'.loose) ∧ (e.used → e'.used) ∧
      (∀ y ∈ e.partners, y ∈ e'.partners) ∧ (x ∈ points ∨ mark e → mark e') := by
  induction points generalizing m e with
  | nil => exact ⟨e, he, id, id, fun _ h => h, fun h => h.resolve_left List.not_mem_nil⟩
  | cons a points ih =>
    rw [List.foldl_cons]
    by_cases hx : x = a
    · have hget : (m.update a f).get? x = some (f e) := by rw [TombMap.get?_update, if_pos hx, he]; rfl
      obtain ⟨e', he', hloose, hused, hpart, hm⟩ := ih _ _ hget
      obtain ⟨hl, hu, hp⟩ := hf e
      exact ⟨e', he', hloose ∘ hl, hused ∘ hu, fun y hy => hpart y (hp y hy), fun _ => hm (.inr (hmark e))⟩
    · have hget : (m.update a f).get? x = some e := by rw [TombMap.get?_update, if_neg hx, he]
      obtain ⟨e', he', hloose, hused, hpart, hm⟩ := ih _ _ hget
      exact ⟨e', he', hloose, hused, hpart, fun h => hm (h.imp_left fun h => (List.mem_cons.mp h).resolve_left hx)⟩

private theorem whole_foldl_update {f : Entry → Entry} (points : List Point) {m : TombMap Point Entry} (h : m.Whole) :
    (points.foldl (fun m x => m.update x f) m).Whole := by
  induction points generalizing m with
  | nil => exact h
  | cons a points ih => exact ih (h.update a f)

private theorem loosen_get? (l : Ledger) (p : Option Pending) (x : Point) (e : Entry) (he : l.entries.get? x = some e) :
    ∃ e', (l.loosen p).entries.get? x = some e' ∧ (e.loose → e'.loose) ∧ (e.used → e'.used) ∧
      (∀ y ∈ e.partners, y ∈ e'.partners) ∧ (x ∈ p.elim [] Pending.points ∨ e.loose → e'.loose) :=
  foldl_update (f := fun e : Entry => { e with loose := true }) (fun e => e.loose) (fun _ => rfl)
    (fun _ => ⟨fun _ => rfl, id, fun _ h => h⟩) (p.elim [] Pending.points) l.entries x e he

theorem grows_loosen (l : Ledger) (p : Option Pending) : l.Grows (l.loosen p) := by
  intro x e he
  obtain ⟨e', he', hl, hu, hp, -⟩ := l.loosen_get? p x e he
  exact ⟨e', he', hl, hu, hp⟩

theorem loose_loosen (hx : x ∈ p.points) (h : l.Has x) : (l.loosen (some p)).Loose x := by
  obtain ⟨e, he⟩ := h
  obtain ⟨e', he', -, -, -, hmark⟩ := l.loosen_get? (some p) x e he
  exact ⟨e', he', hmark (.inl hx)⟩

theorem whole_loosen (h : l.entries.Whole) (p : Option Pending) : (l.loosen p).entries.Whole := whole_foldl_update _ h

private theorem answer_get? (l : Ledger) (p : Pending) (y x : Point) (e : Entry) (he : l.entries.get? x = some e) :
    ∃ e', (l.answer (some p) y).entries.get? x = some e' ∧ (e.loose → e'.loose) ∧ (e.used → e'.used) ∧
      (∀ y ∈ e.partners, y ∈ e'.partners) ∧
      (x ∈ p.points ∨ (y ∈ e.partners ∧ (p.used → e.used)) → y ∈ e'.partners ∧ (p.used → e'.used)) :=
  foldl_update (f := fun e : Entry => { e with partners := e.partners ++ [y], used := e.used || p.used })
    (fun e => y ∈ e.partners ∧ (p.used → e.used)) (fun _ => ⟨by simp, fun h => by simp [h]⟩)
    (fun _ => ⟨id, fun h => by simp [h], fun _ h => List.mem_append_left _ h⟩) p.points l.entries x e he

theorem grows_answer (l : Ledger) (p : Option Pending) (y : Point) : l.Grows (l.answer p y) := by
  cases p with
  | none => exact .refl l
  | some p =>
    intro x e he
    obtain ⟨e', he', hl, hu, hp, -⟩ := l.answer_get? p y x e he
    exact ⟨e', he', hl, hu, hp⟩

theorem tied_answer (hx : x ∈ p.points) (h : l.Has x) (y : Point) :
    (l.answer (some p) y).Tied x y ∧ (p.used → (l.answer (some p) y).Used x) := by
  obtain ⟨e, he⟩ := h
  obtain ⟨e', he', -, -, -, hmark⟩ := l.answer_get? p y x e he
  obtain ⟨hy, hu⟩ := hmark (.inl hx)
  exact ⟨⟨e', he', hy⟩, fun h => ⟨e', he', hu h⟩⟩

theorem whole_answer (h : l.entries.Whole) (p : Option Pending) (y : Point) : (l.answer p y).entries.Whole := by
  cases p with
  | none => exact h
  | some p => exact whole_foldl_update _ h

theorem grows_start (l : Ledger) (root : Var) (p : Option Pending) (y : Point) : l.Grows (l.start root p y) := by
  refine (l.grows_loosen p).trans fun x e he => ?_
  exact ⟨e, TombMap.get?_insertNew_of_some he y _, id, id, fun _ h => h⟩

theorem loose_start (hx : x ∈ p.points) (h : l.Has x) (root : Var) (y : Point) : (l.start root (some p) y).Loose x := by
  obtain ⟨e, he, hl⟩ := loose_loosen hx h
  exact ⟨e, TombMap.get?_insertNew_of_some he y _, hl⟩

theorem has_start (h : l.entries.Whole) (root : Var) (p : Option Pending) (y : Point) : (l.start root p y).Has y :=
  TombMap.get?_insertNew_self (whole_loosen h p) y _

theorem whole_start (h : l.entries.Whole) (root : Var) (p : Option Pending) (y : Point) :
    (l.start root p y).entries.Whole :=
  (whole_loosen h p).insertNew y _

end Ledger

/-- The operation is among those that await an answer. -/
def Awaits (p : Option Pending) (x : Point) : Prop := ∃ q, p = some q ∧ x ∈ q.points

@[simp] theorem not_awaits_none (x : Point) : ¬ Awaits none x := by
  rintro ⟨q, hq, -⟩
  cases hq

@[simp] theorem awaits_some {q : Pending} {x : Point} : Awaits (some q) x ↔ x ∈ q.points := by
  simp [Awaits]

namespace Pending

variable {p q : Pending} {x : Point}

theorem mem_merge : x ∈ (p.merge q).points ↔ x ∈ p.points ∨ x ∈ q.points := by
  simp only [merge, List.mem_append, List.mem_filter, Bool.not_eq_true', List.contains_eq_mem, decide_eq_false_iff_not]
  by_cases hx : x ∈ p.points <;> simp [hx]

theorem awaits_mergeAll (ps : List Pending) : Awaits (mergeAll ps) x ↔ ∃ p ∈ ps, x ∈ p.points := by
  cases ps with
  | nil => simp [mergeAll]
  | cons p rest =>
    rw [mergeAll, awaits_some]
    induction rest generalizing p with
    | nil => simp
    | cons q rest ih =>
      rw [List.foldl_cons, ih, List.exists_mem_cons_iff, mem_merge]
      simp [or_assoc]

end Pending

namespace Walk

variable {w : Walk Nat} {root : Var} {l l' : Ledger} {p : Option Pending} {out out' : Nat → Option Pending} {n : Nat}
  {x : Point × Effect} {xs : List (Point × Effect)} {y : Point}

/-- What an effect leaves of a state. -/
def after (w : Walk Nat) (p : Option Pending) (x : Point × Effect) : Option Pending :=
  if x.2 = w.opens then some ⟨[x.1], false⟩
  else if x.2 = w.answers then none
  else if x.2.interferes then none
  else if x.2 = .use then p.map fun p => { p with used := true }
  else p

/-- The states of the sources cannot be followed into the node. -/
def blocked (w : Walk Nat) (out : Nat → Option Pending) (n : Nat) : Bool :=
  w.blind n || (w.sources n).any fun s => (out s).isNone && !w.exempt s

/-- The state at the start of a node, given those at the ends of its sources. -/
def into (w : Walk Nat) (out : Nat → Option Pending) (n : Nat) : Option Pending :=
  if w.blocked out n then none else Pending.mergeAll ((w.sources n).filterMap out)

def leave (w : Walk Nat) (n : Nat) (p : Option Pending) : Option Pending :=
  if w.escapes n || w.ends n then none else p

/-- The state after some effects of a node. -/
def along (w : Walk Nat) (out : Nat → Option Pending) (n : Nat) (xs : List (Point × Effect)) : Option Pending :=
  xs.foldl w.after (w.into out n)

structure Marks (w : Walk Nat) (l : Ledger) (p : Option Pending) (x : Point × Effect) : Prop where
  opened : x.2 = w.opens → l.Has x.1 ∧ ∀ y, Awaits p y → l.Loose y
  answered : x.2 ≠ w.opens → x.2 = w.answers → ∀ q, p = some q → ∀ y ∈ q.points, l.Tied y x.1 ∧ (q.used → l.Used y)
  interfered : x.2 ≠ w.opens → x.2 ≠ w.answers → x.2.interferes → ∀ y, Awaits p y → l.Loose y

theorem Marks.grows (h : w.Marks l p x) (hl : l.Grows l') : w.Marks l' p x where
  opened hx := ⟨hl.has (h.opened hx).1, fun y hy => hl.loose ((h.opened hx).2 y hy)⟩
  answered hx hx' q hq y hy :=
    ⟨hl.tied (h.answered hx hx' q hq y hy).1, fun hu => hl.used ((h.answered hx hx' q hq y hy).2 hu)⟩
  interfered hx hx' hi y hy := hl.loose (h.interfered hx hx' hi y hy)

/-- A ledger that has an entry for all that awaits an answer. -/
structure Keeps (l : Ledger) (p : Option Pending) : Prop where
  whole : l.entries.Whole
  has : ∀ y, Awaits p y → l.Has y

theorem step_marks (root : Var) (h : Keeps l p) (x : Point × Effect) : (w.step root (l, p) x).2 = w.after p x ∧
    l.Grows (w.step root (l, p) x).1 ∧ Keeps (w.step root (l, p) x).1 (w.after p x) ∧
    w.Marks (w.step root (l, p) x).1 p x := by
  obtain ⟨point, e⟩ := x
  simp only [step, after]
  split
  · rename_i hopens
    have hhas := Ledger.has_start h.whole root p point
    refine ⟨rfl, l.grows_start root p point, ⟨Ledger.whole_start h.whole root p point, fun y hy => ?_⟩,
      fun _ => ⟨hhas, fun y hy => ?_⟩, fun hne => absurd hopens hne, fun hne => absurd hopens hne⟩
    · rw [awaits_some, List.mem_singleton] at hy
      exact hy ▸ hhas
    · have hy' := h.has y hy
      obtain ⟨q, rfl, hy⟩ := hy
      exact Ledger.loose_start hy hy' root point
  · rename_i hopens
    split
    · rename_i hanswers
      refine ⟨rfl, l.grows_answer p point, ⟨Ledger.whole_answer h.whole p point, fun y hy => absurd hy (by simp)⟩,
        fun he => absurd he hopens, fun _ _ q hq y hy => ?_, fun _ hne => absurd hanswers hne⟩
      subst hq
      exact Ledger.tied_answer hy (h.has y (awaits_some.mpr hy)) point
    · rename_i hanswers
      split
      · refine ⟨rfl, l.grows_loosen p, ⟨Ledger.whole_loosen h.whole p, fun y hy => absurd hy (by simp)⟩,
          fun he => absurd he hopens, fun _ he => absurd he hanswers, fun _ _ _ y hy => ?_⟩
        have hy' := h.has y hy
        obtain ⟨q, rfl, hy⟩ := hy
        exact Ledger.loose_loosen hy hy'
      · rename_i hquiet
        have hmarks : w.Marks l p (point, e) :=
          ⟨fun he => absurd he hopens, fun _ he => absurd he hanswers, fun _ _ hi => absurd hi hquiet⟩
        split
        · refine ⟨rfl, .refl l, ⟨h.whole, fun y hy => h.has y ?_⟩, hmarks⟩
          obtain ⟨q, hq, hy⟩ := hy
          obtain ⟨q', rfl, rfl⟩ := Option.map_eq_some_iff.mp hq
          exact ⟨q', rfl, hy⟩
        · exact ⟨rfl, .refl l, h, hmarks⟩

theorem steps_marks (root : Var) (h : Keeps l p) (xs : List (Point × Effect)) :
    (xs.foldl (w.step root) (l, p)).2 = xs.foldl w.after p ∧ l.Grows (xs.foldl (w.step root) (l, p)).1 ∧
    Keeps (xs.foldl (w.step root) (l, p)).1 (xs.foldl w.after p) ∧
    ∀ before x rest, xs = before ++ x :: rest →
      w.Marks (xs.foldl (w.step root) (l, p)).1 (before.foldl w.after p) x := by
  induction xs generalizing l p with
  | nil => exact ⟨rfl, .refl l, h, fun before x rest hxs => by simp at hxs⟩
  | cons x xs ih =>
    obtain ⟨hstate, hgrows, hkeeps, hmarks⟩ := w.step_marks root h x
    obtain ⟨hstate', hgrows', hkeeps', hmarks'⟩ := ih hkeeps
    rw [List.foldl_cons, List.foldl_cons,
      show w.step root (l, p) x = ((w.step root (l, p) x).1, w.after p x) from Prod.ext rfl hstate]
    refine ⟨hstate', hgrows.trans hgrows', hkeeps', fun before z rest hxs => ?_⟩
    cases before with
    | nil =>
      obtain ⟨rfl, -⟩ := List.cons.inj hxs
      exact hmarks.grows hgrows'
    | cons a before =>
      obtain ⟨rfl, htail⟩ := List.cons.inj hxs
      exact hmarks' before z rest htail

/-- The ledger shows what became of the states at a node. -/
structure Told (w : Walk Nat) (out : Nat → Option Pending) (l : Ledger) (n : Nat) : Prop where
  blocked : w.blocked out n → ∀ s ∈ w.sources n, ∀ y, Awaits (out s) y → l.Loose y
  marks : ∀ before x rest, w.effects n = before ++ x :: rest → w.Marks l (w.along out n before) x
  escaped : w.escapes n → ∀ y, Awaits (w.along out n (w.effects n)) y → l.Loose y

theorem Told.grows (h : w.Told out l n) (hl : l.Grows l') : w.Told out l' n where
  blocked hb s hs y hy := hl.loose (h.blocked hb s hs y hy)
  marks before x rest hxs := (h.marks before x rest hxs).grows hl
  escaped he y hy := hl.loose (h.escaped he y hy)

theorem into_congr (h : ∀ s ∈ w.sources n, out s = out' s) :
    w.blocked out n = w.blocked out' n ∧ w.into out n = w.into out' n := by
  have hany : (w.sources n).any (fun s => (out s).isNone && !w.exempt s) =
      (w.sources n).any fun s => (out' s).isNone && !w.exempt s := by
    refine Bool.eq_iff_iff.mpr ?_
    simp only [List.any_eq_true]
    exact exists_congr fun s => and_congr_right fun hs => by rw [h s hs]
  have hmap : (w.sources n).filterMap out = (w.sources n).filterMap out' := List.filterMap_congr h
  rw [into, into, blocked, blocked, hany, hmap]
  exact ⟨rfl, rfl⟩

theorem Told.congr (h : w.Told out l n) (ho : ∀ s ∈ w.sources n, out s = out' s) : w.Told out' l n := by
  obtain ⟨hblocked, hinto⟩ := w.into_congr ho
  refine ⟨fun hb s hs y hy => ?_, fun before x rest hxs => ?_, fun he y hy => ?_⟩
  · exact h.blocked (hblocked ▸ hb) s hs y (ho s hs ▸ hy)
  · rw [along, ← hinto]
    exact h.marks before x rest hxs
  · refine h.escaped he y ?_
    rwa [along, hinto]

theorem awaits_into (h : ¬ w.blocked out n) : Awaits (w.into out n) y ↔ ∃ s ∈ w.sources n, Awaits (out s) y := by
  rw [into, if_neg h, Pending.awaits_mergeAll]
  constructor
  · rintro ⟨q, hq, hy⟩
    obtain ⟨s, hs, ho⟩ := List.mem_filterMap.mp hq
    exact ⟨s, hs, q, ho, hy⟩
  · rintro ⟨s, hs, q, ho, hy⟩
    exact ⟨q, List.mem_filterMap.mpr ⟨s, hs, ho⟩, hy⟩

theorem of_into {q : Pending} (h : w.into out n = some q) : ¬ w.blocked out n ∧ ∃ s ∈ w.sources n, ∃ p, out s = some p := by
  rw [into] at h
  split at h
  · cases h
  · refine ⟨‹_›, ?_⟩
    cases hlist : (w.sources n).filterMap out with
    | nil => rw [hlist] at h; cases h
    | cons p ps =>
      obtain ⟨s, hs, hp⟩ := List.mem_filterMap.mp (hlist ▸ List.mem_cons_self)
      exact ⟨s, hs, p, hp⟩

theorem visit_tells (root : Var) {s : Ledger × List (Nat × Option Pending)} (hl : s.1.entries.Whole)
    (hhas : ∀ m y, Awaits (s.2.lookup m).join y → s.1.Has y) (n : Nat) :
    (w.visit root s n).2 = (n, w.leave n (w.along (fun m => (s.2.lookup m).join) n (w.effects n))) :: s.2 ∧
    s.1.Grows (w.visit root s n).1 ∧ (w.visit root s n).1.entries.Whole ∧
    (∀ y, Awaits (w.along (fun m => (s.2.lookup m).join) n (w.effects n)) y → (w.visit root s n).1.Has y) ∧
    w.Told (fun m => (s.2.lookup m).join) (w.visit root s n).1 n := by
  obtain ⟨l, states⟩ := s
  dsimp only at hl hhas ⊢
  generalize hout : (fun m => (states.lookup m).join) = out
  have hhas' : ∀ m y, Awaits (out m) y → l.Has y := by
    subst hout
    exact hhas
  have hmerged : ∀ y, Awaits (Pending.mergeAll ((w.sources n).filterMap out)) y → l.Has y := by
    intro y hy
    obtain ⟨q, hq, hy⟩ := (Pending.awaits_mergeAll _).mp hy
    obtain ⟨m, -, hm⟩ := List.mem_filterMap.mp hq
    exact hhas' m y ⟨q, hm, hy⟩
  obtain ⟨l₁, harrive, hgrows₁, hkeeps₁, hblocked⟩ : ∃ l₁, w.arriveFrom l out n = (l₁, w.into out n) ∧ l.Grows l₁ ∧
      Keeps l₁ (w.into out n) ∧ (w.blocked out n → ∀ m ∈ w.sources n, ∀ y, Awaits (out m) y → l₁.Loose y) := by
    rw [arriveFrom, into, blocked]
    split
    · refine ⟨_, rfl, l.grows_loosen _, ⟨Ledger.whole_loosen hl _, fun y hy => absurd hy (by simp)⟩,
        fun _ m hm y hy => ?_⟩
      obtain ⟨q, hq, hmem⟩ := hy
      obtain ⟨q', hq', hy'⟩ : Awaits (Pending.mergeAll ((w.sources n).filterMap out)) y :=
        (Pending.awaits_mergeAll _).mpr ⟨q, List.mem_filterMap.mpr ⟨m, hm, hq⟩, hmem⟩
      rw [hq']
      exact Ledger.loose_loosen hy' (hmerged y ⟨q', hq', hy'⟩)
    · exact ⟨l, rfl, .refl l, ⟨hl, hmerged⟩, fun hb => absurd hb ‹_›⟩
  obtain ⟨hstate, hgrows₂, hkeeps₂, hmarks⟩ := w.steps_marks root hkeeps₁ (w.effects n)
  generalize hfold : (w.effects n).foldl (w.step root) (l₁, w.into out n) = s₂ at hstate hgrows₂ hkeeps₂ hmarks
  obtain ⟨l₃, hdepart, hgrows₃, hwhole₃, hescaped⟩ : ∃ l₃,
      w.depart n s₂ = (l₃, w.leave n (w.along out n (w.effects n))) ∧ s₂.1.Grows l₃ ∧ l₃.entries.Whole ∧
      (w.escapes n → ∀ y, Awaits (w.along out n (w.effects n)) y → l₃.Loose y) := by
    obtain ⟨l₂, p₂⟩ := s₂
    obtain rfl : p₂ = w.along out n (w.effects n) := hstate
    rw [depart, leave]
    by_cases hesc : w.escapes n
    · simp only [hesc, if_true, Bool.true_or]
      refine ⟨_, rfl, Ledger.grows_loosen _ _, Ledger.whole_loosen hkeeps₂.whole _, fun _ y hy => ?_⟩
      have hy' := hkeeps₂.has y hy
      obtain ⟨q, hq, hmem⟩ := hy
      rw [hq]
      exact Ledger.loose_loosen hmem hy'
    · simp only [hesc, Bool.false_or]
      refine ⟨l₂, ?_, .refl _, hkeeps₂.whole, fun h => by cases h⟩
      simp only [Bool.false_eq_true, if_false]
      split <;> rfl
  have hvisit : w.visit root (l, states) n = (l₃, (n, w.leave n (w.along out n (w.effects n))) :: states) := by
    simp only [visit, hout, harrive, hfold, hdepart]
  rw [hvisit]
  refine ⟨rfl, hgrows₁.trans (hgrows₂.trans hgrows₃), hwhole₃, fun y hy => hgrows₃.has (hkeeps₂.has y hy), ?_⟩
  refine ⟨fun hb m hm y hy => ?_, fun before x rest hxs => ?_, hescaped⟩
  · exact (hgrows₂.trans hgrows₃).loose (hblocked hb m hm y hy)
  · exact (hmarks before x rest hxs).grows hgrows₃

/-- The states of a walk, and a ledger that tells of them. -/
structure Traced (w : Walk Nat) (out : Nat → Option Pending) (l : Ledger) : Prop where
  out_eq : ∀ n ∈ w.order, out n = w.leave n (w.along out n (w.effects n))
  out_none : ∀ n, n ∉ w.order → out n = none
  told : ∀ n ∈ w.order, w.Told out l n

theorem Traced.of_out {q : Pending} (h : w.Traced out l) (hq : out n = some q) :
    n ∈ w.order ∧ w.along out n (w.effects n) = some q := by
  by_cases hn : n ∈ w.order
  · refine ⟨hn, ?_⟩
    rw [h.out_eq n hn, leave] at hq
    split at hq
    · cases hq
    · exact hq
  · cases (h.out_none n hn).symm.trans hq

theorem Traced.grows (h : w.Traced out l) (hl : l.Grows l') : w.Traced out l' :=
  { h with told := fun n hn => (h.told n hn).grows hl }

/-- Sources come before what they flow into. -/
def Sorted (w : Walk Nat) : Prop :=
  w.order.Nodup ∧ ∀ n ∈ w.order, ∀ s ∈ w.sources n, s ∈ w.order → w.order.idxOf s < w.order.idxOf n

theorem run_traced (root : Var) (hw : w.Sorted) (hl : l.entries.Whole) :
    ∃ out, w.Traced out (w.run root l) ∧ l.Grows (w.run root l) ∧ (w.run root l).entries.Whole := by
  -- after some of the nodes, the states found so far are those of the walk
  have hrest : ∀ (rest before : List Nat) (s : Ledger × List (Nat × Option Pending)), before ++ rest = w.order →
      s.1.entries.Whole → l.Grows s.1 → (∀ m y, Awaits (s.2.lookup m).join y → s.1.Has y) →
      (∀ m, m ∉ before → s.2.lookup m = none) →
      (∀ m ∈ before, (s.2.lookup m).join =
        w.leave m (w.along (fun m => (s.2.lookup m).join) m (w.effects m)) ∧
        w.Told (fun m => (s.2.lookup m).join) s.1 m) →
      ∃ out, w.Traced out (rest.foldl (w.visit root) s).1 ∧ l.Grows (rest.foldl (w.visit root) s).1 ∧
        (rest.foldl (w.visit root) s).1.entries.Whole := by
    intro rest
    induction rest with
    | nil =>
      intro before s hsplit hwhole hgrows hhas hnone htold
      rw [List.append_nil] at hsplit
      subst hsplit
      exact ⟨_, ⟨fun n hn => (htold n hn).1, fun n hn => by rw [hnone n hn]; rfl, fun n hn => (htold n hn).2⟩,
        hgrows, hwhole⟩
    | cons n rest ih =>
      intro before s hsplit hwhole hgrows hhas hnone htold
      obtain ⟨hstates, hgrows', hwhole', hhas', htold'⟩ := w.visit_tells root hwhole hhas n
      have hnodup : (before ++ n :: rest).Nodup := hsplit ▸ hw.1
      have hidx := fun x => Graph.idxOf_lt_iff_mem (x := x) hnodup
      have hn : n ∉ before := fun hn => Nat.lt_irrefl _ ((hidx n).mpr hn)
      have hmem : n ∈ w.order := hsplit ▸ by simp
      have hsource : ∀ m, m = n ∨ m ∈ before → ∀ a ∈ w.sources m, a ≠ n := by
        rintro m hm a ha rfl
        have hmo : m ∈ w.order := by
          rcases hm with rfl | hm
          · exact hmem
          · rw [← hsplit]
            exact List.mem_append_left _ hm
        have hlt := hw.2 m hmo a ha hmem
        rcases hm with rfl | hm
        · exact Nat.lt_irrefl _ hlt
        · have := (hidx m).mpr hm
          rw [hsplit] at this
          omega
      have hlookup : ∀ m, m ≠ n → (w.visit root s n).2.lookup m = s.2.lookup m := by
        intro m hm
        rw [hstates, List.lookup_cons, beq_false_of_ne hm]
      have hself : ((w.visit root s n).2.lookup n).join =
          w.leave n (w.along (fun m => (s.2.lookup m).join) n (w.effects n)) := by
        rw [hstates, List.lookup_cons_self]
        rfl
      have hagree : ∀ m, m = n ∨ m ∈ before → ∀ a ∈ w.sources m,
          (s.2.lookup a).join = ((w.visit root s n).2.lookup a).join :=
        fun m hm a ha => by rw [hlookup a (hsource m hm a ha)]
      rw [List.foldl_cons]
      refine ih (before ++ [n]) _ (by simpa using hsplit) hwhole' (hgrows.trans hgrows') ?_ ?_ ?_
      · intro m y hy
        by_cases hm : m = n
        · subst hm
          rw [hself, leave] at hy
          split at hy
          · exact absurd hy (by simp)
          · exact hhas' y hy
        · rw [hlookup m hm] at hy
          exact hgrows'.has (hhas m y hy)
      · intro m hm
        simp only [List.mem_append, List.mem_singleton, not_or] at hm
        rw [hlookup m hm.2, hnone m hm.1]
      · intro m hm
        rcases List.mem_append.mp hm with hm | hm
        · have hne : m ≠ n := fun h => hn (h ▸ hm)
          obtain ⟨hout, htell⟩ := htold m hm
          rw [hlookup m hne, hout, along, along, (w.into_congr (hagree m (.inr hm))).2]
          exact ⟨rfl, (htell.grows hgrows').congr (hagree m (.inr hm))⟩
        · obtain rfl := List.mem_singleton.mp hm
          rw [hself, along, along, (w.into_congr (hagree m (.inl rfl))).2]
          exact ⟨rfl, htold'.congr (hagree m (.inl rfl))⟩
  exact hrest w.order [] (l, []) rfl hl (.refl l) (fun m y hy => absurd hy (by simp)) (fun _ _ => rfl)
    (fun m hm => by cases hm)

/-- Walks for several roots on one ledger, which in the end tells of the states of each. -/
theorem runs_traced {walk : Var → Walk Nat} (hw : ∀ root, (walk root).Sorted) (roots : List Var) (hl : l.entries.Whole) :
    l.Grows (roots.foldl (fun l root => (walk root).run root l) l) ∧
    ∀ root ∈ roots, ∃ out, (walk root).Traced out (roots.foldl (fun l root => (walk root).run root l) l) := by
  induction roots generalizing l with
  | nil => exact ⟨.refl l, nofun⟩
  | cons root roots ih =>
    obtain ⟨out, htraced, hgrows, hwhole⟩ := run_traced root (hw root) hl
    obtain ⟨hgrows', htraced'⟩ := ih hwhole
    rw [List.foldl_cons]
    refine ⟨hgrows.trans hgrows', fun x hx => ?_⟩
    rcases List.mem_cons.mp hx with rfl | hx
    · exact ⟨out, htraced.grows hgrows'⟩
    · exact htraced' x hx

end Walk

end CountMotion
