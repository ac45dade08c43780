import CountMotion.Proofs.WalkReads
import CountMotion.Proofs.Slots

/-! The entries of a pairing are operations of the region, each filed under its root. -/
namespace CountMotion

namespace TombMap

variable {α β : Type} [DecidableEq α] {m : TombMap α β} {p : α → β → Prop} {a x : α} {b : β}

def All (m : TombMap α β) (p : α → β → Prop) : Prop := ∀ a b, (a, some b) ∈ m.entries → p a b

theorem mem_of_get? (h : m.get? a = some b) : (a, some b) ∈ m.entries :=
  slot?_eq_some_iff.mp (get?_eq_some_iff.mp h)

theorem mem_keys_of_get? (h : m.get? a = some b) : a ∈ m.keys :=
  List.mem_map.mpr ⟨(a, some b), List.mem_filter.mpr ⟨mem_of_get? h, rfl⟩, rfl⟩

theorem get?_erase : (m.erase a).get? x = if x = a then none else m.get? x := by
  rw [get?, erase, slot?_onSlot]
  split
  · cases m.slot? x <;> rfl
  · rfl

theorem get?_foldl_erase (l : List α) : (l.foldl erase m).get? x = if x ∈ l then none else m.get? x := by
  induction l generalizing m with
  | nil => simp
  | cons a l ih =>
    rw [List.foldl_cons, ih, get?_erase]
    by_cases hl : x ∈ l
    · simp [hl]
    · by_cases hx : x = a
      · simp [hx]
      · simp [hl, hx]

namespace All

omit [DecidableEq α] in
theorem empty : (empty : TombMap α β).All p := fun _ _ h => nomatch h

theorem get? (h : m.All p) (hb : m.get? a = some b) : p a b := h a b (mem_of_get? hb)

theorem insertNew (h : m.All p) (hp : p a b) : (m.insertNew a b).All p := by
  intro x c hx
  rw [← slot?_eq_some_iff, slot?_insertNew] at hx
  split at hx
  · rename_i hxa
    obtain rfl : b = c := by simpa using hx
    exact hxa.1 ▸ hp
  · exact h x c (slot?_eq_some_iff.mp hx)

theorem onSlot {f : Option β → Option β} (h : m.All p)
    (hf : ∀ s c, (∀ b, s = some b → p a b) → f s = some c → p a c) : (m.onSlot a f).All p := by
  intro x c hx
  rw [← slot?_eq_some_iff, slot?_onSlot] at hx
  split at hx
  · rename_i hxa
    subst hxa
    obtain ⟨s, hs, hc⟩ := Option.map_eq_some_iff.mp hx
    refine hf s c (fun b hb => ?_) hc
    exact h x b (slot?_eq_some_iff.mp (hb ▸ hs))
  · exact h x c (slot?_eq_some_iff.mp hx)

theorem update {f : β → β} (h : m.All p) (hf : ∀ b, p a b → p a (f b)) : (m.update a f).All p := by
  refine h.onSlot fun s c hs hc => ?_
  obtain ⟨b, rfl, rfl⟩ := Option.map_eq_some_iff.mp hc
  exact hf b (hs b rfl)

theorem erase (h : m.All p) : (m.erase a).All p := by
  refine h.onSlot fun s c _ hc => ?_
  cases hc

theorem foldl_erase (h : m.All p) (l : List α) : (l.foldl TombMap.erase m).All p := by
  induction l generalizing m with
  | nil => exact h
  | cons a l ih => exact ih h.erase

theorem foldl_update {f : β → β} {l : List α} (h : m.All p) (hf : ∀ a ∈ l, ∀ b, p a b → p a (f b)) :
    (l.foldl (fun m a => m.update a f) m).All p := by
  induction l generalizing m with
  | nil => exact h
  | cons a l ih => exact ih (h.update (hf a (.head _))) fun b hb => hf b (.tail _ hb)

end All

end TombMap

section Walks

variable {w : Walk Nat} {root : Var} {l : Ledger} {own : Point → Var → Prop}

/-- What holds of the ledger and of the states behind goes on from node to node. -/
theorem Walk.run_induct {P : Ledger → Prop} {Q : Nat → Option Pending → Prop} (hl : P l) (hnone : ∀ n, Q n none)
    (hvisit : ∀ n ∈ w.order, ∀ l states, P l → (∀ m, Q m (states m)) →
      P (w.depart n ((w.effects n).foldl (w.step root) (w.arriveFrom l states n))).1 ∧
        Q n (w.depart n ((w.effects n).foldl (w.step root) (w.arriveFrom l states n))).2) : P (w.run root l) := by
  have hnodes : ∀ (ns : List Nat) (s : Ledger × List (Nat × Option Pending)), (∀ n ∈ ns, n ∈ w.order) → P s.1 →
      (∀ m, Q m (s.2.lookup m).join) → P (ns.foldl (w.visit root) s).1 := by
    intro ns
    induction ns with
    | nil => exact fun s _ hs _ => hs
    | cons n ns ih =>
      intro s hns hs hstates
      obtain ⟨hledger, hstate⟩ := hvisit n (hns n (.head _)) s.1 _ hs hstates
      refine ih _ (fun m hm => hns m (.tail _ hm)) hledger fun m => ?_
      rw [visit, List.lookup_cons]
      split
      · rename_i hm
        rw [beq_iff_eq.mp hm]
        exact hstate
      · exact hstates m
  exact hnodes w.order (l, []) (fun _ hn => hn) hl hnone

/-- All entries are operations on the root under which they are filed. -/
def Ledger.Filed (l : Ledger) (own : Point → Var → Prop) : Prop := l.entries.All fun x e => own x e.root

namespace Ledger.Filed

theorem loosen (h : l.Filed own) (p : Option Pending) : (l.loosen p).Filed own :=
  TombMap.All.foldl_update (f := fun e : Entry => { e with loose := true }) h fun _ _ _ he => he

theorem answer (h : l.Filed own) (p : Option Pending) (x : Point) : (l.answer p x).Filed own := by
  cases p with
  | none => exact h
  | some p =>
    exact TombMap.All.foldl_update
      (f := fun e : Entry => { e with partners := e.partners ++ [x], used := e.used || p.used }) h fun _ _ _ he => he

theorem start (h : l.Filed own) (p : Option Pending) {x : Point} (hx : own x root) :
    (l.start root p x).Filed own :=
  (h.loosen p).insertNew hx

theorem step (h : l.Filed own) (p : Option Pending) {x : Point × Effect} (hx : x.2 = w.opens → own x.1 root) :
    (w.step root (l, p) x).1.Filed own := by
  obtain ⟨point, e⟩ := x
  simp only [Walk.step]
  split
  · exact h.start p (hx ‹_›)
  split
  · exact h.answer p point
  split
  · exact h.loosen p
  split <;> exact h

theorem steps (h : l.Filed own) (p : Option Pending) {xs : List (Point × Effect)}
    (hx : ∀ x ∈ xs, x.2 = w.opens → own x.1 root) : (xs.foldl (w.step root) (l, p)).1.Filed own := by
  induction xs generalizing l p with
  | nil => exact h
  | cons x xs ih =>
    rw [List.foldl_cons]
    exact ih (h.step p (hx x (.head _))) _ fun y hy => hx y (.tail _ hy)

theorem arrive (h : l.Filed own) (states : Nat → Option Pending) (n : Nat) :
    (w.arriveFrom l states n).1.Filed own := by
  simp only [Walk.arriveFrom]
  split
  · exact h.loosen _
  · exact h

theorem depart {s : Ledger × Option Pending} (h : s.1.Filed own) (n : Nat) : (w.depart n s).1.Filed own := by
  rw [Walk.depart]
  split
  · exact h.loosen _
  split <;> exact h

theorem run (h : l.Filed own) (hx : ∀ n ∈ w.order, ∀ x ∈ w.effects n, x.2 = w.opens → own x.1 root) :
    (w.run root l).Filed own :=
  Walk.run_induct (P := (·.Filed own)) (Q := fun _ _ => True) h (fun _ => trivial) fun n hn _ states hl _ =>
    ⟨((hl.arrive states n).steps _ (hx n hn)).depart n, trivial⟩

theorem runs (own : Point → Var → Prop) {walk : Var → Walk Nat} (roots : List Var) (h : l.Filed own)
    (hx : ∀ root, ∀ n ∈ (walk root).order, ∀ x ∈ (walk root).effects n, x.2 = (walk root).opens → own x.1 root) :
    (roots.foldl (fun l root => (walk root).run root l) l).Filed own := by
  induction roots generalizing l with
  | nil => exact h
  | cons root roots ih => exact ih (h.run (hx root))

end Ledger.Filed

end Walks

/-- A reached node of the region has the effect on the root at the point. -/
def Flat.Acts (f : Flat) (e : Effect) (p : Point) (root : Var) : Prop := ∃ n ∈ f.order, (p, e) ∈ f.effects root n

/-- Every entry is an operation of its kind on its root. -/
structure Pairing.Filed (p : Pairing) (f : Flat) : Prop where
  retains : p.retains.All fun x e => f.Acts .retain x e.root
  releases : p.releases.All fun x e => f.Acts .release x e.root

theorem Flat.paired_filed (f : Flat) : f.paired.Filed f where
  retains := by
    refine Ledger.Filed.runs (f.Acts .retain) f.rootList .empty fun root n hn x hx he => ?_
    exact ⟨n, hn, by rw [← show x.2 = .retain from he]; exact hx⟩
  releases := by
    refine Ledger.Filed.runs (f.Acts .release) f.rootList .empty fun root n hn x hx he => ?_
    exact ⟨n, List.mem_reverse.mp hn, by rw [← show x.2 = .release from he]; exact List.mem_reverse.mp hx⟩

end CountMotion
