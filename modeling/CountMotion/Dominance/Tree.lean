import CountMotion.Steps
import CountMotion.Table
import CountMotion.Graph.Postorder

/-! Dominator trees by iteration over reverse postorder. -/
namespace CountMotion

/-- Parent links. The root is its own parent, and a node that the root does not reach has none. -/
structure Links where
  parent : List (Option Nat)
  deriving DecidableEq, Repr

namespace Links

def parentOf (t : Links) (n : Nat) : Option Nat := t.parent[n]?.join

def reaches (t : Links) (n : Nat) : Bool := (t.parentOf n).isSome

/-- The node where the two chains of parents meet. A chain leads to ever smaller positions, and
two nodes at one position are one. -/
def meet (t : Links) (pos : Nat → Nat) (a b : Nat) : Except Fault Nat :=
  if a = b then .ok a
  else if t.parent.length ≤ a then .error (.noSlot a)
  else if t.parent.length ≤ b then .error (.noSlot b)
  else if pos b < pos a then
    match t.parentOf a with
    | some p => if pos p < pos a then meet t pos p b else .error (.brokenTree a)
    | none => .error (.brokenTree a)
  else if pos a < pos b then
    match t.parentOf b with
    | some p => if pos p < pos b then meet t pos a p else .error (.brokenTree b)
    | none => .error (.brokenTree b)
  else .error (.brokenTree a)
termination_by pos a + pos b

/-- The meet of all sources that already have a parent. -/
def join (t : Links) (pos : Nat → Nat) (sources : List Nat) : Except Fault (Option Nat) :=
  sources.foldlM (fun met s => do
    match ← readAt t.parent s, met with
    | none, _ => return met
    | some _, none => return some s
    | some _, some m => some <$> t.meet pos s m) none

/-- Link a node to the join of its sources. -/
def relink (pos : Nat → Nat) (preds : Graph) (t : Links) (n : Nat) : Except Fault Links := do
  match ← t.join pos (← readAt preds.succs n) with
  | some p => return ⟨← writeAt t.parent n (some p)⟩
  | none => return t

/-- One pass over the nodes, each link computed from the links before it. -/
def sweep (pos : Nat → Nat) (preds : Graph) (nodes : List Nat) (t : Links) : Except Fault Links :=
  nodes.foldlM (relink pos preds) t

def parentPos (pos : Nat → Nat) (t : Links) (n : Nat) : Nat := ((t.parentOf n).map pos).getD t.parent.length

/-- The sum of all parent positions. -/
def rank (pos : Nat → Nat) (t : Links) : Nat := tally (t.parentPos pos) (List.range t.parent.length)

/-- Passes until one changes nothing. A pass that changes something moves the links towards the
root. -/
def settle (pos : Nat → Nat) (preds : Graph) (nodes : List Nat) (t : Links) : Except Fault Links := do
  let better ← t.sweep pos preds nodes
  if better = t then .ok t
  else if _ : better.rank pos < t.rank pos then better.settle pos preds nodes
  else .error .unsettledTree
termination_by t.rank pos

def bare (size entry : Nat) : Links := ⟨(List.replicate size none).set entry (some entry)⟩

/-- The links stay among the nodes. -/
def Inside (t : Links) : Prop := ∀ n p, t.parentOf n = some p → p < t.parent.length

section Inside

variable {t t' : Links} {pos : Nat → Nat} {preds : Graph} {nodes sources : List Nat} {a b m n p : Nat}

theorem meet_lt (h : t.Inside) (ha : a < t.parent.length) (hm : t.meet pos a b = .ok m) :
    m < t.parent.length := by
  fun_induction meet t pos a b with
  | case1 a => exact Except.ok.inj hm ▸ ha
  | case4 a b _ _ _ _ p hp _ ih => exact ih (h a p hp) hm
  | case7 a b _ _ _ _ _ p hp _ ih => exact ih ha hm
  | _ => cases hm

theorem join_lt (h : t.Inside) (hm : t.join pos sources = .ok (some m)) : m < t.parent.length := by
  have hall := foldlM_keeps (fun _ met => ∀ x ∈ met, x < t.parent.length) (fun _ hx => by cases hx) ?_ hm
  · exact hall m rfl
  intro _ s _ met met' _ hs hmet x hx
  obtain ⟨linked, hread, hs⟩ := bind_eq_ok.mp hs
  have hlt : s < t.parent.length := lt_of_readAt hread
  match linked, met with
  | none, met => exact hmet x (Except.ok.inj hs ▸ hx)
  | some _, none =>
    obtain rfl : x = s := by simpa [← Except.ok.inj hs] using hx.symm
    exact hlt
  | some _, some m =>
    obtain ⟨m', hmeet, hs⟩ := bind_eq_ok.mp hs
    obtain rfl : x = m' := by simpa [← Except.ok.inj hs] using hx.symm
    exact meet_lt h hlt hmeet

theorem relink_inside (h : t.Inside) (hr : relink pos preds t n = .ok t') : t'.Inside := by
  obtain ⟨sources, -, hr⟩ := bind_eq_ok.mp hr
  obtain ⟨joined, hj, hr⟩ := bind_eq_ok.mp hr
  cases joined with
  | none => exact Except.ok.inj hr ▸ h
  | some p =>
    obtain ⟨parent, hw, hr⟩ := bind_eq_ok.mp hr
    obtain rfl := Except.ok.inj hr
    obtain ⟨hn, rfl⟩ := writeAt_eq_ok.mp hw
    intro x q hq
    rw [List.length_set]
    rw [parentOf, List.getElem?_set] at hq
    split at hq
    · obtain rfl : p = q := by simpa [hn] using hq
      exact join_lt h hj
    · exact h x q hq

theorem sweep_inside (h : t.Inside) (hs : t.sweep pos preds nodes = .ok t') : t'.Inside :=
  foldlM_keeps (fun _ t => t.Inside) h (fun _ _ _ _ _ _ hr ht => relink_inside ht hr) hs

theorem settle_inside (h : t.Inside) (hs : t.settle pos preds nodes = .ok t') : t'.Inside := by
  fun_induction settle pos preds nodes t with
  | case1 t ih =>
    obtain ⟨better, hb, hs⟩ := bind_eq_ok.mp hs
    have hbetter := sweep_inside h hb
    split at hs
    · exact Except.ok.inj hs ▸ h
    · split at hs
      · next hlt => exact ih better hlt hbetter hs
      · cases hs

theorem bare_inside {size entry : Nat} (h : entry < size) : (bare size entry).Inside := by
  intro n p hp
  rw [parentOf, bare, List.getElem?_set] at hp
  rw [bare, List.length_set, List.length_replicate]
  split at hp
  · obtain rfl : entry = p := by simpa [h] using hp
    exact h
  · rw [List.getElem?_replicate] at hp
    split at hp <;> cases hp

end Inside

end Links

/-- A dominator tree: links that stay among its nodes. -/
structure DomTree extends Links where
  inside : toLinks.Inside
  deriving DecidableEq, Repr

namespace DomTree

/-- The dominator tree of a graph, given with its edges turned round. -/
def build (g preds : Graph) (entry : Nat) : Except Fault DomTree :=
  if h : entry < g.size then
    match (g.postorder entry).reverse with
    | [] => .error (.noSlot entry)
    | first :: nodes =>
      match hs : (Links.bare g.size entry).settle (first :: nodes).idxOf preds nodes with
      | .ok t => .ok ⟨t, Links.settle_inside (Links.bare_inside h) hs⟩
      | .error fault => .error fault
  else .ok ⟨⟨List.replicate g.size none⟩, fun n p hp => by
    rw [Links.parentOf, List.getElem?_replicate] at hp
    split at hp <;> cases hp⟩

def above (t : DomTree) (n : Nat) : Option Nat := (t.parentOf n).filter (· != n)

def up (t : DomTree) (n : Fin t.parent.length) : Option (Fin t.parent.length) :=
  match h : t.parent.get n with
  | some p => if p = n then none else some ⟨p, t.inside n p (by simp [Links.parentOf, ← h])⟩
  | none => none

/-- The dominators of a node, from itself up. -/
def chain (t : DomTree) (n : Nat) : List Nat :=
  if h : n < t.parent.length then (climb t.up t.parent.length ⟨n, h⟩).map Fin.val else [n]

def dominates (t : DomTree) (a b : Nat) : Bool := (t.chain b).contains a

/-- The nearest node that dominates both. -/
def common (t : DomTree) (a b : Nat) : Option Nat :=
  (climb t.above t.parent.length a).find? fun c => t.dominates c b

end DomTree

end CountMotion
