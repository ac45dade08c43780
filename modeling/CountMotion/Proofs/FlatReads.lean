import CountMotion.Match
import CountMotion.Trip
import CountMotion.Proofs.Reads

/-! Nodes of a flat region read by number, and regions whose nodes only name nodes. -/
namespace CountMotion

namespace Flat

variable {f : Flat} {n : Nat} {x : Node} {root : Var}

def succs (f : Flat) (n : Nat) : List Nat := (f.nodes[n]?.map Node.succs).getD []

def preds (f : Flat) (n : Nat) : List Nat := (f.nodes[n]?.map Node.preds).getD []

def traps (f : Flat) (n : Nat) : Bool := (f.nodes[n]?.map Node.traps).getD false

def block? (f : Flat) (n : Nat) : Option (BlockId × Block) := f.nodes[n]?.bind Node.block?

def blindEntry (f : Flat) (n : Nat) : Bool := n == f.entry || (f.nodes[n]?.map Node.reentered).getD false

def liveEscape (f : Flat) (root : Var) (n : Nat) : Bool := (f.nodes[n]?.map fun x => x.liveEscape f root).getD false

def continues (f : Flat) (root : Var) (n : Nat) : Bool := !f.liveEscape root n && !(f.succs n).isEmpty

def effects (f : Flat) (root : Var) (n : Nat) : List (Point × Effect) :=
  (f.nodes[n]?.map fun x => x.effects f root).getD []

/-- The nodes by number, without a check, are the nodes. -/
structure Shows (f : Flat) (n : Nat) (x : Node) : Prop where
  succs : f.succs n = x.succs
  preds : f.preds n = x.preds
  traps : f.traps n = x.traps
  block? : f.block? n = x.block?
  blindEntry : f.blindEntry n = x.blindEntry f n
  liveEscape : ∀ root, f.liveEscape root n = x.liveEscape f root
  continues : ∀ root, f.continues root n = x.continues f root
  effects : ∀ root, f.effects root n = x.effects f root

theorem shows (h : f.nodes[n]? = some x) : f.Shows n x := by
  constructor <;> simp [Flat.succs, Flat.preds, Flat.traps, Flat.block?, Flat.blindEntry, Flat.liveEscape, Flat.continues,
    Flat.effects, Node.blindEntry, Node.continues, h]

/-- Every number that the region or one of its nodes gives for a node is one. -/
structure Indexed (f : Flat) : Prop where
  order : ∀ n ∈ f.order, n < f.size
  succs : ∀ n, ∀ s ∈ f.succs n, s < f.size
  preds : ∀ n, ∀ m ∈ f.preds n, m < f.size
  located : ∀ b n, f.nodeOf b = some n → n < f.size

/-- A node that is read is shown by its number. -/
theorem node_eq (h : n < f.size) : ∃ x, f.node n = .ok x ∧ f.Shows n x :=
  ⟨_, readAt_of_lt h, shows (List.getElem?_eq_getElem h)⟩

def rootList (f : Flat) : List Var :=
  (f.order.flatMap fun n =>
    match f.block? n with
    | some (_, code) => code.body.filterMap fun i => i.counts?.bind f.facts.root
    | none => []).eraseDups

theorem roots_eq (h : f.Indexed) : f.roots = .ok f.rootList := by
  refine bind_eq_ok.mpr ⟨_, mapM_total fun n hn => ?_, by rw [rootList, List.flatMap]; rfl⟩
  obtain ⟨x, hx, hs⟩ := node_eq (h.order n hn)
  rw [hx, hs.block?]
  rfl

end Flat

end CountMotion
