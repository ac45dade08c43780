import CountMotion.Alias
import CountMotion.Proofs.Flow
import CountMotion.Proofs.Splice

/-! A machine that keeps the counts: what a routine does on a script of branch decisions. -/
namespace CountMotion

abbrev ObjId := Nat

/-- What a run shows to the outside. -/
inductive Event where
  | call (callee : Nat) (args : List ObjId)
  | observe (object : ObjId) (unique : Bool)
  | dealloc (object : ObjId)
  | trap
  | ret
  deriving DecidableEq, Repr

/-- An object is dead when its count is zero. It owns the references in its fields. -/
structure Object where
  count : Nat
  fields : List ObjId
  deriving DecidableEq, Repr

/-- The objects made so far, those that the variables hold, and the events so far. -/
structure Memory where
  objects : List Object
  env : Var → Option ObjId
  events : List Event

namespace Memory

def count (m : Memory) (o : ObjId) : Nat := (m.objects[o]?.map Object.count).getD 0

def fields (m : Memory) (o : ObjId) : List ObjId := (m.objects[o]?.map Object.fields).getD []

def setCount (m : Memory) (o : ObjId) (n : Nat) : Memory :=
  { m with objects := m.objects.modify o fun x => { x with count := n } }

def alloc (m : Memory) (fields : List ObjId) : Memory := { m with objects := m.objects ++ [⟨1, fields⟩] }

def hold (m : Memory) (v : Var) (o : Option ObjId) : Memory :=
  { m with env := fun w => if w = v then o else m.env w }

def emit (m : Memory) (e : Event) : Memory := { m with events := m.events ++ [e] }

/-- The object that a variable holds, which has to be alive. -/
def live (m : Memory) (v : Var) : Except ObjId (Option ObjId) :=
  match m.env v with
  | some o => if 0 < m.count o then .ok (some o) else .error o
  | none => .ok none

def lives (m : Memory) (vs : List Var) : Except ObjId (List ObjId) := do
  return (← vs.mapM m.live).filterMap id

theorem count_eq {m : Memory} {o : ObjId} {x : Object} (h : m.objects[o]? = some x) : m.count o = x.count := by
  rw [count, h]
  rfl

theorem exists_object {m : Memory} {o : ObjId} (h : 0 < m.count o) :
    ∃ x, m.objects[o]? = some x ∧ m.count o = x.count := by
  cases hx : m.objects[o]? with
  | none => rw [count, hx] at h; cases h
  | some x => exact ⟨x, rfl, count_eq hx⟩

private theorem tally_setCount_lt {m : Memory} {o : ObjId} {n : Nat} (h : n < m.count o) :
    tally Object.count (m.setCount o n).objects < tally Object.count m.objects := by
  obtain ⟨x, hx, hcount⟩ := exists_object (Nat.zero_lt_of_lt h)
  rw [hcount] at h
  clear hcount
  rw [setCount]
  generalize m.objects = objects at hx
  induction objects generalizing o with
  | nil => cases hx
  | cons y objects ih =>
    cases o with
    | zero =>
      obtain rfl := Option.some.inj hx
      exact Nat.add_lt_add_right h _
    | succ o => exact Nat.add_lt_add_left (ih hx) _

/-- Give up one reference to each object in turn. An object that dies gives up its own first. -/
def drop (m : Memory) (pending : List ObjId) : Except ObjId Memory :=
  match pending with
  | [] => .ok m
  | o :: rest =>
    if _ : 0 < m.count o then
      if m.count o = 1 then ((m.setCount o 0).emit (.dealloc o)).drop (m.fields o ++ rest)
      else (m.setCount o (m.count o - 1)).drop rest
    else .error o
termination_by tally Object.count m.objects
decreasing_by
  · exact tally_setCount_lt ‹_›
  · exact tally_setCount_lt (Nat.sub_lt ‹_› Nat.one_pos)

/-- Run one instruction. It fails with the dead object that it touches. -/
def exec (m : Memory) : Instr → Except ObjId Memory
  | .assign dst (.var source) | .cast dst source => .ok (m.hold dst (m.env source))
  | .assign dst (.literal _) => .ok (m.hold dst none)
  | .project dst source field => do
    let held ← m.live source
    return m.hold dst (held.bind fun o => (m.fields o)[field]?)
  | .construct dst args => do
    let fields ← m.lives args
    return (m.alloc fields).hold dst (some m.objects.length)
  | .call dst callee args _ => do
    let objects ← m.lives args
    return (m.emit (.call callee objects)).hold dst none
  | .isShared dst v => do
    match ← m.live v with
    | some o => return (m.emit (.observe o (m.count o == 1))).hold dst none
    | none => return m.hold dst none
  | .retain v _ => do
    match ← m.live v with
    | some o => return m.setCount o (m.count o + 1)
    | none => return m
  | .release v _ => do
    match ← m.live v with
    | some o => m.drop [o]
    | none => return m

def execAll (m : Memory) (body : List Instr) : Except ObjId Memory := body.foldlM exec m

end Memory

/-- Take case after case while the script says so, then the fallback. A script that has run out
says no. -/
def pick : List (Nat × BlockId) → BlockId → List Bool → BlockId × List Bool
  | [], fallback, script => (fallback, script)
  | (_, target) :: cases, fallback, script =>
    if script.headD false then pick cases fallback script.tail else (target, script.tail)

/-- Where control goes and which decisions are left, or how the run ends. -/
def Terminator.go : Terminator → List Bool → (BlockId × List Bool) ⊕ Event
  | .jump target, script => .inl (target, script)
  | .branch _ yes no, script => .inl (if script.headD false then yes else no, script.tail)
  | .switch _ cases fallback, script => .inl (pick cases fallback script)
  | .ret _, _ => .inr .ret
  | .trap, _ => .inr .trap

/-- A run at the start of a block. -/
structure Stage where
  block : BlockId
  mem : Memory
  script : List Bool

namespace Routine

/-- A counted parameter comes with an object of its own. -/
def receive (r : Routine) (m : Memory) (v : Var) : Memory :=
  if (r.storage[v]?.map Storage.counted).getD false then (m.alloc []).hold v (some m.objects.length) else m

def boot (r : Routine) : Memory := r.params.foldl r.receive ⟨[], fun _ => none, []⟩

/-- Run one block: on to the next one, or to the events of the whole run. -/
def advance (r : Routine) (c : Stage) : Except ObjId (Stage ⊕ List Event) := do
  let m ← c.mem.execAll (r.codeAt c.block).body
  match (r.codeAt c.block).term.go c.script with
  | .inl (target, script) => return .inl ⟨target, m, script⟩
  | .inr e => return .inr (m.events ++ [e])

/-- Where a run is after at most so many blocks. -/
def play (r : Routine) (script : List Bool) : Nat → Except ObjId (Stage ⊕ List Event)
  | 0 => .ok (.inl ⟨r.entry, r.boot, script⟩)
  | n + 1 => do
    match ← r.play script n with
    | .inl c => r.advance c
    | .inr events => return .inr events

/-- On the script the run comes to an end, with these events. -/
def Yields (r : Routine) (script : List Bool) (events : List Event) : Prop :=
  ∃ n, r.play script n = .ok (.inr events)

/-- Trivial variables hold no object. -/
def Tidy (r : Routine) (m : Memory) : Prop := ∀ v, r.storage[v]? = some .trivial → m.env v = none

/-- On no script a dead object is touched or a trivial variable gets an object. -/
def Safe (r : Routine) : Prop :=
  ∀ script n c, r.play script n = .ok (.inl c) → ∀ i ≤ (r.codeAt c.block).body.length,
    ∃ m, c.mem.execAll ((r.codeAt c.block).body.take i) = .ok m ∧ r.Tidy m

/-- The definition of the variable lies before the point on every path to it. -/
def Available (r : Routine) (p : Point) (v : Var) : Prop :=
  v ∈ r.params ∨ (∃ i ∈ (r.codeAt p.block).body.take p.index, i.target? = some v) ∨
    ∃ b ≠ p.block, (∃ i ∈ (r.codeAt b).body, i.target? = some v) ∧ r.flow.Dominates r.entry b p.block

/-- Every variable has at most one definition, and every use has it before it. -/
structure SSA (r : Routine) : Prop where
  once : (r.params ++ r.instrs.filterMap Instr.target?).Nodup
  used : ∀ p i, r.instrAt? p = some i → ∀ v ∈ i.operands, r.Available p v
  used_term : ∀ b, ∀ v ∈ (r.codeAt b).term.operands, r.Available ⟨b, (r.codeAt b).body.length⟩ v

end Routine

end CountMotion
