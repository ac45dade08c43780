import CountMotion.Tally

/-! Routines of counted code: blocks of instructions with explicit count operations. -/
namespace CountMotion

/-- Variables and blocks are numbered; a number may name nothing. -/
abbrev Var := Nat

abbrev BlockId := Nat

/-- How a variable holds its values. Trivial values carry no count. -/
inductive Storage where
  | trivial
  | reference
  | aggregate
  deriving DecidableEq, Repr

/-- Which count an operation changes. -/
inductive CountKind where
  | strong
  | value
  deriving DecidableEq, Repr

namespace Storage

def counted : Storage → Bool
  | trivial => false
  | reference | aggregate => true

/-- The kind of operation that counts values held this way. -/
def countKind : Storage → CountKind
  | aggregate => .value
  | trivial | reference => .strong

end Storage

inductive Literal where
  | int (value : Int)
  | bool (value : Bool)
  | unit
  deriving DecidableEq, Repr

inductive Operand where
  | var (source : Var)
  | literal (value : Literal)
  deriving DecidableEq, Repr

/-- What a call may do to the counts of objects it was not given. -/
inductive CallEffect where
  | mayRelease
  | readOnly
  deriving DecidableEq, Repr

inductive Instr where
  | assign (dst : Var) (value : Operand)
  | cast (dst source : Var)
  | project (dst source : Var) (field : Nat)
  | construct (dst : Var) (args : List Var)
  | call (dst : Var) (callee : Nat) (args : List Var) (effect : CallEffect)
  | isShared (dst var : Var)
  | retain (var : Var) (kind : CountKind)
  | release (var : Var) (kind : CountKind)
  deriving DecidableEq, Repr

namespace Instr

/-- The variable an instruction defines. -/
def target? : Instr → Option Var
  | assign dst _ | cast dst _ | project dst _ _ | construct dst _ | call dst _ _ _
  | isShared dst _ => some dst
  | retain _ _ | release _ _ => none

/-- The variables an instruction reads, in operand order. -/
def operands : Instr → List Var
  | assign _ (.var source) | cast _ source | project _ source _ => [source]
  | assign _ (.literal _) => []
  | construct _ args | call _ _ args _ => args
  | isShared _ var | retain var _ | release var _ => [var]

/-- The variable whose count an instruction changes. -/
def counts? : Instr → Option Var
  | retain var _ | release var _ => some var
  | _ => none

def isCount (i : Instr) : Bool := i.counts?.isSome

/-- The variable whose object the defined variable shares. -/
def copied? : Instr → Option Var
  | assign _ (.var source) | cast _ source => some source
  | _ => none

end Instr

inductive Terminator where
  | ret (value : Var)
  | jump (target : BlockId)
  | branch (cond : Var) (yes no : BlockId)
  | switch (scrutinee : Var) (cases : List (Nat × BlockId)) (fallback : BlockId)
  | trap
  deriving DecidableEq, Repr

namespace Terminator

def operands : Terminator → List Var
  | ret value => [value]
  | branch cond _ _ => [cond]
  | switch scrutinee _ _ => [scrutinee]
  | jump _ | trap => []

/-- Where control may go next, with repetitions, the fallback of a switch last. -/
def targets : Terminator → List BlockId
  | jump target => [target]
  | branch _ yes no => [yes, no]
  | switch _ cases fallback => cases.map Prod.snd ++ [fallback]
  | ret _ | trap => []

/-- Send every edge to `old` to `new` instead. -/
def redirect (old new : BlockId) : Terminator → Terminator
  | jump target => jump (swap target)
  | branch cond yes no => branch cond (swap yes) (swap no)
  | switch scrutinee cases fallback =>
    switch scrutinee (cases.map fun (value, target) => (value, swap target)) (swap fallback)
  | ret value => ret value
  | trap => trap
where
  swap (target : BlockId) : BlockId := if target = old then new else target

def returns : Terminator → Bool
  | ret _ => true
  | jump _ | branch _ _ _ | switch _ _ _ | trap => false

/-- Control leaves the routine here. -/
def leaves : Terminator → Bool
  | ret _ | trap => true
  | jump _ | branch _ _ _ | switch _ _ _ => false

end Terminator

structure Block where
  id : BlockId
  body : List Instr
  term : Terminator
  deriving DecidableEq, Repr

/-- A routine with its blocks in numbering order and the storage of each variable. -/
structure Routine where
  name : String
  params : List Var
  blocks : List Block
  entry : BlockId
  storage : List Storage
  deriving DecidableEq, Repr

/-- A place in a routine: before the instruction `index` of a block, and at the
terminator when `index` is the length of the body. -/
structure Point where
  block : BlockId
  index : Nat
  deriving DecidableEq, Repr

/-- Points are ordered by block, then by index. -/
def Point.le (p q : Point) : Bool :=
  p.block < q.block || (p.block == q.block && p.index ≤ q.index)

def Block.countOps (b : Block) : Nat := b.body.countP Instr.isCount

/-- The number of count operations in the routine. -/
def Routine.countOps (r : Routine) : Nat := tally Block.countOps r.blocks

end CountMotion
