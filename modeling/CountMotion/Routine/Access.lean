import CountMotion.Routine.Basic

/-! Lookups that fail when a number names nothing, and the edits that keep the numbering. -/
namespace CountMotion

/-- A request that names something the routine or an analysis does not have. -/
inductive Fault where
  | noBlock (block : BlockId)
  | noVar (var : Var)
  | noRegion (region : Nat)
  | noSlot (index : Nat)
  | pastBody (point : Point)
  | misnumbered (block : BlockId)
  | brokenTree (node : Nat)
  | unsettledTree
  deriving DecidableEq, Repr

namespace Routine

def block (r : Routine) (b : BlockId) : Except Fault Block :=
  match r.blocks[b]? with
  | some block => .ok block
  | none => .error (.noBlock b)

def storageOf (r : Routine) (v : Var) : Except Fault Storage :=
  match r.storage[v]? with
  | some storage => .ok storage
  | none => .error (.noVar v)

def nextBlock (r : Routine) : BlockId := r.blocks.length

/-- Append a block, which has to carry the next number. -/
def append (r : Routine) (b : Block) : Except Fault Routine :=
  if b.id = r.nextBlock then .ok { r with blocks := r.blocks ++ [b] }
  else .error (.misnumbered b.id)

def declare (r : Routine) (storage : Storage) : Var × Routine :=
  (r.storage.length, { r with storage := r.storage ++ [storage] })

/-- Replace the block at a position by its image. -/
def modifyBlock (r : Routine) (b : BlockId) (f : Block → Block) : Except Fault Routine :=
  if b < r.blocks.length then .ok { r with blocks := r.blocks.modify b f }
  else .error (.noBlock b)

end Routine

end CountMotion
