import CountMotion.Routine.Access
import CountMotion.Sorted

/-! Queued insertions and deletions, made all at once so that points stay valid till then. -/
namespace CountMotion

/-- Insertions in queueing order, and points to delete. -/
structure Edits where
  inserts : List (Point × Instr)
  deletes : List Point
  deriving DecidableEq, Repr

namespace Edits

def empty : Edits := ⟨[], []⟩

def insert (e : Edits) (p : Point) (i : Instr) : Edits := { e with inserts := e.inserts ++ [(p, i)] }

def delete (e : Edits) (p : Point) : Edits := { e with deletes := e.deletes ++ [p] }

def touched (e : Edits) : List BlockId :=
  ascending (e.inserts.map (fun x => x.1.block) ++ e.deletes.map Point.block)

/-- Weave insertions, ascending by index, into a body that starts at `index`. -/
def weave (deleted : Nat → Bool) (inserts : List (Nat × Instr)) (index : Nat) : List Instr → List Instr
  | [] => inserts.map Prod.snd
  | i :: rest =>
    (inserts.takeWhile fun x => x.1 ≤ index).map Prod.snd ++
      (if deleted index then [] else [i]) ++
      weave deleted (inserts.dropWhile fun x => x.1 ≤ index) (index + 1) rest

/-- The new body of a block. Insertions at one index keep their queueing order, and those
past the end come last. -/
def newBody (e : Edits) (block : BlockId) (body : List Instr) : List Instr :=
  let inserts := (e.inserts.filter fun x => x.1.block == block).map fun x => (x.1.index, x.2)
  weave (fun index => e.deletes.contains ⟨block, index⟩) (sortBy (fun x y => x.1 ≤ y.1) inserts) 0 body

def splice (e : Edits) (r : Routine) : Except Fault Routine :=
  e.touched.foldlM (fun r block =>
    r.modifyBlock block fun b => { b with body := e.newBody block b.body }) r

/-- Make all edits and empty the queue; tells the blocks named by an edit. -/
def flush (e : Edits) (r : Routine) : Except Fault (Routine × List BlockId × Edits) := do
  return (← e.splice r, e.touched, .empty)

end Edits

end CountMotion
