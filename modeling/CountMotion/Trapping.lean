import CountMotion.Routine.Flow
import CountMotion.Steps
import CountMotion.Table

/-! Blocks from which every path ends in a trap. -/
namespace CountMotion

/-- One flag for each block. -/
structure Trapping where
  flags : List Bool
  deriving DecidableEq, Repr

namespace Trapping

def holds (t : Trapping) (b : BlockId) : Bool := t.flags[b]?.getD false

/-- The blocks that trap themselves. -/
def start (r : Routine) : Trapping := ⟨r.blocks.map fun b => b.term == .trap⟩

/-- Flag a block without a flag that has successors, all of them flagged. Also tells whether any
flag was set so far. -/
def visit (s : Trapping × Bool) (x : List Nat × BlockId) : Except Fault (Trapping × Bool) := do
  let (t, changed) := s
  let (succs, b) := x
  if (← readAt t.flags b) || succs.isEmpty then return (t, changed)
  else if ← succs.allM (readAt t.flags) then return (⟨← writeAt t.flags b true⟩, true)
  else return (t, changed)

/-- One pass over all blocks, each seeing the flags set before it. -/
def pass (r : Routine) (t : Trapping) : Except Fault (Trapping × Bool) :=
  r.flow.succs.zipIdx.foldlM visit (t, false)

/-- How many blocks have no flag. -/
def missing (t : Trapping) : Nat := t.flags.count false

section Missing

variable {r : Routine} {t next : Trapping} {x : List Nat × BlockId} {changed changed' : Bool}

/-- A visit leaves everything as it is or sets one flag. -/
theorem visit_cases (h : visit (t, changed) x = .ok (next, changed')) :
    next = t ∧ changed' = changed ∨
      changed' = true ∧ t.flags[x.2]? = some false ∧ next = ⟨t.flags.set x.2 true⟩ := by
  obtain ⟨flag, hflag, h⟩ := bind_eq_ok.mp h
  split at h
  · cases h
    exact .inl ⟨rfl, rfl⟩
  · next hopen =>
    obtain ⟨all, -, h⟩ := bind_eq_ok.mp h
    split at h
    · obtain ⟨flags, hw, h⟩ := bind_eq_ok.mp h
      obtain ⟨-, rfl⟩ := writeAt_eq_ok.mp hw
      cases h
      have hfalse : flag = false := by
        cases flag with
        | false => rfl
        | true => exact absurd rfl hopen
      exact .inr ⟨rfl, hfalse ▸ readAt_eq_ok.mp hflag, rfl⟩
    · cases h
      exact .inl ⟨rfl, rfl⟩

theorem missing_set {b : BlockId} (h : t.flags[b]? = some false) :
    (⟨t.flags.set b true⟩ : Trapping).missing < t.missing := by
  obtain ⟨hb, he⟩ := List.getElem?_eq_some_iff.mp h
  have hpos : 0 < t.flags.count false := List.count_pos_iff.mpr (he ▸ List.getElem_mem hb)
  have hset : (t.flags.set b true).count false = t.flags.count false - 1 := by simp [List.count_set hb, he]
  rw [missing, missing, hset]
  omega

/-- A pass that changes something leaves fewer blocks without a flag. -/
theorem missing_pass (h : t.pass r = .ok (next, true)) : next.missing < t.missing := by
  have hinv := foldlM_keeps (fun _ s => s.1.missing ≤ t.missing ∧ (s.2 = true → s.1.missing < t.missing))
    ⟨Nat.le_refl _, fun h => by cases h⟩ ?_ h
  · exact hinv.2 rfl
  rintro _ x _ ⟨before, changed⟩ ⟨after, changed'⟩ _ hv ⟨hle, hlt⟩
  rcases visit_cases hv with ⟨rfl, rfl⟩ | ⟨rfl, hb, rfl⟩
  · exact ⟨hle, hlt⟩
  · have hless := Nat.lt_of_lt_of_le (missing_set hb) hle
    exact ⟨Nat.le_of_lt hless, fun _ => hless⟩

end Missing

/-- Passes until one changes nothing. -/
def settle (r : Routine) (t : Trapping) : Except Fault Trapping :=
  match _ : t.pass r with
  | .error fault => .error fault
  | .ok (next, true) => settle r next
  | .ok (next, false) => .ok next
termination_by t.missing
decreasing_by exact missing_pass ‹_›

end Trapping

/-- The least set of blocks that holds the traps and every block all of whose successors it
holds. A cycle without a way out stays outside. -/
def Routine.trapping (r : Routine) : Except Fault Trapping := (Trapping.start r).settle r

end CountMotion
