import CountMotion.Explore
import CountMotion.Routine.Access

/-! Tables whose slots are numbered: a read, a write or a search fails at a number without a
slot. -/
namespace CountMotion

variable {α : Type}

def readAt (table : List α) (n : Nat) : Except Fault α :=
  match table[n]? with
  | some a => .ok a
  | none => .error (.noSlot n)

def writeAt (table : List α) (n : Nat) (a : α) : Except Fault (List α) :=
  if n < table.length then .ok (table.set n a) else .error (.noSlot n)

variable {table table' : List α} {n : Nat} {a : α}

theorem readAt_eq_ok : readAt table n = .ok a ↔ table[n]? = some a := by
  rw [readAt]
  cases table[n]? with
  | none => simp
  | some x => simp

theorem lt_of_readAt (h : readAt table n = .ok a) : n < table.length :=
  (List.getElem?_eq_some_iff.mp (readAt_eq_ok.mp h)).1

theorem writeAt_eq_ok : writeAt table n a = .ok table' ↔ n < table.length ∧ table.set n a = table' := by
  rw [writeAt]
  split
  · next h => simp [h]
  · next h => simp [h]

/-- What follows a number, nothing for a number without a slot. -/
def following (table : List α) (next : Nat → α → List Nat) (n : Nat) : List Nat := table[n]?.elim [] (next n)

theorem following_eq_get (table : List α) (next : Nat → α → List Nat) {n : Nat} (h : n < table.length) :
    following table next n = next n (table.get ⟨n, h⟩) := by
  simp only [following, List.getElem?_eq_getElem h, Option.elim_some, List.get_eq_getElem]

/-- What was seen, together with all that the pending numbers lead to. The slot of each is read
when it is first seen. -/
def search (table : List α) (next : Nat → α → List Nat) (pending seen : List Nat) : Except Fault (List Nat) :=
  match pending with
  | [] => .ok seen
  | n :: rest =>
    if _ : n ∈ seen then search table next rest seen
    else if h : n < table.length then
      search table next (next n (table.get ⟨n, h⟩) ++ rest) (n :: seen)
    else .error (.noSlot n)
termination_by unseenWork (List.range table.length) (following table next) seen + pending.length
decreasing_by
  · simp
  · have hn : n ∈ List.range table.length ∧ n ∉ seen := ⟨List.mem_range.mpr h, ‹_›⟩
    have := unseenWork_cons_add_le (following table next) hn
    rw [following_eq_get table next h] at this
    simp only [List.length_append, List.length_cons]
    omega

end CountMotion
