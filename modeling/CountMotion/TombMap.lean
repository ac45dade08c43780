/-! Insertion-ordered maps whose erased keys never come back. -/
namespace CountMotion

/-- Keys in order of first insertion; a key without a value is erased for good. Keys are found
through an index of their places. -/
structure TombMap (α β : Type) where
  index : List (α × Nat)
  entries : List (α × Option β)
  nodup : (entries.map Prod.fst).Nodup
  /-- The index holds the place of every key and nothing else. -/
  mem_index : ∀ a i, (a, i) ∈ index ↔ (entries.map Prod.fst)[i]? = some a
  deriving DecidableEq, Repr

namespace TombMap

variable {α β σ : Type}

def empty : TombMap α β where
  index := []
  entries := []
  nodup := List.nodup_nil
  mem_index a i := by simp

/-- The keys that were ever inserted. -/
def order (m : TombMap α β) : List α := m.entries.map Prod.fst

theorem map_fst_set {γ : Type} {l : List (α × γ)} {i : Nat} {a : α} (h : (l.map Prod.fst)[i]? = some a) (c : γ) :
    (l.set i (a, c)).map Prod.fst = l.map Prod.fst := by
  obtain ⟨hi, ha⟩ := List.getElem?_eq_some_iff.mp h
  rw [List.map_set, ← ha, List.set_getElem_self]

variable [DecidableEq α]

/-- The place of a key that was ever inserted. -/
def place? (m : TombMap α β) (a : α) : Option Nat := m.index.lookup a

theorem not_mem_order_of_place? {m : TombMap α β} {a : α} (h : m.place? a = none) : a ∉ m.order := by
  intro ha
  obtain ⟨i, hi⟩ := List.mem_iff_getElem?.mp ha
  have hne := List.lookup_eq_none_iff.mp h _ ((m.mem_index a i).mpr hi)
  simp at hne

theorem order_of_place? {m : TombMap α β} {a : α} {i : Nat} (h : m.place? a = some i) : m.order[i]? = some a := by
  obtain ⟨before, later, hindex, -⟩ := List.lookup_eq_some_iff.mp h
  exact (m.mem_index a i).mp (hindex ▸ List.mem_append_right _ (.head _))

theorem place?_lt {m : TombMap α β} {a : α} {i : Nat} (h : m.place? a = some i) : i < m.entries.length := by
  have hi := (List.getElem?_eq_some_iff.mp (order_of_place? h)).1
  rwa [order, List.length_map] at hi

/-- The slot of a key that was ever inserted, empty when the key was erased since. -/
def slot? (m : TombMap α β) (a : α) : Option (Option β) :=
  match h : m.place? a with
  | none => none
  | some i => some (m.entries.get ⟨i, place?_lt h⟩).2

def get? (m : TombMap α β) (a : α) : Option β := (m.slot? a).join

/-- The key was inserted at some time, whether or not it was erased since. -/
def known (m : TombMap α β) (a : α) : Bool := (m.place? a).isSome

def erased (m : TombMap α β) (a : α) : Bool := (m.slot? a).any Option.isNone

def push (m : TombMap α β) (a : α) (b : β) (h : m.place? a = none) : TombMap α β where
  index := (a, m.entries.length) :: m.index
  entries := m.entries ++ [(a, some b)]
  nodup := by
    rw [List.map_append]
    refine List.nodup_append.mpr ⟨m.nodup, by simp, fun x hx y hy hxy => ?_⟩
    obtain rfl : y = a := by simpa using hy
    exact not_mem_order_of_place? h (hxy ▸ hx)
  mem_index x i := by
    have hold := m.mem_index x i
    rw [List.mem_cons, hold, List.map_append, List.getElem?_append, List.length_map]
    split
    · have hne : i ≠ m.entries.length := by omega
      simp [hne]
    · have hout : (m.entries.map Prod.fst)[i]? = none := List.getElem?_eq_none (by rw [List.length_map]; omega)
      rw [hout]
      by_cases hi : i = m.entries.length
      · simp [hi, eq_comm]
      · have hsub : i - m.entries.length ≠ 0 := by omega
        simp [hi, hsub]

/-- Insert a value at a key that was never inserted before. -/
def insertNew (m : TombMap α β) (a : α) (b : β) : TombMap α β :=
  if h : m.place? a = none then m.push a b h else m

/-- Change the slot of a key that was inserted. -/
def onSlot (m : TombMap α β) (a : α) (f : Option β → Option β) : TombMap α β :=
  match h : m.place? a with
  | none => m
  | some i =>
    { m with
      entries := m.entries.set i (a, f (m.entries.get ⟨i, place?_lt h⟩).2)
      nodup := map_fst_set (order_of_place? h) _ ▸ m.nodup
      mem_index := map_fst_set (order_of_place? h) _ ▸ m.mem_index }

def update (m : TombMap α β) (a : α) (f : β → β) : TombMap α β := m.onSlot a (Option.map f)

/-- Erase a key that was inserted; other keys may still be inserted later. -/
def erase (m : TombMap α β) (a : α) : TombMap α β := m.onSlot a fun _ => none

def keys (m : TombMap α β) : List α :=
  (m.entries.filter fun e => e.2.isSome).map Prod.fst

def toList (m : TombMap α β) : List (α × β) :=
  m.entries.filterMap fun e => e.2.map fun b => (e.1, b)

/-- A request to a map. What `make` does besides giving a value shows in a state of type `σ`. To
write through the value that is given is to update it next. -/
inductive Op (σ α β : Type) where
  | getOrInsert (key : α) (make : σ → β × σ)
  | get (key : α)
  | update (key : α) (change : β → β)
  | erase (key : α)
  | erased (key : α)
  | keys

/-- What a request gives: the value seen at its key, a truth value, or keys. -/
inductive Answer (α β : Type) where
  | value (value : Option β)
  | flag (flag : Bool)
  | keys (keys : List α)
  deriving DecidableEq, Repr

/-- Serve a request. An update answers with the changed value, an erasure says whether there was one. -/
def Op.act (op : Op σ α β) (s : TombMap α β × σ) : (TombMap α β × σ) × Answer α β :=
  let (m, w) := s
  match op with
  | .getOrInsert a make =>
    if m.known a then ((m, w), .value (m.get? a))
    else
      let made := make w
      let m := m.insertNew a made.1
      ((m, made.2), .value (m.get? a))
  | .get a => ((m, w), .value (m.get? a))
  | .update a change =>
    let m := m.update a change
    ((m, w), .value (m.get? a))
  | .erase a => ((m.erase a, w), .flag (m.get? a).isSome)
  | .erased a => ((m, w), .flag (m.erased a))
  | .keys => ((m, w), .keys m.keys)

end TombMap

end CountMotion
