import CountMotion.TombMap

/-! What each operation on a map does to the slots of its keys and to their order. -/
namespace CountMotion

namespace TombMap

variable {α β : Type} [DecidableEq α] {m : TombMap α β} {a x : α} {b : β} {i : Nat} {s : Option β}
  {f : Option β → Option β}

theorem place?_eq_some_iff : m.place? a = some i ↔ m.order[i]? = some a := by
  constructor
  · exact order_of_place?
  · intro h
    cases hj : m.place? a with
    | none => exact absurd (List.mem_of_getElem? h) (not_mem_order_of_place? hj)
    | some j =>
      have hat := order_of_place? hj
      have hlt : j < m.order.length := (List.getElem?_eq_some_iff.mp hat).1
      rw [(List.getElem?_inj hlt m.nodup).mp (hat.trans h.symm)]

theorem place?_eq_none_iff : m.place? a = none ↔ a ∉ m.order := by
  refine ⟨not_mem_order_of_place?, fun h => ?_⟩
  cases hi : m.place? a with
  | none => rfl
  | some i => exact absurd (List.mem_of_getElem? (place?_eq_some_iff.mp hi)) h

theorem place?_eq_some_iff_entry : m.place? a = some i ↔ ∃ s, m.entries[i]? = some (a, s) := by
  rw [place?_eq_some_iff, order, List.getElem?_map, Option.map_eq_some_iff]
  constructor
  · rintro ⟨⟨x, s⟩, hentry, rfl⟩
    exact ⟨s, hentry⟩
  · rintro ⟨s, hentry⟩
    exact ⟨(a, s), hentry, rfl⟩

theorem slot?_eq : m.slot? a = (m.place? a).bind fun i => m.entries[i]?.map Prod.snd := by
  rw [slot?]
  split
  · next h => rw [h, Option.bind_none]
  · next i h => simp [h, place?_lt h]

theorem slot?_eq_some_iff : m.slot? a = some s ↔ (a, s) ∈ m.entries := by
  rw [slot?_eq]
  constructor
  · intro h
    obtain ⟨i, hi, hs⟩ := Option.bind_eq_some_iff.mp h
    obtain ⟨t, ht⟩ := place?_eq_some_iff_entry.mp hi
    obtain rfl : t = s := by simpa [ht] using hs
    exact List.mem_of_getElem? ht
  · intro h
    obtain ⟨i, hi⟩ := List.mem_iff_getElem?.mp h
    rw [place?_eq_some_iff_entry.mpr ⟨s, hi⟩, Option.bind_some, hi]
    rfl

theorem slot?_eq_none_iff : m.slot? a = none ↔ a ∉ m.order := by
  rw [← place?_eq_none_iff]
  cases hi : m.place? a with
  | none => simp [slot?_eq, hi]
  | some i =>
    obtain ⟨s, hs⟩ := place?_eq_some_iff_entry.mp hi
    simp [slot?_eq, hi, hs]

theorem slot?_isSome_iff : (m.slot? a).isSome ↔ a ∈ m.order := by
  rw [Option.isSome_iff_ne_none, ne_eq, slot?_eq_none_iff, Decidable.not_not]

theorem known_iff : m.known a ↔ a ∈ m.order := by
  rw [known, Option.isSome_iff_ne_none, ne_eq, place?_eq_none_iff, Decidable.not_not]

theorem known_eq : m.known a = (m.slot? a).isSome := by
  rw [Bool.eq_iff_iff, known_iff, slot?_isSome_iff]

theorem get?_eq_some_iff : m.get? a = some b ↔ m.slot? a = some (some b) := Option.join_eq_some_iff

@[simp]
theorem slot?_empty : (empty : TombMap α β).slot? a = none := rfl

theorem order_insertNew : (m.insertNew a b).order = if a ∈ m.order then m.order else m.order ++ [a] := by
  rw [insertNew]
  split
  · rename_i h
    rw [if_neg (place?_eq_none_iff.mp h), order, push, List.map_append]
    rfl
  · rename_i h
    rw [place?_eq_none_iff, Decidable.not_not] at h
    rw [if_pos h]

theorem slot?_insertNew :
    (m.insertNew a b).slot? x = if x = a ∧ a ∉ m.order then some (some b) else m.slot? x := by
  rw [insertNew]
  split
  · rename_i h
    have hnew := place?_eq_none_iff.mp h
    split
    · rename_i hx
      exact slot?_eq_some_iff.mpr (hx.1 ▸ List.mem_append_right _ (.head _))
    · rename_i hx
      have hne : x ≠ a := fun h => hx ⟨h, hnew⟩
      refine Option.ext fun s => ?_
      rw [slot?_eq_some_iff, slot?_eq_some_iff]
      simp [push, hne]
  · rename_i h
    rw [place?_eq_none_iff] at h
    rw [if_neg fun hx => h hx.2]

@[simp]
theorem order_onSlot : (m.onSlot a f).order = m.order := by
  rw [onSlot]
  split
  · rfl
  · next i h => exact map_fst_set (order_of_place? h) _

theorem slot?_onSlot : (m.onSlot a f).slot? x = if x = a then (m.slot? x).map f else m.slot? x := by
  rw [onSlot]
  split
  · rename_i h
    split
    · rename_i hx
      rw [slot?_eq_none_iff.mpr (hx ▸ place?_eq_none_iff.mp h)]
      rfl
    · rfl
  · rename_i i h
    rw [slot?_eq, slot?_eq]
    change ((m.place? x).bind fun j => (m.entries.set i _)[j]?.map Prod.snd) = _
    cases hj : m.place? x with
    | none => simp
    | some j =>
      obtain ⟨s, hs⟩ := place?_eq_some_iff_entry.mp hj
      have hplaces : i = j ↔ x = a := by
        constructor
        · rintro rfl
          exact Option.some.inj ((place?_eq_some_iff.mp hj).symm.trans (place?_eq_some_iff.mp h))
        · rintro rfl
          exact Option.some.inj (h.symm.trans hj)
      have hi := place?_lt h
      simp only [Option.bind_some, List.getElem?_set, hplaces, hi, if_true, hs]
      split
      · rename_i hx
        obtain rfl := hplaces.mpr hx
        simp [(List.getElem?_eq_some_iff.mp hs).2]
      · rfl

end TombMap

end CountMotion
