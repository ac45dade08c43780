/-! Computations that may fail: what holds of those that end well. -/
namespace CountMotion

variable {α β ε : Type}

theorem bind_eq_ok {x : Except ε α} {f : α → Except ε β} {b : β} : x >>= f = .ok b ↔ ∃ a, x = .ok a ∧ f a = .ok b := by
  cases x with
  | error =>
    constructor
    · intro h
      cases h
    · rintro ⟨_, h, -⟩
      cases h
  | ok a =>
    constructor
    · exact fun h => ⟨a, rfl, h⟩
    · rintro ⟨_, h, hf⟩
      cases h
      exact hf

/-- A loop that ends well keeps what every step keeps. -/
theorem foldlM_keeps {f : β → α → Except ε β} (inv : List α → β → Prop) {l : List α} {b b' : β} (start : inv [] b)
    (step : ∀ before a after b b', before ++ a :: after = l → f b a = .ok b' → inv before b → inv (before ++ [a]) b')
    (h : l.foldlM f b = .ok b') : inv l b' := by
  suffices rest : ∀ (later before : List α) (b : β), before ++ later = l → inv before b →
      later.foldlM f b = .ok b' → inv l b' from rest l [] b rfl start h
  intro later
  induction later with
  | nil =>
    intro before b hl hb h
    rw [List.append_nil] at hl
    exact hl ▸ Except.ok.inj h ▸ hb
  | cons a later ih =>
    intro before b hl hb h
    rw [List.foldlM_cons] at h
    obtain ⟨next, hn, h⟩ := bind_eq_ok.mp h
    exact ih (before ++ [a]) next (by rw [← hl]; simp) (step before a later b next hl hn hb) h

end CountMotion
