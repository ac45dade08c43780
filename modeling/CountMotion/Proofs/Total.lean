import Mathlib.Data.List.Chain
import Mathlib.Data.List.Forall2
import CountMotion.Steps

/-! Loops over lists whose steps cannot fail, and picks from lists. -/
namespace CountMotion

variable {α β ε : Type}

/-- A loop ends well when an invariant of the elements already taken carries every step. -/
theorem foldlM_total {f : β → α → Except ε β} (inv : List α → β → Prop) {l : List α} {b : β}
    (start : inv [] b)
    (step : ∀ before a after b, before ++ a :: after = l → inv before b →
      ∃ b', f b a = .ok b' ∧ inv (before ++ [a]) b') :
    ∃ b', l.foldlM f b = .ok b' ∧ inv l b' := by
  suffices rest : ∀ (later before : List α) (b : β), before ++ later = l → inv before b →
      ∃ b', later.foldlM f b = .ok b' ∧ inv l b' from rest l [] b rfl start
  intro later
  induction later with
  | nil =>
    intro before b hl hb
    rw [List.append_nil] at hl
    exact ⟨b, rfl, hl ▸ hb⟩
  | cons a later ih =>
    intro before b hl hb
    obtain ⟨next, hn, hi⟩ := step before a later b hl hb
    obtain ⟨last, hlast, hend⟩ := ih (before ++ [a]) next (by rw [← hl]; simp) hi
    refine ⟨last, ?_, hend⟩
    rw [List.foldlM_cons, hn]
    exact hlast

/-- A loop whose steps cannot fail is a plain fold. -/
theorem foldlM_plain {f : β → α → Except ε β} {g : β → α → β} {l : List α} {b : β}
    (h : ∀ b, ∀ a ∈ l, f b a = .ok (g b a)) : l.foldlM f b = .ok (l.foldl g b) := by
  induction l generalizing b with
  | nil => rfl
  | cons a l ih =>
    rw [List.foldlM_cons, h b a (.head l), List.foldl_cons]
    exact ih fun b x hx => h b x (.tail a hx)

theorem foldl_keeps {f : β → α → β} (inv : List α → β → Prop) {l : List α} {b : β} (start : inv [] b)
    (step : ∀ before a after b, before ++ a :: after = l → inv before b → inv (before ++ [a]) (f b a)) :
    inv l (l.foldl f b) := by
  suffices rest : ∀ (later before : List α) (b : β), before ++ later = l → inv before b → inv l (later.foldl f b) from
    rest l [] b rfl start
  intro later
  induction later with
  | nil =>
    intro before b hl hb
    rw [List.append_nil] at hl
    exact hl ▸ hb
  | cons a later ih =>
    intro before b hl hb
    exact ih (before ++ [a]) (f b a) (by rw [← hl]; simp) (step before a later b hl hb)

theorem mapM_total {f : α → Except ε β} {g : α → β} {l : List α} (h : ∀ a ∈ l, f a = .ok (g a)) :
    l.mapM f = .ok (l.map g) := by
  induction l with
  | nil => rfl
  | cons a l ih =>
    rw [List.mapM_cons, h a (.head l), ih fun x hx => h x (.tail a hx)]
    rfl

theorem allM_total {f : α → Except ε Bool} {p : α → Bool} {l : List α} (h : ∀ a ∈ l, f a = .ok (p a)) :
    l.allM f = .ok (l.all p) := by
  induction l with
  | nil => rfl
  | cons a l ih =>
    rw [List.allM, h a (.head l), List.all_cons]
    cases hp : p a with
    | true => exact ih fun x hx => h x (.tail a hx)
    | false => rfl

theorem anyM_total {f : α → Except ε Bool} {p : α → Bool} {l : List α} (h : ∀ a ∈ l, f a = .ok (p a)) :
    l.anyM f = .ok (l.any p) := by
  induction l with
  | nil => rfl
  | cons a l ih =>
    rw [List.anyM, h a (.head l), List.any_cons]
    cases hp : p a with
    | true => rfl
    | false => exact ih fun x hx => h x (.tail a hx)

theorem findSomeM?_total {f : α → Except ε (Option β)} {p : α → Option β} {l : List α} (h : ∀ a ∈ l, f a = .ok (p a)) :
    l.findSomeM? f = .ok (l.findSome? p) := by
  induction l with
  | nil => rfl
  | cons a l ih =>
    rw [List.findSomeM?, h a (.head l), List.findSome?]
    cases hp : p a with
    | some b => rfl
    | none => exact ih fun x hx => h x (.tail a hx)

theorem findM?_total {f : α → Except ε Bool} {p : α → Bool} {l : List α} (h : ∀ a ∈ l, f a = .ok (p a)) :
    l.findM? f = .ok (l.find? p) := by
  induction l with
  | nil => rfl
  | cons a l ih =>
    rw [List.findM?, h a (.head l), List.find?]
    cases hp : p a with
    | true => rfl
    | false => exact ih fun x hx => h x (.tail a hx)

theorem mapM_forall {f : α → Except ε β} {p : α → β → Prop} {l : List α} (h : ∀ a ∈ l, ∃ b, f a = .ok b ∧ p a b) :
    ∃ bs, l.mapM f = .ok bs ∧ List.Forall₂ p l bs := by
  induction l with
  | nil => exact ⟨[], rfl, .nil⟩
  | cons a l ih =>
    obtain ⟨b, hb, hp⟩ := h a (.head l)
    obtain ⟨bs, hbs, hps⟩ := ih fun x hx => h x (.tail a hx)
    refine ⟨b :: bs, ?_, .cons hp hps⟩
    rw [List.mapM_cons, hb]
    simp only [bind, Except.bind, hbs]
    rfl

theorem exists_of_mem_forall₂ {p : α → β → Prop} {l : List α} {bs : List β} (h : List.Forall₂ p l bs) {b : β}
    (hb : b ∈ bs) : ∃ a ∈ l, p a b := by
  induction h with
  | nil => cases hb
  | @cons a b' l bs hp _ ih =>
    rcases List.mem_cons.mp hb with rfl | hb
    · exact ⟨a, .head _, hp⟩
    · obtain ⟨x, hx, hxb⟩ := ih hb
      exact ⟨x, .tail _ hx, hxb⟩

/-- What sets inputs apart sets the results apart. -/
theorem pairwise_of_forall₂ {p : α → β → Prop} {q : α → α → Prop} {s : β → β → Prop} {l : List α} {bs : List β}
    (h : List.Forall₂ p l bs) (hq : l.Pairwise q)
    (hs : ∀ a ∈ l, ∀ a' ∈ l, q a a' → ∀ b b', p a b → p a' b' → s b b') : bs.Pairwise s := by
  induction h with
  | nil => exact .nil
  | @cons a b l bs hp hps ih =>
    obtain ⟨ha, hl⟩ := List.pairwise_cons.mp hq
    refine List.pairwise_cons.mpr ⟨fun b' hb' => ?_, ih hl fun x hx x' hx' => hs x (.tail _ hx) x' (.tail _ hx')⟩
    obtain ⟨a', ha', hp'⟩ := exists_of_mem_forall₂ hps hb'
    exact hs a (.head _) a' (.tail _ ha') (ha a' ha') b b' hp hp'

theorem nodup_eraseDups [DecidableEq α] (l : List α) : l.eraseDups.Nodup := by
  induction hn : l.length using Nat.strongRecOn generalizing l with
  | ind n ih =>
    cases l with
    | nil => simp
    | cons a l =>
      rw [List.eraseDups_cons, List.nodup_cons]
      have hlt : (l.filter fun b => !b == a).length < n := by
        rw [← hn]
        exact Nat.lt_succ_of_le (List.length_filter_le ..)
      exact ⟨by simp, ih _ hlt _ rfl⟩

theorem eq_singleton_of_nodup {l : List α} {a : α} (hl : l.Nodup) (h : ∀ x, x ∈ l ↔ x = a) : l = [a] := by
  have hperm : l.Perm [a] := (List.perm_ext_iff_of_nodup hl (by simp)).mpr fun x => by rw [h, List.mem_singleton]
  exact List.perm_singleton.mp hperm

theorem map_filterMap_sublist {γ : Type} {f : α → Option β} {g : β → γ} {h : α → γ}
    (hf : ∀ a b, f a = some b → g b = h a) (l : List α) : ((l.filterMap f).map g).Sublist (l.map h) := by
  induction l with
  | nil => exact .slnil
  | cons a l ih =>
    rw [List.filterMap_cons]
    cases hfa : f a with
    | none => exact ih.cons _
    | some b =>
      rw [List.map_cons, List.map_cons, hf a b hfa]
      exact ih.cons_cons _

/-- The two kinds of events take turns, a true one first. -/
def Alternates (events : List Bool) : Prop := events.IsChain (· ≠ ·) ∧ events.head? ≠ some false

theorem Alternates.nil : Alternates [] := ⟨.nil, nofun⟩

theorem Alternates.snoc {events : List Bool} {e : Bool} (h : Alternates events)
    (he : events.getLast? = some true ↔ e = false) : Alternates (events ++ [e]) := by
  obtain ⟨hchain, hhead⟩ := h
  refine ⟨List.isChain_append.mpr ⟨hchain, .singleton e, fun x hx y hy => ?_⟩, ?_⟩
  · obtain rfl : e = y := by simpa using hy
    rintro rfl
    cases x with
    | false => cases he.mpr rfl ▸ hx
    | true => cases he.mp hx
  · cases events with
    | nil =>
      intro hfalse
      cases he.mpr (by simpa using hfalse)
    | cons x events => exact hhead

end CountMotion
