import CountMotion.Proofs.Slots
import Mathlib.Data.List.Induction
import Mathlib.Data.List.Nodup
import Mathlib.Data.List.TakeWhile
import Mathlib.Logic.Function.Basic

/-! Maps under every history of requests: they keep the order of first insertion, and what is
erased stays erased. -/
namespace CountMotion

namespace TombMap

variable {α β σ : Type} [DecidableEq α] {m : TombMap α β} {a x : α} {b : β} {f : Option β → Option β}
  {op : Op σ α β} {ops : List (Op σ α β)} {s : TombMap α β × σ}

/-- What has become of a key. -/
inductive Fate (β : Type) where
  | absent
  | live (value : β)
  | gone
  deriving DecidableEq, Repr

namespace Fate

def value? : Fate β → Option β
  | live b => some b
  | absent => none
  | gone => none

def isGone : Fate β → Bool
  | gone => true
  | absent => false
  | live _ => false

def ofSlot : Option (Option β) → Fate β
  | none => absent
  | some none => gone
  | some (some b) => live b

@[simp]
theorem value?_ofSlot (s : Option (Option β)) : (ofSlot s).value? = s.join := by
  rcases s with _ | _ | b <;> rfl

@[simp]
theorem isGone_ofSlot (s : Option (Option β)) : (ofSlot s).isGone = s.any Option.isNone := by
  rcases s with _ | _ | b <;> rfl

end Fate

/-- An insertion-ordered map with lasting tombstones, said without slots and places: the keys in
order of first insertion, and what has become of each. -/
structure Roll (α β : Type) where
  order : List α
  fate : α → Fate β

namespace Roll

def blank : Roll α β := ⟨[], fun _ => .absent⟩

def mark (r : Roll α β) (a : α) (x : Fate β) : Roll α β := { r with fate := Function.update r.fate a x }

/-- What each request means: an absent key can only become live, a live one can change or go,
and one that is gone has no way back. -/
def act (op : Op σ α β) (s : Roll α β × σ) : (Roll α β × σ) × Answer α β :=
  let (r, w) := s
  match op with
  | .getOrInsert a make =>
    match r.fate a with
    | .absent =>
      let made := make w
      ((⟨r.order ++ [a], Function.update r.fate a (.live made.1)⟩, made.2), .value (some made.1))
    | .live b => ((r, w), .value (some b))
    | .gone => ((r, w), .value none)
  | .get a => ((r, w), .value (r.fate a).value?)
  | .update a change =>
    match r.fate a with
    | .live b => ((r.mark a (.live (change b)), w), .value (some (change b)))
    | _ => ((r, w), .value none)
  | .erase a =>
    match r.fate a with
    | .live _ => ((r.mark a .gone, w), .flag true)
    | _ => ((r, w), .flag false)
  | .erased a => ((r, w), .flag (r.fate a).isGone)
  | .keys => ((r, w), .keys (r.order.filter fun a => (r.fate a).value?.isSome))

def after (ops : List (Op σ α β)) (w : σ) : Roll α β × σ := ops.foldl (fun s op => (act op s).1) (blank, w)

theorem mark_eq_self {r : Roll α β} {y : Fate β} (h : r.fate a = y) : r.mark a y = r := by
  rw [mark, ← h, Function.update_eq_self]

end Roll

def after (ops : List (Op σ α β)) (w : σ) : TombMap α β × σ := ops.foldl (fun s op => (op.act s).1) (empty, w)

theorem after_append (ops later : List (Op σ α β)) (w : σ) :
    after (ops ++ later) w = later.foldl (fun s op => (op.act s).1) (after ops w) := List.foldl_append

theorem after_concat (ops : List (Op σ α β)) (op : Op σ α β) (w : σ) :
    after (ops ++ [op]) w = (op.act (after ops w)).1 := after_append ops [op] w

/-! What one request does to the map. -/

theorem onSlot_eq_self (h : ∀ s, m.slot? a = some s → f s = s) : m.onSlot a f = m := by
  rw [onSlot]
  split
  · rfl
  · rename_i i hi
    obtain ⟨s, hs⟩ := place?_eq_some_iff_entry.mp hi
    have hfix : f s = s := h s (slot?_eq_some_iff.mpr (List.mem_of_getElem? hs))
    obtain ⟨hlt, hget⟩ := List.getElem?_eq_some_iff.mp hs
    have hsame : m.entries.set i (a, f m.entries[i].2) = m.entries := by
      rw [hget, hfix, ← hget, List.set_getElem_self]
    cases m
    simpa using hsame

theorem insertNew_of_known (h : m.known a) : m.insertNew a b = m := by
  rw [insertNew, dif_neg]
  rwa [place?_eq_none_iff, Decidable.not_not, ← known_iff]

/-- The map after a request. All but three leave it as it is. -/
theorem act_map (op : Op σ α β) (s : TombMap α β × σ) :
    (op.act s).1.1 =
      match op with
      | .getOrInsert a make => s.1.insertNew a (make s.2).1
      | .update a change => s.1.update a change
      | .erase a => s.1.erase a
      | _ => s.1 := by
  cases op with
  | getOrInsert a make =>
    rw [Op.act]
    dsimp only
    split
    · rename_i h
      exact (insertNew_of_known h).symm
    · rfl
  | _ => rfl

def Op.inserts? : Op σ α β → Option α
  | getOrInsert a _ => some a
  | _ => none

def Op.erases? : Op σ α β → Option α
  | erase a => some a
  | _ => none

def Op.key? : Op σ α β → Option α
  | getOrInsert a _ => some a
  | get a => some a
  | update a _ => some a
  | erase a => some a
  | erased a => some a
  | keys => none

theorem order_act (op : Op σ α β) (s : TombMap α β × σ) :
    (op.act s).1.1.order = s.1.order ++ op.inserts?.toList.filter (· ∉ s.1.order) := by
  rw [act_map]
  cases op with
  | getOrInsert a make =>
    simp only [order_insertNew, Op.inserts?, Option.toList_some]
    split
    · simp [*]
    · simp [*]
  | update a change => simp [update, Op.inserts?]
  | erase a => simp [erase, Op.inserts?]
  | _ => simp [Op.inserts?]

theorem slot?_act_of_ne (h : op.key? ≠ some x) (s : TombMap α β × σ) : (op.act s).1.1.slot? x = s.1.slot? x := by
  rw [act_map]
  cases op with
  | getOrInsert a make => exact slot?_insertNew.trans (if_neg fun hx => h (congrArg some hx.1.symm))
  | update a change => exact slot?_onSlot.trans (if_neg fun hx => h (congrArg some hx.symm))
  | erase a => exact slot?_onSlot.trans (if_neg fun hx => h (congrArg some hx.symm))
  | _ => rfl

theorem erased_act_iff :
    (op.act s).1.1.slot? x = some none ↔
      s.1.slot? x = some none ∨ x ∈ s.1.order ∧ op.erases? = some x := by
  rw [act_map]
  cases op with
  | getOrInsert a make =>
    have herases : (Op.getOrInsert a make).erases? ≠ some x := by simp [Op.erases?]
    simp only [slot?_insertNew, herases, and_false, or_false]
    split
    · rename_i hx
      rw [hx.1, slot?_eq_none_iff.mpr hx.2]
      simp
    · rfl
  | update a change =>
    have herases : (Op.update a change : Op σ α β).erases? ≠ some x := by simp [Op.erases?]
    simp only [update, slot?_onSlot, herases, and_false, or_false]
    split
    · simp
    · rfl
  | erase a =>
    simp only [erase, slot?_onSlot, Op.erases?, Option.some.injEq]
    split
    · rename_i hx
      rw [← slot?_isSome_iff, hx]
      rcases s.1.slot? a with _ | _ | b <;> simp
    · rename_i hx
      simp [Ne.symm hx]
  | _ => simp [Op.erases?]

/-! The map as a roll. -/

def roll (m : TombMap α β) : Roll α β := ⟨m.order, fun a => .ofSlot (m.slot? a)⟩

@[simp]
theorem roll_order : m.roll.order = m.order := rfl

@[simp]
theorem roll_fate : m.roll.fate a = .ofSlot (m.slot? a) := rfl

theorem roll_insertNew (h : a ∉ m.order) :
    (m.insertNew a b).roll = ⟨m.order ++ [a], Function.update m.roll.fate a (.live b)⟩ := by
  rw [roll, order_insertNew, if_neg h]
  congr 1
  funext x
  rw [slot?_insertNew, Function.update_apply]
  by_cases hx : x = a
  · rw [if_pos ⟨hx, h⟩, if_pos hx]
    rfl
  · rw [if_neg fun h => hx h.1, if_neg hx]
    rfl

theorem roll_onSlot : (m.onSlot a f).roll = m.roll.mark a (.ofSlot ((m.slot? a).map f)) := by
  rw [roll, order_onSlot, Roll.mark]
  congr 1
  funext x
  rw [slot?_onSlot, Function.update_apply]
  split
  · rename_i hx
    rw [hx]
  · rfl

theorem keys_eq_filter : m.keys = m.order.filter fun a => (m.get? a).isSome := by
  rw [keys, order, List.filter_map]
  refine congrArg (List.map Prod.fst) (List.filter_congr fun e he => ?_)
  rw [Function.comp, get?, slot?_eq_some_iff.mpr he]
  rfl

/-- A map answers as its roll does, and both go on alike. -/
theorem act_roll (op : Op σ α β) (s : TombMap α β × σ) :
    Roll.act op (s.1.roll, s.2) = (((op.act s).1.1.roll, (op.act s).1.2), (op.act s).2) := by
  obtain ⟨m, w⟩ := s
  cases op with
  | getOrInsert a make =>
    rcases hslot : m.slot? a with _ | _ | b
    · have hnew : a ∉ m.order := slot?_eq_none_iff.mp hslot
      simp [Roll.act, Op.act, known_eq, hslot, Fate.ofSlot, roll_insertNew hnew, get?, slot?_insertNew, hnew]
    · simp [Roll.act, Op.act, known_eq, hslot, Fate.ofSlot, get?]
    · simp [Roll.act, Op.act, known_eq, hslot, Fate.ofSlot, get?]
  | update a change =>
    rcases hslot : m.slot? a with _ | _ | b <;>
      simp [Roll.act, Op.act, update, roll_onSlot, hslot, Fate.ofSlot, get?, slot?_onSlot, Roll.mark_eq_self]
  | erase a =>
    rcases hslot : m.slot? a with _ | _ | b <;>
      simp [Roll.act, Op.act, erase, roll_onSlot, hslot, Fate.ofSlot, get?, Roll.mark_eq_self]
  | get a => simp [Roll.act, Op.act, get?]
  | erased a => simp [Roll.act, Op.act, erased]
  | keys => simp [Roll.act, Op.act, keys_eq_filter, get?]

theorem after_roll (ops : List (Op σ α β)) (w : σ) : Roll.after ops w = ((after ops w).1.roll, (after ops w).2) := by
  have hrun : ∀ s : TombMap α β × σ, ops.foldl (fun s op => (Roll.act op s).1) (s.1.roll, s.2) =
      ((ops.foldl (fun s op => (op.act s).1) s).1.roll, (ops.foldl (fun s op => (op.act s).1) s).2) := by
    induction ops with
    | nil => exact fun s => rfl
    | cons op ops ih =>
      intro s
      rw [List.foldl_cons, List.foldl_cons, act_roll]
      exact ih _
  exact hrun (empty, w)

/-! Histories. -/

/-- The keys that a history inserts, each once, in order of first insertion. -/
def inserted (ops : List (Op σ α β)) : List α := (ops.filterMap Op.inserts?).eraseDups

/-- The history erases the key after it has inserted it. -/
def erasedIn (ops : List (Op σ α β)) (a : α) : Bool :=
  (ops.dropWhile fun op => op.inserts? ≠ some a).any fun op => op.erases? = some a

theorem mem_inserted : a ∈ inserted ops ↔ ∃ op ∈ ops, op.inserts? = some a := by
  rw [inserted, List.mem_eraseDups, List.mem_filterMap]

theorem inserted_concat (ops : List (Op σ α β)) (op : Op σ α β) :
    inserted (ops ++ [op]) = inserted ops ++ op.inserts?.toList.filter (· ∉ inserted ops) := by
  have hlast : [op].filterMap Op.inserts? = op.inserts?.toList := by cases h : op.inserts? <;> simp [h]
  rw [inserted, inserted, List.filterMap_append, List.eraseDups_append, hlast]
  generalize ops.filterMap Op.inserts? = l
  cases op.inserts? with
  | none => rfl
  | some a =>
    by_cases ha : a ∈ l
    · simp [List.removeAll, ha]
    · simp [List.removeAll, List.eraseDups_cons, ha]

theorem erasedIn_concat (ops : List (Op σ α β)) (op : Op σ α β) (a : α) :
    erasedIn (ops ++ [op]) a ↔ erasedIn ops a ∨ a ∈ inserted ops ∧ op.erases? = some a := by
  rw [erasedIn, erasedIn, List.dropWhile_append]
  split
  · rename_i hnone
    -- The key was not inserted before, and no request both inserts and erases.
    have hdrop := List.isEmpty_iff.mp hnone
    have hnew : a ∉ inserted ops := by
      rw [mem_inserted]
      rintro ⟨x, hx, hxa⟩
      simpa [hxa] using List.dropWhile_eq_nil_iff.mp hdrop x hx
    rw [hdrop]
    cases op <;> simp [hnew, Op.inserts?, Op.erases?, List.dropWhile_cons]
  · rename_i hsome
    have hknown : a ∈ inserted ops := by
      by_contra hnew
      refine hsome (List.isEmpty_iff.mpr (List.dropWhile_eq_nil_iff.mpr fun x hx => ?_))
      exact decide_eq_true fun hxa => hnew (mem_inserted.mpr ⟨x, hx, hxa⟩)
    rw [List.any_append, Bool.or_eq_true]
    simp [hknown]

/-- The map holds the keys that were inserted, in order of first insertion. -/
theorem order_after (ops : List (Op σ α β)) (w : σ) : (after ops w).1.order = inserted ops := by
  induction ops using List.reverseRecOn with
  | nil => rfl
  | append_singleton ops op ih => rw [after_concat, order_act, inserted_concat, ih]

theorem erased_after_iff (ops : List (Op σ α β)) (w : σ) (a : α) :
    (after ops w).1.slot? a = some none ↔ erasedIn ops a := by
  induction ops using List.reverseRecOn with
  | nil => simp [after, erasedIn]
  | append_singleton ops op ih => rw [after_concat, erased_act_iff, erasedIn_concat, ih, order_after]

theorem keys_after (ops : List (Op σ α β)) (w : σ) :
    (after ops w).1.keys = (inserted ops).filter fun a => !erasedIn ops a := by
  rw [keys_eq_filter, order_after]
  refine List.filter_congr fun a ha => ?_
  have hslot := erased_after_iff ops w a
  rw [← order_after ops w, ← slot?_isSome_iff] at ha
  rw [get?]
  rcases h : (after ops w).1.slot? a with _ | _ | b
  · rw [h] at ha
    cases ha
  · rw [hslot.mp h]
    rfl
  · have hkept : erasedIn ops a = false := by
      rw [Bool.eq_false_iff, ne_eq, ← hslot, h]
      simp
    rw [hkept]
    rfl

/-- The key is lost to the map: no request finds it, changes anything for it or runs a closure
for it. -/
structure Lost (s : TombMap α β × σ) (a : α) : Prop where
  unlisted : a ∉ s.1.keys
  erased : (Op.erased a).act s = (s, .flag true)
  erase : (Op.erase a).act s = (s, .flag false)
  get : (Op.get a).act s = (s, .value none)
  update : ∀ change, (Op.update a change).act s = (s, .value none)
  getOrInsert : ∀ make, (Op.getOrInsert a make).act s = (s, .value none)

/-- The key is still to come: to erase it does nothing, and to insert it takes what the closure
makes. -/
structure Vacant (s : TombMap α β × σ) (a : α) : Prop where
  erase : (Op.erase a).act s = (s, .flag false)
  answer : ∀ make, ((Op.getOrInsert a make).act s).2 = .value (some (make s.2).1)
  ran : ∀ make, ((Op.getOrInsert a make).act s).1.2 = (make s.2).2
  get? : ∀ make, ((Op.getOrInsert a make).act s).1.1.get? a = some (make s.2).1

theorem lost_of_erased (h : s.1.slot? a = some none) : Lost s a := by
  have hsame : ∀ f : Option β → Option β, f none = none → s.1.onSlot a f = s.1 := by
    intro f hf
    refine onSlot_eq_self fun t ht => ?_
    obtain rfl : t = none := Option.some.inj (ht.symm.trans h)
    exact hf
  exact {
    unlisted := by simp [keys_eq_filter, TombMap.get?, h]
    erased := by simp [Op.act, TombMap.erased, h]
    erase := by simp [Op.act, TombMap.erase, hsame, TombMap.get?, h]
    get := by simp [Op.act, TombMap.get?, h]
    update := by simp [Op.act, TombMap.update, hsame, TombMap.get?, h]
    getOrInsert := by simp [Op.act, known_eq, TombMap.get?, h] }

theorem vacant_of_new (h : a ∉ s.1.order) : Vacant s a := by
  have hslot : s.1.slot? a = none := slot?_eq_none_iff.mpr h
  have hsame : s.1.erase a = s.1 := onSlot_eq_self fun t ht => by cases hslot.symm.trans ht
  exact {
    erase := by simp [Op.act, hsame, TombMap.get?, hslot]
    answer := by simp [Op.act, known_eq, hslot, TombMap.get?, slot?_insertNew, h]
    ran := by simp [Op.act, known_eq, hslot]
    get? := by simp [act_map, TombMap.get?, slot?_insertNew, h] }

theorem erased_foldl (h : s.1.slot? a = some none) (later : List (Op σ α β)) :
    (later.foldl (fun s op => (op.act s).1) s).1.slot? a = some none := by
  induction later generalizing s with
  | nil => exact h
  | cons op later ih => exact ih (erased_act_iff.mpr (.inl h))

/-- What holds of the map that a history leaves. -/
structure Abides (ops : List (Op σ α β)) (w : σ) : Prop where
  /-- It stands for the roll that the history leaves. -/
  refines : Roll.after ops w = ((after ops w).1.roll, (after ops w).2)
  /-- It answers every request as the roll does. -/
  answers : ∀ op : Op σ α β, (op.act (after ops w)).2 = (Roll.act op (Roll.after ops w)).2
  /-- The entries are those of the inserted keys, in order of first insertion. -/
  order : (after ops w).1.entries.map Prod.fst = inserted ops
  /-- Each inserted key has one entry, and no other key has any. -/
  once : ∀ a, ((after ops w).1.entries.map Prod.fst).count a = if a ∈ inserted ops then 1 else 0
  /-- The index gives the place of that entry. -/
  placed : ∀ a i, (after ops w).1.index.lookup a = some i ↔ ∃ slot, (after ops w).1.entries[i]? = some (a, slot)
  /-- A key that was erased while it had a value is lost. -/
  lost : ∀ before later a b, ops = before ++ .erase a :: later → (after before w).1.get? a = some b →
    Lost (after ops w) a
  /-- A key that was not inserted is still to come, however often it was erased. -/
  vacant : ∀ a, a ∉ inserted ops → Vacant (after ops w) a
  /-- A request leaves all keys but its own as they are. -/
  apart : ∀ (op : Op σ α β) x, op.key? ≠ some x → (op.act (after ops w)).1.1.slot? x = (after ops w).1.slot? x
  /-- The keys listed are those inserted and not erased since, in order of first insertion. -/
  listed : (after ops w).1.keys = (inserted ops).filter fun a => !erasedIn ops a
  nodup : (after ops w).1.keys.Nodup

/-- Under every history of requests, whatever its closures do, a map keeps the order of first
insertion, finds each key at its own place, and never gives back a key that was erased. -/
theorem tombstones_permanent (ops : List (Op σ α β)) (w : σ) : Abides ops w where
  refines := after_roll ops w
  answers op := by rw [after_roll, act_roll]
  order := order_after ops w
  once a := by
    rw [← order_after ops w]
    exact (after ops w).1.nodup.count
  placed a i := place?_eq_some_iff_entry
  lost before later a b hops hb := by
    have hknown : a ∈ (after before w).1.order := slot?_isSome_iff.mp (by rw [get?_eq_some_iff.mp hb]; rfl)
    have herased : ((Op.erase a).act (after before w)).1.1.slot? a = some none :=
      erased_act_iff.mpr (.inr ⟨hknown, rfl⟩)
    rw [hops, after_append, List.foldl_cons]
    exact lost_of_erased (erased_foldl herased later)
  vacant a ha := vacant_of_new (order_after ops w ▸ ha)
  apart op x hx := slot?_act_of_ne hx _
  listed := keys_after ops w
  nodup := by
    rw [keys_eq_filter]
    exact (after ops w).1.nodup.filter _

example :
    let s : TombMap Nat Nat × Nat := after [.erase 1, .getOrInsert 2 fun w => (20, w + 1),
      .getOrInsert 1 fun w => (10, w + 1), .erase 2, .getOrInsert 2 fun w => (99, w + 1)] 0
    s.1.keys = [1] ∧ s.1.order = [2, 1] ∧ s.2 = 2 := by decide

end TombMap

end CountMotion
