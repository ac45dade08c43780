import CountMotion.Proofs.Execution
import Mathlib.Logic.Relation

/-! What one instruction can do to the memory, and runs of it on memories whose counts differ. -/
namespace CountMotion

namespace Memory

variable {m m' next : Memory} {o a : ObjId} {v : Var} {i : Instr}

@[simp] theorem count_hold (m : Memory) (v : Var) (x : Option ObjId) (o : ObjId) : (m.hold v x).count o = m.count o := rfl

@[simp] theorem fields_hold (m : Memory) (v : Var) (x : Option ObjId) (o : ObjId) :
    (m.hold v x).fields o = m.fields o := rfl

@[simp] theorem env_hold (m : Memory) (v : Var) (x : Option ObjId) (w : Var) :
    (m.hold v x).env w = if w = v then x else m.env w := rfl

@[simp] theorem count_emit (m : Memory) (e : Event) (o : ObjId) : (m.emit e).count o = m.count o := rfl

@[simp] theorem fields_emit (m : Memory) (e : Event) (o : ObjId) : (m.emit e).fields o = m.fields o := rfl

theorem count_eq_zero (h : m.objects.length ≤ o) : m.count o = 0 := by
  rw [count, List.getElem?_eq_none h]
  rfl

theorem lt_of_count (h : 0 < m.count o) : o < m.objects.length := by
  obtain ⟨x, hx, -⟩ := exists_object h
  exact (List.getElem?_eq_some_iff.mp hx).1

@[simp] theorem length_setCount (m : Memory) (o : ObjId) (n : Nat) :
    (m.setCount o n).objects.length = m.objects.length := by
  simp [setCount]

theorem count_setCount (h : o < m.objects.length) (n : Nat) (a : ObjId) :
    (m.setCount o n).count a = if a = o then n else m.count a := by
  rw [count, count, setCount, List.getElem?_modify]
  by_cases ha : a = o
  · subst ha
    simp [List.getElem?_eq_getElem h]
  · simp [ha, Ne.symm ha]

@[simp] theorem fields_setCount (m : Memory) (o : ObjId) (n : Nat) (a : ObjId) :
    (m.setCount o n).fields a = m.fields a := by
  rw [fields, fields, setCount, List.getElem?_modify]
  cases m.objects[a]? with
  | none => rfl
  | some x => by_cases ha : o = a <;> simp [ha]

theorem count_alloc (m : Memory) (fs : List ObjId) (a : ObjId) :
    (m.alloc fs).count a = if a = m.objects.length then 1 else m.count a := by
  rw [count, count, alloc]
  rcases Nat.lt_trichotomy a m.objects.length with h | rfl | h
  · rw [List.getElem?_append_left h, if_neg (Nat.ne_of_lt h)]
  · simp
  · rw [List.getElem?_eq_none (Nat.le_of_lt h), List.getElem?_eq_none (by simp; omega), if_neg (Nat.ne_of_gt h)]

theorem fields_alloc (m : Memory) (fs : List ObjId) (a : ObjId) :
    (m.alloc fs).fields a = if a = m.objects.length then fs else m.fields a := by
  rw [fields, fields, alloc]
  rcases Nat.lt_trichotomy a m.objects.length with h | rfl | h
  · rw [List.getElem?_append_left h, if_neg (Nat.ne_of_lt h)]
  · simp
  · rw [List.getElem?_eq_none (Nat.le_of_lt h), List.getElem?_eq_none (by simp; omega), if_neg (Nat.ne_of_gt h)]

theorem live_eq_some : m.live v = .ok (some o) ↔ m.env v = some o ∧ 0 < m.count o := by
  rw [live]
  cases m.env v with
  | none => simp
  | some a =>
    by_cases h : 0 < m.count a
    · simp only [h, if_true, Except.ok.injEq, Option.some.injEq]
      exact ⟨fun ha => ⟨ha, ha ▸ h⟩, fun ha => ha.1⟩
    · simp only [h, if_false, Option.some.injEq, false_iff, reduceCtorEq]
      rintro ⟨rfl, ha⟩
      exact h ha

theorem live_eq_none : m.live v = .ok none ↔ m.env v = none := by
  rw [live]
  cases m.env v with
  | none => simp
  | some a => by_cases h : 0 < m.count a <;> simp [h]

theorem env_of_live {held : Option ObjId} (h : m.live v = .ok held) : m.env v = held := by
  cases held with
  | none => exact live_eq_none.mp h
  | some o => exact (live_eq_some.mp h).1

/-- All that an instruction can do. -/
inductive Step (m : Memory) : Instr → Memory → Prop where
  | copy {i : Instr} {dst source : Var} (ht : i.target? = some dst) (hc : i.copied? = some source) :
      Step m i (m.hold dst (m.env source))
  | literal (dst : Var) (x : Literal) : Step m (.assign dst (.literal x)) (m.hold dst none)
  | project (dst : Var) {source : Var} (field : Nat) {held : Option ObjId} (h : m.live source = .ok held) :
      Step m (.project dst source field) (m.hold dst (held.bind fun o => (m.fields o)[field]?))
  | construct (dst : Var) {args : List Var} {fs : List ObjId} (h : m.lives args = .ok fs) :
      Step m (.construct dst args) ((m.alloc fs).hold dst (some m.objects.length))
  | call (dst : Var) (callee : Nat) {args : List Var} (effect : CallEffect) {os : List ObjId}
      (h : m.lives args = .ok os) : Step m (.call dst callee args effect) ((m.emit (.call callee os)).hold dst none)
  | shared (dst : Var) {v : Var} {o : ObjId} (h : m.live v = .ok (some o)) :
      Step m (.isShared dst v) ((m.emit (.observe o (m.count o == 1))).hold dst none)
  | unheld (dst : Var) {v : Var} (h : m.env v = none) : Step m (.isShared dst v) (m.hold dst none)
  | retain {v : Var} (kind : CountKind) {o : ObjId} (h : m.live v = .ok (some o)) :
      Step m (.retain v kind) (m.setCount o (m.count o + 1))
  | release {v : Var} (kind : CountKind) {o : ObjId} {m' : Memory} (h : m.live v = .ok (some o))
      (hd : m.drop [o] = .ok m') : Step m (.release v kind) m'
  | idle {i : Instr} {v : Var} (hi : i.counts? = some v) (h : m.env v = none) : Step m i m

theorem exec_iff : m.exec i = .ok m' ↔ m.Step i m' := by
  constructor
  · intro h
    cases i with
    | assign dst value =>
      cases value with
      | var source =>
        cases h
        exact .copy rfl rfl
      | literal x =>
        cases h
        exact .literal dst x
    | cast dst source =>
      cases h
      exact .copy rfl rfl
    | project dst source field =>
      obtain ⟨held, hheld, h⟩ := bind_eq_ok.mp h
      cases h
      exact .project dst field hheld
    | construct dst args =>
      obtain ⟨fs, hfs, h⟩ := bind_eq_ok.mp h
      cases h
      exact .construct dst hfs
    | call dst callee args effect =>
      obtain ⟨os, hos, h⟩ := bind_eq_ok.mp h
      cases h
      exact .call dst callee effect hos
    | isShared dst v =>
      obtain ⟨held, hheld, h⟩ := bind_eq_ok.mp h
      cases held with
      | none =>
        cases h
        exact .unheld dst (live_eq_none.mp hheld)
      | some o =>
        cases h
        exact .shared dst hheld
    | retain v kind =>
      obtain ⟨held, hheld, h⟩ := bind_eq_ok.mp h
      cases held with
      | none =>
        cases h
        exact .idle rfl (live_eq_none.mp hheld)
      | some o =>
        cases h
        exact .retain kind hheld
    | release v kind =>
      obtain ⟨held, hheld, h⟩ := bind_eq_ok.mp h
      cases held with
      | none =>
        cases h
        exact .idle rfl (live_eq_none.mp hheld)
      | some o => exact .release kind hheld h
  · intro h
    cases h with
    | @copy i dst source ht hc =>
      cases i with
      | assign dst value =>
        cases value with
        | var source => cases ht; cases hc; rfl
        | literal x => cases hc
      | cast dst source => cases ht; cases hc; rfl
      | _ => cases hc
    | literal dst x => rfl
    | project dst field h => exact bind_eq_ok.mpr ⟨_, h, rfl⟩
    | construct dst h => exact bind_eq_ok.mpr ⟨_, h, rfl⟩
    | call dst callee effect h => exact bind_eq_ok.mpr ⟨_, h, rfl⟩
    | shared dst h => exact bind_eq_ok.mpr ⟨_, h, rfl⟩
    | unheld dst h => exact bind_eq_ok.mpr ⟨_, live_eq_none.mpr h, rfl⟩
    | retain kind h => exact bind_eq_ok.mpr ⟨_, h, rfl⟩
    | release kind h hd => exact bind_eq_ok.mpr ⟨_, h, hd⟩
    | @idle i v hi h =>
      cases i with
      | retain v kind =>
        cases hi
        exact bind_eq_ok.mpr ⟨_, live_eq_none.mpr h, rfl⟩
      | release v kind =>
        cases hi
        exact bind_eq_ok.mpr ⟨_, live_eq_none.mpr h, rfl⟩
      | _ => cases hi

/-- One object owns another, directly or through others, or is it. -/
def Owns (m : Memory) : ObjId → ObjId → Prop := Relation.ReflTransGen fun a b => b ∈ m.fields a

theorem Owns.congr (hf : ∀ a, m'.fields a = m.fields a) : m'.Owns = m.Owns := by
  rw [Owns, Owns]
  congr
  funext a b
  rw [hf]

/-- Memories that differ in their events and in lower counts. -/
structure Lowers (m m' : Memory) : Prop where
  env : m'.env = m.env
  size : m'.objects.length = m.objects.length
  fields : ∀ a, m'.fields a = m.fields a
  count : ∀ a, m'.count a ≤ m.count a

theorem Lowers.setCount (h : 0 < m.count o) {n : Nat} (hn : n ≤ m.count o) : m.Lowers (m.setCount o n) where
  env := rfl
  size := length_setCount m o n
  fields := fields_setCount m o n
  count a := by
    rw [count_setCount (lt_of_count h)]
    split
    · subst a
      exact hn
    · exact Nat.le_refl _

theorem Lowers.trans (h : m.Lowers m') (h' : m'.Lowers next) : m.Lowers next where
  env := h'.env.trans h.env
  size := h'.size.trans h.size
  fields a := (h'.fields a).trans (h.fields a)
  count a := Nat.le_trans (h'.count a) (h.count a)

theorem drop_lowers {pending : List ObjId} (h : m.drop pending = .ok m') : m.Lowers m' := by
  fun_induction drop m pending with
  | case1 m => cases h; exact ⟨rfl, rfl, fun _ => rfl, fun _ => Nat.le_refl _⟩
  | case2 m o rest hpos hone ih =>
    have hset : m.Lowers (m.setCount o 0) := .setCount hpos (Nat.zero_le _)
    have hemit : m.Lowers ((m.setCount o 0).emit (.dealloc o)) := ⟨hset.env, hset.size, hset.fields, hset.count⟩
    exact hemit.trans (ih h)
  | case3 m o rest hpos hone ih => exact (Lowers.setCount hpos (Nat.sub_le _ _)).trans (ih h)
  | case4 => cases h

theorem count_drop {pending : List ObjId} (h : m.drop pending = .ok m') (ha : ∀ o ∈ pending, ¬ m.Owns o a) :
    m'.count a = m.count a := by
  fun_induction drop m pending with
  | case1 m => cases h; rfl
  | case2 m o rest hpos hone ih =>
    have hne : a ≠ o := fun hao => ha o (.head _) (hao ▸ .refl)
    rw [ih h, count_emit, count_setCount (lt_of_count hpos), if_neg hne]
    intro b hb
    rw [Owns.congr (m := m) fun c => by rw [fields_emit, fields_setCount]]
    rcases List.mem_append.mp hb with hb | hb
    · exact fun howns => ha o (.head _) (.head hb howns)
    · exact ha b (.tail _ hb)
  | case3 m o rest hpos hone ih =>
    have hne : a ≠ o := fun hao => ha o (.head _) (hao ▸ .refl)
    rw [ih h, count_setCount (lt_of_count hpos), if_neg hne]
    intro b hb
    rw [Owns.congr (m := m) (fields_setCount m o _)]
    exact ha b (.tail _ hb)
  | case4 => cases h

/-- An object with several references gives up one. -/
theorem drop_of_two_le (h : 2 ≤ m.count o) : m.drop [o] = .ok (m.setCount o (m.count o - 1)) := by
  rw [drop, dif_pos (Nat.lt_of_lt_of_le Nat.two_pos h), if_neg (Nat.ne_of_gt h), drop]

/-- The instruction reads the count of the object or may lower it. -/
def Touches (m : Memory) (o : ObjId) : Instr → Prop
  | .isShared _ v => m.env v = some o
  | .release v _ => ∃ a, m.env v = some a ∧ m.Owns a o
  | _ => False

/-- What holds of every instruction: objects stay with their fields, dead ones stay dead, and
a count only falls where it is touched. -/
structure Keeps (m : Memory) (i : Instr) (m' : Memory) : Prop where
  size : m.objects.length ≤ m'.objects.length
  fields : ∀ o < m.objects.length, m'.fields o = m.fields o
  env : ∀ v, i.target? ≠ some v → m'.env v = m.env v
  dead : ∀ o < m.objects.length, m.count o = 0 → m'.count o = 0
  count : ∀ o, ¬ m.Touches o i → m.count o ≤ m'.count o

private theorem keeps_hold (dst : Var) (x : Option ObjId) (ht : i.target? = some dst) : m.Keeps i (m.hold dst x) where
  size := Nat.le_refl _
  fields _ _ := rfl
  env v hv := if_neg fun hv' : v = dst => hv (hv' ▸ ht)
  dead _ _ h := h
  count _ _ := Nat.le_refl _

theorem Step.keeps (h : m.Step i m') : m.Keeps i m' := by
  cases h with
  | copy ht hc => exact keeps_hold _ _ ht
  | literal dst x => exact keeps_hold _ _ rfl
  | project dst field h => exact keeps_hold _ _ rfl
  | call dst callee effect h => exact { keeps_hold _ none rfl with }
  | shared dst h => exact { keeps_hold _ none rfl with }
  | unheld dst h => exact keeps_hold _ _ rfl
  | idle hi h => exact ⟨Nat.le_refl _, fun _ _ => rfl, fun _ _ => rfl, fun _ _ h => h, fun _ _ => Nat.le_refl _⟩
  | @construct dst args fs h =>
    refine ⟨by simp [alloc, hold], fun o ho => ?_, fun v hv => if_neg fun hv' : v = dst => hv (hv' ▸ rfl),
      fun o ho hz => ?_, fun o _ => ?_⟩
    · rw [fields_hold, fields_alloc, if_neg (Nat.ne_of_lt ho)]
    · rw [count_hold, count_alloc, if_neg (Nat.ne_of_lt ho), hz]
    · rw [count_hold, count_alloc]
      split
      · subst o
        rw [count_eq_zero (Nat.le_refl _)]
        exact Nat.zero_le _
      · exact Nat.le_refl _
  | @retain v kind o h =>
    have hpos := (live_eq_some.mp h).2
    refine ⟨by simp, fun a _ => fields_setCount m o _ a, fun _ _ => rfl, fun a _ hz => ?_, fun a _ => ?_⟩
    · rw [count_setCount (lt_of_count hpos), if_neg fun hao : a = o => Nat.ne_of_gt hpos (hao ▸ hz), hz]
    · rw [count_setCount (lt_of_count hpos)]
      split
      · subst a
        exact Nat.le_succ _
      · exact Nat.le_refl _
  | @release v kind o m' h hd =>
    have hlow := drop_lowers hd
    refine ⟨Nat.le_of_eq hlow.size.symm, fun a _ => hlow.fields a, fun _ _ => congrFun hlow.env _, fun a _ hz => ?_,
      fun a ha => ?_⟩
    · exact Nat.le_zero.mp (hz ▸ hlow.count a)
    · refine Nat.le_of_eq (count_drop hd fun b hb howns => ha ?_).symm
      rw [List.mem_singleton.mp hb] at howns
      exact ⟨o, (live_eq_some.mp h).1, howns⟩

/-- The second memory is the first with some counts raised and some lowered. -/
structure Shift (up down : ObjId → Nat) (m m' : Memory) : Prop where
  env : m'.env = m.env
  events : m'.events = m.events
  size : m'.objects.length = m.objects.length
  fields : ∀ o, m'.fields o = m.fields o
  count : ∀ o, m'.count o + down o = m.count o + up o
  alive : ∀ o, 0 < down o → down o < m.count o

namespace Shift

variable {up down : ObjId → Nat} {n n' : Memory}

theorem pos (h : m.Shift up down m') (ho : 0 < m.count o) : 0 < m'.count o := by
  have := h.count o
  have := h.alive o
  omega

theorem live (h : m.Shift up down m') {held : Option ObjId} (hl : m.live v = .ok held) : m'.live v = .ok held := by
  cases held with
  | none =>
    rw [live_eq_none, h.env]
    exact live_eq_none.mp hl
  | some o =>
    obtain ⟨henv, hpos⟩ := live_eq_some.mp hl
    exact live_eq_some.mpr ⟨by rw [h.env, henv], h.pos hpos⟩

theorem lives (h : m.Shift up down m') {vs : List Var} {os : List ObjId} (hl : m.lives vs = .ok os) :
    m'.lives vs = .ok os := by
  have hmap : ∀ hs, vs.mapM m.live = .ok hs → vs.mapM m'.live = .ok hs := by
    clear hl
    induction vs with
    | nil => exact fun _ hhs => hhs
    | cons v vs ih =>
      intro hs hhs
      rw [List.mapM_cons] at hhs ⊢
      obtain ⟨held, hheld, hhs⟩ := bind_eq_ok.mp hhs
      obtain ⟨rest, hrest, hhs⟩ := bind_eq_ok.mp hhs
      exact bind_eq_ok.mpr ⟨held, h.live hheld, bind_eq_ok.mpr ⟨rest, ih rest hrest, hhs⟩⟩
  obtain ⟨hs, hhs, hl⟩ := bind_eq_ok.mp hl
  exact bind_eq_ok.mpr ⟨hs, hmap hs hhs, hl⟩

theorem hold (h : m.Shift up down m') (dst : Var) (x : Option ObjId) : (m.hold dst x).Shift up down (m'.hold dst x) :=
  { h with env := by simp only [Memory.hold, h.env] }

theorem emit (h : m.Shift up down m') (e : Event) : (m.emit e).Shift up down (m'.emit e) :=
  { h with events := by simp only [Memory.emit, h.events] }

theorem setCount (h : m.Shift up down m') (ho : o < m.objects.length) {c c' : Nat} (hc : c' + down o = c + up o)
    (ha : 0 < down o → down o < c) : (m.setCount o c).Shift up down (m'.setCount o c') where
  env := h.env
  events := h.events
  size := by simp [h.size]
  fields a := by simp [h.fields]
  count a := by
    rw [count_setCount ho, count_setCount (h.size ▸ ho)]
    split
    · subst a
      exact hc
    · exact h.count a
  alive a hpos := by
    rw [count_setCount ho]
    split
    · subst a
      exact ha hpos
    · exact h.alive a hpos

theorem alloc (h : m.Shift up down m') (fs : List ObjId) : (m.alloc fs).Shift up down (m'.alloc fs) where
  env := h.env
  events := h.events
  size := by simp [Memory.alloc, h.size]
  fields a := by rw [fields_alloc, fields_alloc, h.size, h.fields]
  count a := by
    have := h.count a
    rw [count_alloc, count_alloc, h.size]
    split
    · subst a
      rw [count_eq_zero (Nat.le_refl _), count_eq_zero (Nat.le_of_eq h.size)] at this
      omega
    · exact this
  alive a hpos := by
    have := h.alive a hpos
    rw [count_alloc]
    split
    · subst a
      rw [count_eq_zero (Nat.le_refl _)] at this
      omega
    · exact this

theorem drop {pending : List ObjId} (h : m.Shift up down m') (hd : m.drop pending = .ok n)
    (hpend : ∀ o ∈ pending, ∀ a, m.Owns o a → up a = 0 ∧ down a = 0) :
    ∃ n', m'.drop pending = .ok n' ∧ n.Shift up down n' := by
  fun_induction Memory.drop m pending generalizing m' with
  | case1 m => cases hd; exact ⟨m', by rw [Memory.drop], h⟩
  | case2 m o rest hpos hone ih =>
    obtain ⟨hup, hdown⟩ := hpend o (.head _) o .refl
    have hcount := h.count o
    rw [Memory.drop, dif_pos (by omega), if_pos (by omega), h.fields]
    refine ih ((h.setCount (lt_of_count hpos) (by omega) (by omega)).emit _) hd ?_
    intro b hb a
    rw [Owns.congr (m := m) fun c => by rw [fields_emit, fields_setCount]]
    rcases List.mem_append.mp hb with hb | hb
    · exact fun howns => hpend o (.head _) a (.head hb howns)
    · exact hpend b (.tail _ hb) a
  | case3 m o rest hpos hone ih =>
    obtain ⟨hup, hdown⟩ := hpend o (.head _) o .refl
    have hcount := h.count o
    rw [Memory.drop, dif_pos (by omega), if_neg (by omega)]
    refine ih (h.setCount (lt_of_count hpos) (by omega) (by omega)) hd ?_
    intro b hb a
    rw [Owns.congr (m := m) (fields_setCount m o _)]
    exact hpend b (.tail _ hb) a
  | case4 => cases hd

/-- An instruction does the same to both memories if it touches no object whose counts differ,
or takes one of several references to it. -/
theorem step (h : m.Shift up down m') (hi : m.Step i n)
    (ht : ∀ o, m.Touches o i → (up o = 0 ∧ down o = 0) ∨
      (down o = 0 ∧ 2 ≤ m.count o ∧ ∃ v kind, i = .release v kind ∧ m.env v = some o)) :
    ∃ n', m'.Step i n' ∧ n.Shift up down n' := by
  cases hi with
  | copy htarget hcopy => exact ⟨_, .copy htarget hcopy, by rw [h.env]; exact h.hold _ _⟩
  | literal dst x => exact ⟨_, .literal dst x, h.hold _ _⟩
  | project dst field hl =>
    refine ⟨_, .project dst field (h.live hl), ?_⟩
    simp only [h.fields]
    exact h.hold _ _
  | construct dst hl => exact ⟨_, .construct dst (h.lives hl), by rw [h.size]; exact (h.alloc _).hold _ _⟩
  | call dst callee effect hl => exact ⟨_, .call dst callee effect (h.lives hl), (h.emit _).hold _ _⟩
  | @shared dst v o hl =>
    have hcount := h.count o
    obtain ⟨hup, hdown⟩ | ⟨-, -, v, kind, hrel, -⟩ := ht o (live_eq_some.mp hl).1
    · refine ⟨_, .shared dst (h.live hl), ?_⟩
      rw [show m'.count o = m.count o by omega]
      exact (h.emit _).hold _ _
    · cases hrel
  | unheld dst hv => exact ⟨_, .unheld dst (by rw [h.env, hv]), h.hold _ _⟩
  | @retain v kind o hl =>
    have hcount := h.count o
    have halive := h.alive o
    exact ⟨_, .retain kind (h.live hl), h.setCount (lt_of_count (live_eq_some.mp hl).2) (by omega) (by omega)⟩
  | @release v kind o n hl hd =>
    obtain ⟨henv, hpos⟩ := live_eq_some.mp hl
    rcases ht o ⟨o, henv, .refl⟩ with ⟨hup, hdown⟩ | ⟨hdown, htwo, -⟩
    · have hall : ∀ a, m.Owns o a → up a = 0 ∧ down a = 0 := by
        intro a howns
        rcases ht a ⟨o, henv, howns⟩ with hzero | ⟨-, -, w, kind', hrel, hw⟩
        · exact hzero
        · cases hrel
          obtain rfl := Option.some.inj (henv.symm.trans hw)
          exact ⟨hup, hdown⟩
      obtain ⟨n', hn', hs⟩ := h.drop hd (by simpa using hall)
      exact ⟨n', .release kind (h.live hl) hn', hs⟩
    · have hcount := h.count o
      obtain rfl := Except.ok.inj ((drop_of_two_le htwo).symm.trans hd)
      refine ⟨_, .release kind (h.live hl) (drop_of_two_le (by omega)), ?_⟩
      exact h.setCount (lt_of_count hpos) (by omega) (by omega)
  | idle hcounts hv => exact ⟨m', .idle hcounts (by rw [h.env, hv]), h⟩

end Shift

end Memory

end CountMotion
