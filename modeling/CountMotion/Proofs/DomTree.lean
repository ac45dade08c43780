import Mathlib.Data.List.Basic
import Mathlib.Logic.Relation
import CountMotion.Dominance.Tree
import CountMotion.Proofs.Search
import CountMotion.Proofs.Total

/-! The iteration over reverse postorder ends without a fault in the exact dominator tree. -/
namespace CountMotion

/-- The edges of a graph seen from their ends. -/
def DomTree.Mirrors (preds g : Graph) : Prop := ∀ u v, v < g.size → (u ∈ preds.next v ↔ g.Edge u v)

namespace Links

open DomTree

def Up (t : Links) : Nat → Nat → Prop := Relation.ReflTransGen fun n p => t.parentOf n = some p

/-- A tree under construction over a reverse postorder: links lead to linked nodes ever earlier
in the order, and skip no dominator. -/
structure Rooted (g : Graph) (entry : Nat) (order : List Nat) (t : Links) : Prop where
  size : t.parent.length = g.size
  root : t.parentOf entry = some entry
  up : ∀ n p, t.parentOf n = some p → n ≠ entry →
    n ∈ order ∧ t.reaches p ∧ order.idxOf p < order.idxOf n
  keeps : ∀ n p, t.parentOf n = some p → n ≠ entry → ∀ c, g.Dominates entry c n → c ≠ n →
    g.Dominates entry c p

section Links

variable {g : Graph} {entry : Nat} {order : List Nat} {t : Links} {a b c m n p : Nat}

theorem Up.refl : t.Up n n := Relation.ReflTransGen.refl

theorem Up.trans (h : t.Up a b) (h' : t.Up b c) : t.Up a c := Relation.ReflTransGen.trans h h'

theorem Up.head (h : t.parentOf a = some b) (h' : t.Up b c) : t.Up a c := Relation.ReflTransGen.head h h'

theorem Up.cases (h : t.Up a c) : a = c ∨ ∃ p, t.parentOf a = some p ∧ t.Up p c :=
  Relation.ReflTransGen.cases_head h

theorem ext_parentOf {t' : Links} (hlen : t.parent.length = t'.parent.length)
    (h : ∀ n, t.parentOf n = t'.parentOf n) : t = t' := by
  obtain ⟨parent⟩ := t
  obtain ⟨parent'⟩ := t'
  refine congrArg Links.mk (List.ext_getElem hlen fun n hn hn' => ?_)
  simpa [parentOf, hn, hn'] using h n

theorem reaches_iff : t.reaches n ↔ ∃ p, t.parentOf n = some p := by
  rw [reaches, Option.isSome_iff_exists]

theorem lt_of_reaches (h : t.reaches n) : n < t.parent.length := by
  obtain ⟨p, hp⟩ := reaches_iff.mp h
  exact (List.getElem?_eq_some_iff.mp (Option.join_eq_some_iff.mp hp)).1

namespace Rooted

theorem reaches_entry (h : Rooted g entry order t) : t.reaches entry := reaches_iff.mpr ⟨_, h.root⟩

theorem eq_entry (h : Rooted g entry order t) (hu : t.Up entry a) : a = entry := by
  induction hu with
  | refl => rfl
  | tail _ hl ih => exact Option.some.inj ((ih ▸ hl).symm.trans h.root)

theorem mem_order (h : Rooted g entry order t) (ho : g.SearchOrder entry order) (hn : t.reaches n) :
    n ∈ order := by
  by_cases he : n = entry
  · exact he ▸ ho.entry_mem
  · obtain ⟨p, hp⟩ := reaches_iff.mp hn
    exact (h.up n p hp he).1

theorem idxOf_le (h : Rooted g entry order t) (hu : t.Up a b) : order.idxOf b ≤ order.idxOf a := by
  induction hu using Relation.ReflTransGen.head_induction_on with
  | refl => exact Nat.le_refl _
  | @head a p hl hu ih =>
    by_cases ha : a = entry
    · subst ha
      obtain rfl := Option.some.inj (hl.symm.trans h.root)
      exact ih
    · exact Nat.le_trans ih (Nat.le_of_lt (h.up a p hl ha).2.2)

theorem reaches_of_up (h : Rooted g entry order t) (hu : t.Up a b) (ha : t.reaches a) : t.reaches b := by
  induction hu with
  | refl => exact ha
  | @tail b p _ hl _ =>
    by_cases hb : b = entry
    · subst hb
      obtain rfl := Option.some.inj (hl.symm.trans h.root)
      exact h.reaches_entry
    · exact (h.up b p hl hb).2.1

theorem up_of_dominates (h : Rooted g entry order t) (hn : t.reaches n)
    (hd : g.Dominates entry c n) : t.Up n c := by
  generalize hk : order.idxOf n = k
  induction k using Nat.strongRecOn generalizing n with
  | ind k ih =>
    by_cases hc : c = n
    · exact hc ▸ .refl
    · have he : n ≠ entry := fun he => hc (by rw [he] at hd ⊢; exact hd.eq_entry)
      obtain ⟨p, hp⟩ := reaches_iff.mp hn
      obtain ⟨-, hreach, hlt⟩ := h.up n p hp he
      exact .head hp (ih _ (hk ▸ hlt) hreach (h.keeps n p hp he c hd hc) rfl)

end Rooted

/-- The first node that lies above all the given ones. -/
structure Meets (g : Graph) (entry : Nat) (t : Links) (ns : List Nat) (m : Nat) : Prop where
  reaches : t.reaches m
  above : ∀ n ∈ ns, t.Up n m
  first : ∀ c, (∀ n ∈ ns, t.Up n c) → t.Up m c
  keeps : ∀ c, (∀ n ∈ ns, g.Dominates entry c n) → g.Dominates entry c m

theorem Meets.swap (h : Meets g entry t [a, b] m) : Meets g entry t [b, a] m where
  reaches := h.reaches
  above n hn := h.above n (by simpa [or_comm] using hn)
  first c hc := h.first c fun n hn => hc n (by simpa [or_comm] using hn)
  keeps c hc := h.keeps c fun n hn => hc n (by simpa [or_comm] using hn)

private theorem Meets.of_parent (h : Rooted g entry order t) (ho : g.SearchOrder entry order)
    (hb : t.reaches b) (hp : t.parentOf a = some p) (hlt : order.idxOf b < order.idxOf a)
    (hm : Meets g entry t [p, b] m) : Meets g entry t [a, b] m := by
  have he : a ≠ entry := fun he => by rw [he, ho.idxOf_entry] at hlt; exact Nat.not_lt_zero _ hlt
  refine ⟨hm.reaches, ?_, fun c hc => ?_, fun c hc => ?_⟩
  · rintro n (_ | ⟨_, hn⟩)
    · exact .head hp (hm.above p (.head _))
    · exact hm.above n (.tail _ hn)
  · have hbc := hc b (.tail _ (.head _))
    refine hm.first c ?_
    rintro n (_ | ⟨_, hn⟩)
    · rcases (hc a (.head _)).cases with rfl | ⟨p', hp', hup'⟩
      · exact absurd (h.idxOf_le hbc) (Nat.not_le.mpr hlt)
      · rwa [← Option.some.inj (hp.symm.trans hp')] at hup'
    · exact hc n (.tail _ hn)
  · have hbc := hc b (.tail _ (.head _))
    refine hm.keeps c ?_
    rintro n (_ | ⟨_, hn⟩)
    · refine h.keeps a p hp he c (hc a (.head _)) ?_
      rintro rfl
      exact absurd (ho.idxOf_le_of_dominates (h.mem_order ho hb) hbc) (Nat.not_le.mpr hlt)
    · exact hc n (.tail _ hn)

theorem meet_meets (h : Rooted g entry order t) (ho : g.SearchOrder entry order)
    (ha : t.reaches a) (hb : t.reaches b) :
    ∃ m, t.meet order.idxOf a b = .ok m ∧ Meets g entry t [a, b] m := by
  have raised : ∀ {x y q : Nat}, t.parentOf x = some q → order.idxOf y < order.idxOf x →
      t.reaches q ∧ order.idxOf q < order.idxOf x := by
    intro x y q hq hlt
    have he : x ≠ entry := fun he => by rw [he, ho.idxOf_entry] at hlt; exact Nat.not_lt_zero _ hlt
    exact (h.up x q hq he).2
  fun_induction meet t order.idxOf a b with
  | case1 a =>
    refine ⟨a, rfl, ha, ?_, fun c hc => hc a (.head _), fun c hc => hc a (.head _)⟩
    intro n hn
    obtain rfl : n = a := by simpa using hn
    exact .refl
  | case2 a b hne hle => exact absurd (lt_of_reaches ha) (Nat.not_lt.mpr hle)
  | case3 a b hne _ hle => exact absurd (lt_of_reaches hb) (Nat.not_lt.mpr hle)
  | case4 a b hne _ _ hlt p hp hup ih =>
    obtain ⟨m, hm, hmeet⟩ := ih (raised hp hlt).1 hb
    exact ⟨m, hm, .of_parent h ho hb hp hlt hmeet⟩
  | case5 a b hne _ _ hlt p hp hup => exact absurd (raised hp hlt).2 hup
  | case6 a b hne _ _ hlt hp => simp [reaches, hp] at ha
  | case7 a b hne _ _ _ hlt p hp hup ih =>
    obtain ⟨m, hm, hmeet⟩ := ih ha (raised hp hlt).1
    exact ⟨m, hm, (Meets.of_parent h ho ha hp hlt hmeet.swap).swap⟩
  | case8 a b hne _ _ _ hlt p hp hup => exact absurd (raised hp hlt).2 hup
  | case9 a b hne _ _ _ hlt hp => simp [reaches, hp] at hb
  | case10 a b hne _ _ hle hge =>
    refine absurd ((List.idxOf_inj (h.mem_order ho ha)).mp ?_) hne
    exact Nat.le_antisymm (Nat.not_lt.mp hle) (Nat.not_lt.mp hge)

private theorem Meets.snoc {ns : List Nat} (h : Meets g entry t ns a) (h' : Meets g entry t [b, a] m) :
    Meets g entry t (ns ++ [b]) m := by
  refine ⟨h'.reaches, ?_, fun c hc => ?_, fun c hc => ?_⟩
  · intro n hn
    rcases List.mem_append.mp hn with hn | hn
    · exact (h.above n hn).trans (h'.above a (.tail _ (.head _)))
    · obtain rfl := List.mem_singleton.mp hn
      exact h'.above n (.head _)
  · refine h'.first c ?_
    rintro n (_ | ⟨_, _ | ⟨_, ⟨⟩⟩⟩)
    · exact hc b (by simp)
    · exact h.first c fun n hn => hc n (List.mem_append_left _ hn)
  · refine h'.keeps c ?_
    rintro n (_ | ⟨_, _ | ⟨_, ⟨⟩⟩⟩)
    · exact hc b (by simp)
    · exact h.keeps c fun n hn => hc n (List.mem_append_left _ hn)

/-- The sources that already have a link meet in the join. -/
theorem join_meets (h : Rooted g entry order t) (ho : g.SearchOrder entry order) {sources : List Nat}
    (hin : ∀ s ∈ sources, s < t.parent.length) (hs : ∃ s ∈ sources, t.reaches s) :
    ∃ m, t.join order.idxOf sources = .ok (some m) ∧ Meets g entry t (sources.filter t.reaches) m := by
  obtain ⟨met, he, hmet⟩ : ∃ met, t.join order.idxOf sources = .ok met ∧
      (sources.filter t.reaches = [] ∧ met = none ∨
        ∃ m, met = some m ∧ Meets g entry t (sources.filter t.reaches) m) := by
    refine foldlM_total (l := sources) (fun before met => before.filter t.reaches = [] ∧ met = none ∨
      ∃ m, met = some m ∧ Meets g entry t (before.filter t.reaches) m) (.inl ⟨rfl, rfl⟩) ?_
    intro before s after met hl hmet
    have hlt : s < t.parent.length := hin s (by rw [← hl]; simp)
    have hread : readAt t.parent s = .ok t.parent[s] := readAt_eq_ok.mpr (List.getElem?_eq_getElem hlt)
    have hparent : t.parentOf s = t.parent[s] := by rw [parentOf, List.getElem?_eq_getElem hlt, Option.join_some]
    rw [hread, List.filter_append]
    cases hp : t.parent[s] with
    | none =>
      have hout : ¬ t.reaches s := by simp [reaches, hparent, hp]
      exact ⟨met, rfl, by simpa [hout] using hmet⟩
    | some q =>
      have hr : t.reaches s := by simp [reaches, hparent, hp]
      have hone : [s].filter t.reaches = [s] := by simp [hr]
      rw [hone]
      rcases hmet with ⟨hnil, rfl⟩ | ⟨m, rfl, hm⟩
      · refine ⟨some s, rfl, .inr ⟨s, rfl, hr, ?_, ?_, ?_⟩⟩
        · intro n hn
          obtain rfl : n = s := by simpa [hnil] using hn
          exact .refl
        · exact fun c hc => hc s (by simp)
        · exact fun c hc => hc s (by simp)
      · obtain ⟨m', hm', hmeet⟩ := meet_meets h ho hr hm.reaches
        exact ⟨some m', by simp [bind, Except.bind, hm'], .inr ⟨m', rfl, hm.snoc hmeet⟩⟩
  rcases hmet with ⟨hnil, -⟩ | ⟨m, rfl, hm⟩
  · obtain ⟨s, hmem, hreach⟩ := hs
    exact absurd (List.mem_filter.mpr ⟨hmem, hreach⟩) (by rw [hnil]; exact List.not_mem_nil)
  · exact ⟨m, he, hm⟩

end Links

def link (t : Links) (n p : Nat) : Links := ⟨t.parent.set n (some p)⟩

section Relink

variable {g preds : Graph} {entry : Nat} {order : List Nat} {t : Links} {c n p u x : Nat}

theorem parentOf_link (h : n < t.parent.length) :
    (t.link n p).parentOf x = if x = n then some p else t.parentOf x := by
  simp only [link, parentOf, List.getElem?_set]
  by_cases hx : n = x
  · subst hx
    simp [h]
  · simp [hx, Ne.symm hx]

theorem reaches_link (h : n < t.parent.length) : (t.link n p).reaches x ↔ x = n ∨ t.reaches x := by
  simp only [reaches, parentOf_link h]
  by_cases hx : x = n <;> simp [hx]

theorem Rooted.up_link_iff (h : Rooted g entry order t) (hn : n < t.parent.length)
    (hx : order.idxOf x < order.idxOf n) : (t.link n p).Up x c ↔ t.Up x c := by
  constructor
  · intro hu
    induction hu using Relation.ReflTransGen.head_induction_on with
    | refl => exact .refl
    | @head x q hl hu ih =>
      have hne : x ≠ n := fun he => by rw [he] at hx; exact Nat.lt_irrefl _ hx
      rw [parentOf_link hn, if_neg hne] at hl
      have hle := h.idxOf_le (.head hl .refl)
      exact .head hl (ih (Nat.lt_of_le_of_lt hle hx))
  · intro hu
    induction hu using Relation.ReflTransGen.head_induction_on with
    | refl => exact .refl
    | @head x q hl hu ih =>
      have hne : x ≠ n := fun he => by rw [he] at hx; exact Nat.lt_irrefl _ hx
      have hle := h.idxOf_le (.head hl .refl)
      exact .head (by rw [parentOf_link hn, if_neg hne]; exact hl) (ih (Nat.lt_of_le_of_lt hle hx))

theorem relink_eq_link {pos : Nat → Nat} (hn : n < t.parent.length) (hp : n < preds.size)
    (hj : t.join pos (preds.next n) = .ok (some p)) : relink pos preds t n = .ok (t.link n p) := by
  have hread : readAt preds.succs n = .ok (preds.next n) := readAt_eq_ok.mpr (preds.getElem?_succs hp)
  rw [relink, hread]
  simp only [bind, Except.bind, hj, writeAt, if_pos hn]
  rfl

/-- Linking a node to where its sources meet keeps the tree rooted. -/
theorem Rooted.link (h : Rooted g entry order t) (ho : g.SearchOrder entry order) (hg : Mirrors preds g)
    (hn : n ∈ order) (he : n ≠ entry) (hm : Meets g entry t ((preds.next n).filter t.reaches) p)
    (hf : ∃ u ∈ preds.next n, t.reaches u ∧ order.idxOf u < order.idxOf n) :
    Rooted g entry order (t.link n p) ∧ order.idxOf p < order.idxOf n := by
  have hsize : n < t.parent.length := h.size ▸ ho.inside n hn
  have hlt : order.idxOf p < order.idxOf n := by
    obtain ⟨u, hu, hr, hlt⟩ := hf
    exact Nat.lt_of_le_of_lt (h.idxOf_le (hm.above u (List.mem_filter.mpr ⟨hu, hr⟩))) hlt
  refine ⟨⟨?_, ?_, ?_, ?_⟩, hlt⟩
  · simpa [Links.link] using h.size
  · rw [parentOf_link hsize, if_neg (Ne.symm he)]
    exact h.root
  · intro x q hq hx
    rw [parentOf_link hsize] at hq
    by_cases hxn : x = n
    · rw [if_pos hxn] at hq
      obtain rfl := Option.some.inj hq
      subst hxn
      exact ⟨hn, (reaches_link hsize).mpr (.inr hm.reaches), hlt⟩
    · rw [if_neg hxn] at hq
      obtain ⟨hxo, hr, hlt'⟩ := h.up x q hq hx
      exact ⟨hxo, (reaches_link hsize).mpr (.inr hr), hlt'⟩
  · intro x q hq hx c hc hcx
    rw [parentOf_link hsize] at hq
    by_cases hxn : x = n
    · rw [if_pos hxn] at hq
      obtain rfl := Option.some.inj hq
      subst hxn
      refine hm.keeps c fun u hu => ?_
      exact hc.of_edge hcx ((hg u x (ho.inside x hn)).mp (List.mem_filter.mp hu).1)
    · rw [if_neg hxn] at hq
      exact h.keeps x q hq hx c hc hcx

/-- How the parent of a node stands to the links of its sources: below what they all have in
common, and above each source that comes earlier. -/
structure Placed (preds : Graph) (order : List Nat) (t : Links) (n : Nat) : Prop where
  earlier : ∀ p, t.parentOf n = some p → ∀ u ∈ preds.next n, t.reaches u →
    order.idxOf u < order.idxOf n → t.Up u p
  below : ∀ p, t.parentOf n = some p → ∀ c, (∀ u ∈ preds.next n, t.reaches u → t.Up u c) → t.Up p c

theorem reaches_of_link (hn : n < t.parent.length) (hr : (t.link n p).reaches x)
    (hx : order.idxOf x < order.idxOf n) : t.reaches x := by
  refine ((reaches_link hn).mp hr).resolve_left fun he => ?_
  rw [he] at hx
  exact Nat.lt_irrefl _ hx

/-- A node that is linked higher up has nothing above it that it did not have. -/
theorem up_of_link {q : Nat} (hn : n < t.parent.length) (hq : t.parentOf n = some q) (hp : t.Up q p)
    (hu : (t.link n p).Up x c) : t.Up x c := by
  induction hu with
  | refl => exact .refl
  | @tail b d _ hl ih =>
    rw [parentOf_link hn] at hl
    by_cases hb : b = n
    · rw [if_pos hb] at hl
      obtain rfl := Option.some.inj hl
      exact ih.trans (.head (hb ▸ hq) hp)
    · rw [if_neg hb] at hl
      exact ih.trans (.head hl .refl)

theorem Placed.link (h : Rooted g entry order t) (hn : n < t.parent.length)
    (hm : Meets g entry t ((preds.next n).filter t.reaches) p) (hlt : order.idxOf p < order.idxOf n)
    (hup : ∀ v c, t.reaches v → (t.link n p).Up v c → t.Up v c) : Placed preds order (t.link n p) n := by
  have linked : (t.link n p).parentOf n = some p := by rw [parentOf_link hn, if_pos rfl]
  refine ⟨fun q hq v hv hr hvn => ?_, fun q hq c hc => ?_⟩ <;> obtain rfl := Option.some.inj (linked.symm.trans hq)
  · exact (h.up_link_iff hn hvn).mpr (hm.above v (List.mem_filter.mpr ⟨hv, reaches_of_link hn hr hvn⟩))
  · refine (h.up_link_iff hn hlt).mpr (hm.first c fun v hv => ?_)
    obtain ⟨hv, hr⟩ := List.mem_filter.mp hv
    exact hup v c hr (hc v hv ((reaches_link hn).mpr (.inr hr)))

theorem Placed.of_link (hx : Placed preds order t x) (h : Rooted g entry order t) (hn : n < t.parent.length)
    (hlt : order.idxOf x < order.idxOf n) (hup : ∀ v c, t.reaches v → (t.link n p).Up v c → t.Up v c) :
    Placed preds order (t.link n p) x := by
  have hne : x ≠ n := fun he => by rw [he] at hlt; exact Nat.lt_irrefl _ hlt
  have hparent : (t.link n p).parentOf x = t.parentOf x := by rw [parentOf_link hn, if_neg hne]
  refine ⟨fun q hq v hv hr hvx => ?_, fun q hq c hc => ?_⟩ <;> rw [hparent] at hq
  · have hvn := Nat.lt_trans hvx hlt
    exact (h.up_link_iff hn hvn).mpr (hx.earlier q hq v hv (reaches_of_link hn hr hvn) hvx)
  · have hle := h.idxOf_le (.head hq .refl)
    refine (h.up_link_iff hn (Nat.lt_of_le_of_lt hle hlt)).mpr (hx.below q hq c fun v hv hr => ?_)
    exact hup v c hr (hc v hv ((reaches_link hn).mpr (.inr hr)))

end Relink

section Sweeps

variable {g preds : Graph} {entry : Nat} {nodes : List Nat} {t start : Links}

theorem parentOf_bare {size entry x : Nat} (h : entry < size) :
    (bare size entry).parentOf x = if x = entry then some entry else none := by
  simp only [bare, parentOf, List.getElem?_set, List.length_replicate, List.getElem?_replicate]
  by_cases hx : entry = x
  · subst hx
    simp [h]
  · simp only [hx, Ne.symm hx, if_false]
    split <;> rfl

theorem rooted_bare {order : List Nat} (h : entry < g.size) : Rooted g entry order (bare g.size entry) := by
  refine ⟨by simp [bare], by simp [parentOf_bare h], ?_, ?_⟩
  · intro n p hp hn
    simp [parentOf_bare h, hn] at hp
  · intro n p hp hn
    simp [parentOf_bare h, hn] at hp

/-- All reachable nodes are linked and stand well. -/
structure Good (g preds : Graph) (entry : Nat) (order : List Nat) (t : Links) : Prop where
  rooted : Rooted g entry order t
  full : ∀ n, t.reaches n ↔ n ∈ order
  placed : ∀ n ∈ order, n ≠ entry → Placed preds order t n

private theorem earlier_source {order : List Nat} {n : Nat} (ho : g.SearchOrder entry order)
    (hg : Mirrors preds g) (hn : n ∈ order) (he : n ≠ entry) :
    ∃ u ∈ preds.next n, u ∈ order ∧ order.idxOf u < order.idxOf n := by
  obtain ⟨m, hm, hlt⟩ := (ho.entered n hn).resolve_left he
  have hmo : m ∈ order := List.idxOf_lt_length_iff.mp (Nat.lt_trans hlt (List.idxOf_lt_length_of_mem hn))
  exact ⟨m, (hg m n (ho.inside n hn)).mpr hm, hmo, hlt⟩

/-- A node whose earlier sources are linked is linked to where its sources meet. -/
theorem exists_link {order : List Nat} {n : Nat} (ho : g.SearchOrder entry order) (hg : Mirrors preds g)
    (h : Rooted g entry order t) (hn : n ∈ order) (he : n ≠ entry)
    (hearlier : ∀ u ∈ order, order.idxOf u < order.idxOf n → t.reaches u) :
    ∃ p, relink order.idxOf preds t n = .ok (t.link n p) ∧ Rooted g entry order (t.link n p) ∧
      order.idxOf p < order.idxOf n ∧ Meets g entry t ((preds.next n).filter t.reaches) p := by
  have hsize : n < t.parent.length := h.size ▸ ho.inside n hn
  obtain ⟨u, hu, huo, hlt⟩ := earlier_source ho hg hn he
  have hur : t.reaches u := hearlier u huo hlt
  have hin : ∀ s ∈ preds.next n, s < t.parent.length := fun s hs =>
    h.size ▸ ((hg s n (ho.inside n hn)).mp hs).lt_size
  obtain ⟨p, hp, hmeet⟩ := join_meets h ho hin ⟨u, hu, hur⟩
  obtain ⟨hroot, hplt⟩ := h.link ho hg hn he hmeet ⟨u, hu, hur, hlt⟩
  exact ⟨p, relink_eq_link hsize (Graph.lt_size_of_mem_next hu) hp, hroot, hplt, hmeet⟩

private theorem idxOf_lt_iff_before {before after : List Nat} {n : Nat} (ho : g.SearchOrder entry (entry :: nodes))
    (hl : before ++ n :: after = nodes) (x : Nat) :
    (entry :: nodes).idxOf x < (entry :: nodes).idxOf n ↔ x ∈ entry :: before := by
  have hnodup : ((entry :: before) ++ n :: after).Nodup := by simpa [hl] using ho.nodup
  simpa [hl] using Graph.idxOf_lt_iff_mem (x := x) hnodup

/-- The first pass links every node of the order once. -/
theorem first_sweep (ho : g.SearchOrder entry (entry :: nodes)) (hg : Mirrors preds g) :
    ∃ t, (bare g.size entry).sweep (entry :: nodes).idxOf preds nodes = .ok t ∧
      Good g preds entry (entry :: nodes) t := by
  have hentry : entry < g.size := ho.inside entry (.head nodes)
  have hfirst : entry ∉ nodes := (List.nodup_cons.mp ho.nodup).1
  obtain ⟨t, ht, hroot, hfull, hplaced⟩ := foldlM_total (l := nodes) (b := bare g.size entry)
    (f := relink (entry :: nodes).idxOf preds)
    (fun before t => Rooted g entry (entry :: nodes) t ∧ (∀ n, t.reaches n ↔ n ∈ entry :: before) ∧
      ∀ n ∈ before, Placed preds (entry :: nodes) t n)
    ⟨rooted_bare hentry, by simp [reaches, parentOf_bare hentry, apply_ite], by simp⟩ (by
      rintro before n after t hl ⟨hroot, hfull, hplaced⟩
      have hmem : n ∈ nodes := by rw [← hl]; simp
      have he : n ≠ entry := fun he => hfirst (he ▸ hmem)
      have hsize : n < t.parent.length := hroot.size ▸ ho.inside n (.tail _ hmem)
      have hbefore := idxOf_lt_iff_before ho hl
      obtain ⟨p, hrelink, hroot', hplt, hmeet⟩ := exists_link ho hg hroot (.tail _ hmem) he fun u _ hlt =>
        (hfull u).mpr ((hbefore u).mp hlt)
      have hup : ∀ v c, t.reaches v → (t.link n p).Up v c → t.Up v c := fun v c hr =>
        (hroot.up_link_iff hsize ((hbefore v).mpr ((hfull v).mp hr))).mp
      refine ⟨t.link n p, hrelink, hroot', fun x => ?_, fun x hx => ?_⟩
      · rw [reaches_link hsize, hfull]
        simp only [List.mem_cons, List.mem_append, List.mem_nil_iff, or_false]
        tauto
      · rcases List.mem_append.mp hx with hx | hx
        · exact (hplaced x hx).of_link hroot hsize ((hbefore x).mpr (.tail _ hx)) hup
        · obtain rfl := List.mem_singleton.mp hx
          exact .link hroot hsize hmeet hplt hup)
  refine ⟨t, ht, hroot, hfull, fun n hn he => hplaced n ?_⟩
  exact (List.mem_cons.mp hn).resolve_left he

/-- What a later pass has done, from the tree at its start, once the nodes before a point are linked
anew. -/
structure Sweeping (g preds : Graph) (entry : Nat) (order : List Nat) (start : Links)
    (before : List Nat) (t : Links) : Prop where
  rooted : Rooted g entry order t
  full : ∀ n, t.reaches n ↔ n ∈ order
  same : ∀ n, n ∉ before → t.parentOf n = start.parentOf n
  shrunk : ∀ x c, t.Up x c → start.Up x c
  placed : ∀ n ∈ before, Placed preds order t n
  /-- What is left above a node is left above all that was above it. -/
  kept : ∀ n ∈ entry :: before, ∀ b a, start.Up n b → t.Up n a → order.idxOf a ≤ order.idxOf b → t.Up b a
  falls : ∀ n ∈ before, ∀ p q, t.parentOf n = some p → start.parentOf n = some q →
    order.idxOf p ≤ order.idxOf q
  joins : ∀ n ∈ before, ∀ p, t.parentOf n = some p → ∀ u ∈ preds.next n, u ∈ order → start.Up u p

private theorem Sweeping.step {before after : List Nat} {n : Nat}
    (ho : g.SearchOrder entry (entry :: nodes)) (hg : Mirrors preds g)
    (hgood : Good g preds entry (entry :: nodes) start) (hl : before ++ n :: after = nodes)
    (h : Sweeping g preds entry (entry :: nodes) start before t) :
    ∃ t', relink (entry :: nodes).idxOf preds t n = .ok t' ∧
      Sweeping g preds entry (entry :: nodes) start (before ++ [n]) t' := by
  have hmem : n ∈ nodes := by rw [← hl]; simp
  have hn : n ∈ entry :: nodes := .tail _ hmem
  have he : n ≠ entry := fun he => (List.nodup_cons.mp ho.nodup).1 (he ▸ hmem)
  have hsize : n < t.parent.length := h.rooted.size ▸ ho.inside n hn
  have hbefore := idxOf_lt_iff_before ho hl
  have hnb : n ∉ before := fun hb => Nat.lt_irrefl _ ((hbefore n).mpr (.tail _ hb))
  obtain ⟨p, hrelink, hroot', hplt, hmeet⟩ := exists_link ho hg h.rooted hn he fun u hu _ => (h.full u).mpr hu
  obtain ⟨u, hu, huo, hlt⟩ := earlier_source ho hg hn he
  have same : ∀ {x c}, (entry :: nodes).idxOf x < (entry :: nodes).idxOf n →
      ((t.link n p).Up x c ↔ t.Up x c) := fun hx => h.rooted.up_link_iff hsize hx
  have above : ∀ v ∈ preds.next n, v ∈ entry :: nodes → t.Up v p := fun v hv hvo =>
    hmeet.above v (List.mem_filter.mpr ⟨hv, (h.full v).mpr hvo⟩)
  obtain ⟨q, hq⟩ := reaches_iff.mp ((hgood.full n).mpr hn)
  have hqt : t.parentOf n = some q := (h.same n hnb).trans hq
  have huq : start.Up u q := (hgood.placed n hn he).earlier q hq u hu ((hgood.full u).mpr huo) hlt
  have hqp : start.Up q p := (hgood.placed n hn he).below q hq p fun v hv hr =>
    h.shrunk v p (above v hv ((hgood.full v).mp hr))
  have hpq : (entry :: nodes).idxOf p ≤ (entry :: nodes).idxOf q := hgood.rooted.idxOf_le hqp
  have hup : t.Up q p := h.kept u ((hbefore u).mp hlt) q p huq (above u hu huo) hpq
  have shrunk : ∀ x c, (t.link n p).Up x c → t.Up x c := fun x c => up_of_link hsize hqt hup
  have full : ∀ x, (t.link n p).reaches x ↔ x ∈ entry :: nodes := by
    intro x
    rw [reaches_link hsize, h.full]
    exact ⟨fun hx => hx.elim (fun hx => hx ▸ hn) id, .inr⟩
  have linked : (t.link n p).parentOf n = some p := by rw [parentOf_link hsize, if_pos rfl]
  have hqn : (entry :: nodes).idxOf q < (entry :: nodes).idxOf n := (hgood.rooted.up n q hq he).2.2
  -- a node linked anew is the last one, or one of the earlier ones, whose parent has not changed
  have cases : ∀ x ∈ before ++ [n], x = n ∨ x ∈ before ∧ (entry :: nodes).idxOf x < (entry :: nodes).idxOf n ∧
      (t.link n p).parentOf x = t.parentOf x := by
    intro x hx
    rcases List.mem_append.mp hx with hx | hx
    · have hxn : x ≠ n := fun hxn => hnb (hxn ▸ hx)
      exact .inr ⟨hx, (hbefore x).mpr (.tail _ hx), by rw [parentOf_link hsize, if_neg hxn]⟩
    · exact .inl (List.mem_singleton.mp hx)
  refine ⟨t.link n p, hrelink, hroot', full, ?_, ?_, ?_, ?_, ?_, ?_⟩
  · intro x hx
    have hxn : x ≠ n := fun hxn => hx (by simp [hxn])
    rw [parentOf_link hsize, if_neg hxn]
    exact h.same x fun hb => hx (List.mem_append_left _ hb)
  · exact fun x c hu => h.shrunk x c (shrunk x c hu)
  · intro x hx
    rcases cases x hx with rfl | ⟨hxb, hxn, -⟩
    · exact .link h.rooted hsize hmeet hplt fun v c _ => shrunk v c
    · exact (h.placed x hxb).of_link h.rooted hsize hxn fun v c _ => shrunk v c
  · intro x hx b a hb ha hle
    by_cases hxn : x = n
    · subst hxn
      rcases hb.cases with rfl | ⟨q', hq', hb⟩
      · exact ha
      · obtain rfl := Option.some.inj (hq.symm.trans hq')
        have hbn := Nat.lt_of_le_of_lt (hgood.rooted.idxOf_le hb) hqn
        rcases ha.cases with rfl | ⟨p', hp', ha⟩
        · exact absurd hle (Nat.not_le.mpr hbn)
        · obtain rfl := Option.some.inj (linked.symm.trans hp')
          have hua : t.Up u a := (above u hu huo).trans ((same hplt).mp ha)
          exact (same hbn).mpr (h.kept u ((hbefore u).mp hlt) b a (huq.trans hb) hua hle)
    · have hxb : x ∈ entry :: before := by simpa [hxn] using hx
      have hxlt := (hbefore x).mpr hxb
      have hblt := Nat.lt_of_le_of_lt (hgood.rooted.idxOf_le hb) hxlt
      exact (same hblt).mpr (h.kept x hxb b a hb ((same hxlt).mp ha) hle)
  · intro x hx p' q' hp' hq'
    rcases cases x hx with rfl | ⟨hxb, -, hpar⟩
    · obtain rfl := Option.some.inj (linked.symm.trans hp')
      obtain rfl := Option.some.inj (hq.symm.trans hq')
      exact hpq
    · exact h.falls x hxb p' q' (hpar ▸ hp') hq'
  · intro x hx p' hp' v hv hvo
    rcases cases x hx with rfl | ⟨hxb, -, hpar⟩
    · obtain rfl := Option.some.inj (linked.symm.trans hp')
      exact h.shrunk v p (above v hv hvo)
    · exact h.joins x hxb p' (hpar ▸ hp') v hv hvo

theorem later_sweep (ho : g.SearchOrder entry (entry :: nodes)) (hg : Mirrors preds g)
    (hgood : Good g preds entry (entry :: nodes) start) :
    ∃ t, start.sweep (entry :: nodes).idxOf preds nodes = .ok t ∧
      Sweeping g preds entry (entry :: nodes) start nodes t := by
  refine foldlM_total (Sweeping g preds entry (entry :: nodes) start) ?_
    fun before n after t hl h => h.step ho hg hgood hl
  refine ⟨hgood.rooted, hgood.full, fun _ _ => rfl, fun _ _ h => h, by simp, ?_, by simp, by simp⟩
  intro n hn b a hb ha hle
  obtain rfl : n = entry := by simpa using hn
  obtain rfl := hgood.rooted.eq_entry hb
  exact ha

theorem Sweeping.good (h : Sweeping g preds entry (entry :: nodes) start nodes t) :
    Good g preds entry (entry :: nodes) t :=
  ⟨h.rooted, h.full, fun n hn he => h.placed n ((List.mem_cons.mp hn).resolve_left he)⟩

theorem Good.rank_lt_bare {n : Nat} (h : Good g preds entry (entry :: nodes) t)
    (ho : g.SearchOrder entry (entry :: nodes)) (hn : n ∈ nodes) :
    t.rank (entry :: nodes).idxOf < (bare g.size entry).rank (entry :: nodes).idxOf := by
  have hentry : entry < g.size := ho.inside entry (.head nodes)
  have hlen : (bare g.size entry).parent.length = g.size := by simp [bare]
  have linked : ∀ m p, t.parentOf m = some p → (entry :: nodes).idxOf p < g.size := by
    intro m p hp
    have hm : t.reaches m := reaches_iff.mpr ⟨p, hp⟩
    exact ho.idxOf_lt_size (h.rooted.mem_order ho (h.rooted.reaches_of_up (.head hp .refl) hm))
  rw [rank, rank, h.rooted.size, hlen]
  refine tally_lt_tally (fun m _ => ?_) (List.mem_range.mpr (ho.inside n (.tail _ hn))) ?_
  · by_cases hm : m = entry
    · subst hm
      simp [parentPos, h.rooted.root, parentOf_bare hentry]
    · rw [parentPos, parentPos, parentOf_bare hentry, if_neg hm, hlen]
      cases hp : t.parentOf m with
      | none => exact Nat.le_of_eq h.rooted.size
      | some p => exact Nat.le_of_lt (linked m p hp)
  · obtain ⟨p, hp⟩ := reaches_iff.mp ((h.full n).mpr (.tail _ hn))
    have he : n ≠ entry := fun he => (List.nodup_cons.mp ho.nodup).1 (he ▸ hn)
    rw [parentPos, parentPos, parentOf_bare hentry, if_neg he, hlen, hp]
    exact linked n p hp

/-- A pass that does not lower the rank changes nothing. -/
theorem Sweeping.still (ho : g.SearchOrder entry (entry :: nodes))
    (hgood : Good g preds entry (entry :: nodes) start)
    (h : Sweeping g preds entry (entry :: nodes) start nodes t)
    (hr : ¬ t.rank (entry :: nodes).idxOf < start.rank (entry :: nodes).idxOf) : t = start := by
  have hlen : t.parent.length = start.parent.length := h.rooted.size.trans hgood.rooted.size.symm
  have linked : ∀ n ∈ nodes, ∃ p q, t.parentOf n = some p ∧ start.parentOf n = some q ∧
      (entry :: nodes).idxOf p ≤ (entry :: nodes).idxOf q := by
    intro n hn
    obtain ⟨p, hp⟩ := reaches_iff.mp ((h.full n).mpr (.tail _ hn))
    obtain ⟨q, hq⟩ := reaches_iff.mp ((hgood.full n).mpr (.tail _ hn))
    exact ⟨p, q, hp, hq, h.falls n hn p q hp hq⟩
  have fall : ∀ n, t.parentPos (entry :: nodes).idxOf n ≤ start.parentPos (entry :: nodes).idxOf n := by
    intro n
    by_cases hn : n ∈ nodes
    · obtain ⟨p, q, hp, hq, hle⟩ := linked n hn
      simpa [parentPos, hp, hq] using hle
    · simp [parentPos, h.same n hn, hlen]
  have equal : ∀ n ∈ nodes, t.parentOf n = start.parentOf n := by
    intro n hn
    obtain ⟨p, q, hp, hq, hle⟩ := linked n hn
    have hno : ¬ (entry :: nodes).idxOf p < (entry :: nodes).idxOf q := by
      intro hlt
      refine hr ?_
      rw [rank, rank, hlen]
      refine tally_lt_tally (a := n) (fun n _ => fall n) ?_ (by simpa [parentPos, hp, hq] using hlt)
      rw [List.mem_range, hgood.rooted.size]
      exact ho.inside n (.tail _ hn)
    have hpo : p ∈ entry :: nodes :=
      h.rooted.mem_order ho (h.rooted.reaches_of_up (.head hp .refl) ((h.full n).mpr (.tail _ hn)))
    rw [hp, hq, (List.idxOf_inj hpo).mp (Nat.le_antisymm hle (Nat.not_lt.mp hno))]
  refine ext_parentOf hlen fun n => ?_
  by_cases hn : n ∈ nodes
  · exact equal n hn
  · exact h.same n hn

theorem Sweeping.fixed (h : Sweeping g preds entry (entry :: nodes) t nodes t) :
    ∀ n p, n ≠ entry → t.parentOf n = some p → ∀ u ∈ preds.next n, u ∈ entry :: nodes → t.Up u p := by
  intro n p he hp u hu huo
  have hn : n ∈ nodes := (List.mem_cons.mp (h.rooted.up n p hp he).1).resolve_left he
  exact h.joins n hn p hp u hu huo

/-- A finished tree: every link is above all sources of its node. -/
structure Finished (g preds : Graph) (entry : Nat) (order : List Nat) (t : Links) : Prop where
  rooted : Rooted g entry order t
  full : ∀ n, t.reaches n ↔ n ∈ order
  above : ∀ n p, n ≠ entry → t.parentOf n = some p → ∀ u ∈ preds.next n, u ∈ order → t.Up u p

theorem settle_of_still {pos : Nat → Nat} (h : t.sweep pos preds nodes = .ok t) :
    t.settle pos preds nodes = .ok t := by
  rw [settle, h]
  exact if_pos rfl

theorem settle_of_lt {pos : Nat → Nat} (h : start.sweep pos preds nodes = .ok t)
    (hr : t.rank pos < start.rank pos) : start.settle pos preds nodes = t.settle pos preds nodes := by
  have hne : t ≠ start := fun he => Nat.lt_irrefl _ (he ▸ hr)
  rw [settle, h]
  exact (if_neg hne).trans (dif_pos hr)

theorem settle_finishes (ho : g.SearchOrder entry (entry :: nodes)) (hg : Mirrors preds g)
    (hgood : Good g preds entry (entry :: nodes) start) :
    ∃ t, start.settle (entry :: nodes).idxOf preds nodes = .ok t ∧
      Finished g preds entry (entry :: nodes) t := by
  generalize hk : start.rank (entry :: nodes).idxOf = k
  induction k using Nat.strongRecOn generalizing start with
  | ind k ih =>
    obtain ⟨t, ht, hs⟩ := later_sweep ho hg hgood
    by_cases hr : t.rank (entry :: nodes).idxOf < start.rank (entry :: nodes).idxOf
    · obtain ⟨last, hlast, hfin⟩ := ih _ (hk ▸ hr) hs.good rfl
      exact ⟨last, (settle_of_lt ht hr).trans hlast, hfin⟩
    · obtain rfl := hs.still ho hgood hr
      exact ⟨t, settle_of_still ht, hs.rooted, hs.full, hs.fixed⟩

end Sweeps

section Above

variable {g preds : Graph} {entry : Nat} {order : List Nat} {t : Links} {a b n : Nat}

/-- All that lies above a node is on every path to it. -/
theorem Finished.dominates_of_up (h : Finished g preds entry order t) (ho : g.SearchOrder entry order)
    (hg : Mirrors preds g) (hu : t.Up n a) : g.Dominates entry a n := by
  intro hpath
  suffices passed : ∀ n, g.Path (· ≠ a) entry n → ¬ t.Up n a from passed n hpath hu
  intro n hpath
  induction hpath with
  | here hne => exact fun hu => hne (h.rooted.eq_entry hu).symm
  | @snoc m n hm he hne ih =>
    intro hu
    by_cases hn : n = entry
    · subst hn
      exact hne (h.rooted.eq_entry hu).symm
    · rcases hu.cases with rfl | ⟨p, hp, hu⟩
      · exact hne rfl
      · have hmo : m ∈ order := (ho.mem_iff m).mpr hm.reaches
        exact ih ((h.above n p hn hp m ((hg m n he.2).mpr he) hmo).trans hu)

theorem Finished.up_iff (h : Finished g preds entry order t) (ho : g.SearchOrder entry order)
    (hg : Mirrors preds g) (hn : n ∈ order) : t.Up n a ↔ g.Dominates entry a n :=
  ⟨h.dominates_of_up ho hg, h.rooted.up_of_dominates ((h.full n).mpr hn)⟩

end Above

end Links

namespace DomTree

open Links

section Exact

variable {g preds : Graph} {entry : Nat} {order : List Nat} {t : DomTree} {a b n : Nat}

private theorem mem_climb_iff (h : Rooted g entry order t.toLinks) (ho : g.SearchOrder entry order)
    (fuel : Nat) (hn : t.reaches n) (hf : order.idxOf n ≤ fuel) : a ∈ climb t.above fuel n ↔ t.Up n a := by
  induction fuel generalizing n with
  | zero =>
    have he : n = entry := by
      refine (List.idxOf_inj (h.mem_order ho hn)).mp ?_
      rw [ho.idxOf_entry]
      exact Nat.le_zero.mp hf
    subst he
    rw [climb, List.mem_singleton]
    exact ⟨fun ha => ha ▸ .refl, fun hu => h.eq_entry hu⟩
  | succ fuel ih =>
    obtain ⟨p, hp⟩ := reaches_iff.mp hn
    rw [climb, List.mem_cons]
    by_cases he : n = entry
    · subst he
      have hnone : t.above n = none := by simp [above, h.root]
      simp only [hnone, List.not_mem_nil, or_false]
      exact ⟨fun ha => ha ▸ .refl, fun hu => h.eq_entry hu⟩
    · obtain ⟨-, hpr, hlt⟩ := h.up n p hp he
      have hne : p ≠ n := fun hpn => by rw [hpn] at hlt; exact Nat.lt_irrefl _ hlt
      have hsome : t.above n = some p := by simp [above, hp, hne]
      simp only [hsome]
      rw [ih hpr (by omega)]
      constructor
      · rintro (rfl | hu)
        · exact .refl
        · exact .head hp hu
      · intro hu
        rcases hu.cases with rfl | ⟨q, hq, hu⟩
        · exact .inl rfl
        · rw [← Option.some.inj (hp.symm.trans hq)] at hu
          exact .inr hu

private theorem map_climb_up (fuel : Nat) (x : Fin t.parent.length) :
    (climb t.up fuel x).map Fin.val = climb t.above fuel x := by
  induction fuel generalizing x with
  | zero => rfl
  | succ fuel ih =>
    have hup : t.above x = (t.up x).map Fin.val := by
      rw [above, parentOf, List.getElem?_eq_getElem x.isLt, Option.join_some, up]
      split
      · next p hp =>
        rw [List.get_eq_getElem] at hp
        by_cases hpx : p = x <;> simp [hp, hpx]
      · next hp =>
        rw [List.get_eq_getElem] at hp
        simp [hp]
    rw [climb, climb, List.map_cons, hup]
    cases t.up x with
    | none => rfl
    | some y => simp [ih]

theorem chain_eq_climb : t.chain n = climb t.above t.parent.length n := by
  rw [chain]
  split
  · exact map_climb_up _ _
  · next hn =>
    have habove : t.above n = none := by
      rw [above, parentOf, List.getElem?_eq_none (Nat.not_lt.mp hn)]
      rfl
    cases t.parent.length with
    | zero => rfl
    | succ k => rw [climb, habove]

theorem mem_climb_iff_dominates : a ∈ climb t.above t.parent.length b ↔ t.dominates a b := by
  rw [dominates, List.contains_iff_mem, chain_eq_climb]

/-- Dominance as read off a dominator tree: the node itself and, if it is reachable, what every path passes. -/
structure Exact (g : Graph) (entry : Nat) (t : DomTree) : Prop where
  size : t.parent.length = g.size
  reaches_iff : ∀ n, t.reaches n ↔ g.Reaches entry n
  dominates_iff : ∀ a b, t.dominates a b ↔ a = b ∨ g.Reaches entry b ∧ g.Dominates entry a b

theorem exact_of_finished (h : Finished g preds entry order t.toLinks) (ho : g.SearchOrder entry order)
    (hg : Mirrors preds g) : Exact g entry t := by
  have hreach : ∀ n, t.reaches n ↔ g.Reaches entry n := fun n => (h.full n).trans (ho.mem_iff n)
  refine ⟨h.rooted.size, hreach, fun a b => ?_⟩
  rw [dominates, List.contains_iff_mem, chain_eq_climb]
  by_cases hb : t.reaches b
  · have hbo : b ∈ order := (h.full b).mp hb
    have hlen : order.idxOf b ≤ t.parent.length := by
      rw [h.rooted.size]
      exact Nat.le_of_lt (ho.idxOf_lt_size hbo)
    rw [mem_climb_iff h.rooted ho _ hb hlen, h.up_iff ho hg hbo]
    constructor
    · exact fun hd => .inr ⟨(hreach b).mp hb, hd⟩
    · rintro (rfl | ⟨-, hd⟩)
      · exact .refl g entry a
      · exact hd
  · have hnone : t.parentOf b = none := by simpa [reaches] using hb
    have hmem : a ∈ climb t.above t.parent.length b ↔ a = b := by
      cases t.parent.length with
      | zero => simp [climb]
      | succ k =>
        have hnone : t.above b = none := by simp [DomTree.above, hnone]
        simp [climb, hnone]
    rw [hmem]
    exact ⟨.inl, fun ha => ha.resolve_right fun hd => hb ((hreach b).mpr hd.1)⟩

theorem Exact.trans (h : Exact g entry t) (hab : t.dominates a b) (hbn : t.dominates b n) : t.dominates a n := by
  rw [h.dominates_iff] at hab hbn ⊢
  rcases hab with rfl | ⟨hb, hab⟩
  · exact hbn
  · rcases hbn with rfl | ⟨hr, hbn⟩
    · exact .inr ⟨hb, hab⟩
    · exact .inr ⟨hr, hab.trans hbn⟩

/-- A node found as common dominator of all, two by two, dominates each of them. -/
theorem Exact.dominates_of_folded (h : Exact g entry t) {common : Nat → Nat → Option Nat}
    (hcommon : ∀ {a b c}, common a b = some c → t.dominates c a ∧ t.dominates c b) {first target : Nat}
    {rest : List Nat} (hc : rest.foldlM common first = some target) : ∀ b ∈ first :: rest, t.dominates target b := by
  induction rest generalizing first with
  | nil =>
    obtain rfl := Option.some.inj hc
    intro b hb
    rw [List.mem_singleton.mp hb, h.dominates_iff]
    exact .inl rfl
  | cons next rest ih =>
    rw [List.foldlM_cons, Option.bind_eq_bind, Option.bind_eq_some_iff] at hc
    obtain ⟨met, hmet, hc⟩ := hc
    have hall := ih hc
    obtain ⟨hfirst, hnext⟩ := hcommon hmet
    intro b hb
    rcases List.mem_cons.mp hb with rfl | hb
    · exact h.trans (hall met (.head _)) hfirst
    · rcases List.mem_cons.mp hb with rfl | hb
      · exact h.trans (hall met (.head _)) hnext
      · exact hall b (.tail _ hb)

theorem Exact.dominates_of_common (h : Exact g entry t) {first target : Nat} {rest : List Nat}
    (hc : rest.foldlM t.common first = some target) : ∀ b ∈ first :: rest, t.dominates target b :=
  h.dominates_of_folded (fun {_ b _} hmet => ⟨mem_climb_iff_dominates.mp (List.mem_of_find?_eq_some hmet),
    List.find?_some (p := fun c => t.dominates c b) hmet⟩) hc

private theorem mem_climb_succ {parent : Nat → Option Nat} {fuel : Nat} (h : b ∈ climb parent fuel a) :
    b ∈ climb parent (fuel + 1) a := by
  induction fuel generalizing a with
  | zero =>
    obtain rfl := List.mem_singleton.mp h
    exact .head _
  | succ fuel ih =>
    rw [climb] at h ⊢
    rcases List.mem_cons.mp h with rfl | h
    · exact .head _
    · refine .tail _ ?_
      cases hp : parent a with
      | none => rw [hp] at h; cases h
      | some p =>
        rw [hp] at h
        exact ih h

theorem Exact.dominates_cases (h : Exact g entry t) :
    t.dominates a b ↔ a = b ∨ ∃ p, t.above b = some p ∧ t.dominates a p := by
  have hsize : ∀ {p}, t.above b = some p → 0 < t.parent.length := by
    intro p hp
    have hb := (Option.filter_eq_some_iff.mp hp).1
    cases hl : t.parent with
    | nil => simp [parentOf, hl] at hb
    | cons x rest => simp
  have hup : ∀ {p}, t.above b = some p → t.dominates p b := by
    intro p hp
    obtain ⟨k, hk⟩ := Nat.exists_eq_succ_of_ne_zero (Nat.ne_of_gt (hsize hp))
    rw [dominates, List.contains_iff_mem, chain_eq_climb, hk, Nat.succ_eq_add_one, climb, hp]
    cases k <;> simp [climb]
  constructor
  · intro hd
    by_cases hab : a = b
    · exact .inl hab
    · rw [dominates, List.contains_iff_mem, chain_eq_climb] at hd
      cases hk : t.parent.length with
      | zero =>
        rw [hk] at hd
        exact .inl (List.mem_singleton.mp hd)
      | succ k =>
        rw [hk, climb] at hd
        have hd := (List.mem_cons.mp hd).resolve_left hab
        cases hp : t.above b with
        | none => rw [hp] at hd; cases hd
        | some p =>
          rw [hp] at hd
          refine .inr ⟨p, rfl, ?_⟩
          rw [dominates, List.contains_iff_mem, chain_eq_climb, hk]
          exact mem_climb_succ hd
  · rintro (rfl | ⟨p, hp, hd⟩)
    · exact (h.dominates_iff a a).mpr (.inl rfl)
    · exact h.trans hd (hup hp)

theorem Exact.antisymm (h : Exact g entry t) (hab : t.dominates a b) (hba : t.dominates b a) : a = b := by
  rw [h.dominates_iff] at hab hba
  rcases hab with rfl | ⟨-, hab⟩
  · rfl
  · rcases hba with rfl | ⟨hr, hba⟩
    · rfl
    · exact hab.antisymm hr hba

/-- The node above is the nearest strict dominator. -/
theorem Exact.above_eq_some_iff (h : Exact g entry t) :
    t.above b = some a ↔ a ≠ b ∧ t.dominates a b ∧ ∀ c, c ≠ b → t.dominates c b → t.dominates c a := by
  have hself : ∀ n, t.dominates n n := fun n => (h.dominates_iff n n).mpr (.inl rfl)
  constructor
  · intro ha
    refine ⟨by simpa using (Option.filter_eq_some_iff.mp ha).2, h.dominates_cases.mpr (.inr ⟨a, ha, hself a⟩), ?_⟩
    intro c hcb hc
    obtain ⟨p, hp, hc⟩ := (h.dominates_cases.mp hc).resolve_left hcb
    rwa [Option.some.inj (ha.symm.trans hp)]
  · rintro ⟨hne, hd, hnearest⟩
    obtain ⟨p, hp, hap⟩ := (h.dominates_cases.mp hd).resolve_left hne
    have hpb : p ≠ b := by simpa using (Option.filter_eq_some_iff.mp hp).2
    have hpa := hnearest p hpb (h.dominates_cases.mpr (.inr ⟨p, hp, hself p⟩))
    rw [hp, h.antisymm hap hpa]

theorem mem_climb_of_find {parent : Nat → Option Nat} {p : Nat → Bool} {c fuel : Nat}
    (hf : (climb parent fuel a).find? p = some c) (hb : b ∈ climb parent fuel a) (hp : p b) :
    b ∈ climb parent fuel c := by
  induction fuel generalizing a with
  | zero =>
    obtain rfl := List.mem_singleton.mp hb
    rw [climb, List.find?_cons_of_pos hp] at hf
    exact Option.some.inj hf ▸ hb
  | succ fuel ih =>
    by_cases ha : p a
    · rw [climb, List.find?_cons_of_pos ha] at hf
      exact Option.some.inj hf ▸ hb
    · rw [climb, List.find?_cons_of_neg ha] at hf
      rw [climb] at hb
      rcases List.mem_cons.mp hb with rfl | hb
      · exact absurd hp ha
      · cases hq : parent a with
        | none => rw [hq] at hb; cases hb
        | some q =>
          rw [hq] at hb hf
          exact mem_climb_succ (ih hf hb)

/-- Whatever dominates all the given nodes dominates the one found for them. -/
theorem dominates_common {first target c : Nat} {rest : List Nat}
    (hc : rest.foldlM t.common first = some target) (hall : ∀ b ∈ first :: rest, t.dominates c b) :
    t.dominates c target := by
  induction rest generalizing first with
  | nil =>
    obtain rfl := Option.some.inj hc
    exact hall first (.head _)
  | cons next rest ih =>
    rw [List.foldlM_cons, Option.bind_eq_bind, Option.bind_eq_some_iff] at hc
    obtain ⟨met, hmet, hc⟩ := hc
    refine ih hc fun b hb => ?_
    rcases List.mem_cons.mp hb with rfl | hb
    · refine mem_climb_iff_dominates.mp (mem_climb_of_find hmet ?_ (hall next (.tail _ (.head _))))
      exact mem_climb_iff_dominates.mpr (hall first (.head _))
    · exact hall b (.tail _ (.tail _ hb))

/-- The dominator tree of a graph is found without a fault, and it is exact. -/
theorem build_exact (h : entry < g.size) (hg : Mirrors preds g) :
    ∃ t, build g preds entry = .ok t ∧ Exact g entry t := by
  have ho := Graph.postorder_order h
  obtain ⟨nodes, hnodes⟩ : ∃ nodes, (g.postorder entry).reverse = entry :: nodes := by
    have hh := ho.head
    cases hl : (g.postorder entry).reverse with
    | nil => rw [hl] at hh; cases hh
    | cons x nodes =>
      obtain rfl : x = entry := by simpa [hl] using hh
      exact ⟨nodes, rfl⟩
  rw [hnodes] at ho
  obtain ⟨t, ht, hgood⟩ := first_sweep ho hg
  suffices done : ∃ t, (bare g.size entry).settle (entry :: nodes).idxOf preds nodes = .ok t ∧
      Finished g preds entry (entry :: nodes) t by
    obtain ⟨t, ht, hfin⟩ := done
    refine ⟨⟨t, settle_inside (bare_inside h) ht⟩, ?_, exact_of_finished hfin ho hg⟩
    simp only [build, dif_pos h, hnodes]
    split
    · next heq => cases heq.symm.trans ht; rfl
    · next heq => cases heq.symm.trans ht
  cases nodes with
  | nil =>
    obtain rfl : bare g.size entry = t := Except.ok.inj ht
    refine ⟨_, settle_of_still ht, hgood.rooted, hgood.full, fun n p he hp => ?_⟩
    exact absurd (List.mem_singleton.mp (hgood.rooted.up n p hp he).1) he
  | cons n rest =>
    obtain ⟨last, hlast, hfin⟩ := settle_finishes ho hg hgood
    exact ⟨last, (settle_of_lt ht (hgood.rank_lt_bare ho (.head _))).trans hlast, hfin⟩

end Exact

end DomTree

end CountMotion
