import Mathlib.Data.List.Perm.Subperm
import Mathlib.Logic.Relation
import CountMotion.Graph.Postorder
import CountMotion.Proofs.Paths

/-! What exploration finds, and the order in which a depth-first search finishes. -/
namespace CountMotion

section Explore

variable {α : Type} [DecidableEq α] {domain pending seen : List α} {next : α → List α}

theorem mem_explore_of_seen {a : α} (h : a ∈ seen) : a ∈ explore domain next pending seen := by
  fun_induction explore domain next pending seen with
  | case1 => exact h
  | case2 seen b rest hb ih => exact ih (.tail b h)
  | case3 seen b rest hb ih => exact ih h

theorem mem_explore_of_pending {a : α} (h : a ∈ pending) (ha : a ∈ domain) :
    a ∈ explore domain next pending seen := by
  fun_induction explore domain next pending seen with
  | case1 => cases h
  | case2 seen b rest hb ih =>
    cases h with
    | head => exact mem_explore_of_seen (.head seen)
    | tail _ h => exact ih (List.mem_append_right _ h)
  | case3 seen b rest hb ih =>
    cases h with
    | head => exact mem_explore_of_seen (Decidable.not_not.mp fun h => hb ⟨ha, h⟩)
    | tail _ h => exact ih h

theorem explore_closed {a b : α} (h : a ∈ explore domain next pending seen) (ha : a ∉ seen)
    (hb : b ∈ next a) (hd : b ∈ domain) : b ∈ explore domain next pending seen := by
  fun_induction explore domain next pending seen with
  | case1 => exact absurd h ha
  | case2 seen c rest hc ih =>
    by_cases hac : a = c
    · subst hac
      exact mem_explore_of_pending (List.mem_append_left _ hb) hd
    · exact ih h (by simp [hac, ha])
  | case3 seen c rest hc ih => exact ih h ha

/-- A property that pending elements have and that is passed on by whatever exploration adds
holds of all that is found. -/
theorem explore_induct {p : α → Prop} (hs : ∀ a ∈ seen, p a) (hp : ∀ a ∈ pending, a ∈ domain → p a)
    (hn : ∀ a b, a ∉ seen → p a → b ∈ next a → b ∈ domain → p b) :
    ∀ a ∈ explore domain next pending seen, p a := by
  fun_induction explore domain next pending seen with
  | case1 => exact hs
  | case2 seen c rest hc ih =>
    have hpc := hp c (.head rest) hc.1
    apply ih
    · rintro a (_ | ⟨_, ha⟩)
      · exact hpc
      · exact hs a ha
    · intro a ha hd
      rcases List.mem_append.mp ha with ha | ha
      · exact hn c a hc.2 hpc ha hd
      · exact hp a (.tail c ha) hd
    · exact fun a b ha => hn a b fun h => ha (.tail c h)
  | case3 seen c rest hc ih => exact ih hs (fun a ha => hp a (.tail c ha)) hn

theorem explore_nodup (h : seen.Nodup) : (explore domain next pending seen).Nodup := by
  fun_induction explore domain next pending seen with
  | case1 => exact h
  | case2 seen c rest hc ih => exact ih (List.nodup_cons.mpr ⟨hc.2, h⟩)
  | case3 seen c rest hc ih => exact ih h

end Explore

namespace Graph

variable {g : Graph} {entry : Nat}

def inOrder (stack : List (Nat × List Nat)) (done : List Nat) : List Nat :=
  (stack.map Prod.fst).reverse ++ done

/-- Some path leads from one node to the other along the list. -/
def Climbs (g : Graph) (l : List Nat) : Nat → Nat → Prop :=
  Relation.ReflTransGen fun a b => g.Edge a b ∧ [a, b].Sublist l

theorem Climbs.mono {l l' : List Nat} {a b : Nat} (h : g.Climbs l a b) (hl : l.Sublist l') : g.Climbs l' a b := by
  induction h with
  | refl => exact .refl
  | tail _ he ih => exact .tail ih ⟨he.1, he.2.trans hl⟩

theorem Climbs.reaches {l : List Nat} {a b : Nat} (h : g.Climbs l a b) : g.Reaches a b := by
  induction h with
  | refl => exact .refl g a
  | tail _ he ih => exact ih.edge he.1

/-- What holds throughout a depth-first search. New nodes enter the order between the open
and the finished ones, so it never changes for nodes already seen. -/
structure Searching (g : Graph) (entry : Nat) (stack : List (Nat × List Nat)) (seen done : List Nat) :
    Prop where
  mem_seen : ∀ n, n ∈ seen ↔ n ∈ inOrder stack done
  nodup : (inOrder stack done).Nodup
  head : (inOrder stack done).head? = some entry
  inside : ∀ n ∈ inOrder stack done, n < g.size
  reached : ∀ n ∈ inOrder stack done, g.Reaches entry n
  /-- Every node but the entry was entered from one that is open for longer. -/
  entered : ∀ n ∈ inOrder stack done, n = entry ∨ ∃ m, [m, n].Sublist (inOrder stack done) ∧ g.Edge m n
  /-- Each open node leads to those opened from it. -/
  opened : (stack.map Prod.fst).Pairwise fun n m => g.Climbs (inOrder stack done) m n
  listed : ∀ e ∈ stack, ∀ v ∈ e.2, v ∈ g.next e.1
  looked : ∀ e ∈ stack, ∀ v, g.Edge e.1 v → v ∈ e.2 ∨ v ∈ inOrder stack done
  finished : ∀ n ∈ done, ∀ v, g.Edge n v → v ∈ inOrder stack done ∧
    ([n, v].Sublist (inOrder stack done) ∨ g.Climbs (inOrder stack done) v n)

namespace Searching

variable {stack rest : List (Nat × List Nat)} {seen done later : List Nat} {n s : Nat}

theorem start (h : entry < g.size) : Searching g entry [(entry, g.next entry)] [entry] [] where
  mem_seen := by simp [inOrder]
  nodup := by simp [inOrder]
  head := by simp [inOrder]
  inside := by simpa [inOrder] using h
  reached := by simpa [inOrder] using Reaches.refl g entry
  entered := by simp [inOrder]
  opened := by simp
  listed := by simp
  looked := by
    intro e he v hv
    obtain rfl := List.mem_singleton.mp he
    exact .inl hv.1
  finished := by simp

theorem pop (h : Searching g entry ((n, []) :: rest) seen done) : Searching g entry rest seen (n :: done) := by
  have same : inOrder rest (n :: done) = inOrder ((n, []) :: rest) done := by simp [inOrder]
  have split : inOrder ((n, []) :: rest) done = (rest.map Prod.fst).reverse ++ n :: done := by simp [inOrder]
  refine ⟨?_, ?_, ?_, ?_, ?_, ?_, ?_, fun e he => h.listed e (.tail _ he), ?_, ?_⟩
  · rw [same]; exact h.mem_seen
  · rw [same]; exact h.nodup
  · rw [same]; exact h.head
  · rw [same]; exact h.inside
  · rw [same]; exact h.reached
  · rw [same]; exact h.entered
  · rw [same]; exact (List.pairwise_cons.mp h.opened).2
  · rw [same]
    exact fun e he => h.looked e (.tail _ he)
  · rw [same]
    rintro m (_ | ⟨_, hm⟩) v hv
    · have hin : v ∈ inOrder ((n, []) :: rest) done :=
        (h.looked (n, []) (.head rest) v hv).resolve_left List.not_mem_nil
      refine ⟨hin, ?_⟩
      rw [split] at hin
      rcases List.mem_append.mp hin with hv' | hv'
      · exact .inr ((List.pairwise_cons.mp h.opened).1 v (List.mem_reverse.mp hv'))
      · rcases List.mem_cons.mp hv' with rfl | hv'
        · exact .inr .refl
        · rw [split]
          exact .inl (((List.singleton_sublist.mpr hv').cons_cons n).trans (List.sublist_append_right _ _))
    · exact h.finished m hm v hv

theorem push (h : Searching g entry ((n, s :: later) :: rest) seen done) (hs : s < g.size ∧ s ∉ seen) :
    Searching g entry ((s, g.next s) :: (n, later) :: rest) (s :: seen) done := by
  have he : g.Edge n s := ⟨h.listed _ (.head rest) s (.head later), hs.1⟩
  have split : inOrder ((s, g.next s) :: (n, later) :: rest) done =
      ((rest.map Prod.fst).reverse ++ [n]) ++ s :: done := by simp [inOrder]
  have old : inOrder ((n, s :: later) :: rest) done = ((rest.map Prod.fst).reverse ++ [n]) ++ done := by
    simp [inOrder]
  have wider : (inOrder ((n, s :: later) :: rest) done).Sublist
      (inOrder ((s, g.next s) :: (n, later) :: rest) done) := by
    rw [split, old]
    exact (List.Sublist.refl _).append (List.sublist_cons_self s done)
  have mem : ∀ m, m ∈ inOrder ((s, g.next s) :: (n, later) :: rest) done ↔
      m = s ∨ m ∈ inOrder ((n, s :: later) :: rest) done := by
    intro m
    rw [split, old]
    simp only [List.mem_append, List.mem_cons]
    grind
  have fresh : s ∉ inOrder ((n, s :: later) :: rest) done := fun hm => hs.2 ((h.mem_seen s).mpr hm)
  have hn : n ∈ inOrder ((n, s :: later) :: rest) done := by rw [old]; simp
  have reached : g.Reaches entry s := (h.reached n hn).edge he
  have next : [n, s].Sublist (inOrder ((s, g.next s) :: (n, later) :: rest) done) := by
    rw [split]
    exact (List.singleton_sublist.mpr (by simp)).append (List.singleton_sublist.mpr (.head done))
  refine ⟨?_, ?_, ?_, ?_, ?_, ?_, ?_, ?_, ?_, ?_⟩
  · intro m
    rw [mem, List.mem_cons, h.mem_seen]
  · have hnd := h.nodup
    rw [split]
    rw [old] at hnd fresh
    exact (List.perm_middle.nodup_iff).mpr (List.nodup_cons.mpr ⟨fresh, hnd⟩)
  · have := h.head
    rw [split]
    rw [old] at this
    simpa using this
  · intro m hm
    rcases (mem m).mp hm with rfl | hm
    · exact hs.1
    · exact h.inside m hm
  · intro m hm
    rcases (mem m).mp hm with rfl | hm
    · exact reached
    · exact h.reached m hm
  · intro m hm
    rcases (mem m).mp hm with rfl | hm
    · exact .inr ⟨n, next, he⟩
    · exact (h.entered m hm).imp_right fun ⟨x, hx, hxm⟩ => ⟨x, hx.trans wider, hxm⟩
  · refine List.pairwise_cons.mpr ⟨?_, h.opened.imp fun hc => hc.mono wider⟩
    intro m hm
    rcases List.mem_cons.mp hm with rfl | hm
    · exact .tail .refl ⟨he, next⟩
    · exact .tail (((List.pairwise_cons.mp h.opened).1 m hm).mono wider) ⟨he, next⟩
  · rintro e (_ | ⟨_, _ | ⟨_, hrest⟩⟩) v hv
    · exact hv
    · exact h.listed _ (.head rest) v (.tail s hv)
    · exact h.listed e (.tail _ hrest) v hv
  · rintro e (_ | ⟨_, _ | ⟨_, hrest⟩⟩) v hv
    · exact .inl hv.1
    · rcases h.looked (n, s :: later) (.head rest) v hv with hl | hl
      · rcases List.mem_cons.mp hl with rfl | hl
        · exact .inr ((mem v).mpr (.inl rfl))
        · exact .inl hl
      · exact .inr ((mem v).mpr (.inr hl))
    · exact (h.looked e (.tail _ hrest) v hv).imp_right fun hl => (mem v).mpr (.inr hl)
  · intro m hm v hv
    obtain ⟨hin, hor⟩ := h.finished m hm v hv
    exact ⟨(mem v).mpr (.inr hin), hor.imp (fun hsub => hsub.trans wider) fun hc => hc.mono wider⟩

theorem skip (h : Searching g entry ((n, s :: later) :: rest) seen done) (hs : ¬ (s < g.size ∧ s ∉ seen)) :
    Searching g entry ((n, later) :: rest) seen done := by
  have same : inOrder ((n, later) :: rest) done = inOrder ((n, s :: later) :: rest) done := by simp [inOrder]
  refine ⟨?_, ?_, ?_, ?_, ?_, ?_, ?_, ?_, ?_, ?_⟩
  · rw [same]; exact h.mem_seen
  · rw [same]; exact h.nodup
  · rw [same]; exact h.head
  · rw [same]; exact h.inside
  · rw [same]; exact h.reached
  · rw [same]; exact h.entered
  · rw [same]; exact h.opened
  · rintro e (_ | ⟨_, hrest⟩) v hv
    · exact h.listed _ (.head rest) v (.tail s hv)
    · exact h.listed e (.tail _ hrest) v hv
  · rw [same]
    rintro e (_ | ⟨_, hrest⟩) v hv
    · rcases h.looked (n, s :: later) (.head rest) v hv with hl | hl
      · rcases List.mem_cons.mp hl with rfl | hl
        · refine .inr ((h.mem_seen v).mp ?_)
          exact Decidable.not_not.mp fun hn => hs ⟨hv.2, hn⟩
        · exact .inl hl
      · exact .inr hl
    · exact h.looked e (.tail _ hrest) v hv
  · rw [same]; exact h.finished

end Searching

private theorem search_ends {stack : List (Nat × List Nat)} {seen done : List Nat}
    (h : Searching g entry stack seen done) :
    ∃ order, finish g stack seen done = order.reverse ∧ Searching g entry [] order order := by
  fun_induction finish g stack seen done with
  | case1 seen done => exact ⟨done, rfl, { h with mem_seen := fun n => by simp [inOrder] }⟩
  | case2 seen done n rest ih => exact ih h.pop
  | case3 seen done n s later rest hs ih => exact ih (next_eq_get g hs.1 ▸ h.push hs)
  | case4 seen done n s later rest hs ih => exact ih (h.skip hs)

/-- A reverse postorder: the reachable nodes, entry first, where an edge against the order
closes a cycle. -/
structure SearchOrder (g : Graph) (entry : Nat) (order : List Nat) : Prop where
  nodup : order.Nodup
  head : order.head? = some entry
  mem_iff : ∀ n, n ∈ order ↔ g.Reaches entry n
  inside : ∀ n ∈ order, n < g.size
  entered : ∀ n ∈ order, n = entry ∨ ∃ m, g.Edge m n ∧ order.idxOf m < order.idxOf n
  ahead : ∀ n ∈ order, ∀ v, g.Edge n v → order.idxOf n < order.idxOf v ∨ g.Climbs order v n

theorem idxOf_lt_of_sublist {l : List Nat} {m n : Nat} (h : l.Nodup) (hs : [m, n].Sublist l) :
    l.idxOf m < l.idxOf n := by
  have sorted : l.Pairwise fun a b => l.idxOf a < l.idxOf b := by
    rw [List.pairwise_iff_getElem]
    intro i j hi hj hij
    rwa [h.idxOf_getElem, h.idxOf_getElem]
  exact List.pairwise_iff_forall_sublist.mp sorted hs

theorem idxOf_lt_iff_mem {before after : List Nat} {n x : Nat} (h : (before ++ n :: after).Nodup) :
    (before ++ n :: after).idxOf x < (before ++ n :: after).idxOf n ↔ x ∈ before := by
  have hn : n ∉ before := fun hn => by
    have := (List.nodup_append.mp h).2.2 n hn n (.head after)
    exact this rfl
  have hlen : (before ++ n :: after).idxOf n = before.length := by
    rw [List.idxOf_append, if_neg hn]
    simp
  rw [hlen, List.idxOf_append]
  split
  · exact ⟨fun _ => ‹_›, List.idxOf_lt_length_of_mem⟩
  · exact ⟨fun hlt => absurd hlt (by omega), fun hx => absurd hx ‹_›⟩

theorem postorder_order (h : entry < g.size) : SearchOrder g entry (g.postorder entry).reverse := by
  obtain ⟨order, he, hs⟩ := search_ends (Searching.start h)
  have plain : inOrder [] order = order := by simp [inOrder]
  rw [postorder_of_lt h, he, List.reverse_reverse]
  have hnodup := hs.nodup
  have hhead := hs.head
  rw [plain] at hnodup hhead
  have hentered := hs.entered
  have hfinished := hs.finished
  have hreached := hs.reached
  have hinside := hs.inside
  rw [plain] at hentered hfinished hreached hinside
  refine ⟨hnodup, hhead, fun n => ⟨hreached n, fun hn => ?_⟩, hinside, ?_, ?_⟩
  · induction hn with
    | here => exact List.mem_of_mem_head? hhead
    | snoc _ hedge _ ih => exact (hfinished _ ih _ hedge).1
  · exact fun n hn => (hentered n hn).imp_right fun ⟨m, hm, hedge⟩ =>
      ⟨m, hedge, idxOf_lt_of_sublist hnodup hm⟩
  · exact fun n hn v hv => (hfinished n hn v hv).2.imp_left (idxOf_lt_of_sublist hnodup)

namespace SearchOrder

variable {order : List Nat} {a b n : Nat}

theorem entry_mem (h : SearchOrder g entry order) : entry ∈ order := List.mem_of_mem_head? h.head

theorem mem_of_edge (h : SearchOrder g entry order) (ha : a ∈ order) (he : g.Edge a b) : b ∈ order :=
  (h.mem_iff b).mpr (((h.mem_iff a).mp ha).edge he)

theorem idxOf_entry (h : SearchOrder g entry order) : order.idxOf entry = 0 := by
  have hh := h.head
  cases order with
  | nil => cases hh
  | cons x rest =>
    obtain rfl : x = entry := by simpa using hh
    simp

theorem idxOf_lt_size (h : SearchOrder g entry order) (hn : n ∈ order) : order.idxOf n < g.size := by
  have hsub : order.length ≤ g.size := by
    have hrange : ∀ m ∈ order, m ∈ List.range g.size := fun m hm => List.mem_range.mpr (h.inside m hm)
    simpa using (List.subperm_of_subset h.nodup hrange).length_le
  exact Nat.lt_of_lt_of_le (List.idxOf_lt_length_of_mem hn) hsub

theorem climbing (h : SearchOrder g entry order) {n : Nat} (hn : n ∈ order) :
    g.Path (fun m => m ∈ order ∧ order.idxOf m ≤ order.idxOf n) entry n := by
  generalize hk : order.idxOf n = k
  induction k using Nat.strongRecOn generalizing n with
  | ind k ih =>
    rcases h.entered n hn with rfl | ⟨m, he, hlt⟩
    · exact .here ⟨hn, Nat.le_of_eq hk⟩
    · have hm : m ∈ order := List.idxOf_lt_length_iff.mp (Nat.lt_trans hlt (List.idxOf_lt_length_of_mem hn))
      have := (ih _ (hk ▸ hlt) hm rfl).mono (q := fun x => x ∈ order ∧ order.idxOf x ≤ k)
        fun x hx => ⟨hx.1, Nat.le_trans hx.2 (Nat.le_of_lt (hk ▸ hlt))⟩
      exact .snoc this he ⟨hn, Nat.le_of_eq hk⟩

/-- A dominator comes no later than what it dominates. -/
theorem idxOf_le_of_dominates (h : SearchOrder g entry order) (hb : b ∈ order)
    (hd : g.Dominates entry a b) : order.idxOf a ≤ order.idxOf b := by
  obtain hall | ⟨c, hc, hac, -, -⟩ := (h.climbing hb).meets (· ≠ a)
  · exact absurd (hall.mono fun _ hx => hx.2) hd
  · obtain rfl : c = a := Decidable.not_not.mp hc
    exact hac.last.2

end SearchOrder

end Graph

end CountMotion
