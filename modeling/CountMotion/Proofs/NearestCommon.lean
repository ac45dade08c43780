import CountMotion.Proofs.Dominance

/-! The block that is found for two others, or for a list of them two by two, is the nearest one
that dominates or post-dominates them all. -/
namespace CountMotion

/-- The nearest of the blocks below a size that cover all the given ones. -/
structure Nearest (size : Nat) (covers : BlockId → BlockId → Prop) (blocks : List BlockId) (c : BlockId) : Prop where
  block : c < size
  covers_all : ∀ b ∈ blocks, covers c b
  nearest : ∀ d < size, (∀ b ∈ blocks, covers d b) → covers d c

/-- Searches for the nearest block that covers two others: what is found is that block, and nothing
is found only if no block covers both. Folded over a list, the search does the same for all blocks
of the list, in whichever order they come. -/
structure FindsNearest (size : Nat) (covers : BlockId → BlockId → Prop) (common : BlockId → BlockId → Option BlockId) :
    Prop where
  none_iff : ∀ a < size, ∀ b < size, common a b = none ↔ ¬ ∃ c < size, covers c a ∧ covers c b
  some_iff : ∀ a < size, ∀ b < size, ∀ c, common a b = some c ↔ Nearest size covers [a, b] c
  fold_none_iff : ∀ first rest, (∀ b ∈ first :: rest, b < size) →
    (rest.foldlM common first = none ↔ ¬ ∃ c < size, ∀ b ∈ first :: rest, covers c b)
  fold_some_iff : ∀ first rest, (∀ b ∈ first :: rest, b < size) →
    ∀ c, rest.foldlM common first = some c ↔ Nearest size covers (first :: rest) c
  fold_perm : ∀ first rest first' rest', (∀ b ∈ first :: rest, b < size) →
    (first :: rest).Perm (first' :: rest') → rest.foldlM common first = rest'.foldlM common first'

section Search

variable {size : Nat} {covers : BlockId → BlockId → Prop} {common : BlockId → BlockId → Option BlockId}
  {a b c d m first : BlockId} {rest blocks blocks' : List BlockId}

/-- An order of the blocks in which any two that something covers have a nearest block that covers
both, and a search that finds it. -/
structure Meeting (size : Nat) (covers : BlockId → BlockId → Prop) (common : BlockId → BlockId → Option BlockId) :
    Prop where
  refl : ∀ a < size, covers a a
  trans : ∀ {a b c}, a < size → b < size → c < size → covers a b → covers b c → covers a c
  antisymm : ∀ {a b}, a < size → b < size → covers a b → covers b a → a = b
  found : ∀ {a b c}, a < size → b < size → common a b = some c → Nearest size covers [a, b] c
  missed : ∀ {a b c}, a < size → b < size → common a b = none → c < size → covers c a → ¬ covers c b

namespace Meeting

theorem unique (h : Meeting size covers common) (hc : Nearest size covers blocks c)
    (hd : Nearest size covers blocks d) : c = d :=
  h.antisymm hc.block hd.block (hd.nearest c hc.block hc.covers_all) (hc.nearest d hd.block hd.covers_all)

theorem covers_met_iff (h : Meeting size covers common) (ha : a < size) (hb : b < size)
    (hm : Nearest size covers [a, b] m) (hd : d < size) : (∀ x ∈ m :: rest, covers d x) ↔ ∀ x ∈ a :: b :: rest, covers d x := by
  simp only [List.forall_mem_cons]
  constructor
  · rintro ⟨hdm, hrest⟩
    have hma := hm.covers_all a (by simp)
    have hmb := hm.covers_all b (by simp)
    exact ⟨h.trans hd hm.block ha hdm hma, h.trans hd hm.block hb hdm hmb, hrest⟩
  · rintro ⟨hda, hdb, hrest⟩
    exact ⟨hm.nearest d hd (by simp [hda, hdb]), hrest⟩

theorem congr {covers' : BlockId → BlockId → Prop} (h : Meeting size covers common)
    (hcovers : ∀ {a b}, a < size → b < size → (covers a b ↔ covers' a b)) : Meeting size covers' common where
  refl a ha := (hcovers ha ha).mp (h.refl a ha)
  trans ha hb hc hab hbc := (hcovers ha hc).mp (h.trans ha hb hc ((hcovers ha hb).mpr hab) ((hcovers hb hc).mpr hbc))
  antisymm ha hb hab hba := h.antisymm ha hb ((hcovers ha hb).mpr hab) ((hcovers hb ha).mpr hba)
  found {a b c} ha hb hfound := by
    have hc := h.found ha hb hfound
    have hall : ∀ {d}, d < size → ((∀ x ∈ [a, b], covers d x) ↔ ∀ x ∈ [a, b], covers' d x) := by
      intro d hd
      simp [hcovers hd ha, hcovers hd hb]
    exact ⟨hc.block, (hall hc.block).mp hc.covers_all,
      fun d hd hd' => (hcovers hd hc.block).mp (hc.nearest d hd ((hall hd).mpr hd'))⟩
  missed ha hb hnone hc hca hcb := h.missed ha hb hnone hc ((hcovers hc ha).mpr hca) ((hcovers hc hb).mpr hcb)

/-- The search, folded over a list, finds the nearest block that covers all of it. -/
theorem fold (h : Meeting size covers common) (hin : ∀ b ∈ first :: rest, b < size) :
    (∀ c, rest.foldlM common first = some c → Nearest size covers (first :: rest) c) ∧
      (rest.foldlM common first = none → ¬ ∃ c < size, ∀ b ∈ first :: rest, covers c b) := by
  induction rest generalizing first with
  | nil =>
    refine ⟨fun c hc => ?_, fun hnone => by simp at hnone⟩
    obtain rfl := Option.some.inj hc
    have hfirst := hin first (.head _)
    exact ⟨hfirst, by simpa using h.refl first hfirst, fun d _ hall => hall first (.head _)⟩
  | cons next rest ih =>
    have hfirst := hin first (.head _)
    have hnext := hin next (.tail _ (.head _))
    rw [List.foldlM_cons]
    cases hmet : common first next with
    | none =>
      refine ⟨fun c hc => by simp at hc, fun _ => ?_⟩
      rintro ⟨c, hc, hall⟩
      exact h.missed hfirst hnext hmet hc (hall first (.head _)) (hall next (.tail _ (.head _)))
    | some m =>
      have hm := h.found hfirst hnext hmet
      have hmet_iff : ∀ d < size, (∀ x ∈ m :: rest, covers d x) ↔ ∀ x ∈ first :: next :: rest, covers d x :=
        fun d hd => h.covers_met_iff hfirst hnext hm hd
      have hin' : ∀ b ∈ m :: rest, b < size :=
        List.forall_mem_cons.mpr ⟨hm.block, fun b hb => hin b (.tail _ (.tail _ hb))⟩
      obtain ⟨hsome, hnone⟩ := ih hin'
      refine ⟨fun c hfold => ?_, fun hfold => ?_⟩
      · have hc := hsome c hfold
        exact ⟨hc.block, (hmet_iff c hc.block).mp hc.covers_all,
          fun d hd hall => hc.nearest d hd ((hmet_iff d hd).mpr hall)⟩
      · rintro ⟨c, hc, hall⟩
        exact hnone hfold ⟨c, hc, (hmet_iff c hc).mpr hall⟩

theorem fold_eq_some_iff (h : Meeting size covers common) (hin : ∀ b ∈ first :: rest, b < size) :
    rest.foldlM common first = some c ↔ Nearest size covers (first :: rest) c := by
  obtain ⟨hsome, hnone⟩ := h.fold hin
  refine ⟨hsome c, fun hc => ?_⟩
  cases hfold : rest.foldlM common first with
  | none => exact absurd ⟨c, hc.block, hc.covers_all⟩ (hnone hfold)
  | some d => rw [h.unique (hsome d hfold) hc]

theorem fold_eq_none_iff (h : Meeting size covers common) (hin : ∀ b ∈ first :: rest, b < size) :
    rest.foldlM common first = none ↔ ¬ ∃ c < size, ∀ b ∈ first :: rest, covers c b := by
  obtain ⟨hsome, hnone⟩ := h.fold hin
  refine ⟨hnone, fun hno => ?_⟩
  cases hfold : rest.foldlM common first with
  | none => rfl
  | some c => exact absurd ⟨c, (hsome c hfold).block, (hsome c hfold).covers_all⟩ hno

theorem findsNearest (h : Meeting size covers common) : FindsNearest size covers common := by
  have hone : ∀ a b, [b].foldlM common a = common a b := fun a b => by simp
  have hpair : ∀ {a b}, a < size → b < size → ∀ x ∈ [a, b], x < size := by
    intro a b ha hb
    simp [ha, hb]
  refine ⟨fun a ha b hb => ?_, fun a ha b hb c => ?_, fun first rest hin => h.fold_eq_none_iff hin,
    fun first rest hin c => h.fold_eq_some_iff hin, fun first rest first' rest' hin hperm => ?_⟩
  · rw [← hone, h.fold_eq_none_iff (hpair ha hb)]
    simp
  · rw [← hone, h.fold_eq_some_iff (hpair ha hb)]
  · have hsame : ∀ p : BlockId → Prop, (∀ b ∈ first :: rest, p b) ↔ ∀ b ∈ first' :: rest', p b :=
      fun p => forall_congr' fun b => by rw [hperm.mem_iff]
    refine Option.ext fun c => ?_
    rw [h.fold_eq_some_iff hin, h.fold_eq_some_iff ((hsame _).mp hin)]
    constructor
    · exact fun hc => ⟨hc.block, (hsame _).mp hc.covers_all, fun d hd hall => hc.nearest d hd ((hsame _).mpr hall)⟩
    · exact fun hc => ⟨hc.block, (hsame _).mpr hc.covers_all, fun d hd hall => hc.nearest d hd ((hsame _).mp hall)⟩

end Meeting

end Search

section Trees

variable {g : Graph} {entry size fuel : Nat} {t : DomTree} {up : Nat → Option Nat} {r : Routine}

/-- In an exact tree the first dominator of `b` on the way up from `a` is the nearest of both, if the
way passes all dominators of `a` below the size and nothing else. -/
theorem DomTree.Exact.meeting (ht : t.Exact g entry)
    (hclimb : ∀ a < size, ∀ c, c ∈ climb up fuel a ↔ c < size ∧ t.dominates c a) :
    Meeting size (fun a b => t.dominates a b) fun a b => (climb up fuel a).find? fun c => t.dominates c b where
  refl a _ := (ht.dominates_iff a a).mpr (.inl rfl)
  trans _ _ _ hab hbc := ht.trans hab hbc
  antisymm _ _ hab hba := ht.antisymm hab hba
  found {a b c} ha _ hc := by
    obtain ⟨hlt, hca⟩ := (hclimb a ha c).mp (List.mem_of_find?_eq_some hc)
    refine ⟨hlt, by simp [hca, List.find?_some hc], fun d hd hall => ?_⟩
    have hmem : d ∈ climb up fuel a := (hclimb a ha d).mpr ⟨hd, hall a (.head _)⟩
    exact ((hclimb c hlt d).mp (mem_climb_of_find hc hmem (hall b (.tail _ (.head _))))).2
  missed {a b c} ha _ hnone hc hca := List.find?_eq_none.mp hnone c ((hclimb a ha c).mpr ⟨hc, hca⟩)

theorem DomTree.Exact.lt_size {a b : Nat} (ht : t.Exact g entry) (hentry : entry < g.size) (hb : b < g.size)
    (h : t.dominates a b) : a < g.size := by
  rcases (ht.dominates_iff a b).mp h with rfl | ⟨hr, hd⟩
  · exact hb
  · exact (hd.reached hr).lt_size hentry

theorem PostDomTree.climb_above {t : PostDomTree} (hexit : t.tree.above t.exit = none) {a : BlockId}
    (ha : a ≠ t.exit) (fuel : Nat) :
    climb t.above fuel a = (climb t.tree.above fuel a).filter (· != t.exit) := by
  induction fuel generalizing a with
  | zero => simp [climb, ha]
  | succ fuel ih =>
    rw [climb, climb, List.filter_cons_of_pos (by simpa using ha)]
    cases hp : t.tree.above a with
    | none =>
      have habove : t.above a = none := by rw [above, hp]; rfl
      rw [habove]
      rfl
    | some p =>
      by_cases hpe : p = t.exit
      · subst hpe
        have habove : t.above a = none := by simp [above, hp]
        have hend : climb t.tree.above fuel t.exit = [t.exit] := by
          cases fuel with
          | zero => rfl
          | succ fuel => rw [climb, hexit]
        simp [habove, hend]
      · have habove : t.above a = some p := by simp [above, hp, hpe]
        rw [habove]
        exact congrArg (a :: ·) (ih hpe)

namespace Routine

/-- All paths from the entry to `b` pass `a`, and there are such. Every block dominates itself. -/
def Dominates (r : Routine) (a b : BlockId) : Prop :=
  a = b ∨ r.flow.Reaches r.entry b ∧ ∀ path : List BlockId, path.head? = some r.entry →
    path.IsChain r.flow.Edge → path.getLast? = some b → a ∈ path

theorem dom_meeting (hentry : r.entry < r.blocks.length) (ht : t.Exact r.flow r.entry) :
    Meeting r.blocks.length r.Dominates t.common := by
  rw [← size_flow] at hentry ⊢
  have hclimb : ∀ a < r.flow.size, ∀ c, c ∈ climb t.above t.parent.length a ↔ c < r.flow.size ∧ t.dominates c a := by
    intro a ha c
    rw [DomTree.mem_climb_iff_dominates]
    exact ⟨fun hc => ⟨ht.lt_size hentry ha hc, hc⟩, And.right⟩
  refine (ht.meeting hclimb).congr fun {a b} _ _ => ?_
  rw [Dominates, ht.dominates_iff, Graph.dominates_iff_chain]

theorem postDom_meeting (ht : t.Exact r.exitflow r.blocks.length) :
    Meeting r.blocks.length r.PostDominates (PostDomTree.mk t).common := by
  have hexit : (PostDomTree.mk t).exit = r.blocks.length := by
    rw [PostDomTree.exit, ht.size, size_exitflow, Nat.add_sub_cancel]
  have hroot : t.above (PostDomTree.mk t).exit = none := by
    refine Option.eq_none_iff_forall_not_mem.mpr fun p hp => ?_
    obtain ⟨hne, hd, -⟩ := ht.above_eq_some_iff.mp hp
    rw [hexit] at hne hd
    exact hne (eq_exit_of_dominates ht hd)
  have hclimb : ∀ a < r.blocks.length, ∀ c,
      c ∈ climb (PostDomTree.mk t).above t.parent.length a ↔ c < r.blocks.length ∧ t.dominates c a := by
    intro a ha c
    rw [PostDomTree.climb_above hroot (hexit ▸ Nat.ne_of_lt ha), hexit, List.mem_filter, bne_iff_ne,
      DomTree.mem_climb_iff_dominates, and_comm]
    refine and_congr_left fun hc => ⟨fun hne => ?_, Nat.ne_of_lt⟩
    by_cases hca : c = a
    · exact hca ▸ ha
    · exact Nat.lt_of_le_of_ne (le_of_dominates ht hc hca) hne
  exact (ht.meeting hclimb).congr fun ha hb => postDominates_iff ht ha hb

end Routine

end Trees

/-- In a routine that keeps the contract, the nearest common dominator of two blocks is none just if
no block dominates both, and else it dominates both and every block that does dominates it. The
same holds of post-dominators, and of both for whole lists of blocks, in any order. -/
theorem common_blocks_nearest (r : Routine) (h : r.check = .ok ()) : ∃ k, r.facts = .ok k ∧
    FindsNearest r.blocks.length r.Dominates k.dom.common ∧
    FindsNearest r.blocks.length r.PostDominates k.postDom.common := by
  have hentry := Routine.entry_lt_of_check h
  obtain ⟨k, hk, hsound⟩ := Routine.facts_total hentry
  have hpost := Routine.facts_postDom hk
  exact ⟨k, hk, (Routine.dom_meeting hentry hsound.dom).findsNearest, (Routine.postDom_meeting hpost).findsNearest⟩

theorem common_blocks_nearest_unevenEnds : unevenEnds.check = .ok () ∧
    (unevenEnds.facts.map fun k => (k.dom.common 4 5, k.dom.common 3 5, k.dom.common 6 1)) =
      .ok (some 2, some 0, none) ∧
    (unevenEnds.facts.map fun k => (k.postDom.common 6 3, k.postDom.common 1 2, k.postDom.common 4 3)) =
      .ok (some 3, none, none) ∧
    ∃ k, unevenEnds.facts = .ok k ∧ FindsNearest unevenEnds.blocks.length unevenEnds.Dominates k.dom.common ∧
      FindsNearest unevenEnds.blocks.length unevenEnds.PostDominates k.postDom.common ∧
      [4, 5].foldlM k.dom.common 3 = [3, 4].foldlM k.dom.common 5 := by
  obtain ⟨k, hk, hdom, hpost⟩ := common_blocks_nearest unevenEnds rfl
  exact ⟨rfl, by decide +kernel, by decide +kernel, k, hk, hdom, hpost,
    hdom.fold_perm 3 [4, 5] 5 [3, 4] (by decide) (by decide)⟩

end CountMotion
