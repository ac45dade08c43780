import CountMotion.Trapping
import CountMotion.Proofs.Flow
import CountMotion.Proofs.NaturalLoop
import CountMotion.Proofs.Reads

/-! The flags for traps: passes over the blocks set them until a pass changes nothing, and then
they mark the blocks from which every path ends in a trap. -/
namespace CountMotion

variable {r : Routine} {t next last : Trapping} {b s : Nat} {changed : Bool}

/-- Every path from the block ends in a trap. -/
inductive Routine.Doomed (r : Routine) : BlockId → Prop where
  | trap {b : BlockId} {x : Block} : r.blocks[b]? = some x → x.term = .trap → Doomed r b
  | next {b : BlockId} : r.flow.next b ≠ [] → (∀ s ∈ r.flow.next b, Doomed r s) → Doomed r b

theorem Routine.Doomed.edge (h : r.Doomed b) (he : r.flow.Edge b s) : r.Doomed s := by
  cases h with
  | trap hx htrap =>
    obtain ⟨y, hy, hmem, -⟩ := mem_next_flow.mp he.1
    rw [Option.some.inj (hy.symm.trans hx), htrap] at hmem
    cases hmem
  | next _ hall => exact hall s he.1

theorem Routine.Doomed.reaches {c : BlockId} (h : r.Doomed b) (hreach : r.flow.Reaches b c) : r.Doomed c := by
  induction hreach with
  | here => exact h
  | snoc _ he _ ih => exact ih.edge he

theorem Routine.Doomed.not_inLoop {h : Nat} (hb : r.Doomed b) (hh : r.flow.Header r.entry h) :
    ¬ r.flow.InLoop r.entry h b := by
  induction hb with
  | trap hx htrap =>
    intro hin
    obtain ⟨s, he, -⟩ := hin.exists_next hh
    obtain ⟨y, hy, hmem, -⟩ := mem_next_flow.mp he.1
    rw [Option.some.inj (hy.symm.trans hx), htrap] at hmem
    cases hmem
  | next _ _ ih =>
    intro hin
    obtain ⟨s, he, hs⟩ := hin.exists_next hh
    exact ih s he.1 hs

theorem Routine.Doomed.path_to_trap (hb : r.Doomed b) :
    ∃ c x, r.flow.Path r.Doomed b c ∧ r.blocks[c]? = some x ∧ x.term = .trap := by
  induction hb with
  | @trap b x hx htrap => exact ⟨b, x, .here (.trap hx htrap), hx, htrap⟩
  | next hne hall ih =>
    obtain ⟨s, hs⟩ := List.exists_mem_of_ne_nil _ hne
    obtain ⟨c, x, hp, hx, htrap⟩ := ih s hs
    exact ⟨c, x, .cons (.next hne hall) (edge_flow.mpr hs) hp, hx, htrap⟩

namespace Trapping

def Sized (t : Trapping) (r : Routine) : Prop := t.flags.length = r.flow.size

/-- A block that is not flagged has no successor or one that is not flagged. -/
def ClosedAt (t : Trapping) (r : Routine) (b : BlockId) : Prop :=
  t.holds b ∨ r.flow.next b = [] ∨ ∃ s ∈ r.flow.next b, ¬ t.holds s

theorem Sized.readAt (h : t.Sized r) (hb : b < r.flow.size) : readAt t.flags b = .ok (t.holds b) := by
  have hlt : b < t.flags.length := h ▸ hb
  rw [readAt_of_lt hlt, holds, List.getElem?_eq_getElem hlt, Option.getD_some]

theorem holds_set (hb : b < t.flags.length) : (⟨t.flags.set b true⟩ : Trapping).holds s ↔ s = b ∨ t.holds s := by
  rw [holds, holds]
  by_cases h : b = s
  · rw [← h, List.getElem?_set_self hb]
    simp
  · rw [List.getElem?_set_ne h]
    simp [Ne.symm h]

/-- A visit reads flags of blocks only. It leaves a block that is closed and flags one that is
not. -/
theorem visit_total (h : t.Sized r) (hb : b < r.flow.size) :
    (visit (t, changed) (r.flow.next b, b) = .ok (t, changed) ∧ t.ClosedAt r b) ∨
      (visit (t, changed) (r.flow.next b, b) = .ok (⟨t.flags.set b true⟩, true) ∧
        r.flow.next b ≠ [] ∧ ∀ s ∈ r.flow.next b, t.holds s) := by
  have hall : (r.flow.next b).allM (CountMotion.readAt t.flags) = .ok ((r.flow.next b).all t.holds) :=
    allM_total fun s hs => h.readAt (Routine.edge_flow.mpr hs).2
  rw [visit, h.readAt hb]
  by_cases hflag : t.holds b || (r.flow.next b).isEmpty
  · refine .inl ⟨?_, ?_⟩
    · simp only [bind, Except.bind, hflag, if_true]
      rfl
    · rcases Bool.or_eq_true _ _ ▸ hflag with hflag | hnone
      · exact .inl hflag
      · exact .inr (.inl (List.isEmpty_iff.mp hnone))
  · cases hsuccs : (r.flow.next b).all t.holds with
    | false =>
      refine .inl ⟨?_, .inr (.inr ?_)⟩
      · simp only [bind, Except.bind, hflag, hall, hsuccs]
        rfl
      · simpa using hsuccs
    | true =>
      refine .inr ⟨?_, fun hnone => hflag (by rw [hnone]; simp), by simpa using hsuccs⟩
      have hw : writeAt t.flags b true = .ok (t.flags.set b true) := writeAt_of_lt (h ▸ hb) true
      simp only [bind, Except.bind, hflag, hall, hsuccs, hw]
      rfl

/-- What holds in the middle of a pass: the flags mark doomed blocks, and as long as none was set
the blocks visited are closed. -/
structure Midway (r : Routine) (t : Trapping) (visited : List BlockId) (s : Trapping × Bool) : Prop where
  sized : s.1.Sized r
  doomed : ∀ b, s.1.holds b → r.Doomed b
  kept : ∀ b, t.holds b → s.1.holds b
  same : s.2 = false → s.1 = t ∧ ∀ b ∈ visited, t.ClosedAt r b

theorem Midway.visit {visited : List BlockId} {s : Trapping × Bool} (h : Midway r t visited s) (hb : b < r.flow.size) :
    ∃ s', Trapping.visit s (r.flow.next b, b) = .ok s' ∧ Midway r t (visited ++ [b]) s' := by
  obtain ⟨now, changed⟩ := s
  rcases visit_total h.sized hb with ⟨hok, hclosed⟩ | ⟨hok, hne, hall⟩
  · refine ⟨_, hok, h.sized, h.doomed, h.kept, fun hc => ?_⟩
    obtain ⟨rfl, hvisited⟩ := h.same hc
    refine ⟨rfl, fun c hcmem => ?_⟩
    rcases List.mem_append.mp hcmem with hcmem | hcmem
    · exact hvisited c hcmem
    · exact List.mem_singleton.mp hcmem ▸ hclosed
  · have hset : ∀ c, (⟨now.flags.set b true⟩ : Trapping).holds c ↔ c = b ∨ now.holds c := fun c =>
      holds_set (h.sized ▸ hb)
    refine ⟨_, hok, by rw [Sized, List.length_set]; exact h.sized, fun c hc => ?_, fun c hc => ?_, fun hc => by cases hc⟩
    · rcases (hset c).mp hc with rfl | hc
      · exact .next hne fun s hs => h.doomed s (hall s hs)
      · exact h.doomed c hc
    · exact (hset c).mpr (.inr (h.kept c hc))

/-- A pass never fails and flags doomed blocks only. One that reports no change found every block
closed. -/
theorem pass_total (h : t.Sized r) (hd : ∀ b, t.holds b → r.Doomed b) :
    ∃ s, t.pass r = .ok s ∧ Midway r t (List.range r.flow.size) s := by
  have start : Midway r t [] (t, false) := ⟨h, hd, fun _ hb => hb, fun _ => ⟨rfl, fun b hb => by cases hb⟩⟩
  obtain ⟨s, hok, hs⟩ := foldlM_total (f := fun s b => Trapping.visit s (r.flow.next b, b))
    (l := List.range r.flow.size) (Midway r t) start fun before b after s hl hs =>
      hs.visit (List.mem_range.mp (by rw [← hl]; simp))
  refine ⟨s, ?_, hs⟩
  rw [pass, Graph.zipIdx_succs, List.foldlM_map]
  exact hok

/-- This many passes lead from the flags to the last ones: each but the last reports a change. -/
inductive Settles (r : Routine) : Trapping → Nat → Trapping → Prop where
  | done {t : Trapping} : t.pass r = .ok (t, false) → Settles r t 1 t
  | again {t next last : Trapping} {passes : Nat} :
      t.pass r = .ok (next, true) → Settles r next passes last → Settles r t (passes + 1) last

theorem Settles.settle {passes : Nat} (h : Settles r t passes last) : t.settle r = .ok last := by
  induction h with
  | done hpass => rw [Trapping.settle, hpass]
  | again hpass _ ih =>
    rw [Trapping.settle, hpass]
    exact ih

/-- Flags of doomed blocks settle on closed ones, within a pass for each block without a flag. -/
theorem exists_settles (h : t.Sized r) (hd : ∀ b, t.holds b → r.Doomed b) :
    ∃ passes ≤ t.missing + 1, ∃ last, Settles r t passes last ∧ (∀ b, t.holds b → last.holds b) ∧
      (∀ b, last.holds b → r.Doomed b) ∧ ∀ b < r.flow.size, last.ClosedAt r b := by
  induction hn : t.missing using Nat.strongRecOn generalizing t with
  | ind n ih =>
    obtain ⟨⟨next, changed⟩, hok, hmid⟩ := pass_total h hd
    cases changed with
    | false =>
      obtain ⟨rfl, hclosed⟩ := hmid.same rfl
      exact ⟨1, by omega, next, .done hok, fun _ hb => hb, hd, fun b hb => hclosed b (List.mem_range.mpr hb)⟩
    | true =>
      have hlt := missing_pass hok
      obtain ⟨passes, hle, last, hsettles, hkept, hrest⟩ := ih next.missing (hn ▸ hlt) hmid.sized hmid.doomed rfl
      exact ⟨passes + 1, by omega, last, .again hok hsettles, fun b hb => hkept b (hmid.kept b hb), hrest⟩

theorem holds_start : (start r).holds b ↔ ∃ x, r.blocks[b]? = some x ∧ x.term = .trap := by
  rw [holds, start, List.getElem?_map]
  cases r.blocks[b]? <;> simp

end Trapping

/-- The flags settle within a pass for each block and one more, and mark the doomed blocks. -/
theorem Routine.trapping_settles (r : Routine) : ∃ t, r.trapping = .ok t ∧ (∀ b, t.holds b ↔ r.Doomed b) ∧
    ∃ passes ≤ r.blocks.length + 1, Trapping.Settles r (.start r) passes t := by
  have hdoomed : ∀ b, (Trapping.start r).holds b → r.Doomed b := fun b hb => by
    obtain ⟨x, hx, htrap⟩ := Trapping.holds_start.mp hb
    exact .trap hx htrap
  have hsized : (Trapping.start r).Sized r := by rw [Trapping.Sized, size_flow, Trapping.start, List.length_map]
  obtain ⟨passes, hle, last, hsettles, hkept, hlast, hclosed⟩ := Trapping.exists_settles hsized hdoomed
  have hmissing : (Trapping.start r).missing ≤ r.blocks.length := by
    refine Nat.le_trans List.count_le_length (Nat.le_of_eq ?_)
    rw [Trapping.start, List.length_map]
  refine ⟨last, hsettles.settle, fun b => ⟨hlast b, fun h => ?_⟩, passes, by omega, hsettles⟩
  induction h with
  | trap hx htrap => exact hkept _ (Trapping.holds_start.mpr ⟨_, hx, htrap⟩)
  | @next b hne hall ih =>
    obtain ⟨s, hs⟩ := List.exists_mem_of_ne_nil _ hne
    rcases hclosed b (edge_flow.mpr hs).lt_size with hflag | hnone | ⟨s, hs, hno⟩
    · exact hflag
    · exact absurd hnone hne
    · exact absurd (ih s hs) hno

end CountMotion
