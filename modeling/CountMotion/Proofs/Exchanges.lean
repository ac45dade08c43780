import CountMotion.Facts
import CountMotion.Round
import CountMotion.Proofs.Splice

/-! Exchanges that fit a routine, queued together and made at once. -/
namespace CountMotion

namespace Exchange

variable {x : Exchange} {xs : List Exchange} {r : Routine} {k : Facts} {w : Nat → Nat} {e : Edits}

def removed (x : Exchange) : List Point := x.retains ++ x.releases

def added (x : Exchange) : List Point := x.newRetains ++ x.newReleases

def insertions (x : Exchange) (r : Routine) : List (Point × Instr) :=
  let kind := ((r.storage[x.root]?).map Storage.countKind).getD .strong
  x.newRetains.map (fun p => (p, .retain x.root kind)) ++ x.newReleases.map fun p => (p, .release x.root kind)

/-- All removed operations are on the root, each is named once, and all new places exist. -/
structure Fits (x : Exchange) (r : Routine) (k : Facts) : Prop where
  root : x.root < r.storage.length
  retains : ∀ p ∈ x.retains, ∃ v kind, r.instrAt? p = some (.retain v kind) ∧ k.root v = some x.root
  releases : ∀ p ∈ x.releases, ∃ v kind, r.instrAt? p = some (.release v kind) ∧ k.root v = some x.root
  nodup_retains : x.retains.Nodup
  nodup_releases : x.releases.Nodup
  placed : ∀ p ∈ x.added, p.block < r.blocks.length

def Lowers (x : Exchange) (w : Nat → Nat) : Prop :=
  tally (fun p => w p.block) x.added < tally (fun p => w p.block) x.removed

theorem Fits.removed (h : x.Fits r k) {p : Point} (hp : p ∈ x.removed) :
    ∃ i v, r.instrAt? p = some i ∧ i.counts? = some v ∧ k.root v = some x.root := by
  rcases List.mem_append.mp hp with hp | hp
  · obtain ⟨v, kind, hi, hv⟩ := h.retains p hp
    exact ⟨_, v, hi, rfl, hv⟩
  · obtain ⟨v, kind, hi, hv⟩ := h.releases p hp
    exact ⟨_, v, hi, rfl, hv⟩

theorem Fits.nodup_removed (h : x.Fits r k) : x.removed.Nodup := by
  refine List.nodup_append.mpr ⟨h.nodup_retains, h.nodup_releases, ?_⟩
  rintro p hp q hq rfl
  obtain ⟨v, kind, hi, -⟩ := h.retains p hp
  obtain ⟨v', kind', hi', -⟩ := h.releases p hq
  cases hi.symm.trans hi'

theorem Fits.apart {y : Exchange} (hx : x.Fits r k) (hy : y.Fits r k) (hne : x.root ≠ y.root) {p : Point}
    (hp : p ∈ x.removed) : p ∉ y.removed := by
  intro hq
  obtain ⟨i, v, hi, hv, hroot⟩ := hx.removed hp
  obtain ⟨i', v', hi', hv', hroot'⟩ := hy.removed hq
  obtain rfl := Option.some.inj (hi.symm.trans hi')
  obtain rfl := Option.some.inj (hv.symm.trans hv')
  exact hne (Option.some.inj (hroot.symm.trans hroot'))

private theorem foldl_insert (ps : List Point) (i : Instr) (e : Edits) :
    ps.foldl (fun e p => e.insert p i) e = ⟨e.inserts ++ ps.map fun p => (p, i), e.deletes⟩ := by
  induction ps generalizing e with
  | nil => simp
  | cons p ps ih => rw [List.foldl_cons, ih]; simp [Edits.insert]

private theorem foldl_delete (ps : List Point) (e : Edits) :
    ps.foldl Edits.delete e = ⟨e.inserts, e.deletes ++ ps⟩ := by
  induction ps generalizing e with
  | nil => simp
  | cons p ps ih => rw [List.foldl_cons, ih]; simp [Edits.delete]

theorem queue_eq (h : x.root < r.storage.length) (e : Edits) :
    x.queue r e = .ok ⟨e.inserts ++ x.insertions r, e.deletes ++ x.removed⟩ := by
  have hs : r.storageOf x.root = .ok r.storage[x.root] := by
    simp [Routine.storageOf, List.getElem?_eq_getElem h]
  rw [queue, hs]
  simp only [bind, Except.bind, pure, Except.pure, foldl_insert, foldl_delete]
  simp [insertions, removed, List.getElem?_eq_getElem h]

theorem queueAll_eq (h : ∀ x ∈ xs, x.root < r.storage.length) (e : Edits) :
    queueAll xs r e = .ok ⟨e.inserts ++ xs.flatMap (fun x => x.insertions r), e.deletes ++ xs.flatMap removed⟩ := by
  induction xs generalizing e with
  | nil => simp [queueAll, pure, Except.pure]
  | cons x xs ih =>
    have := ih (fun y hy => h y (.tail _ hy)) ⟨e.inserts ++ x.insertions r, e.deletes ++ x.removed⟩
    rw [queueAll, List.foldlM_cons, queue_eq (h x (.head _))]
    refine Eq.trans this ?_
    simp

theorem map_insertions (x : Exchange) (r : Routine) : (x.insertions r).map Prod.fst = x.added := by
  simp [insertions, added, Function.comp_def]

theorem isCount_of_mem_insertions {y : Point × Instr} (h : y ∈ x.insertions r) : y.2.isCount := by
  rcases List.mem_append.mp h with h | h <;>
    obtain ⟨p, -, rfl⟩ := List.mem_map.mp h <;> rfl

/-- The edits of exchanges that fit and have nothing in common. -/
def edits (xs : List Exchange) (r : Routine) : Edits :=
  ⟨xs.flatMap fun x => x.insertions r, xs.flatMap removed⟩

theorem edits_fit (h : ∀ x ∈ xs, x.Fits r k) (hn : (xs.flatMap removed).Nodup) : (edits xs r).Fits r := by
  refine ⟨hn, fun p hp => ?_, fun y hy => ?_⟩
  · obtain ⟨x, hx, hp⟩ := List.mem_flatMap.mp hp
    obtain ⟨i, v, hi, hv, -⟩ := (h x hx).removed hp
    exact ⟨i, hi, by simp [Instr.isCount, hv]⟩
  · obtain ⟨x, hx, hy⟩ := List.mem_flatMap.mp hy
    refine ⟨(h x hx).placed _ ?_, isCount_of_mem_insertions hy⟩
    rw [← map_insertions x r]
    exact List.mem_map_of_mem hy

private theorem tally_added_le (hw : ∀ x ∈ xs, x.Lowers w) :
    tally (fun p => w p.block) (xs.flatMap added) + xs.length ≤ tally (fun p => w p.block) (xs.flatMap removed) := by
  induction xs with
  | nil => exact Nat.le_refl 0
  | cons x xs ih =>
    have hx : _ < _ := hw x (.head _)
    have hxs := ih fun y hy => hw y (.tail _ hy)
    simp only [List.flatMap_cons, tally_append, List.length_cons]
    omega

theorem map_edits_inserts (xs : List Exchange) (r : Routine) :
    (edits xs r).inserts.map Prod.fst = xs.flatMap added := by
  simp only [edits, List.map_flatMap, map_insertions]

/-- Exchanges that each lower a weight lower it together. -/
theorem weigh_applied_lt (h : ∀ x ∈ xs, x.Fits r k) (hn : (xs.flatMap removed).Nodup)
    (hw : ∀ x ∈ xs, x.Lowers w) (hne : xs ≠ []) : ((edits xs r).applied r).weigh w < r.weigh w := by
  have heq := (edits_fit h hn).weigh_applied w
  have hle := tally_added_le hw
  have hpos := List.length_pos_iff.mpr hne
  rw [← map_edits_inserts xs r, tally_map] at hle
  rw [show (edits xs r).deletes = xs.flatMap removed from rfl] at heq
  omega

theorem ne_nil_of_touched (h : (edits xs r).touched ≠ []) : xs ≠ [] := by
  rintro rfl
  exact h rfl

end Exchange

end CountMotion
