import CountMotion.Proofs.FreshSummaries
import CountMotion.Proofs.Hoisting

/-! A table of summaries stays right through any history of requests and new bodies, as long as
it is told which blocks got them. -/
namespace CountMotion

def Routine.rewrite (r : Routine) (touched : List BlockId) (bodies : BlockId → List Instr) : Routine :=
  { r with blocks := r.blocks.mapIdx fun b x => if b ∈ touched then { x with body := bodies b } else x }

namespace Routine

variable {touched : List BlockId} {bodies : BlockId → List Instr}

theorem frame_rewrite (r : Routine) (touched : List BlockId) (bodies : BlockId → List Instr) :
    (r.rewrite touched bodies).frame = r.frame := by
  rw [frame, frame, rewrite]
  congr 1
  refine List.ext_getElem? fun b => ?_
  simp only [List.getElem?_map, List.getElem?_mapIdx, Option.map_map]
  cases r.blocks[b]? with
  | none => rfl
  | some x => by_cases hb : b ∈ touched <;> simp [hb]

theorem getElem?_rewrite (r : Routine) {b : Nat} (hb : b ∉ touched) :
    (r.rewrite touched bodies).blocks[b]? = r.blocks[b]? := by
  rw [rewrite, List.getElem?_mapIdx]
  cases r.blocks[b]? with
  | none => rfl
  | some x => simp [hb]

end Routine

namespace SummaryTable

/-- What a table goes through: requests for the summary of a loop, for those of the children of a
region and for the hoists out of them, and new bodies in the blocks reported as touched. -/
inductive Request where
  | summarize (id : RegionId)
  | summarizeChildren (id : RegionId)
  | hoists (id : RegionId) (spared : List Var)
  | rewrite (touched : List BlockId) (bodies : BlockId → List Instr)

namespace Request

/-- The routine and the table after a request. -/
def answer (k : Facts) (s : Routine × SummaryTable) : Request → Except Fault (Routine × SummaryTable)
  | summarize id => do return (s.1, ← s.2.summarize s.1 k id)
  | summarizeChildren id => do return (s.1, ← s.2.summarizeChildren s.1 k id)
  | hoists id spared => do return (s.1, (← s.2.hoists s.1 k id spared).1)
  | rewrite touched bodies => do return (s.1.rewrite touched bodies, ← s.2.invalidate k touched)

def Known (f : Forest) : Request → Prop
  | summarize id | summarizeChildren id | hoists id _ => id < f.regions.length
  | rewrite _ _ => True

variable {k : Facts} {s : Routine × SummaryTable} {q : Request}

/-- Every request is answered and leaves the table right for the routine as it is then. -/
theorem answer_fresh (hk : k.Sound s.1) (hs : s.2.Fresh s.1 k) (hq : q.Known k.forest) :
    ∃ s', q.answer k s = .ok s' ∧ k.Sound s'.1 ∧ s'.2.Fresh s'.1 k := by
  have hcurrent := hs.current hk
  cases q with
  | summarize id =>
    obtain ⟨t, ht, -⟩ := summarize_total hk hcurrent hq
    exact ⟨(s.1, t), by rw [answer, ht]; rfl, hk, (hs.summarize hk hq ht).1⟩
  | summarizeChildren id =>
    have hr := List.getElem?_eq_getElem hq
    obtain ⟨t, ht, -⟩ := summarizeChildren_total hk hcurrent hr
    exact ⟨(s.1, t), by rw [answer, ht]; rfl, hk, (hs.summarizeChildren hk hr ht).1⟩
  | hoists id spared =>
    have hr := List.getElem?_eq_getElem hq
    obtain ⟨t, found, ht, -⟩ := hoists_total hk hcurrent hr spared
    exact ⟨(s.1, t), by rw [answer, ht]; rfl, hk, (hs.hoists hk hr ht).1⟩
  | rewrite touched bodies =>
    have hframe := s.1.frame_rewrite touched bodies
    exact ⟨_, by rw [answer, invalidate_eq _ hk]; rfl, hk.of_frame hframe,
      hs.without hk hframe fun b hb => s.1.getElem?_rewrite hb⟩

theorem answers_fresh {requests : List Request} (hk : k.Sound s.1) (hs : s.2.Fresh s.1 k)
    (hq : ∀ q ∈ requests, q.Known k.forest) :
    ∃ s', requests.foldlM (answer k) s = .ok s' ∧ k.Sound s'.1 ∧ s'.2.Fresh s'.1 k := by
  refine foldlM_total (fun _ (s : Routine × SummaryTable) => k.Sound s.1 ∧ s.2.Fresh s.1 k) ⟨hk, hs⟩
    fun before q after s hl hinv => ?_
  exact answer_fresh hinv.1 hinv.2 (hq q (by rw [← hl]; simp))

end Request

variable {r : Routine} {k : Facts} {t : SummaryTable} {id : Nat}

theorem Fresh.exists_region (h : t.Fresh r k) (hsome : (t.get? id).isSome) :
    ∃ region, k.forest.regions[id]? = some region := by
  obtain ⟨s, hs⟩ := Option.isSome_iff_exists.mp hsome
  cases h.summed id s hs with
  | of hr => exact ⟨_, hr⟩

/-- A summary of a fresh table is what an empty table would get. -/
theorem Fresh.eq_anew (hk : k.Sound r) (h : t.Fresh r k) {s : Summary} (hs : t.get? id = some s) :
    ∃ anew, (empty k.forest).summarize r k id = .ok anew ∧ anew.get? id = some s := by
  have hsome := Option.isSome_iff_exists.mpr ⟨s, hs⟩
  have hne : id ≠ 0 := by
    rintro rfl
    cases hs.symm.trans h.whole
  obtain ⟨region, hr⟩ := h.exists_region hsome
  obtain ⟨anew, s', hanew, hfresh, hs'⟩ := summarize_anew hk (List.getElem?_eq_some_iff.mp hr).1 hne
  exact ⟨anew, hanew, (h.get?_eq hk hfresh hsome (Option.isSome_iff_exists.mpr ⟨s', hs'⟩)).trans hs⟩

/-- Beside the summary of a loop, a fresh table has those of all loops in it. -/
theorem Fresh.isSome_inner (hk : k.Sound r) (h : t.Fresh r k) {outer inner : Nat} {l m : Region}
    (hl : k.forest.IsLoop outer l) (hm : k.forest.IsLoop inner m) (hin : ∀ b ∈ m.blocks, b ∈ l.blocks)
    (hsome : (t.get? outer).isSome) : (t.get? inner).isSome := by
  refine hk.forest.nested_induct (motive := fun i => (t.get? i).isSome) (fun i p hp hsome => ?_) hl hsome hm ?_
  · obtain ⟨region, hr⟩ := h.exists_region hsome
    exact h.nested hr hsome i (((hk.forest.children hr).2 i).mpr hp)
  · exact List.contains_iff_mem.mpr (hin _ (List.contains_iff_mem.mp (hk.forest.holds_header hm)))

end SummaryTable

/-- Through every history of requests and reported rewrites, the summaries in the table are those
that an empty table would compute for the routine as it is, and with a loop all loops in it have
theirs. -/
theorem table_stays_coherent (r : Routine) (k : Facts) (h : r.check = .ok ()) (hk : r.facts = .ok k)
    (requests : List SummaryTable.Request) (hq : ∀ q ∈ requests, q.Known k.forest) :
    ∃ next t, requests.foldlM (SummaryTable.Request.answer k) (r, .empty k.forest) = .ok (next, t) ∧
      (∀ id s, t.get? id = some s → ∃ anew, (SummaryTable.empty k.forest).summarize next k id = .ok anew ∧
        anew.get? id = some s) ∧
      ∀ outer inner l m, k.forest.IsLoop outer l → k.forest.IsLoop inner m → (∀ b ∈ m.blocks, b ∈ l.blocks) →
        (t.get? outer).isSome → (t.get? inner).isSome := by
  obtain ⟨k', hk', hsound⟩ := Routine.facts_total (Routine.entry_lt_of_check h)
  obtain rfl := Except.ok.inj (hk.symm.trans hk')
  obtain ⟨⟨next, t⟩, hrun, hnext, hfresh⟩ :=
    SummaryTable.Request.answers_fresh (s := (r, .empty k.forest)) hsound (SummaryTable.empty_fresh k r) hq
  exact ⟨next, t, hrun, fun id s hs => hfresh.eq_anew hnext hs, fun outer inner l m hl hm hin hsome =>
    hfresh.isSome_inner hnext hl hm hin hsome⟩

def nestedLoops : Routine where
  name := "nested_loops"
  params := [0, 1]
  blocks := [
    ⟨0, [], .jump 1⟩,
    ⟨1, [], .branch 1 2 4⟩,
    ⟨2, [.retain 0 .strong, .release 0 .strong], .branch 1 2 3⟩,
    ⟨3, [], .jump 1⟩,
    ⟨4, [], .ret 1⟩]
  entry := 0
  storage := [.reference, .trivial]

theorem table_stays_coherent_nestedLoops :
    nestedLoops.check = .ok () ∧ ∃ k requests, nestedLoops.facts = .ok k ∧
      requests = [.summarize 1, .rewrite [3] fun _ => [.retain 0 .strong], .hoists 1 [], .summarizeChildren 0] ∧
      (∀ q ∈ requests, q.Known k.forest) ∧
      ∃ next t, requests.foldlM (SummaryTable.Request.answer k) (nestedLoops, .empty k.forest) = .ok (next, t) ∧
        (∀ id s, t.get? id = some s → ∃ anew, (SummaryTable.empty k.forest).summarize next k id = .ok anew ∧
          anew.get? id = some s) ∧
        ∀ outer inner l m, k.forest.IsLoop outer l → k.forest.IsLoop inner m → (∀ b ∈ m.blocks, b ∈ l.blocks) →
          (t.get? outer).isSome → (t.get? inner).isSome := by
  obtain ⟨k, hk, -⟩ := Routine.facts_total (r := nestedLoops) (by decide)
  have hsize : nestedLoops.facts.toOption.map (·.forest.regions.length) = some 3 := by decide +kernel
  have hthree : k.forest.regions.length = 3 := by
    rw [hk] at hsize
    exact Option.some.inj hsize
  have hknown : ∀ q ∈ [SummaryTable.Request.summarize 1, .rewrite [3] fun _ => [.retain 0 .strong], .hoists 1 [],
      .summarizeChildren 0], q.Known k.forest := by
    simp [SummaryTable.Request.Known, hthree]
  exact ⟨rfl, k, _, hk, rfl, hknown, table_stays_coherent nestedLoops k rfl hk _ hknown⟩

end CountMotion
