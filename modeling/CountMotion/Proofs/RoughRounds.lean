import CountMotion.Sweep
import CountMotion.Proofs.BareFacts
import CountMotion.Proofs.Matching

/-! No round looks at more than the rough facts, so routines that differ in counts only may share
their facts. -/
namespace CountMotion

theorem Facts.origin_rough (k : Facts) (v : Var) :
    k.rough.identity.origin v = (k.identity.origin v).map Origin.rough := by
  rw [Identity.origin, rough, List.getElem?_map, Identity.origin]
  cases k.identity.origins[v]? <;> rfl

theorem Facts.definedBefore_rough (k : Facts) (r : Routine) (root : Var) (p : Point) :
    k.rough.definedBefore r root p = k.definedBefore r root p := by
  rw [definedBefore, definedBefore, origin_rough]
  cases k.identity.origin root with
  | none => rfl
  | some o => cases o <;> rfl

/-- Facts computed once stay exact however count operations are put in and taken out. Origins may
shift inside their blocks, and still both facts tell alike what is defined before a point. -/
theorem facts_outlast_recounting (r next : Routine) (h : r.check = .ok ()) (hb : next.bare = r.bare) :
    ∃ k k', r.facts = .ok k ∧ next.facts = .ok k' ∧ k'.identity.roots = k.identity.roots ∧
      k'.aliasing = k.aliasing ∧ k'.dom = k.dom ∧ k'.postDom = k.postDom ∧ k'.trapping = k.trapping ∧
      k'.forest = k.forest ∧
      (∀ v, (k'.identity.origin v).map Origin.rough = (k.identity.origin v).map Origin.rough) ∧
      ∀ root p x, next.blocks[p.block]? = some x → p.index ≤ x.body.length →
        ∃ defined, k.definedBefore next root p = .ok defined ∧ k'.definedBefore next root p = .ok defined := by
  have hentry := Routine.entry_lt_of_check h
  obtain ⟨k, hk, -⟩ := Routine.facts_total hentry
  obtain ⟨k', hk', -⟩ := Routine.facts_total (r := next)
    (by rwa [Routine.entry_of_bare hb, Routine.length_of_bare hb])
  have hrough : k'.rough = k.rough := Routine.facts_of_bare hb hk' hk
  refine ⟨k, k', hk, hk', congrArg (·.identity.roots) hrough, congrArg (·.aliasing) hrough,
    congrArg (·.dom) hrough, congrArg (·.postDom) hrough, congrArg (·.trapping) hrough,
    congrArg (·.forest) hrough, ?_, ?_⟩
  · intro v
    rw [← Facts.origin_rough, hrough, Facts.origin_rough]
  · intro root p x hx hp
    obtain ⟨defined, hdefined⟩ := Facts.definedBefore_total (k := k) root hx hp
    refine ⟨defined, hdefined, ?_⟩
    rw [← Facts.definedBefore_rough, hrough, Facts.definedBefore_rough, hdefined]

def builder : Routine where
  name := "builder"
  params := [0, 1]
  blocks := [⟨0, [.construct 2 [], .retain 2 .strong, .release 2 .strong], .ret 1⟩]
  entry := 0
  storage := [.reference, .trivial, .reference]

def lateBuilder : Routine :=
  { builder with blocks := [⟨0, [.retain 0 .strong, .retain 0 .strong, .construct 2 []], .ret 1⟩] }

theorem facts_outlast_recounting_builder : builder.check = .ok () ∧ lateBuilder.bare = builder.bare ∧
    builder.originOf 2 ≠ lateBuilder.originOf 2 ∧
    ∃ k k', builder.facts = .ok k ∧ lateBuilder.facts = .ok k' ∧ k'.identity.roots = k.identity.roots ∧
      k'.aliasing = k.aliasing ∧ k'.dom = k.dom ∧ k'.postDom = k.postDom ∧ k'.trapping = k.trapping ∧
      k'.forest = k.forest ∧
      (∀ v, (k'.identity.origin v).map Origin.rough = (k.identity.origin v).map Origin.rough) ∧
      ∀ root p x, lateBuilder.blocks[p.block]? = some x → p.index ≤ x.body.length →
        ∃ defined, k.definedBefore lateBuilder root p = .ok defined ∧
          k'.definedBefore lateBuilder root p = .ok defined :=
  ⟨rfl, rfl, by decide, facts_outlast_recounting builder lateBuilder rfl rfl⟩

namespace Flat

def rough (f : Flat) : Flat := { f with facts := f.facts.rough }

variable (f : Flat)

theorem placeIfDefined_rough : f.rough.placeIfDefined = f.placeIfDefined := by
  funext root p
  rw [placeIfDefined, placeIfDefined]
  exact congrArg (· >>= _) (f.facts.definedBefore_rough f.routine root p)

theorem exchange_rough (frozen : List (BlockId × Var)) (c : Closure) : f.rough.exchange frozen c = f.exchange frozen c := by
  have hup : f.rough.mergeRetains = f.mergeRetains := by
    funext root retains
    rw [mergeRetains, mergeRetains, placeIfDefined_rough]
    rfl
  have hdown : f.rough.mergeReleases = f.mergeReleases := by
    funext frozen root releases
    rw [mergeReleases, mergeReleases, placeIfDefined_rough]
    rfl
  rw [exchange, exchange, hup, hdown]

theorem findings_rough (frozen : List (BlockId × Var)) : f.rough.findings frozen = f.findings frozen := by
  have hmatch : f.rough.matchSeed = f.matchSeed := by
    funext frozen p seed
    rw [matchSeed, matchSeed]
    simp only [exchange_rough]
  rw [findings, findings, hmatch]
  rfl

end Flat

theorem Flat.build_rough (r : Routine) (k : Facts) (id : RegionId) (summary : Option (RegionId → Option Summary)) :
    Flat.build r k.rough id summary = rough <$> Flat.build r k id summary := by
  have hcontent : contentAt r k.rough (summary.getD fun _ => none) = contentAt r k (summary.getD fun _ => none) := by
    funext place
    cases place <;> rfl
  rw [build, build, hcontent]
  simp only [map_bind, map_pure]
  rfl

namespace SummaryTable

variable (t : SummaryTable) (r : Routine) (k : Facts) (id : RegionId)

theorem compute_rough : t.compute r k.rough id = t.compute r k id := by
  rw [compute, compute, Flat.build_rough]
  simp only [bind_map_left]
  rfl

theorem fill_rough : fill r k.rough = fill r k := by
  funext t id
  rw [fill, fill, compute_rough]

theorem summarize_rough : summarize r k.rough = summarize r k := by
  funext t id
  rw [summarize, summarize, fill_rough]
  rfl

theorem summarizeChildren_rough : t.summarizeChildren r k.rough id = t.summarizeChildren r k id := by
  rw [summarizeChildren, summarizeChildren, summarize_rough]
  rfl

theorem hoists_rough (touched : List Var) : t.hoists r k.rough id touched = t.hoists r k id touched := by
  have hhoist : ∀ s : Summary, s.hoist r k.rough = s.hoist r k := by
    intro s
    funext loop x
    rw [Summary.hoist, Summary.hoist]
    simp only [Facts.definedBefore_rough]
    rfl
  have hof : ∀ t : SummaryTable, t.hoistsOf r k.rough touched = t.hoistsOf r k touched := by
    intro t
    funext child
    rw [hoistsOf, hoistsOf]
    simp only [hhoist]
    rfl
  rw [hoists, hoists, summarizeChildren_rough]
  simp only [hof]
  rfl

end SummaryTable

variable {k k' : Facts}

/-- A round over the whole routine is the same with facts that are roughly the same. -/
theorem Rounds.run_of_rough (h : k.rough = k'.rough) (c : Rounds) (r : Routine) (frozen : Bool) :
    c.run r k frozen = c.run r k' frozen := by
  have hrun : ∀ k : Facts, c.run r k frozen = c.run r k.rough frozen := by
    intro k
    rw [run, run, Flat.whole, Flat.whole, Flat.build_rough]
    simp only [bind_map_left, perform, Flat.findings_rough]
    rfl
  rw [hrun k, h, ← hrun k']

theorem Sweep.round_of_rough (h : k.rough = k'.rough) (s : Sweep) (r : Routine) (id : RegionId) (frozen : Bool) :
    s.round r k id frozen = s.round r k' id frozen := by
  have hround : ∀ k : Facts, s.round r k id frozen = s.round r k.rough id frozen := by
    intro k
    rw [round, round, SummaryTable.summarizeChildren_rough]
    simp only [Flat.build_rough, bind_map_left, Rounds.perform, Flat.findings_rough, SummaryTable.hoists_rough]
    rfl
  rw [hround k, h, ← hround k']

theorem SummaryTable.summarize_of_rough (h : k.rough = k'.rough) (t : SummaryTable) (r : Routine) (id : RegionId) :
    t.summarize r k id = t.summarize r k' id := by
  rw [← summarize_rough r k, h, summarize_rough]

end CountMotion
