import CountMotion.Facts
import CountMotion.Proofs.SoundFacts

/-! What the facts of a routine read stays where it is when count operations move. -/
namespace CountMotion

theorem Instr.target?_of_isCount {i : Instr} (h : i.isCount) : i.target? = none := by
  cases i with
  | retain => rfl
  | release => rfl
  | _ => cases h

namespace Routine

variable {r base : Routine} {v : Var}

theorem filterMap_bare {β : Type} {f : Instr → Option β} (hf : ∀ i, i.isCount → f i = none) (l : List Instr) :
    (l.filter fun i => !i.isCount).filterMap f = l.filterMap f := by
  induction l with
  | nil => rfl
  | cons i l ih =>
    cases hi : i.isCount with
    | false => simp [hi, List.filterMap_cons, ih]
    | true => simp [hi, ih, hf i hi]

private theorem flatMap_bare {β : Type} {f : Instr → List β} (hf : ∀ i, i.isCount → f i = []) (l : List Instr) :
    (l.filter fun i => !i.isCount).flatMap f = l.flatMap f := by
  induction l with
  | nil => rfl
  | cons i l ih =>
    cases hi : i.isCount with
    | false => simp [hi, ih]
    | true => simp [hi, ih, hf i hi]

theorem instrs_bare (r : Routine) : r.bare.instrs = r.instrs.filter fun i => !i.isCount := by
  simp [instrs, bare, Block.bare, List.filter_flatMap, List.flatMap_map]

private def numbered (r : Routine) : List (Instr × BlockId) :=
  r.blocks.flatMap fun b => b.body.map fun i => (i, b.id)

private theorem sites_numbered (r : Routine) : r.sites.map (fun x => (x.1, x.2.block)) = r.numbered := by
  rw [sites, numbered, List.map_flatMap]
  refine List.flatMap_congr fun b _ => ?_
  rw [List.map_map]
  refine List.ext_getElem? fun n => ?_
  simp only [List.getElem?_map, List.getElem?_zipIdx]
  cases b.body[n]? <;> rfl

private theorem numbered_bare (r : Routine) : r.bare.numbered = r.numbered.filter fun x => !x.1.isCount := by
  simp only [numbered, bare, Block.bare, List.filter_flatMap, List.flatMap_map, List.filter_map]
  rfl

private def homeOf (r : Routine) (v : Var) : Option BlockId :=
  ((r.numbered.filter fun x => x.1.target? == some v).getLast?).map Prod.snd

private theorem homeOf_bare (r : Routine) (v : Var) : r.bare.homeOf v = r.homeOf v := by
  rw [homeOf, homeOf, numbered_bare, List.filter_filter]
  congr 2
  refine List.filter_congr fun x _ => ?_
  cases hx : x.1.isCount with
  | false => simp
  | true => simp [Instr.target?_of_isCount hx]

end Routine

/-- Where a variable comes from, but for the position inside the block. -/
def Origin.rough : Origin → Origin
  | .param => .param
  | .instr site => .instr ⟨site.block, 0⟩

/-- The facts, but for the positions of origins inside their blocks. -/
def Facts.rough (k : Facts) : Facts :=
  { k with identity := { k.identity with origins := k.identity.origins.map (Option.map Origin.rough) } }

namespace Routine

variable {r base : Routine} {v : Var}

private theorem rough_originOf (r : Routine) (v : Var) : (r.originOf v).map Origin.rough =
    if v < r.storage.length then
      match r.homeOf v with
      | some b => some (.instr ⟨b, 0⟩)
      | none => if r.params.contains v then some .param else none
    else none := by
  have hhome : r.homeOf v = ((r.sites.filter fun x => x.1.target? == some v).getLast?).map fun x => x.2.block := by
    rw [homeOf, ← sites_numbered, List.filter_map, List.getLast?_map, Option.map_map]
    rfl
  rw [originOf, hhome]
  split
  · cases (r.sites.filter fun x => x.1.target? == some v).getLast? with
    | some x => rfl
    | none =>
      simp only [Option.map_none]
      split <;> rfl
  · rfl

theorem rough_originOf_bare (r : Routine) (v : Var) :
    (r.bare.originOf v).map Origin.rough = (r.originOf v).map Origin.rough := by
  rw [rough_originOf, rough_originOf, homeOf_bare]
  rfl

theorem sourceOf_bare (r : Routine) (v : Var) : r.bare.sourceOf v = r.sourceOf v := by
  have hsites : ∀ r : Routine, (r.sites.filterMap fun x => if x.1.target? == some v then x.1.copied? else none) =
      r.instrs.filterMap fun i => if i.target? == some v then i.copied? else none := by
    intro r
    have hfst : r.sites.map Prod.fst = r.instrs := by
      rw [show (Prod.fst : Instr × Point → Instr) = Prod.fst ∘ fun x => (x.1, x.2.block) from rfl, ← List.map_map,
        sites_numbered, numbered, instrs, List.map_flatMap]
      simp [List.map_map, Function.comp_def]
    rw [← hfst, List.filterMap_map]
    rfl
  rw [sourceOf, sourceOf, hsites, hsites, instrs_bare, filterMap_bare]
  · rfl
  · intro i hi
    rw [Instr.target?_of_isCount hi]
    rfl

private theorem follow_congr {origin origin' : Var → Option Origin} {source source' : Var → Option Var}
    (ho : ∀ v, (origin v).map Origin.rough = (origin' v).map Origin.rough) (hs : ∀ v, source v = source' v)
    (fuel : Nat) (v : Var) : follow origin source fuel v = follow origin' source' fuel v := by
  induction fuel generalizing v with
  | zero => rfl
  | succ fuel ih =>
    have hnone : (origin v).isNone = (origin' v).isNone := by
      simpa using congrArg Option.isNone (ho v)
    rw [follow, follow, hnone, hs]
    split
    · rfl
    · split
      · exact ih _
      · rfl

theorem rootOf_bare (r : Routine) (v : Var) : r.bare.rootOf v = r.rootOf v := by
  rw [rootOf, rootOf, follow_congr r.rough_originOf_bare r.sourceOf_bare]
  rfl

theorem identity_roots_bare (r : Routine) : r.bare.identity.roots = r.identity.roots := by
  rw [identity, identity]
  exact List.map_congr_left fun v _ => r.rootOf_bare v

private theorem root_identity_bare (r : Routine) (v : Var) : r.bare.identity.root v = r.identity.root v := by
  rw [Identity.root, identity_roots_bare, Identity.root]

theorem root_identity (r : Routine) (v : Var) : r.identity.root v = r.rootOf v := by
  rw [Identity.root, identity, List.getElem?_map]
  by_cases hv : v < r.storage.length
  · rw [List.getElem?_range hv]
    rfl
  · rw [List.getElem?_eq_none (by simpa using hv), rootOf, List.getElem?_eq_none (Nat.le_of_not_lt hv)]
    rfl

theorem aliasing_bare (r : Routine) : r.bare.aliasing r.bare.identity = r.aliasing r.identity := by
  have hroot : r.bare.identity.root = r.identity.root := funext r.root_identity_bare
  have hleaves : r.bare.leaves r.bare.identity = r.leaves r.identity := by
    rw [leaves, instrs_bare, filterMap_bare, hroot, leaves]
    · rfl
    · intro i hi
      cases i with
      | construct => cases hi
      | _ => rfl
  have hescaping : r.bare.escaping r.bare.identity = r.escaping r.identity := by
    rw [escaping, instrs_bare, flatMap_bare, hroot, escaping]
    · congr 1
      rw [bare, List.filterMap_map]
      rfl
    · intro i hi
      cases i with
      | retain => rfl
      | release => rfl
      | _ => cases hi
  rw [aliasing, aliasing, hleaves, hescaping, identity_roots_bare]
  rfl

theorem trapping_bare (r : Routine) : r.bare.trapping = r.trapping := by
  have hpass : ∀ t, Trapping.pass r.bare t = Trapping.pass r t := by
    intro t
    rw [Trapping.pass, Trapping.pass, flow_bare]
  have hsettle : ∀ t, Trapping.settle r.bare t = Trapping.settle r t := by
    intro t
    fun_induction Trapping.settle r t with
    | case1 t fault h => rw [Trapping.settle, hpass, h]
    | case2 t next h ih =>
      rw [Trapping.settle, hpass, h]
      exact ih
    | case3 t next h => rw [Trapping.settle, hpass, h]
  rw [trapping, trapping, hsettle, Trapping.start, bare, List.map_map]
  rfl

theorem doomed_of_bare (h : r.bare = base.bare) {b : BlockId} : r.Doomed b ↔ base.Doomed b := by
  obtain ⟨t, ht, hr, -⟩ := r.trapping_settles
  obtain ⟨t', ht', hbase, -⟩ := base.trapping_settles
  have heq : r.trapping = base.trapping := by rw [← r.trapping_bare, h, base.trapping_bare]
  obtain rfl := Except.ok.inj (ht.symm.trans (heq.trans ht'))
  rw [← hr, hbase]

private theorem postDomTree_bare (r : Routine) : r.bare.postDomTree = r.postDomTree := by
  have hback : r.bare.backflow = r.backflow := by rw [backflow, flow_bare, backflow]
  have hzip : r.bare.blocks.zipIdx = r.blocks.zipIdx.map fun x => (x.1.bare, x.2) := by
    rw [bare, List.zipIdx_map]
    rfl
  have hleaving : r.bare.leaving = r.leaving := by
    rw [leaving, hzip, List.filter_map, List.map_map]
    rfl
  have hexit : r.bare.exitflow = r.exitflow := by rw [exitflow, hback, hleaving, exitflow]
  have hentry : r.bare.entryflow = r.entryflow := by
    rw [entryflow, flow_bare, entryflow, bare, List.zip_map_left, List.map_map, List.length_map]
    rfl
  rw [postDomTree, hexit, hentry, postDomTree]
  simp [bare]

/-- The facts of a routine say the same, but for positions inside blocks, when its count
operations are taken out. -/
theorem facts_bare (r : Routine) : Facts.rough <$> r.bare.facts = Facts.rough <$> r.facts := by
  have hdom : r.bare.domTree = r.domTree := by
    rw [domTree, backflow, flow_bare, domTree, backflow]
    rfl
  have hforest : ∀ dom, Forest.build r.bare dom = Forest.build r dom := by
    intro dom
    have hlen : r.bare.blocks.length = r.blocks.length := by rw [bare, List.length_map]
    rw [Forest.build, Forest.build, backflow, flow_bare, backflow, hlen]
    rfl
  have horigins : r.bare.identity.origins.map (Option.map Origin.rough) =
      r.identity.origins.map (Option.map Origin.rough) := by
    rw [identity, identity, List.map_map, List.map_map]
    exact List.map_congr_left fun v _ => r.rough_originOf_bare v
  rw [facts, facts, hdom, postDomTree_bare, trapping_bare]
  simp only [hforest]
  rcases r.domTree with _ | dom
  · rfl
  rcases r.postDomTree with _ | post
  · rfl
  rcases r.trapping with _ | traps
  · rfl
  simp only [bind, Except.bind]
  rcases Forest.build r dom with _ | forest
  · rfl
  refine congrArg Except.ok ?_
  simp only [Facts.rough, horigins, identity_roots_bare, aliasing_bare]

theorem facts_of_bare {k k' : Facts} (h : r.bare = base.bare) (hr : r.facts = .ok k) (hbase : base.facts = .ok k') :
    k.rough = k'.rough := by
  have := r.facts_bare.symm.trans ((congrArg (fun r => Facts.rough <$> r.facts) h).trans base.facts_bare)
  rw [hr, hbase] at this
  exact Except.ok.inj this

end Routine

end CountMotion
