import CountMotion.Proofs.Rising
import CountMotion.Proofs.SeedOrder
import CountMotion.Proofs.Sinking

/-! The exchanges that a region finds are moves along valid spans. -/
namespace CountMotion

variable {y : Layout} {frozen : List (BlockId × Var)} {c : Closure} {x : Exchange} {down up : Nat → Option Pending}
  {net : Point → Int} {r : Routine}

theorem Layout.standing_of_found (h : y.Sound) {found : Findings} (hfound : y.flat.findings frozen = .ok found)
    (hx : x ∈ found.exchanges) :
    ∃ c down up, c.Standing y down up ∧ y.flat.exchange frozen c = .ok (some x) :=
  standing_of_findingsFrom h (Flat.findings_eq (indexed h) frozen ▸ hfound) hx

/-- An exchange takes all of a closure, or it merges either side. -/
theorem Flat.exchange_cases {f : Flat} (h : f.exchange frozen c = .ok (some x)) :
    (c.used = false ∧ x = ⟨c.root, c.retains, c.releases, [], []⟩) ∨
    ∃ up down, f.mergeRetains c.root c.retains = .ok up ∧ f.mergeReleases frozen c.root c.releases = .ok down ∧
      x = ⟨c.root, if up.isSome then c.retains else [], if down.isSome then c.releases else [], up.toList,
        down.toList⟩ := by
  rw [Flat.exchange] at h
  split at h
  · obtain ⟨up, hup, h⟩ := bind_eq_ok.mp h
    obtain ⟨down, hdown, h⟩ := bind_eq_ok.mp h
    split at h
    · cases h
    · exact .inr ⟨up, down, hup, hdown, (Option.some.inj (Except.ok.inj h)).symm⟩
  · rename_i hused
    exact .inl ⟨by simpa using hused, (Option.some.inj (Except.ok.inj h)).symm⟩

theorem Flat.merge_of_newRetain {f : Flat} (hf : f.Current) (h : f.exchange frozen c = .ok (some x)) {q : Point}
    (hq : q ∈ x.newRetains) : x.root = c.root ∧ x.retains = c.retains ∧ ∃ target n code,
      f.RetainMerge c.root c.retains target n code ∧ q = ⟨target, code.body.length⟩ ∧
        f.facts.definedBefore f.routine c.root q = .ok true := by
  rcases exchange_cases h with ⟨-, rfl⟩ | ⟨o, o', ho, -, rfl⟩
  · cases hq
  · obtain rfl := Option.mem_toList.mp hq
    obtain ⟨o, hok, hspec⟩ := mergeRetains_total hf c.root c.retains
    obtain rfl := Except.ok.inj (hok.symm.trans ho)
    exact ⟨rfl, rfl, hspec q rfl⟩

theorem Flat.merge_of_newRelease {f : Flat} (hf : f.Current) (h : f.exchange frozen c = .ok (some x)) {q : Point}
    (hq : q ∈ x.newReleases) : x.root = c.root ∧ x.releases = c.releases ∧ ∃ target n code,
      f.ReleaseMerge frozen c.root c.releases target n code ∧ q = ⟨target, 0⟩ ∧
        f.facts.definedBefore f.routine c.root q = .ok true := by
  rcases exchange_cases h with ⟨-, rfl⟩ | ⟨o, o', -, ho, rfl⟩
  · cases hq
  · obtain rfl := Option.mem_toList.mp hq
    obtain ⟨o, hok, hspec⟩ := mergeReleases_total hf frozen c.root c.releases
    obtain rfl := Except.ok.inj (hok.symm.trans ho)
    exact ⟨rfl, rfl, hspec q rfl⟩

structure Exchange.Along (x : Exchange) (zs : List Span) (r : Routine) : Prop where
  valid : ∀ z ∈ zs, z.Valid r
  inserts : zs.flatMap (fun z => z.insertions r) = x.insertions r
  removes : zs.flatMap Span.removed = x.removed

/-- Where the paths to the retains of a closure part, no way leads around or back. -/
def Closure.Guarded (c : Closure) (y : Layout) : Prop :=
  ∀ {target start code fan}, y.flat.RetainMerge c.root c.retains target start code →
    y.Fans c.root c.retains start fan → y.Guards start c.retains

section Merges

variable {root : Var} {members : List Point} {target start : Nat} {code : Block}

theorem exists_fold_blocksOf {common : Nat → Nat → Option Nat}
    (h : ∃ first, (blocksOf members).head? = some first ∧ (blocksOf members).tail.foldlM common first = some target) :
    ∃ first rest, rest.foldlM common first = some target ∧ ∀ b, b ∈ first :: rest ↔ ∃ x ∈ members, x.block = b := by
  obtain ⟨first, hfirst, hcommon⟩ := h
  refine ⟨first, _, hcommon, fun b => ?_⟩
  rw [← List.eq_cons_of_mem_head? hfirst, blocksOf, mem_ascending, List.mem_map]

/-- Merged retains rise to a strict dominator. -/
theorem Flat.RetainMerge.dominates {f : Flat} {g : Graph} {entry : Nat}
    (hm : f.RetainMerge root members target start code) (hdom : f.facts.dom.Exact g entry) {x : Point}
    (hx : x ∈ members) : target ≠ x.block ∧ f.facts.dom.dominates target x.block ∧ g.Dominates entry target x.block := by
  obtain ⟨first, rest, hcommon, hmem⟩ := exists_fold_blocksOf hm.common
  have hne : target ≠ x.block := fun heq => hm.outside (mem_ascending.mpr (heq ▸ List.mem_map_of_mem hx))
  have hdominates := hdom.dominates_of_common hcommon x.block ((hmem _).mpr ⟨x, hx, rfl⟩)
  exact ⟨hne, hdominates, (((hdom.dominates_iff _ _).mp hdominates).resolve_left hne).2⟩

theorem Layout.Views.dominates_of_merge (hv : y.Views) (hm : y.flat.RetainMerge root members target start code)
    {x : Point} (hx : x ∈ members) :
    target ≠ x.block ∧ y.routine.flow.Dominates y.routine.entry target x.block :=
  (hm.dominates hv.describes.sound.dom hx).imp_right And.right

theorem Layout.Views.dominates_merge (hv : y.Views) (hm : y.flat.RetainMerge root members target start code) {b : Nat}
    (hb : ∀ x ∈ members, y.routine.flow.Reaches y.routine.entry x.block ∧
      y.routine.flow.Dominates y.routine.entry b x.block) :
    y.routine.flow.Dominates y.routine.entry b target := by
  have hdom := hv.describes.sound.dom
  obtain ⟨first, rest, hcommon, hmem⟩ := exists_fold_blocksOf hm.common
  have hall : y.facts.dom.dominates b target := by
    refine DomTree.dominates_common hcommon fun a ha => ?_
    obtain ⟨x, hx, rfl⟩ := (hmem a).mp ha
    exact (hdom.dominates_iff _ _).mpr (.inr (hb x hx))
  rcases (hdom.dominates_iff _ _).mp hall with rfl | ⟨-, h⟩
  · exact .refl _ _ _
  · exact h

end Merges

namespace Closure.Standing

private theorem current (hv : y.Views) : y.flat.Current := by
  refine ⟨Layout.indexed hv.sound, fun b n code hown => ?_⟩
  obtain ⟨hplace, rfl, -⟩ := Layout.ownNode_eq_some.mp hown
  exact Routine.getElem?_codeAt (hv.sound.exists_block b (Layout.block_mem_places (List.mem_of_getElem? hplace)).1)

private theorem rise_along (hc : c.Standing y down up) (hv : y.Views) (hn : y.Nets c.root net) (hg : c.Guarded y)
    {o : Option Point} (h : y.flat.mergeRetains c.root c.retains = .ok o) :
    ∃ zs, Exchange.Along ⟨c.root, if o.isSome then c.retains else [], [], o.toList, []⟩ zs y.routine := by
  cases o with
  | none => exact ⟨[], by simp, rfl, rfl⟩
  | some p =>
    obtain ⟨o, ho, hspec⟩ := Flat.mergeRetains_total (current hv) c.root c.retains
    obtain rfl := Except.ok.inj (ho.symm.trans h)
    obtain ⟨target, start, code, hm, rfl, hdef⟩ := hspec p rfl
    obtain ⟨hplace, rfl, hstart⟩ := Layout.ownNode_eq_some.mp hm.own
    have hlt := hv.sound.exists_block target (Layout.block_mem_places (List.mem_of_getElem? hplace)).1
    obtain ⟨fan, hf⟩ := Layout.fans_of_meets hm.meets
    have hrises : c.Rises y net target start fan := ⟨hn, hf, hg hm hf, hplace, hm.apart,
      fun x hx => hv.dominates_of_merge hm hx, hv.describes.available hlt hdef⟩
    have hvalid := hrises.valid hc hv
    exact ⟨[_], by simpa using hvalid, by simp [Span.insertions, riseSpan, Exchange.insertions],
      by simp [Span.removed, riseSpan, Exchange.removed]⟩

private theorem sink_along (hc : c.Standing y down up) (hv : y.Views) (hn : y.Nets c.root net)
    {o : Option Point} (h : y.flat.mergeReleases frozen c.root c.releases = .ok o) :
    ∃ zs, Exchange.Along ⟨c.root, [], if o.isSome then c.releases else [], [], o.toList⟩ zs y.routine := by
  cases o with
  | none => exact ⟨[], by simp, rfl, rfl⟩
  | some p =>
    obtain ⟨o, ho, hspec⟩ := Flat.mergeReleases_total (current hv) frozen c.root c.releases
    obtain rfl := Except.ok.inj (ho.symm.trans h)
    obtain ⟨target, join, code, hm, rfl, hdef⟩ := hspec p rfl
    obtain ⟨hplace, rfl, -⟩ := Layout.ownNode_eq_some.mp hm.own
    have hlt := hv.sound.exists_block target (Layout.block_mem_places (List.mem_of_getElem? hplace)).1
    obtain ⟨below, hs⟩ := Layout.sinks_of_reach hm.reach
    obtain ⟨above, hg⟩ := Layout.gathers_of_follows hm.follows
    have hout : ∀ x ∈ c.releases, x.block ≠ target := fun x hx heq =>
      hm.outside (mem_ascending.mpr (heq ▸ List.mem_map_of_mem hx))
    have hsinks : c.Sinks y net target join above below :=
      ⟨hn, hs, hg, hplace, hout, hv.describes.available hlt hdef⟩
    have hvalid := hsinks.valid hc hv
    exact ⟨[_], by simpa using hvalid, by simp [Span.insertions, sinkSpan, Exchange.insertions],
      by simp [Span.removed, sinkSpan, Exchange.removed]⟩

/-- The exchange of a closure is made of moves along valid spans. -/
theorem exchange_along (hc : c.Standing y down up) (hv : y.Views) (hn : y.Nets c.root net)
    (hcalm : c.used = false → c.Calm y down) (hg : c.Guarded y) (h : y.flat.exchange frozen c = .ok (some x)) :
    ∃ zs, x.Along zs y.routine := by
  rcases Flat.exchange_cases h with ⟨hused, rfl⟩ | ⟨o, o', ho, ho', rfl⟩
  · exact ⟨[c.dropSpan y down up], by simpa using hc.drop_valid hv (hcalm hused),
      by simp [Span.insertions, dropSpan, Exchange.insertions], by simp [Span.removed, dropSpan, Exchange.removed]⟩
  · obtain ⟨zs, hvalid, hins, hrem⟩ := hc.rise_along hv hn hg ho
    obtain ⟨zs', hvalid', hins', hrem'⟩ := hc.sink_along hv hn ho'
    refine ⟨zs ++ zs', fun z hz => (List.mem_append.mp hz).elim (hvalid z) (hvalid' z), ?_, ?_⟩
    · rw [List.flatMap_append, hins, hins']
      simp [Exchange.insertions]
    · rw [List.flatMap_append, hrem, hrem']
      simp [Exchange.removed]

end Closure.Standing

/-- Exchanges that are made of moves along valid spans, and share no operation, keep what runs show. -/
theorem Exchange.preserve {xs : List Exchange} (hr : r.Proper) (h : ∀ x ∈ xs, ∃ zs, x.Along zs r)
    (hn : (xs.flatMap removed).Nodup) : ((edits xs r).applied r).Proper ∧
      ∀ script events, r.Yields script events → ((edits xs r).applied r).Yields script events := by
  obtain ⟨zs, hvalid, hins, hrem⟩ : ∃ zs : List Span, (∀ z ∈ zs, z.Valid r) ∧
      zs.flatMap (fun z => z.insertions r) = xs.flatMap (fun x => x.insertions r) ∧
      zs.flatMap Span.removed = xs.flatMap removed := by
    clear hn
    induction xs with
    | nil => exact ⟨[], by simp, rfl, rfl⟩
    | cons x xs ih =>
      obtain ⟨zs, hvalid, hins, hrem⟩ := h x (.head _)
      obtain ⟨zs', hvalid', hins', hrem'⟩ := ih fun x hx => h x (.tail _ hx)
      refine ⟨zs ++ zs', fun z hz => (List.mem_append.mp hz).elim (hvalid z) (hvalid' z), ?_, ?_⟩
      · rw [List.flatMap_append, List.flatMap_cons, hins, hins']
      · rw [List.flatMap_append, List.flatMap_cons, hrem, hrem']
  have hedits : edits xs r = Span.edits zs r := by rw [edits, Span.edits, hins, hrem]
  rw [hedits]
  exact Span.preserve hr hvalid (hrem ▸ hn)

end CountMotion
