import CountMotion.Proofs.Exchanges
import CountMotion.Proofs.Ledger
import CountMotion.Proofs.MatchReads
import CountMotion.Proofs.Search

/-! Closures draw on the pairing without sharing, and their exchanges fit the routine. -/
namespace CountMotion

section Closures

variable {p : Pairing} {f : Flat} {seed : Point} {c : Closure}

def Closure.Has (c : Closure) : Member → Prop
  | .retain x => x ∈ c.retains
  | .release x => x ∈ c.releases

private theorem Member.retain?_eq_some {m : Member} {x : Point} : m.retain? = some x ↔ m = .retain x := by
  cases m <;> simp [retain?]

private theorem Member.release?_eq_some {m : Member} {x : Point} : m.release? = some x ↔ m = .release x := by
  cases m <;> simp [release?]

namespace Pairing

theorem sound_iff {root : Var} {m : Member} : p.sound root m ↔ ∃ e, p.entry? m = some e ∧ e.loose = false ∧
    e.root = root ∧ e.partners ≠ [] ∧ ∀ q ∈ p.partners m, (p.entry? q).isSome := by
  rw [sound]
  cases p.entry? m with
  | none => simp
  | some e => simp [and_assoc]

theorem mem_members {m : Member} (h : (p.entry? m).isSome) : m ∈ p.members := by
  obtain ⟨e, he⟩ := Option.isSome_iff_exists.mp h
  cases m with
  | retain x => exact List.mem_append_left _ (List.mem_map_of_mem (TombMap.mem_keys_of_get? he))
  | release x => exact List.mem_append_right _ (List.mem_map_of_mem (TombMap.mem_keys_of_get? he))

theorem mem_partners_retain {x : Point} {m : Member} : m ∈ p.partners (.retain x) ↔
    ∃ e d, p.retains.get? x = some e ∧ d ∈ e.partners ∧ m = .release d := by
  simp only [partners, entry?]
  cases p.retains.get? x with
  | none => simp
  | some e => simp [eq_comm]

theorem mem_partners_release {x : Point} {m : Member} : m ∈ p.partners (.release x) ↔
    ∃ e d, p.releases.get? x = some e ∧ d ∈ e.partners ∧ m = .retain d := by
  simp only [partners, entry?]
  cases p.releases.get? x with
  | none => simp
  | some e => simp [eq_comm]

/-- The closure is all that the pairing ties to the seed, sound throughout and in order. -/
structure Closes (p : Pairing) (seed : Point) (c : Closure) : Prop where
  seeded : seed ∈ c.retains
  sound : ∀ {m}, c.Has m → p.sound c.root m
  closed : ∀ {m q}, c.Has m → q ∈ p.partners m → c.Has q
  tied : ∀ {s : Member → Prop}, s (.retain seed) → (∀ m q, s m → q ∈ p.partners m → s q) → ∀ m, c.Has m → s m
  nodup_retains : c.retains.Nodup
  nodup_releases : c.releases.Nodup
  sorted_retains : c.retains.Pairwise fun x y => x.le y
  sorted_releases : c.releases.Pairwise fun x y => x.le y
  used : c.used ↔ ∃ m e, c.Has m ∧ p.entry? m = some e ∧ e.used

private theorem sorted_points (l : List Point) : (sortBy Point.le l).Pairwise fun x y => x.le y := by
  have hle : ∀ x y : Point, x.le y ↔ x.block < y.block ∨ (x.block = y.block ∧ x.index ≤ y.index) := by
    simp [Point.le]
  refine sortBy_sorted (fun x y => ?_) (fun x y z hxy hyz => ?_) l
  · rw [hle, hle]
    rcases Nat.lt_trichotomy x.block y.block with h | h | h
    · exact .inl (.inl h)
    · exact (Nat.le_total x.index y.index).imp (fun hi => .inr ⟨h, hi⟩) fun hi => .inr ⟨h.symm, hi⟩
    · exact .inr (.inl h)
  · rw [hle] at hxy hyz ⊢
    rcases hxy with hxy | ⟨hxy, hi⟩
    · rcases hyz with hyz | ⟨hyz, -⟩
      · exact .inl (Nat.lt_trans hxy hyz)
      · exact .inl (hyz ▸ hxy)
    · rw [hxy]
      exact hyz.imp_right fun h => ⟨h.1, Nat.le_trans hi h.2⟩

theorem closes_of_close (hc : p.close seed = some c) : p.Closes seed c := by
  rw [close, Option.bind_eq_bind, Option.bind_eq_some_iff] at hc
  obtain ⟨e, he, hc⟩ := hc
  dsimp only at hc
  split at hc
  · rename_i hall
    obtain rfl := Option.some.inj hc
    have hsound : ∀ m ∈ explore p.members p.partners [.retain seed] [], p.sound e.root m := List.all_eq_true.mp hall
    have hseed : Member.retain seed ∈ explore p.members p.partners [.retain seed] [] :=
      mem_explore_of_pending (.head _) (mem_members (Option.isSome_iff_exists.mpr ⟨e, he⟩))
    have hclosed : ∀ {m q}, m ∈ explore p.members p.partners [.retain seed] [] → q ∈ p.partners m →
        q ∈ explore p.members p.partners [.retain seed] [] := by
      intro m q hm hq
      obtain ⟨-, -, -, -, -, hpart⟩ := sound_iff.mp (hsound m hm)
      exact explore_closed hm List.not_mem_nil hq (mem_members (hpart q hq))
    have htied : ∀ {s : Member → Prop}, s (.retain seed) → (∀ m q, s m → q ∈ p.partners m → s q) →
        ∀ m ∈ explore p.members p.partners [.retain seed] [], s m := by
      intro s hs hstep
      exact explore_induct (by simp) (by simp [hs]) fun a b _ ha hb _ => hstep a b ha hb
    have hnodup : (explore p.members p.partners [.retain seed] []).Nodup := explore_nodup .nil
    generalize explore p.members p.partners [.retain seed] [] = found at hsound hseed hclosed htied hnodup
    have hretain : ∀ {x}, x ∈ sortBy Point.le (found.filterMap Member.retain?) ↔ .retain x ∈ found := by
      simp [mem_sortBy, Member.retain?_eq_some]
    have hrelease : ∀ {x}, x ∈ sortBy Point.le (found.filterMap Member.release?) ↔ .release x ∈ found := by
      simp [mem_sortBy, Member.release?_eq_some]
    have hhas : ∀ {m root used}, Closure.Has ⟨root, sortBy Point.le (found.filterMap Member.retain?),
        sortBy Point.le (found.filterMap Member.release?), used⟩ m ↔ m ∈ found := by
      intro m root used
      cases m with
      | retain x => exact hretain
      | release x => exact hrelease
    refine ⟨hretain.mpr hseed, fun hm => hsound _ (hhas.mp hm), fun hm hq => hhas.mpr (hclosed (hhas.mp hm) hq),
      fun hs hstep m hm => htied hs hstep m (hhas.mp hm), ?_, ?_, sorted_points _, sorted_points _, ?_⟩
    · refine (sortBy_perm _).nodup_iff.mpr (hnodup.filterMap fun a a' b hb hb' => ?_)
      rw [Member.retain?_eq_some.mp hb, Member.retain?_eq_some.mp hb']
    · refine (sortBy_perm _).nodup_iff.mpr (hnodup.filterMap fun a a' b hb hb' => ?_)
      rw [Member.release?_eq_some.mp hb, Member.release?_eq_some.mp hb']
    · rw [List.any_eq_true]
      constructor
      · rintro ⟨m, hm, hused⟩
        cases hentry : p.entry? m with
        | none => simp [hentry] at hused
        | some e => exact ⟨m, e, hhas.mpr hm, hentry, by simpa [hentry] using hused⟩
      · rintro ⟨m, e, hm, hentry, hused⟩
        exact ⟨m, hhas.mp hm, by simpa [hentry] using hused⟩
  · cases hc

end Pairing

/-- A group of distinct operations on one root, all of which are still in the pairing. -/
structure Closure.Drawn (c : Closure) (p : Pairing) (f : Flat) : Prop where
  retains : ∀ x ∈ c.retains, f.Acts .retain x c.root ∧ (p.retains.get? x).isSome
  releases : ∀ x ∈ c.releases, f.Acts .release x c.root ∧ (p.releases.get? x).isSome
  nodup_retains : c.retains.Nodup
  nodup_releases : c.releases.Nodup
  ne_nil : c.retains ≠ []

theorem Pairing.close_drawn (h : p.Filed f) (hc : p.close seed = some c) : c.Drawn p f := by
  have hcloses := closes_of_close hc
  refine ⟨fun x hx => ?_, fun x hx => ?_, hcloses.nodup_retains, hcloses.nodup_releases,
    List.ne_nil_of_mem hcloses.seeded⟩
  · obtain ⟨e, he, -, hroot, -⟩ := sound_iff.mp (hcloses.sound (m := .retain x) hx)
    exact ⟨hroot ▸ h.retains.get? he, Option.isSome_iff_exists.mpr ⟨e, he⟩⟩
  · obtain ⟨e, he, -, hroot, -⟩ := sound_iff.mp (hcloses.sound (m := .release x) hx)
    exact ⟨hroot ▸ h.releases.get? he, Option.isSome_iff_exists.mpr ⟨e, he⟩⟩

theorem Pairing.Filed.erase (h : p.Filed f) (c : Closure) : (p.erase c).Filed f :=
  ⟨h.retains.foldl_erase _, h.releases.foldl_erase _⟩

end Closures

section Merges

variable {f : Flat} {root : Var} {members : List Point} {target n : Nat} {code : Block}

/-- Where one retain may stand for several: the block that dominates their blocks, when all
paths from its end meet one of them first and none of them leads on to another. -/
structure Flat.RetainMerge (f : Flat) (root : Var) (members : List Point) (target n : Nat) (code : Block) : Prop where
  common : ∃ first, (blocksOf members).head? = some first ∧
    (blocksOf members).tail.foldlM f.facts.dom.common first = some target
  several : 2 ≤ (blocksOf members).length
  outside : target ∉ blocksOf members
  own : f.ownNode? target = some (n, code)
  meets : f.pathsMeet root members n
  apart : ∀ x ∈ members, ¬ f.leadsOn members x

/-- Where one release may stand for several: the block that post-dominates their blocks, when
all paths from them lead to its start and all paths to it come from them. -/
structure Flat.ReleaseMerge (f : Flat) (frozen : List (BlockId × Var)) (root : Var) (members : List Point)
    (target n : Nat) (code : Block) : Prop where
  common : ∃ first, (blocksOf members).head? = some first ∧
    (blocksOf members).tail.foldlM f.facts.postDom.common first = some target
  several : 2 ≤ (blocksOf members).length
  thawed : ∀ x ∈ members, (x.block, root) ∉ frozen
  outside : target ∉ blocksOf members
  own : f.ownNode? target = some (n, code)
  reach : f.reachJoin root members n
  follows : f.followMembers members n

/-- The blocks of the region that stand for themselves have their code from the routine. -/
structure Flat.Current (f : Flat) : Prop where
  indexed : f.Indexed
  code : ∀ b n code, f.ownNode? b = some (n, code) → f.routine.blocks[b]? = some code

theorem Facts.definedBefore_total {k : Facts} {r : Routine} {x : Block} {p : Point} (root : Var)
    (hx : r.blocks[p.block]? = some x) (hp : p.index ≤ x.body.length) :
    ∃ b, k.definedBefore r root p = .ok b := by
  rw [definedBefore]
  split
  · exact ⟨_, rfl⟩
  · exact ⟨_, rfl⟩
  · split
    · rw [Routine.block, hx]
      simp only [bind, Except.bind, if_pos hp]
      exact ⟨_, rfl⟩
    · exact ⟨_, rfl⟩

private theorem placeIfDefined_total {p : Point} {x : Block} (root : Var) (hx : f.routine.blocks[p.block]? = some x)
    (hp : p.index ≤ x.body.length) : ∃ o, f.placeIfDefined root p = .ok o ∧
      ∀ q, o = some q → q = p ∧ f.facts.definedBefore f.routine root p = .ok true := by
  obtain ⟨b, hb⟩ := Facts.definedBefore_total (k := f.facts) root hx hp
  rw [Flat.placeIfDefined, hb]
  refine ⟨_, rfl, fun q hq => ?_⟩
  cases b with
  | false => cases hq
  | true => exact ⟨(Option.some.inj hq).symm, rfl⟩

theorem Flat.ownNode?_lt (h : f.Indexed) (hown : f.ownNode? target = some (n, code)) : n < f.size := by
  simp only [ownNode?, Option.bind_eq_bind, Option.bind_eq_some_iff, Option.ite_none_right_eq_some, Option.some.injEq,
    Prod.mk.injEq] at hown
  obtain ⟨m, hm, -, -, -, rfl, -⟩ := hown
  exact h.located _ m hm

theorem Flat.mergeRetains_total (h : f.Current) (root : Var) (members : List Point) :
    ∃ o, f.mergeRetains root members = .ok o ∧ ∀ p, o = some p → ∃ target n code,
      f.RetainMerge root members target n code ∧ p = ⟨target, code.body.length⟩ ∧
        f.facts.definedBefore f.routine root p = .ok true := by
  have stays : ∃ o, (Except.ok none : Except Fault (Option Point)) = .ok o ∧ ∀ p, o = some p → ∃ target n code,
      f.RetainMerge root members target n code ∧ p = ⟨target, code.body.length⟩ ∧
        f.facts.definedBefore f.routine root p = .ok true := ⟨none, rfl, fun p hp => by cases hp⟩
  rw [mergeRetains]
  split
  · next first second rest hblocks =>
    split
    · next target htarget =>
      by_cases hout : (blocksOf members).contains target
      · rw [if_pos hout]
        exact stays
      · rw [if_neg hout, ownNode_eq h.indexed]
        cases hown : f.ownNode? target with
        | none => exact stays
        | some own =>
          obtain ⟨n, code⟩ := own
          have hlt := ownNode?_lt h.indexed hown
          have hleads : members.anyM (f.leadsToMember members) = .ok (members.any (f.leadsOn members)) :=
            anyM_total fun p _ => leadsToMember_eq h.indexed
          simp only [bind, Except.bind, everyPathMeets_eq h.indexed hlt, hleads]
          cases hmeets : f.pathsMeet root members n with
          | false => exact stays
          | true =>
            cases happart : members.any (f.leadsOn members) with
            | true => exact stays
            | false =>
              obtain ⟨o, ho, hspec⟩ := placeIfDefined_total (p := ⟨target, code.body.length⟩) root
                (h.code target n code hown) (Nat.le_refl _)
              refine ⟨o, ho, fun q hq => ?_⟩
              obtain ⟨rfl, hdef⟩ := hspec q hq
              refine ⟨target, n, code, ⟨⟨first, by rw [hblocks]; rfl, by rw [hblocks]; exact htarget⟩, ?_, ?_, hown,
                hmeets, List.any_eq_false.mp happart⟩, rfl, hdef⟩
              · simp [hblocks]
              · simpa using hout
    · exact stays
  · exact stays

theorem Flat.mergeReleases_total (h : f.Current) (frozen : List (BlockId × Var)) (root : Var)
    (members : List Point) : ∃ o, f.mergeReleases frozen root members = .ok o ∧ ∀ p, o = some p →
      ∃ target n code, f.ReleaseMerge frozen root members target n code ∧ p = ⟨target, 0⟩ ∧
        f.facts.definedBefore f.routine root p = .ok true := by
  have stays : ∃ o, (Except.ok none : Except Fault (Option Point)) = .ok o ∧ ∀ p, o = some p → ∃ target n code,
      f.ReleaseMerge frozen root members target n code ∧ p = ⟨target, 0⟩ ∧
        f.facts.definedBefore f.routine root p = .ok true := ⟨none, rfl, fun p hp => by cases hp⟩
  rw [mergeReleases]
  split
  · next first second rest hblocks =>
    by_cases hthaw : members.any fun p => frozen.contains (p.block, root)
    · rw [if_pos hthaw]
      exact stays
    · rw [if_neg hthaw]
      split
      · next target htarget =>
        by_cases hout : (blocksOf members).contains target
        · rw [if_pos hout]
          exact stays
        · rw [if_neg hout, ownNode_eq h.indexed]
          cases hown : f.ownNode? target with
          | none => exact stays
          | some own =>
            obtain ⟨n, code⟩ := own
            have hlt := ownNode?_lt h.indexed hown
            simp only [bind, Except.bind, membersReachJoin_eq h.indexed, joinFollowsMembers_eq h.indexed hlt]
            cases hreach : f.reachJoin root members n with
            | false => exact stays
            | true =>
              cases hfollow : f.followMembers members n with
              | false => exact stays
              | true =>
                obtain ⟨o, ho, hspec⟩ := placeIfDefined_total (p := ⟨target, 0⟩) root (h.code target n code hown)
                  (Nat.zero_le _)
                refine ⟨o, ho, fun q hq => ?_⟩
                obtain ⟨rfl, hdef⟩ := hspec q hq
                refine ⟨target, n, code, ⟨⟨first, by rw [hblocks]; rfl, by rw [hblocks]; exact htarget⟩, ?_, ?_, ?_,
                  hown, hreach, hfollow⟩, rfl, hdef⟩
                · simp [hblocks]
                · simpa using hthaw
                · simpa using hout
      · exact stays
  · exact stays

end Merges

section Exchanging

variable {f : Flat} {r : Routine} {k : Facts} {c : Closure} {p : Pairing} {w : Nat → Nat}

/-- A flat region of a routine in which merges never go deeper than all that they replace. -/
structure Flat.Sound (f : Flat) (r : Routine) (k : Facts) : Prop where
  routine : f.routine = r
  facts : f.facts = k
  current : f.Current
  root : ∀ {v root}, k.root v = some root → root < r.storage.length
  retain_at : ∀ {x root}, f.Acts .retain x root →
    ∃ v kind, r.instrAt? x = some (.retain v kind) ∧ k.root v = some root
  release_at : ∀ {x root}, f.Acts .release x root →
    ∃ v kind, r.instrAt? x = some (.release v kind) ∧ k.root v = some root
  retain_depth : ∀ {root members target n code}, (∀ x ∈ members, f.Acts .retain x root) →
    f.RetainMerge root members target n code → ∃ x ∈ members, k.forest.depthAt target ≤ k.forest.depthAt x.block
  release_depth : ∀ {frozen root members target n code}, (∀ x ∈ members, f.Acts .release x root) →
    f.ReleaseMerge frozen root members target n code →
      ∃ x ∈ members, k.forest.depthAt target ≤ k.forest.depthAt x.block

/-- Weights that follow the loop depth. -/
structure Facts.Weighs (k : Facts) (w : Nat → Nat) : Prop where
  pos : ∀ a, 0 < w a
  mono : ∀ a b, k.forest.depthAt a ≤ k.forest.depthAt b → w a ≤ w b

private theorem two_le_length {members : List Point} (h : 2 ≤ (blocksOf members).length) : 2 ≤ members.length := by
  have := (List.subperm_of_subset (nodup_ascending (members.map Point.block)) fun b hb => mem_ascending.mp hb).length_le
  rw [List.length_map] at this
  exact Nat.le_trans h this

private theorem length_le_tally (hw : k.Weighs w) (l : List Point) : l.length ≤ tally (fun x => w x.block) l := by
  induction l with
  | nil => exact Nat.le_refl 0
  | cons y l ih =>
    have := hw.pos y.block
    simp only [tally_cons, List.length_cons]
    omega

private theorem lt_tally (hw : k.Weighs w) {members : List Point} {target : Nat} (h : 2 ≤ members.length)
    (hd : ∃ x ∈ members, k.forest.depthAt target ≤ k.forest.depthAt x.block) :
    w target < tally (fun x => w x.block) members := by
  obtain ⟨x, hx, hle⟩ := hd
  obtain ⟨before, after, rfl⟩ := List.append_of_mem hx
  have hx := hw.mono _ _ hle
  have hbefore := length_le_tally hw before
  have hafter := length_le_tally hw after
  simp only [List.length_append, List.length_cons] at h
  simp only [tally_append, tally_cons]
  omega

/-- What an exchange takes from a closure. -/
structure Closure.Yields (c : Closure) (x : Exchange) (r : Routine) (k : Facts) : Prop where
  retains : ∀ q ∈ x.retains, q ∈ c.retains
  releases : ∀ q ∈ x.releases, q ∈ c.releases
  fits : x.Fits r k
  lowers : ∀ w, k.Weighs w → x.Lowers w

private theorem Closure.Drawn.root_lt (hf : f.Sound r k) (hc : c.Drawn p f) : c.root < r.storage.length := by
  obtain ⟨x, hx⟩ := List.exists_mem_of_ne_nil _ hc.ne_nil
  obtain ⟨v, kind, -, hv⟩ := hf.retain_at (hc.retains x hx).1
  exact hf.root hv

private theorem Flat.Sound.delete (hf : f.Sound r k) (hc : c.Drawn p f) :
    c.Yields ⟨c.root, c.retains, c.releases, [], []⟩ r k where
  retains _ hq := hq
  releases _ hq := hq
  fits :=
    { root := hc.root_lt hf
      retains := fun q hq => hf.retain_at (hc.retains q hq).1
      releases := fun q hq => hf.release_at (hc.releases q hq).1
      nodup_retains := hc.nodup_retains
      nodup_releases := hc.nodup_releases
      placed := fun q hq => nomatch hq }
  lowers w hw := by
    have hpos : 0 < (c.retains ++ c.releases).length :=
      List.length_pos_iff.mpr fun hnil => hc.ne_nil (List.append_eq_nil_iff.mp hnil).1
    exact Nat.lt_of_lt_of_le hpos (length_le_tally hw _)

private theorem Flat.Sound.merge (hf : f.Sound r k) (hc : c.Drawn p f) (frozen : List (BlockId × Var))
    {up down : Option Point}
    (hup : ∀ q, up = some q → ∃ target n code, f.RetainMerge c.root c.retains target n code ∧
      q = ⟨target, code.body.length⟩)
    (hdown : ∀ q, down = some q → ∃ target n code, f.ReleaseMerge frozen c.root c.releases target n code ∧
      q = ⟨target, 0⟩)
    (hsome : ¬ (up.isNone && down.isNone)) :
    c.Yields ⟨c.root, if up.isSome then c.retains else [], if down.isSome then c.releases else [],
      up.toList, down.toList⟩ r k := by
  have hplaced : ∀ {b n code}, f.ownNode? b = some (n, code) → b < r.blocks.length := by
    intro b n code hown
    have := hf.current.code b n code hown
    rw [hf.routine] at this
    exact (List.getElem?_eq_some_iff.mp this).1
  -- each side weighs less than what it replaces, or is left as it is
  have hretains : ∀ w, k.Weighs w → (up.isSome → tally (fun q => w q.block) up.toList <
      tally (fun q => w q.block) c.retains) := by
    intro w hw hu
    obtain ⟨q, rfl⟩ := Option.isSome_iff_exists.mp hu
    obtain ⟨target, n, code, hm, rfl⟩ := hup q rfl
    simpa using lt_tally hw (two_le_length hm.several) (hf.retain_depth (fun x hx => (hc.retains x hx).1) hm)
  have hreleases : ∀ w, k.Weighs w → (down.isSome → tally (fun q => w q.block) down.toList <
      tally (fun q => w q.block) c.releases) := by
    intro w hw hd
    obtain ⟨q, rfl⟩ := Option.isSome_iff_exists.mp hd
    obtain ⟨target, n, code, hm, rfl⟩ := hdown q rfl
    simpa using lt_tally hw (two_le_length hm.several) (hf.release_depth (fun x hx => (hc.releases x hx).1) hm)
  have hsub : ∀ (b : Bool) (l : List Point), ∀ q ∈ (if b then l else []), q ∈ l := by
    intro b l q hq
    cases b with
    | false => cases hq
    | true => exact hq
  refine ⟨hsub _ _, hsub _ _, ?_, fun w hw => ?_⟩
  · refine ⟨hc.root_lt hf, fun q hq => hf.retain_at (hc.retains q (hsub _ _ q hq)).1,
      fun q hq => hf.release_at (hc.releases q (hsub _ _ q hq)).1, ?_, ?_, fun q hq => ?_⟩
    · dsimp only
      split
      · exact hc.nodup_retains
      · exact .nil
    · dsimp only
      split
      · exact hc.nodup_releases
      · exact .nil
    · rcases List.mem_append.mp hq with hq | hq
      · obtain ⟨target, n, code, hm, rfl⟩ := hup q (Option.mem_toList.mp hq)
        exact hplaced hm.own
      · obtain ⟨target, n, code, hm, rfl⟩ := hdown q (Option.mem_toList.mp hq)
        exact hplaced hm.own
  · have hu := hretains w hw
    have hd := hreleases w hw
    rw [Exchange.Lowers, Exchange.added, Exchange.removed]
    simp only [tally_append]
    cases up with
    | none =>
      cases down with
      | none => exact absurd rfl hsome
      | some q => simpa using hd rfl
    | some p =>
      cases down with
      | none => simpa using hu rfl
      | some q =>
        have := hu rfl
        have := hd rfl
        simp only [Option.isSome_some, if_true]
        omega

theorem Flat.Sound.exchange (hf : f.Sound r k) (hc : c.Drawn p f) (frozen : List (BlockId × Var)) :
    ∃ o, f.exchange frozen c = .ok o ∧ ∀ x, o = some x → c.Yields x r k := by
  rw [Flat.exchange]
  split
  · obtain ⟨up, hup, huspec⟩ := Flat.mergeRetains_total hf.current c.root c.retains
    obtain ⟨down, hdown, hdspec⟩ := Flat.mergeReleases_total hf.current frozen c.root c.releases
    rw [hup]
    simp only [bind, Except.bind]
    rw [hdown]
    simp only [pure, Except.pure]
    split
    · exact ⟨none, rfl, fun x hx => by cases hx⟩
    · rename_i hsome
      refine ⟨_, rfl, fun x hx => ?_⟩
      obtain rfl := Option.some.inj hx
      refine hf.merge hc frozen (fun q hq => ?_) (fun q hq => ?_) hsome
      · obtain ⟨target, n, code, hm, heq, -⟩ := huspec q hq
        exact ⟨target, n, code, hm, heq⟩
      · obtain ⟨target, n, code, hm, heq, -⟩ := hdspec q hq
        exact ⟨target, n, code, hm, heq⟩
  · refine ⟨_, rfl, fun x hx => ?_⟩
    obtain rfl := Option.some.inj hx
    exact hf.delete hc

/-- The exchanges of a round so far, with the pairing that is left. -/
private structure Collected (f : Flat) (r : Routine) (k : Facts) (p : Pairing) (xs : List Exchange) : Prop where
  filed : p.Filed f
  fits : ∀ x ∈ xs, x.Fits r k
  lowers : ∀ x ∈ xs, ∀ w, k.Weighs w → x.Lowers w
  nodup : (xs.flatMap Exchange.removed).Nodup
  retains_gone : ∀ x ∈ xs, ∀ q ∈ x.retains, p.retains.get? q = none
  releases_gone : ∀ x ∈ xs, ∀ q ∈ x.releases, p.releases.get? q = none

private theorem Collected.matchSeed {xs : List Exchange} (hf : f.Sound r k) (h : Collected f r k p xs)
    (frozen : List (BlockId × Var)) (seed : Point) :
    ∃ p' o, f.matchSeed frozen p seed = .ok (p', o) ∧ Collected f r k p' (xs ++ o.toList) := by
  rw [Flat.matchSeed]
  cases hclose : p.close seed with
  | none => exact ⟨p, none, rfl, by simpa using h⟩
  | some c =>
    have hc := Pairing.close_drawn h.filed hclose
    obtain ⟨o, ho, hspec⟩ := hf.exchange hc frozen
    refine ⟨p.erase c, o, by simp only [ho]; rfl, ?_⟩
    have hretains : ∀ q, p.retains.get? q = none → (p.erase c).retains.get? q = none := by
      intro q hq
      rw [Pairing.erase, TombMap.get?_foldl_erase, hq, ite_self]
    have hreleases : ∀ q, p.releases.get? q = none → (p.erase c).releases.get? q = none := by
      intro q hq
      rw [Pairing.erase, TombMap.get?_foldl_erase, hq, ite_self]
    cases o with
    | none =>
      rw [Option.toList_none, List.append_nil]
      exact ⟨h.filed.erase c, h.fits, h.lowers, h.nodup,
        fun x hx q hq => hretains q (h.retains_gone x hx q hq),
        fun x hx q hq => hreleases q (h.releases_gone x hx q hq)⟩
    | some y =>
      have hy := hspec y rfl
      rw [Option.toList_some]
      refine ⟨h.filed.erase c, ?_, ?_, ?_, ?_, ?_⟩
      · intro x hx
        rcases List.mem_append.mp hx with hx | hx
        · exact h.fits x hx
        · rw [List.mem_singleton.mp hx]
          exact hy.fits
      · intro x hx
        rcases List.mem_append.mp hx with hx | hx
        · exact h.lowers x hx
        · rw [List.mem_singleton.mp hx]
          exact hy.lowers
      · rw [List.flatMap_append, List.flatMap_singleton]
        refine List.nodup_append.mpr ⟨h.nodup, hy.fits.nodup_removed, ?_⟩
        rintro q hq _ hq' rfl
        obtain ⟨x, hx, hqx⟩ := List.mem_flatMap.mp hq
        -- an operation of an earlier exchange is no longer in the pairing, and it keeps its kind
        rcases List.mem_append.mp hqx with hqx | hqx <;> rcases List.mem_append.mp hq' with hq' | hq'
        · have := (hc.retains q (hy.retains q hq')).2
          rw [h.retains_gone x hx q hqx] at this
          cases this
        · obtain ⟨v, kind, hi, -⟩ := (h.fits x hx).retains q hqx
          obtain ⟨v', kind', hi', -⟩ := hy.fits.releases q hq'
          cases hi.symm.trans hi'
        · obtain ⟨v, kind, hi, -⟩ := (h.fits x hx).releases q hqx
          obtain ⟨v', kind', hi', -⟩ := hy.fits.retains q hq'
          cases hi.symm.trans hi'
        · have := (hc.releases q (hy.releases q hq')).2
          rw [h.releases_gone x hx q hqx] at this
          cases this
      · intro x hx q hq
        rcases List.mem_append.mp hx with hx | hx
        · exact hretains q (h.retains_gone x hx q hq)
        · rw [List.mem_singleton.mp hx] at hq
          rw [Pairing.erase, TombMap.get?_foldl_erase, if_pos (hy.retains q hq)]
      · intro x hx q hq
        rcases List.mem_append.mp hx with hx | hx
        · exact hreleases q (h.releases_gone x hx q hq)
        · rw [List.mem_singleton.mp hx] at hq
          rw [Pairing.erase, TombMap.get?_foldl_erase, if_pos (hy.releases q hq)]

/-- A round finds exchanges that fit, share no operation, and each lower the weight. -/
theorem Flat.Sound.findings (hf : f.Sound r k) (frozen : List (BlockId × Var)) :
    ∃ found, f.findings frozen = .ok found ∧ (∀ x ∈ found.exchanges, x.Fits r k) ∧
      (∀ x ∈ found.exchanges, ∀ w, k.Weighs w → x.Lowers w) ∧
      (found.exchanges.flatMap Exchange.removed).Nodup := by
  have hstart : Collected f r k f.paired [] :=
    ⟨f.paired_filed, by simp, by simp, by simp, by simp, by simp⟩
  obtain ⟨⟨p, xs⟩, hok, h⟩ := foldlM_total
    (f := fun (s : Pairing × List Exchange) seed => do
      let x ← f.matchSeed frozen s.1 seed
      return (x.1, s.2 ++ x.2.toList))
    (fun _ s => Collected f r k s.1 s.2) (l := f.paired.retains.keys) (b := (f.paired, [])) hstart
    (by
      rintro - seed - ⟨p, xs⟩ - h
      obtain ⟨p', o, ho, h'⟩ := h.matchSeed hf frozen seed
      exact ⟨(p', xs ++ o.toList), by simp only [ho]; rfl, h'⟩)
  refine ⟨⟨xs, f.paired.nested⟩, ?_, h.fits, h.lowers, h.nodup⟩
  rw [Flat.findings]
  exact bind_eq_ok.mpr ⟨_, pairing_eq hf.current.indexed, bind_eq_ok.mpr ⟨_, hok, rfl⟩⟩

end Exchanging

end CountMotion
