import CountMotion.Pass
import CountMotion.Proofs.BareFacts
import CountMotion.Proofs.Execution
import CountMotion.Proofs.LastingFacts
import CountMotion.Proofs.PassEffect

/-! The contract as a property of routines, and what a run leaves of it: every breach after a run
is a count of a trivial variable that some counted variable copies. -/
namespace CountMotion

namespace Routine

variable {r base wider : Routine} {odd : Var → Prop}

/-- The contract, but for counts of odd variables that are trivial. -/
structure Lawful (r : Routine) (odd : Var → Prop) : Prop where
  entry : r.entry < r.blocks.length
  params : ∀ v ∈ r.params, v < r.storage.length
  numbered : ∀ (b : Nat) (x : Block), r.blocks[b]? = some x → x.id = b
  known : ∀ x ∈ r.blocks, ∀ i ∈ x.body, ∀ v ∈ i.target?.toList ++ i.operands, v < r.storage.length
  counted : ∀ x ∈ r.blocks, ∀ i ∈ x.body, ∀ v : Var, i.counts? = some v → r.storage[v]? = some .trivial → odd v
  known_term : ∀ x ∈ r.blocks, ∀ v ∈ x.term.operands, v < r.storage.length
  targets : ∀ x ∈ r.blocks, ∀ t ∈ x.term.targets, t < r.blocks.length

private theorem mem_varBreaches {breach : Breach} {vars : List Var} :
    breach ∈ r.varBreaches vars ↔ ∃ v ∈ vars, ¬ v < r.storage.length ∧ breach = .unknownVar v := by
  simp only [varBreaches, List.mem_map, List.mem_filter, Bool.not_eq_true', decide_eq_false_iff_not, and_assoc,
    eq_comm (a := breach)]

private theorem mem_instrBreaches {breach : Breach} {b : BlockId} {i : Instr} : breach ∈ r.instrBreaches b i ↔
    (∃ v ∈ i.target?.toList ++ i.operands, ¬ v < r.storage.length ∧ breach = .unknownVar v) ∨
      ∃ v, i.counts? = some v ∧ r.storage[v]? = some .trivial ∧ breach = .trivialCount b v := by
  simp only [instrBreaches, List.mem_append, mem_varBreaches, List.mem_map, List.mem_filter, Option.mem_toList,
    beq_iff_eq, and_assoc, eq_comm (a := breach)]

private theorem mem_blockBreaches {breach : Breach} {index : Nat} {x : Block} : breach ∈ r.blockBreaches index x ↔
    (x.id ≠ index ∧ breach = .misnumbered index x.id) ∨ (∃ i ∈ x.body, breach ∈ r.instrBreaches x.id i) ∨
      (∃ v ∈ x.term.operands, ¬ v < r.storage.length ∧ breach = .unknownVar v) ∨
      ∃ t ∈ x.term.targets, ¬ t < r.blocks.length ∧ breach = .danglingTarget x.id t := by
  simp only [blockBreaches, List.mem_append, List.mem_flatMap, mem_varBreaches, or_assoc]
  refine or_congr ?_ (or_congr Iff.rfl (or_congr Iff.rfl ?_))
  · by_cases h : x.id = index <;> simp [h]
  · simp only [List.mem_map, List.mem_filter, Bool.not_eq_true', decide_eq_false_iff_not, and_assoc,
      eq_comm (a := breach)]

private theorem mem_breaches {breach : Breach} : breach ∈ r.breaches ↔
    (r.blocks = [] ∧ breach = .noBlocks) ∨ (¬ r.entry < r.blocks.length ∧ breach = .badEntry r.entry) ∨
      (∃ v ∈ r.params, ¬ v < r.storage.length ∧ breach = .unknownVar v) ∨
      ∃ index x, r.blocks[index]? = some x ∧ breach ∈ r.blockBreaches index x := by
  simp only [breaches, List.mem_append, List.mem_flatMap, mem_varBreaches, or_assoc, Prod.exists,
    List.mem_zipIdx_iff_getElem?]
  refine or_congr ?_ (or_congr ?_ (or_congr Iff.rfl ?_))
  · cases r.blocks <;> simp
  · by_cases h : r.entry < r.blocks.length <;> simp [h]
  · exact exists_comm

/-- All that a lawful routine can break is the rule on trivial counts, at odd variables. -/
theorem Lawful.breach (h : r.Lawful odd) {breach : Breach} (hb : breach ∈ r.breaches) :
    ∃ b v, breach = .trivialCount b v ∧ odd v ∧ r.storage[v]? = some .trivial := by
  rcases mem_breaches.mp hb with ⟨hnil, -⟩ | ⟨hentry, -⟩ | ⟨v, hv, hlt, -⟩ | ⟨index, x, hx, hb⟩
  · have := h.entry
    rw [hnil] at this
    exact absurd this (Nat.not_lt_zero _)
  · exact absurd h.entry hentry
  · exact absurd (h.params v hv) hlt
  have hmem := List.mem_of_getElem? hx
  rcases mem_blockBreaches.mp hb with ⟨hne, -⟩ | ⟨i, hi, hb⟩ | ⟨v, hv, hlt, -⟩ | ⟨t, ht, hlt, -⟩
  · exact absurd (h.numbered index x hx) hne
  · rcases mem_instrBreaches.mp hb with ⟨v, hv, hlt, -⟩ | ⟨v, hv, htrivial, rfl⟩
    · exact absurd (h.known x hmem i hi v hv) hlt
    · exact ⟨x.id, v, rfl, h.counted x hmem i hi v hv htrivial, htrivial⟩
  · exact absurd (h.known_term x hmem v hv) hlt
  · exact absurd (h.targets x hmem t ht) hlt

theorem breaches_of_check (h : r.check = .ok ()) : r.breaches = [] := by
  rw [check] at h
  split at h
  · assumption
  · cases h

theorem check_of_breaches (h : r.breaches = []) : r.check = .ok () := by
  rw [check, h]

theorem lawful_of_check (h : r.check = .ok ()) (odd : Var → Prop) : r.Lawful odd := by
  have hno : ∀ breach, breach ∉ r.breaches := by
    rw [breaches_of_check h]
    exact fun _ => List.not_mem_nil
  have hblock : ∀ x ∈ r.blocks, ∃ index, ∀ breach, breach ∉ r.blockBreaches index x := by
    intro x hx
    obtain ⟨index, hget⟩ := List.getElem?_of_mem hx
    exact ⟨index, fun breach hb => hno breach (mem_breaches.mpr (.inr (.inr (.inr ⟨index, x, hget, hb⟩))))⟩
  refine ⟨entry_lt_of_check h, fun v hv => ?_, fun b x hx => ?_, fun x hx i hi v hv => ?_,
    fun x hx i hi v hv htrivial => ?_, fun x hx v hv => ?_, fun x hx t ht => ?_⟩ <;> by_contra hne
  · exact hno _ (mem_breaches.mpr (.inr (.inr (.inl ⟨v, hv, hne, rfl⟩))))
  · exact hno _ (mem_breaches.mpr (.inr (.inr (.inr ⟨b, x, hx, mem_blockBreaches.mpr (.inl ⟨hne, rfl⟩)⟩))))
  · obtain ⟨index, hnone⟩ := hblock x hx
    exact hnone _ (mem_blockBreaches.mpr (.inr (.inl ⟨i, hi, mem_instrBreaches.mpr (.inl ⟨v, hv, hne, rfl⟩)⟩)))
  · obtain ⟨index, hnone⟩ := hblock x hx
    exact hnone _ (mem_blockBreaches.mpr (.inr (.inl ⟨i, hi, mem_instrBreaches.mpr (.inr ⟨v, hv, htrivial, rfl⟩)⟩)))
  · obtain ⟨index, hnone⟩ := hblock x hx
    exact hnone _ (mem_blockBreaches.mpr (.inr (.inr (.inl ⟨v, hv, hne, rfl⟩))))
  · obtain ⟨index, hnone⟩ := hblock x hx
    exact hnone _ (mem_blockBreaches.mpr (.inr (.inr (.inr ⟨t, ht, hne, rfl⟩))))

/-- The facts of a routine that keeps the contract describe it. -/
theorem describes_of_check {k : Facts} (h : r.check = .ok ()) (hk : r.facts = .ok k) : k.Describes r := by
  have hlawful := lawful_of_check h fun _ => True
  obtain ⟨k', hk', hdescribes⟩ := facts_describe hlawful.entry hlawful.numbered
  exact Except.ok.inj (hk.symm.trans hk') ▸ hdescribes

theorem Lawful.single (h : r.Lawful odd) (honce : r.Once) : r.Single := by
  refine ⟨fun p i v hi hv => ?_, honce⟩
  obtain ⟨x, hx, hi⟩ := Option.bind_eq_some_iff.mp hi
  exact h.known x (List.mem_of_getElem? hx) i (List.mem_of_getElem? hi) v
    (List.mem_append_left _ (Option.mem_toList.mpr hv))

theorem Lawful.wired (h : r.Lawful odd) : r.Wired := by
  refine ⟨h.entry, fun b t ht => ?_⟩
  cases hx : r.blocks[b]? with
  | none =>
    rw [codeAt, hx] at ht
    cases ht
  | some x =>
    rw [codeAt_eq hx] at ht
    exact h.targets x (List.mem_of_getElem? hx) t ht

end Routine

theorem Instr.vars_of_counts? {i : Instr} {v : Var} (h : i.counts? = some v) : i.target?.toList ++ i.operands = [v] := by
  cases i with
  | retain => exact congrArg ([·]) (Option.some.inj h)
  | release => exact congrArg ([·]) (Option.some.inj h)
  | _ => cases h

namespace Edits

variable {e : Edits} {i : Instr}

private theorem mem_weave {deleted : Nat → Bool} {inserts : List (Nat × Instr)} {index : Nat} {body : List Instr}
    (h : i ∈ weave deleted inserts index body) : i ∈ body ∨ ∃ x ∈ inserts, x.2 = i := by
  induction body generalizing inserts index with
  | nil => exact .inr (List.mem_map.mp h)
  | cons a body ih =>
    simp only [weave, List.mem_append] at h
    rcases h with (h | h) | h
    · obtain ⟨x, hx, hxi⟩ := List.mem_map.mp h
      exact .inr ⟨x, (List.takeWhile_sublist _).subset hx, hxi⟩
    · split at h
      · cases h
      · exact .inl (List.mem_singleton.mp h ▸ .head _)
    · rcases ih h with h | ⟨x, hx, hxi⟩
      · exact .inl (.tail _ h)
      · exact .inr ⟨x, (List.dropWhile_sublist _).subset hx, hxi⟩

theorem mem_newBody {b : Nat} {body : List Instr} (h : i ∈ e.newBody b body) :
    i ∈ body ∨ ∃ x ∈ e.inserts, x.1.block = b ∧ x.2 = i := by
  refine (mem_weave h).imp_right ?_
  rintro ⟨x, hx, rfl⟩
  obtain ⟨y, hy, rfl⟩ := List.mem_map.mp (mem_sortBy.mp hx)
  obtain ⟨hy, hb⟩ := List.mem_filter.mp hy
  exact ⟨y, hy, beq_iff_eq.mp hb, rfl⟩

end Edits

theorem Terminator.operands_redirect (old new : BlockId) (t : Terminator) :
    (t.redirect old new).operands = t.operands := by
  cases t <;> rfl

theorem Terminator.targets_redirect (old new : BlockId) (t : Terminator) :
    (t.redirect old new).targets = t.targets.map (redirect.swap old new) := by
  cases t with
  | switch v cases fallback => simp [redirect, targets, Function.comp_def]
  | _ => rfl

theorem Terminator.mem_targets_redirect {old new target : BlockId} {t : Terminator}
    (h : target ∈ (t.redirect old new).targets) : target ∈ t.targets ∨ target = new := by
  rw [targets_redirect] at h
  obtain ⟨x, hx, rfl⟩ := List.mem_map.mp h
  rw [redirect.swap]
  split
  · exact .inr rfl
  · exact .inl hx

theorem Facts.Round.rooted {r next : Routine} {k : Facts} {a b : Stats} {xs : List Exchange} {touched : Bool}
    (h : k.Round r a xs next b touched) {x : Exchange} (hx : x ∈ xs) : ∃ v, k.root v = some x.root := by
  have hne : x.removed ≠ [] := by
    intro hnil
    have hlow := h.lowers x hx
    rw [Exchange.Lowers, hnil, tally_nil] at hlow
    exact Nat.not_lt_zero _ hlow
  obtain ⟨p, hp⟩ := List.exists_mem_of_ne_nil _ hne
  obtain ⟨i, v, -, -, hv⟩ := (h.fits x hx).removed hp
  exact ⟨v, hv⟩

namespace Routine.Lawful

variable {r base wider next last : Routine} {odd : Var → Prop} {k : Facts} {xs : List Exchange} {a b c : Stats}
  {touched : Bool} {log : List RoundRecord}

/-- Edits that put in count operations on known variables keep a routine lawful. -/
theorem applied {e : Edits} (h : r.Lawful odd) (hnew : ∀ y ∈ e.inserts, ∃ v, y.2.counts? = some v ∧
    v < r.storage.length ∧ (r.storage[v]? = some .trivial → odd v)) : (e.applied r).Lawful odd := by
  have hlen : (e.applied r).blocks.length = r.blocks.length := List.length_mapIdx
  have hblock : ∀ {b : Nat} {x : Block}, (e.applied r).blocks[b]? = some x →
      ∃ y, r.blocks[b]? = some y ∧ x = { y with body := e.newBody b y.body } := by
    intro b x hx
    rw [Edits.applied, List.getElem?_mapIdx] at hx
    obtain ⟨y, hy, rfl⟩ := Option.map_eq_some_iff.mp hx
    exact ⟨y, hy, rfl⟩
  have hold : ∀ x ∈ (e.applied r).blocks, ∃ b y, y ∈ r.blocks ∧ x = { y with body := e.newBody b y.body } := by
    intro x hx
    obtain ⟨b, hb⟩ := List.getElem?_of_mem hx
    obtain ⟨y, hy, rfl⟩ := hblock hb
    exact ⟨b, y, List.mem_of_getElem? hy, rfl⟩
  refine ⟨hlen ▸ h.entry, h.params, fun b x hx => ?_, fun x hx i hi v hv => ?_, fun x hx i hi v hv htrivial => ?_,
    fun x hx v hv => ?_, fun x hx t ht => ?_⟩
  · obtain ⟨y, hy, rfl⟩ := hblock hx
    exact h.numbered b y hy
  · obtain ⟨b, y, hy, rfl⟩ := hold x hx
    rcases Edits.mem_newBody hi with hi | ⟨z, hz, -, rfl⟩
    · exact h.known y hy i hi v hv
    · obtain ⟨w, hw, hlt, -⟩ := hnew z hz
      rw [Instr.vars_of_counts? hw] at hv
      exact List.mem_singleton.mp hv ▸ hlt
  · obtain ⟨b, y, hy, rfl⟩ := hold x hx
    rcases Edits.mem_newBody hi with hi | ⟨z, hz, -, rfl⟩
    · exact h.counted y hy i hi v hv htrivial
    · obtain ⟨w, hw, -, hodd⟩ := hnew z hz
      obtain rfl := Option.some.inj (hw.symm.trans hv)
      exact hodd htrivial
  · obtain ⟨b, y, hy, rfl⟩ := hold x hx
    exact h.known_term y hy v hv
  · obtain ⟨b, y, hy, rfl⟩ := hold x hx
    exact hlen ▸ h.targets y hy t ht

/-- A round keeps a routine lawful if the trivial roots at which it puts operations are odd. -/
theorem round (h : r.Lawful odd) (hround : k.Round r a xs next b touched)
    (hodd : ∀ x ∈ xs, x.added ≠ [] → r.storage[x.root]? = some .trivial → odd x.root) : next.Lawful odd := by
  rw [hround.next_eq]
  refine h.applied fun y hy => ?_
  obtain ⟨x, hx, hy⟩ := List.mem_flatMap.mp hy
  have hcounts : y.2.counts? = some x.root := by
    rcases List.mem_append.mp hy with hy | hy <;> obtain ⟨p, -, rfl⟩ := List.mem_map.mp hy <;> rfl
  refine ⟨x.root, hcounts, (hround.fits x hx).root, hodd x hx ?_⟩
  rw [← Exchange.map_insertions x r]
  exact List.ne_nil_of_mem (List.mem_map_of_mem hy)

theorem descends (h : r.Lawful odd) (hd : k.Descends r a log last c) (hodd : ∀ v root, k.root v = some root → odd root) :
    last.Lawful odd := by
  induction hd with
  | nil => exact h
  | cons hround _ ih =>
    refine ih (h.round hround fun x hx _ _ => ?_)
    obtain ⟨v, hv⟩ := hround.rooted hx
    exact hodd v x.root hv

theorem settles {frozen : Bool} {d d' : Rounds} (hk : k.Sound r) (h : r.Lawful odd)
    (hs : Rounds.Settles k frozen d r log d' last) : k.Sound last ∧ last.Lawful odd := by
  have hrun : ∀ {c c' : Rounds} {r next : Routine} {touched : Bool}, k.Sound r → r.Lawful odd →
      c.run r k frozen = .ok (c', next, touched) → k.Sound next ∧ next.Lawful odd := by
    intro c c' r next touched hk h hrun
    obtain ⟨found, _, _, _, -, hrun', hround, -, -, htrivial⟩ := Rounds.run_total hk c frozen
    obtain ⟨rfl, rfl, rfl⟩ : _ = c' ∧ _ = next ∧ _ = touched := by simpa using hrun'.symm.trans hrun
    exact ⟨hk.of_bare hround.bare, h.round hround fun x hx hadded ht => absurd (htrivial x hx ht) hadded⟩
  induction hs with
  | stop hstop => exact hrun hk h hstop
  | again hagain _ ih => exact ih (hrun hk h hagain).1 (hrun hk h hagain).2

theorem finishes {d : Rounds} (hk : k.Sound r) (h : r.Lawful odd) (hs : Rounds.Finishes k r log d last) :
    last.Lawful odd := by
  cases hs with
  | quiet hs => exact (h.settles hk hs).2
  | changed hs _ hs' => exact ((h.settles hk hs).2.settles (h.settles hk hs).1 hs').2

theorem detours (h : r.Lawful odd) (hd : r.Detours wider) : wider.Lawful odd := by
  obtain ⟨target, sources, htarget, hwider⟩ := hd.detoured
  have hdetoured : (r.detoured target sources).Lawful odd := by
    have hlen : (r.detoured target sources).blocks.length = r.blocks.length + 1 := length_detoured
    have hblock : ∀ {b : Nat} {x : Block}, (r.detoured target sources).blocks[b]? = some x →
        (∃ y, r.blocks[b]? = some y ∧ x.id = y.id ∧ x.body = y.body ∧ x.term.operands = y.term.operands ∧
          ∀ t ∈ x.term.targets, t ∈ y.term.targets ∨ t = r.blocks.length) ∨
        b = r.blocks.length ∧ x = ⟨r.blocks.length, [], .jump target⟩ := by
      intro b x hx
      rw [detoured, List.getElem?_append, List.length_mapIdx] at hx
      split at hx
      · rw [List.getElem?_mapIdx] at hx
        obtain ⟨y, hy, rfl⟩ := Option.map_eq_some_iff.mp hx
        refine .inl ⟨y, hy, ?_⟩
        split
        · exact ⟨rfl, rfl, Terminator.operands_redirect .., fun t ht => Terminator.mem_targets_redirect ht⟩
        · exact ⟨rfl, rfl, rfl, fun t ht => .inl ht⟩
      · rename_i hb
        rw [List.getElem?_singleton] at hx
        split at hx
        · exact .inr ⟨by omega, (Option.some.inj hx).symm⟩
        · cases hx
    have hold : ∀ x ∈ (r.detoured target sources).blocks, (∃ y ∈ r.blocks, x.body = y.body ∧
        x.term.operands = y.term.operands ∧ ∀ t ∈ x.term.targets, t ∈ y.term.targets ∨ t = r.blocks.length) ∨
        x = ⟨r.blocks.length, [], .jump target⟩ := by
      intro x hx
      obtain ⟨b, hb⟩ := List.getElem?_of_mem hx
      rcases hblock hb with ⟨y, hy, -, hrest⟩ | ⟨-, rfl⟩
      · exact .inl ⟨y, List.mem_of_getElem? hy, hrest⟩
      · exact .inr rfl
    refine ⟨hlen ▸ Nat.lt_succ_of_lt h.entry, h.params, fun b x hx => ?_, fun x hx i hi v hv => ?_,
      fun x hx i hi v hv htrivial => ?_, fun x hx v hv => ?_, fun x hx t ht => ?_⟩
    · rcases hblock hx with ⟨y, hy, hid, -⟩ | ⟨rfl, rfl⟩
      · exact hid.trans (h.numbered b y hy)
      · rfl
    · rcases hold x hx with ⟨y, hy, hbody, -⟩ | rfl
      · exact h.known y hy i (hbody ▸ hi) v hv
      · cases hi
    · rcases hold x hx with ⟨y, hy, hbody, -⟩ | rfl
      · exact h.counted y hy i (hbody ▸ hi) v hv htrivial
      · cases hi
    · rcases hold x hx with ⟨y, hy, -, hterm, -⟩ | rfl
      · exact h.known_term y hy v (hterm ▸ hv)
      · cases hv
    · rw [hlen]
      rcases hold x hx with ⟨y, hy, -, -, htargets⟩ | rfl
      · rcases htargets t ht with ht | rfl
        · exact Nat.lt_succ_of_lt (h.targets y hy t ht)
        · exact Nat.lt_succ_self _
      · exact Nat.lt_succ_of_lt (List.mem_singleton.mp ht ▸ htarget)
  obtain rfl | ⟨-, rfl⟩ := hwider
  · exact hdetoured
  · exact { hdetoured with entry := by simp [length_detoured] }

theorem widens (h : r.Lawful odd) (hw : r.Widens base) : base.Lawful odd := by
  induction hw with
  | refl => exact h
  | step hd _ ih => exact ih (h.detours hd)

end Routine.Lawful

namespace Routine

variable {r base wider : Routine} {v : Var}

theorem sites_detoured (r : Routine) (target : Nat) (sources : List Nat) :
    (r.detoured target sources).sites = r.sites := by
  have hsites : ∀ bs : List Block, bs.flatMap (fun x => x.body.zipIdx.map fun y => (y.1, (⟨x.id, y.2⟩ : Point))) =
      (bs.map fun x => (x.id, x.body)).flatMap fun z => z.2.zipIdx.map fun y => (y.1, (⟨z.1, y.2⟩ : Point)) := by
    intro bs
    rw [List.flatMap_map]
  exact (hsites _).trans (by rw [bodies_detoured, List.flatMap_append, ← hsites]; exact List.append_nil _)

theorem Widens.rootOf (h : r.Widens base) (v : Var) : base.rootOf v = r.rootOf v := by
  have hsame : ∀ {r wider : Routine}, wider.sites = r.sites → wider.params = r.params → wider.storage = r.storage →
      wider.rootOf v = r.rootOf v := by
    intro r wider hsites hparams hstorage
    have horigin : wider.originOf = r.originOf := by
      funext u
      rw [originOf, originOf, hsites, hparams, hstorage]
    have hsource : wider.sourceOf = r.sourceOf := by
      funext u
      rw [sourceOf, sourceOf, hsites, hstorage]
    rw [Routine.rootOf, Routine.rootOf, horigin, hsource, hstorage]
  induction h with
  | refl => rfl
  | step hd _ ih =>
    obtain ⟨target, sources, -, rfl | ⟨-, rfl⟩⟩ := hd.detoured
    · exact ih.trans (hsame (sites_detoured ..) rfl rfl)
    · exact ih.trans (hsame (sites_detoured ..) rfl rfl)

theorem facts_root {k : Facts} (h : r.facts = .ok k) (v : Var) : k.root v = r.rootOf v := by
  obtain ⟨-, -, -, -, hidentity, -⟩ := facts_parts h
  rw [Facts.root, hidentity]
  exact r.root_identity v

end Routine

/-- A run leaves a routine lawful but for the roots that it may have put operations on. -/
theorem Runs.lawful {config : Config} {r next : Routine} {outcome : Outcome} (h : r.check = .ok ())
    (hruns : Runs config r outcome next) :
    next.Lawful fun root => config.loops ∧ ∃ v, r.rootOf v = some root := by
  have hlawful := Routine.lawful_of_check h fun root => config.loops ∧ ∃ v, r.rootOf v = some root
  cases hruns with
  | skipped => exact hlawful
  | blockOnly _ _ _ hk hlog => exact hlawful.finishes hk hlog
  | loopAware _ hloops _ hwide _ hfacts _ _ hdesc =>
    refine (hlawful.widens hwide).descends hdesc fun v root hv => ⟨hloops, v, ?_⟩
    rw [← hwide.rootOf, ← Routine.facts_root hfacts]
    exact hv

theorem Runs.storage {config : Config} {r next : Routine} {outcome : Outcome} (h : r.check = .ok ())
    (hruns : Runs config r outcome next) : next.storage = r.storage := by
  obtain ⟨base, k, log, -, hwide, -, -, hdesc⟩ := hruns.descends (Routine.entry_lt_of_check h)
  exact (Routine.storage_of_bare hdesc.bare).trans hwide.same.2

/-- A run may leave a routine that breaks the contract, but in one way only: with loops
collapsed, it may count a trivial variable that is the root of a counted one. Where no counted
variable has a trivial root, and where no loop is collapsed, the contract is kept. -/
theorem run_breaks_contract_at_trivial_roots_only (config : Config) (r : Routine) (cache : Cache)
    (h : r.check = .ok ()) (hc : cache.Serves r) :
    ∃ outcome next cache', run config config.strategy r cache = .ok (outcome, next, cache') ∧
      (∀ breach ∈ next.breaches, config.loops ∧ ∃ block v root, breach = .trivialCount block root ∧
        r.rootOf v = some root ∧ r.storage[root]? = some .trivial) ∧
      ((config.loops → ∀ v root, r.rootOf v = some root → r.storage[root]? ≠ some .trivial) →
        next.check = .ok ()) := by
  obtain ⟨outcome, next, cache', hrun, hruns⟩ := run_total config h hc
  have hbreach : ∀ breach ∈ next.breaches, config.loops ∧ ∃ block v root, breach = .trivialCount block root ∧
      r.rootOf v = some root ∧ r.storage[root]? = some .trivial := by
    intro breach hb
    obtain ⟨block, root, rfl, ⟨hloops, v, hv⟩, htrivial⟩ := (hruns.lawful h).breach hb
    rw [hruns.storage h] at htrivial
    exact ⟨hloops, block, v, root, rfl, hv, htrivial⟩
  refine ⟨outcome, next, cache', hrun, hbreach, fun hcounted => ?_⟩
  refine Routine.check_of_breaches (List.eq_nil_iff_forall_not_mem.mpr fun breach hb => ?_)
  obtain ⟨hloops, block, v, root, -, hv, htrivial⟩ := hbreach breach hb
  exact hcounted hloops v root hv htrivial

theorem run_breaks_contract_at_trivial_roots_only_countedLoop : countedLoop.check = .ok () ∧
    Cache.empty.Serves countedLoop ∧ ∃ outcome next cache',
      run .default Config.default.strategy countedLoop .empty = .ok (outcome, next, cache') ∧
      (∀ breach ∈ next.breaches, Config.default.loops ∧ ∃ block v root, breach = .trivialCount block root ∧
        countedLoop.rootOf v = some root ∧ countedLoop.storage[root]? = some .trivial) ∧
      ((Config.default.loops → ∀ v root, countedLoop.rootOf v = some root →
        countedLoop.storage[root]? ≠ some .trivial) → next.check = .ok ()) :=
  ⟨rfl, Cache.empty_serves _,
    run_breaks_contract_at_trivial_roots_only .default countedLoop .empty rfl (Cache.empty_serves _)⟩

/-- A counted variable that copies a trivial one, retained on both branches before a loop that
releases and retains it. -/
def copiedTrivial : Routine where
  name := "copied_trivial"
  params := [0]
  blocks := [
    ⟨0, [.assign 1 (.var 0)], .branch 0 1 2⟩,
    ⟨1, [.retain 1 .strong], .jump 3⟩,
    ⟨2, [.retain 1 .strong], .jump 3⟩,
    ⟨3, [], .jump 4⟩,
    ⟨4, [.release 1 .strong, .retain 1 .strong], .branch 0 4 5⟩,
    ⟨5, [.release 1 .strong], .ret 0⟩]
  entry := 0
  storage := [.trivial, .reference]

/-- The contract is not kept: the merged retain counts the trivial variable. -/
theorem run_breaks_contract : copiedTrivial.check = .ok () ∧
    (run .default Config.default.strategy copiedTrivial .empty).map (fun x => x.2.1.check) =
      .ok (.error (.trivialCount 0 0)) := by
  decide +kernel

end CountMotion
