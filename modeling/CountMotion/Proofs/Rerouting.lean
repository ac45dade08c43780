import CountMotion.Proofs.Completion
import CountMotion.Proofs.Journeys
import CountMotion.Proofs.Reducible
import CountMotion.Proofs.WholeRounds

/-! Canonical loops keep what runs show, and all that the rounds ask of a routine. -/
namespace CountMotion

namespace Graph.Rewires

variable {g wide : Graph} {entry start target : Nat} {source : Nat → Prop} {rank : Nat → Nat} {c : Nat}
  (hw : g.Rewires wide target source)
include hw

private theorem reducible_of (hrank : ∀ a b, g.Edge a b → g.Dominates entry b a ∨ rank a < rank b)
    (hold : ∀ {a b}, a ≠ g.size → b ≠ g.size → g.Dominates entry b a → wide.Dominates start b a)
    (hto : ∀ s, source s → wide.Dominates start g.size s ∨ 2 * rank s + 1 < c)
    (hfrom : wide.Dominates start target g.size ∨ c < 2 * rank target + 1) :
    wide.Reducible start fun _ => True := by
  have hold_rank : ∀ {a}, a ≠ g.size → (if a = g.size then c else 2 * rank a + 1) = 2 * rank a + 1 := fun ha => if_neg ha
  have hnew_rank : (if g.size = g.size then c else 2 * rank g.size + 1) = c := if_pos rfl
  refine ⟨fun a => if a = g.size then c else 2 * rank a + 1, fun a b _ _ he => ?_⟩
  dsimp only
  rcases hw.edge_iff.mp he with ⟨he, -⟩ | ⟨hs, rfl⟩ | ⟨rfl, rfl⟩
  · rw [hold_rank he.ne_size, hold_rank he.ne_size_right]
    exact (hrank a b he).imp (hold he.ne_size he.ne_size_right) fun hlt => by omega
  · rw [hold_rank (hw.source_edge hs).ne_size, hnew_rank]
    exact hto a hs
  · rw [hold_rank (Nat.ne_of_lt hw.target_lt), hnew_rank]
    exact hfrom

/-- Edges that go back as a whole or not at all leave a graph without other cycles. -/
theorem reducible (hentry : entry ≠ g.size) (hu : g.Uniform entry target source)
    (h : g.Reducible entry fun _ => True) : wide.Reducible entry fun _ => True := by
  obtain ⟨rank, hrank⟩ := h
  have hrank := fun a b => hrank a b trivial trivial
  have hold : ∀ {a b}, a ≠ g.size → b ≠ g.size → g.Dominates entry b a → wide.Dominates entry b a :=
    fun ha hb => (hw.dominates_iff hentry hb ha).mpr
  rcases hu with hall | hnone
  · -- the new node comes after all that lead to it
    refine hw.reducible_of (c := 2 * ((List.range g.size).map rank).sum + 2) hrank hold (fun s hs => .inr ?_)
      (.inl ((hw.dominates_new hentry (Nat.ne_of_lt hw.target_lt)).mpr hall))
    have hle := List.le_sum_of_mem (List.mem_map_of_mem (f := rank) (List.mem_range.mpr (hw.source_edge hs).lt_size))
    omega
  · refine hw.reducible_of (c := 2 * rank target) hrank hold (fun s hs => ?_) (.inr (Nat.lt_succ_self _))
    have hne := (hw.source_edge hs).ne_size
    by_cases hr : g.Reaches entry s
    · have := (hrank s target (hw.source_edge hs)).resolve_left (hnone s hs hr)
      exact .inr (by omega)
    · exact .inl fun hpath => hr ((hw.reaches_iff hentry hne).mp hpath.reaches)

theorem reducible_moved (h : g.Reducible target fun _ => True) : wide.Reducible g.size fun _ => True := by
  obtain ⟨rank, hrank⟩ := h
  exact hw.reducible_of (c := 2 * rank target) (fun a b => hrank a b trivial trivial)
    (fun ha hb => (hw.dominates_moved hb ha).mpr) (fun s _ => .inl (.of_entry _ _ _)) (.inr (Nat.lt_succ_self _))

end Graph.Rewires

section Going

variable {old new : BlockId}

theorem pick_map (f : BlockId → BlockId) (cases : List (Nat × BlockId)) (fallback : BlockId) (script : List Bool) :
    pick (cases.map fun x => (x.1, f x.2)) (f fallback) script = (pick cases fallback script).map f id := by
  induction cases generalizing script with
  | nil => rfl
  | cons x cases ih =>
    rw [List.map_cons, pick, pick]
    split
    · exact ih _
    · rfl

theorem Terminator.go_redirect (t : Terminator) (old new : BlockId) (script : List Bool) :
    (t.redirect old new).go script = (t.go script).map (Prod.map (redirect.swap old new) id) id := by
  cases t with
  | branch cond yes no =>
    exact congrArg (fun t => Sum.inl (t, script.tail)) (apply_ite (redirect.swap old new) _ yes no).symm
  | switch v cases fallback => exact congrArg Sum.inl (pick_map _ cases fallback script)
  | _ => rfl

end Going

namespace Routine

variable {r wider base : Routine} {odd : Var → Prop} {target b : BlockId} {sources : List BlockId} {script : List Bool}
  {c : Stage}

theorem go_detoured (hr : r.Wired) (hb : b < r.blocks.length) (target : BlockId) (sources : List BlockId)
    (script : List Bool) :
    (((r.detoured target sources).codeAt b).term.go script).map (Prod.map (r.settled target) id) id =
      (r.codeAt b).term.go script := by
  have htargets : ∀ {t rest}, (r.codeAt b).term.go script = .inl (t, rest) → t < r.blocks.length :=
    fun hgo => hr.targets b _ (Terminator.mem_targets_of_go hgo)
  rw [codeAt_detoured hb]
  split
  · rw [Terminator.go_redirect]
    cases hgo : (r.codeAt b).term.go script with
    | inl x => exact congrArg (fun t => Sum.inl (t, x.2)) (settled_swap (htargets hgo))
    | inr e => rfl
  · cases hgo : (r.codeAt b).term.go script with
    | inl x => exact congrArg (fun t => Sum.inl (t, x.2)) (settled_of_lt (htargets hgo))
    | inr e => rfl

/-- The stage for which one of the detoured routine stands. -/
def settledStage (r : Routine) (target : BlockId) (c : Stage) : Stage := { c with block := r.settled target c.block }

def settledPlay (r : Routine) (target : BlockId) : Except ObjId (Stage ⊕ List Event) → Except ObjId (Stage ⊕ List Event) :=
  Except.map (Sum.map (r.settledStage target) id)

section Playing

variable (hr : r.Wired) (hw : wider.Wired) (ht : target < r.blocks.length)
  (hblocks : wider.blocks = (r.detoured target sources).blocks)
include hblocks

include hr in
/-- Through an old block both runs do the same. -/
theorem advance_detoured (hc : c.block < r.blocks.length) : r.advance c = r.settledPlay target (wider.advance c) := by
  have hcode : wider.codeAt c.block = (r.detoured target sources).codeAt c.block := by rw [codeAt, codeAt, hblocks]
  have hbody : ((r.detoured target sources).codeAt c.block).body = (r.codeAt c.block).body := by
    rw [codeAt_detoured hc]
    split <;> rfl
  rw [advance, advance, hcode, hbody, ← go_detoured hr hc target sources]
  cases c.mem.execAll (r.codeAt c.block).body with
  | error o => rfl
  | ok m => cases ((r.detoured target sources).codeAt c.block).term.go c.script <;> rfl

theorem advance_new (hc : c.block = r.blocks.length) : wider.advance c = .ok (.inl (r.settledStage target c)) := by
  have hcode : wider.codeAt c.block = ⟨r.blocks.length, [], .jump target⟩ := by
    rw [← codeAt_detoured_last r target sources, hc, codeAt, codeAt, hblocks]
  rw [advance, hcode, settledStage, settled, if_pos hc]
  rfl

include hw in
theorem play_cases {m : Nat} (h : wider.play script m = .ok (.inl c)) :
    c.block < r.blocks.length ∨ c.block = r.blocks.length := by
  have hlt := (at_of_play hw h).reached.lt_size (by rw [size_flow]; exact hw.entry)
  rw [size_flow, hblocks, length_detoured] at hlt
  exact Nat.lt_succ_iff_lt_or_eq.mp hlt

omit hblocks in
theorem settledStage_of_lt (hc : c.block < r.blocks.length) : r.settledStage target c = c := by
  rw [settledStage, settled_of_lt hc]

include hr hw ht in
/-- As far as the routine gets, the detoured one gets as well. -/
theorem play_ahead (hstart : r.play script 0 = r.settledPlay target (wider.play script 0)) (n : Nat) :
    ∃ m, r.play script n = r.settledPlay target (wider.play script m) := by
  induction n with
  | zero => exact ⟨0, hstart⟩
  | succ n ih =>
    obtain ⟨m, hm⟩ := ih
    rw [play, hm]
    cases hd : wider.play script m with
    | error o => exact ⟨m, by rw [hd]; rfl⟩
    | ok x =>
      cases x with
      | inr events => exact ⟨m, by rw [hd]; rfl⟩
      | inl d =>
        show ∃ m, r.advance (r.settledStage target d) = _
        rcases play_cases hw hblocks hd with hlt | hnew
        · refine ⟨m + 1, ?_⟩
          rw [play_succ_of_inl hd, settledStage_of_lt hlt]
          exact advance_detoured hr hblocks hlt
        · have hnext := (play_succ_of_inl hd).trans (advance_new hblocks hnew)
          have hlt : (r.settledStage target d).block < r.blocks.length := by
            rw [settledStage, settled, if_pos hnew]
            exact ht
          refine ⟨m + 2, ?_⟩
          rw [play_succ_of_inl hnext]
          exact advance_detoured hr hblocks hlt

include hr hw ht in
theorem play_behind (hstart : r.play script 0 = r.settledPlay target (wider.play script 0)) (m : Nat) :
    ∃ n, r.play script n = r.settledPlay target (wider.play script m) := by
  induction m with
  | zero => exact ⟨0, hstart⟩
  | succ m ih =>
    obtain ⟨n, hn⟩ := ih
    cases hd : wider.play script m with
    | error o => exact ⟨n, by rw [play, hn, hd]; rfl⟩
    | ok x =>
      rw [hd] at hn
      cases x with
      | inr events => exact ⟨n, by rw [play, hn, hd]; rfl⟩
      | inl d =>
        rcases play_cases hw hblocks hd with hlt | hnew
        · refine ⟨n + 1, ?_⟩
          rw [play_succ_of_inl hn, play_succ_of_inl hd, settledStage_of_lt hlt]
          exact advance_detoured hr hblocks hlt
        · refine ⟨n, ?_⟩
          have hlt : (r.settledStage target d).block < r.blocks.length := by
            rw [settledStage, settled, if_pos hnew]
            exact ht
          rw [hn, play_succ_of_inl hd, advance_new hblocks hnew]
          exact congrArg (fun c => Except.ok (Sum.inl c)) (settledStage_of_lt hlt).symm

end Playing

private theorem Detours.starts (h : r.Detours wider) (hr : r.Wired) : ∃ target sources, target < r.blocks.length ∧
    wider.blocks = (r.detoured target sources).blocks ∧ wider.storage = r.storage ∧
    ∀ script, r.play script 0 = r.settledPlay target (wider.play script 0) := by
  obtain ⟨target, sources, ht, rfl | ⟨hentry, rfl⟩⟩ := h.detoured
  · refine ⟨target, sources, ht, rfl, rfl, fun script => ?_⟩
    exact congrArg (fun b => Except.ok (Sum.inl (Stage.mk b r.boot script))) (settled_of_lt hr.entry).symm
  · refine ⟨target, sources, ht, rfl, rfl, fun script => ?_⟩
    exact congrArg (fun b => Except.ok (Sum.inl (Stage.mk b r.boot script))) (hentry.trans (if_pos rfl).symm)

/-- A detour shows no event more or less. -/
theorem Detours.yields (h : r.Detours wider) (hr : r.Lawful odd) {events : List Event} (hy : r.Yields script events) :
    wider.Yields script events := by
  obtain ⟨target, sources, ht, hblocks, -, hstart⟩ := h.starts hr.wired
  obtain ⟨n, hn⟩ := hy
  obtain ⟨m, hm⟩ := play_ahead hr.wired (hr.detours h).wired ht hblocks (hstart script) n
  refine ⟨m, ?_⟩
  rw [hn] at hm
  cases hd : wider.play script m with
  | error o => rw [hd] at hm; cases hm
  | ok x =>
    rw [hd] at hm
    cases x with
    | inl d => cases hm
    | inr events' =>
      cases hm
      rfl

theorem Detours.safe (h : r.Detours wider) (hr : r.Lawful odd) (hs : r.Safe) : wider.Safe := by
  obtain ⟨target, sources, ht, hblocks, hstorage, hstart⟩ := h.starts hr.wired
  intro script m d hd i hi
  obtain ⟨n, hn⟩ := play_behind hr.wired (hr.detours h).wired ht hblocks (hstart script) m
  rw [hd] at hn
  have hsame : ∀ {mem}, r.Tidy mem → wider.Tidy mem := fun htidy v hv => htidy v (hstorage ▸ hv)
  rcases play_cases (hr.detours h).wired hblocks hd with hlt | hnew
  · have hbody : (wider.codeAt d.block).body = (r.codeAt d.block).body := by
      rw [codeAt, hblocks, ← codeAt, codeAt_detoured hlt]
      split <;> rfl
    rw [hbody] at hi ⊢
    rw [settledPlay, Except.map, Sum.map_inl, settledStage_of_lt hlt] at hn
    obtain ⟨mem, hmem, htidy⟩ := hs script n d hn i hi
    exact ⟨mem, hmem, hsame htidy⟩
  · have hbody : (wider.codeAt d.block).body = [] := by
      rw [codeAt, hblocks, ← codeAt, hnew, codeAt_detoured_last]
    rw [hbody, List.take_nil]
    obtain ⟨mem, hmem, htidy⟩ := hs script n _ hn 0 (Nat.zero_le _)
    obtain rfl := Except.ok.inj hmem
    exact ⟨d.mem, rfl, hsame htidy⟩

/-- How an addition changes the flow: some edges to one block lead through the new one. They go back as a
whole or not at all, or the new block becomes the entry. -/
structure Reroutes (r wider : Routine) (target : BlockId) (sources : List BlockId) : Prop where
  blocks : wider.blocks = (r.detoured target sources).blocks
  params : wider.params = r.params
  rewires : r.flow.Rewires wider.flow target (· ∈ sources)
  entry : wider.entry = r.entry ∧ r.flow.Uniform r.entry target (· ∈ sources) ∨
    r.entry = target ∧ wider.entry = r.flow.size

theorem Completes.reroutes (hc : r.Completes wider) (h : r.Lawful odd) :
    ∃ target sources, r.Reroutes wider target sources := by
  cases hc with
  | @preheader header sources hh lacks outside =>
    refine ⟨header, sources, rfl, rfl, ?_, ?_⟩
    · exact h.rewires (size_flow ▸ hh.lt_size) fun x hx => ((outside x).mp hx).1
    · by_cases hentry : r.entry = header
      · exact .inr ⟨hentry, by rw [if_pos hentry, size_flow]⟩
      · exact .inl ⟨if_neg hentry, .inr fun s hs hr => Graph.not_dominates_of_outside outside hs hr⟩
  | @exit header target sources hh left inside used shared =>
    obtain ⟨x, hx⟩ := used
    refine ⟨target, sources, rfl, rfl, ?_, .inl ⟨rfl, Graph.uniform_exit hh left inside⟩⟩
    exact h.rewires (size_flow ▸ ((inside x).mp hx).1.2) fun x hx => ((inside x).mp hx).1

namespace Reroutes

variable (h : r.Reroutes wider target sources)
include h

theorem codeAt_old (hb : b < r.blocks.length) : (wider.codeAt b).body = (r.codeAt b).body ∧
    (wider.codeAt b).term.operands = (r.codeAt b).term.operands := by
  rw [codeAt, h.blocks, ← codeAt, codeAt_detoured hb]
  split
  · exact ⟨rfl, Terminator.operands_redirect ..⟩
  · exact ⟨rfl, rfl⟩

theorem codeAt_other (hb : ¬ b < r.blocks.length) : (wider.codeAt b).body = [] ∧
    (wider.codeAt b).term.operands = [] := by
  rw [codeAt, h.blocks]
  by_cases heq : b = r.blocks.length
  · rw [← codeAt, heq, codeAt_detoured_last]
    exact ⟨rfl, rfl⟩
  · have hle : r.blocks.length + 1 ≤ b := Nat.lt_of_le_of_ne (Nat.le_of_not_lt hb) (Ne.symm heq)
    rw [List.getElem?_eq_none (by rw [length_detoured]; exact hle)]
    exact ⟨rfl, rfl⟩

theorem dominates {a b : BlockId} (hr : r.entry < r.blocks.length) (ha : a < r.blocks.length)
    (hb : b < r.blocks.length) (hdom : r.flow.Dominates r.entry a b) : wider.flow.Dominates wider.entry a b := by
  rw [← size_flow] at hr ha hb
  rcases h.entry with ⟨hentry, -⟩ | ⟨rfl, hentry⟩
  · rw [hentry]
    exact (h.rewires.dominates_iff (Nat.ne_of_lt hr) (Nat.ne_of_lt ha) (Nat.ne_of_lt hb)).mpr hdom
  · rw [hentry]
    exact (h.rewires.dominates_moved (Nat.ne_of_lt ha) (Nat.ne_of_lt hb)).mpr hdom

theorem available {p : Point} {v : Var} (hr : r.entry < r.blocks.length) (hp : p.block < r.blocks.length)
    (ha : r.Available p v) : wider.Available p v := by
  rcases ha with hparam | hbefore | ⟨b, hb, ⟨i, hi, hv⟩, hdom⟩
  · exact .inl (h.params ▸ hparam)
  · exact .inr (.inl ((h.codeAt_old hp).1 ▸ hbefore))
  · have hlt : b < r.blocks.length := by
      by_contra hlt
      rw [codeAt, List.getElem?_eq_none (Nat.le_of_not_lt hlt)] at hi
      cases hi
    exact .inr (.inr ⟨b, hb, ⟨i, (h.codeAt_old hlt).1 ▸ hi, hv⟩, h.dominates hr hlt hp hdom⟩)

theorem ssa (hr : r.entry < r.blocks.length) (hs : r.SSA) : wider.SSA := by
  have hinstrs : wider.instrs = r.instrs := by
    have hbodies := congrArg (List.flatMap Prod.snd) (bodies_detoured r target sources)
    rw [← h.blocks] at hbodies
    simpa [instrs, List.flatMap_map] using hbodies
  refine ⟨by rw [h.params, hinstrs]; exact hs.once, fun p i hi v hv => ?_, fun b v hv => ?_⟩
  · by_cases hlt : p.block < r.blocks.length
    · rw [instrAt?_eq, (h.codeAt_old hlt).1, ← instrAt?_eq] at hi
      exact h.available hr hlt (hs.used p i hi v hv)
    · rw [instrAt?_eq, (h.codeAt_other hlt).1] at hi
      cases hi
  · by_cases hlt : b < r.blocks.length
    · rw [(h.codeAt_old hlt).2] at hv
      rw [(h.codeAt_old hlt).1]
      exact h.available hr hlt (hs.used_term b v hv)
    · rw [(h.codeAt_other hlt).2] at hv
      cases hv

theorem reducible (hr : r.entry < r.blocks.length) (hred : r.flow.Reducible r.entry fun _ => True) :
    wider.flow.Reducible wider.entry fun _ => True := by
  rw [← size_flow] at hr
  rcases h.entry with ⟨hentry, hu⟩ | ⟨rfl, hentry⟩
  · rw [hentry]
    exact h.rewires.reducible (Nat.ne_of_lt hr) hu hred
  · rw [hentry]
    exact h.rewires.reducible_moved hred

end Reroutes

structure Ready (r : Routine) : Prop where
  lawful : r.Lawful fun _ => False
  ssa : r.SSA
  safe : r.Safe
  reducible : r.flow.Reducible r.entry fun _ => True

theorem Completes.keeps (hc : r.Completes wider) (hr : r.Ready) : r.Keeps wider Ready := by
  obtain ⟨target, sources, h⟩ := hc.reroutes hr.lawful
  have hentry := hr.lawful.entry
  exact ⟨⟨hr.lawful.detours hc.detours, h.ssa hentry hr.ssa, hc.detours.safe hr.lawful hr.safe,
    h.reducible hentry hr.reducible⟩, hc.detours.yields hr.lawful⟩

/-- Canonical loops keep what runs show. -/
theorem canonicalize_keeps {changed : Bool} (hr : r.Ready) (h : r.canonicalize = .ok (base, changed)) :
    r.Keeps base Ready :=
  canonicalizeUpTo_keeps (p := fun base => r.Keeps base Ready) (fun hk => hk.fit.lawful.entry)
    (fun hk hc => hk.trans (hc.keeps hk.fit)) ⟨hr, fun hy => hy⟩ h

end Routine

end CountMotion
