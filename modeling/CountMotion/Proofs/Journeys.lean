import CountMotion.Proofs.Lawfulness

/-! What control does on given decisions, and that canonical loops do not change it. -/
namespace CountMotion

/-- What a run does: it runs an instruction of a block, takes one of the ways out of it, or ends. -/
inductive Act where
  | instr (block : BlockId) (i : Instr)
  | choice (block : BlockId) (way : Nat)
  | ret (value : Var)
  | trap
  deriving DecidableEq, Repr

/-- Where control goes from the end of a block, how many decisions it has then used, and what it does
there. A branch goes on with its first block on decision zero, a switch with the case of that
number, or with its fallback if it has no such case. -/
def Terminator.steer (b : BlockId) (decisions : Nat → Nat) (used : Nat) : Terminator → Option BlockId × Nat × List Act
  | .jump target => (some target, used, [])
  | .branch _ yes no =>
    (some (if decisions used = 0 then yes else no), used + 1, [.choice b (decisions used)])
  | .switch _ cases fallback =>
    (some ((cases[decisions used]?.map Prod.snd).getD fallback), used + 1, [.choice b (decisions used)])
  | .ret value => (none, used, [.ret value])
  | .trap => (none, used, [.trap])

/-- A run at the start of a block, or past its end, with the decisions used and all that it did. -/
structure Journey where
  block : Option BlockId
  used : Nat
  acts : List Act
  deriving DecidableEq, Repr

namespace Routine

def pace (r : Routine) (decisions : Nat → Nat) (w : Journey) : Journey :=
  match w.block with
  | none => w
  | some b =>
    let (next, used, acts) := (r.codeAt b).term.steer b decisions w.used
    ⟨next, used, w.acts ++ (r.codeAt b).body.map (.instr b) ++ acts⟩

def journey (r : Routine) (decisions : Nat → Nat) : Nat → Journey
  | 0 => ⟨some r.entry, 0, []⟩
  | n + 1 => r.pace decisions (r.journey decisions n)

/-- After some number of blocks the run has done just this, and has come to its end or not. -/
def Shows (r : Routine) (decisions : Nat → Nat) (acts : List Act) (ended : Bool) : Prop :=
  ∃ n, (r.journey decisions n).acts = acts ∧ (r.journey decisions n).block.isNone = ended

end Routine

theorem Terminator.steer_redirect (t : Terminator) (old new b : BlockId) (decisions : Nat → Nat) (used : Nat) :
    (t.redirect old new).steer b decisions used =
      ((t.steer b decisions used).1.map (redirect.swap old new), (t.steer b decisions used).2) := by
  cases t with
  | branch cond yes no => by_cases h : decisions used = 0 <;> simp [redirect, steer, h]
  | switch v cases fallback =>
    simp only [redirect, steer, List.getElem?_map]
    cases cases[decisions used]? <;> rfl
  | _ => rfl

theorem Terminator.mem_targets_of_steer {t : Terminator} {b target : BlockId} {decisions : Nat → Nat} {used : Nat}
    (h : (t.steer b decisions used).1 = some target) : target ∈ t.targets := by
  cases t with
  | jump => simpa [steer, targets, eq_comm] using h
  | branch cond yes no =>
    obtain rfl := Option.some.inj h
    by_cases h0 : decisions used = 0 <;> simp [targets, h0]
  | switch v cases fallback =>
    obtain rfl := Option.some.inj h
    rw [targets, List.mem_append, List.mem_map]
    cases hc : cases[decisions used]? with
    | none => exact .inr (.head _)
    | some c => exact .inl ⟨c, List.mem_of_getElem? hc, rfl⟩
  | ret => cases h
  | trap => cases h

namespace Routine

variable {r wider base : Routine} {target : BlockId} {sources : List BlockId} {decisions : Nat → Nat} {v w : Journey}

/-- The block that a block of the detoured routine stands for: the target for the new block. -/
def settled (r : Routine) (target b : BlockId) : BlockId := if b = r.blocks.length then target else b

theorem settled_of_lt {b : BlockId} (h : b < r.blocks.length) : r.settled target b = b :=
  if_neg (Nat.ne_of_lt h)

theorem settled_swap {b : BlockId} (h : b < r.blocks.length) :
    r.settled target (Terminator.redirect.swap target r.blocks.length b) = b := by
  rw [Terminator.redirect.swap]
  split
  · rw [settled, if_pos rfl]
    exact Eq.symm ‹_›
  · exact settled_of_lt h

/-- One run through the routine and one through the detoured one, which did the same. -/
structure Alongside (r : Routine) (target : BlockId) (v w : Journey) : Prop where
  block : v.block = w.block.map (r.settled target)
  used : v.used = w.used
  acts : v.acts = w.acts
  inside : ∀ b, v.block = some b → b < r.blocks.length

namespace Alongside

theorem pace (hr : r.Wired) (h : r.Alongside target v w) (hw : w.block ≠ some r.blocks.length) :
    r.Alongside target (r.pace decisions v) ((r.detoured target sources).pace decisions w) := by
  obtain ⟨block, used, acts⟩ := w
  cases block with
  | none =>
    have hv : v.block = none := h.block
    have hpace : r.pace decisions v = v := by rw [Routine.pace, hv]
    rw [hpace]
    exact h
  | some b =>
    have hsettled : v.block = some (r.settled target b) := h.block
    have hb : r.settled target b = b := if_neg fun (heq : b = r.blocks.length) => hw (congrArg some heq)
    rw [hb] at hsettled
    have hlt := h.inside b hsettled
    have htargets : ∀ t, ((r.codeAt b).term.steer b decisions used).1 = some t → t < r.blocks.length :=
      fun t ht => hr.targets b t (Terminator.mem_targets_of_steer ht)
    have hv : r.pace decisions v = ⟨((r.codeAt b).term.steer b decisions used).1,
        ((r.codeAt b).term.steer b decisions used).2.1,
        acts ++ (r.codeAt b).body.map (.instr b) ++ ((r.codeAt b).term.steer b decisions used).2.2⟩ := by
      rw [Routine.pace, hsettled]
      simp only [h.used, h.acts]
    have hcode : (r.detoured target sources).codeAt b = _ := codeAt_detoured hlt
    rw [hv, Routine.pace]
    simp only [hcode]
    by_cases hs : b ∈ sources
    · simp only [if_pos hs, Terminator.steer_redirect]
      refine ⟨?_, rfl, rfl, htargets⟩
      cases hnext : ((r.codeAt b).term.steer b decisions used).1 with
      | none => rfl
      | some t => exact congrArg some (settled_swap (htargets t hnext)).symm
    · simp only [if_neg hs]
      refine ⟨?_, rfl, rfl, htargets⟩
      cases hnext : ((r.codeAt b).term.steer b decisions used).1 with
      | none => rfl
      | some t => exact congrArg some (settled_of_lt (htargets t hnext)).symm

theorem wait (h : r.Alongside target v w) (ht : target < r.blocks.length) (hw : w.block = some r.blocks.length)
    (sources : List BlockId) (decisions : Nat → Nat) :
    r.Alongside target v ((r.detoured target sources).pace decisions w) ∧
      ((r.detoured target sources).pace decisions w).block ≠ some r.blocks.length := by
  have hv : v.block = some target := by
    rw [h.block, hw]
    exact congrArg some (if_pos rfl)
  rw [Routine.pace, hw]
  simp only [codeAt_detoured_last, Terminator.steer, List.map_nil, List.append_nil]
  refine ⟨⟨?_, h.used, h.acts, h.inside⟩, fun heq => Nat.ne_of_lt ht (Option.some.inj heq)⟩
  rw [hv]
  exact congrArg some (settled_of_lt ht).symm

end Alongside

private theorem shows_iff_of_start (hr : r.Wired) (ht : target < r.blocks.length)
    (hblocks : wider.blocks = (r.detoured target sources).blocks)
    (hstart : r.Alongside target (r.journey decisions 0) (wider.journey decisions 0)) (acts : List Act) (ended : Bool) :
    r.Shows decisions acts ended ↔ wider.Shows decisions acts ended := by
  have hnext : ∀ m, wider.journey decisions (m + 1) =
      (r.detoured target sources).pace decisions (wider.journey decisions m) := by
    intro m
    simp only [journey, pace, codeAt, hblocks]
  have hsame : ∀ {v w}, r.Alongside target v w → v.acts = w.acts ∧ v.block.isNone = w.block.isNone := by
    intro v w h
    rw [h.acts, h.block, Option.isNone_map]
    exact ⟨rfl, rfl⟩
  have hahead : ∀ n, ∃ m, r.Alongside target (r.journey decisions n) (wider.journey decisions m) := by
    intro n
    induction n with
    | zero => exact ⟨0, hstart⟩
    | succ n ih =>
      obtain ⟨m, hm⟩ := ih
      by_cases hnew : (wider.journey decisions m).block = some r.blocks.length
      · obtain ⟨hwait, hold⟩ := hm.wait ht hnew sources decisions
        refine ⟨m + 2, ?_⟩
        rw [hnext, hnext]
        exact hwait.pace hr hold
      · refine ⟨m + 1, ?_⟩
        rw [hnext]
        exact hm.pace hr hnew
  have hbehind : ∀ m, ∃ n, r.Alongside target (r.journey decisions n) (wider.journey decisions m) := by
    intro m
    induction m with
    | zero => exact ⟨0, hstart⟩
    | succ m ih =>
      obtain ⟨n, hn⟩ := ih
      rw [hnext]
      by_cases hnew : (wider.journey decisions m).block = some r.blocks.length
      · exact ⟨n, (hn.wait ht hnew sources decisions).1⟩
      · exact ⟨n + 1, hn.pace hr hnew⟩
  constructor
  · rintro ⟨n, rfl, rfl⟩
    obtain ⟨m, hm⟩ := hahead n
    exact ⟨m, (hsame hm).1.symm, (hsame hm).2.symm⟩
  · rintro ⟨m, rfl, rfl⟩
    obtain ⟨n, hn⟩ := hbehind m
    exact ⟨n, hsame hn⟩

theorem Detours.shows_iff (h : r.Detours wider) (hr : r.Wired) (acts : List Act) (ended : Bool) :
    r.Shows decisions acts ended ↔ wider.Shows decisions acts ended := by
  have hinside : ∀ b, (r.journey decisions 0).block = some b → b < r.blocks.length :=
    fun b hb => Option.some.inj hb ▸ hr.entry
  obtain ⟨target, sources, ht, hwider | ⟨hentry, hwider⟩⟩ := h.detoured
  · have hblocks : wider.blocks = (r.detoured target sources).blocks := by rw [hwider]
    refine shows_iff_of_start hr ht hblocks ⟨?_, rfl, rfl, hinside⟩ acts ended
    rw [hwider]
    exact congrArg some (settled_of_lt hr.entry).symm
  · have hblocks : wider.blocks = (r.detoured target sources).blocks := by rw [hwider]
    refine shows_iff_of_start hr ht hblocks ⟨?_, rfl, rfl, hinside⟩ acts ended
    rw [hwider]
    exact congrArg some (hentry.trans (if_pos rfl).symm)

theorem Widens.shows_iff {odd : Var → Prop} (h : r.Widens base) (hr : r.Lawful odd) (acts : List Act) (ended : Bool) :
    r.Shows decisions acts ended ↔ base.Shows decisions acts ended := by
  induction h with
  | refl => exact Iff.rfl
  | step hd _ ih => exact (hd.shows_iff hr.wired acts ended).trans (ih (hr.detours hd))

private theorem Detours.block {b : BlockId} {x : Block} (h : r.Detours wider) (hx : r.blocks[b]? = some x) :
    ∃ y, wider.blocks[b]? = some y ∧ y.id = x.id ∧ y.body = x.body ∧
      ((∃ t, x.term = .jump t) → ∃ t, y.term = .jump t) := by
  have hlt : b < r.blocks.length := (List.getElem?_eq_some_iff.mp hx).1
  have hdetoured : ∀ target sources, ∃ y, (r.detoured target sources).blocks[b]? = some y ∧ y.id = x.id ∧
      y.body = x.body ∧ ((∃ t, x.term = .jump t) → ∃ t, y.term = .jump t) := by
    intro target sources
    refine ⟨_, getElem?_codeAt (by rw [length_detoured]; exact Nat.lt_succ_of_lt hlt), ?_⟩
    rw [codeAt_detoured hlt, codeAt_eq hx]
    split
    · refine ⟨rfl, rfl, ?_⟩
      rintro ⟨t, ht⟩
      exact ⟨_, congrArg (Terminator.redirect target r.blocks.length) ht⟩
    · exact ⟨rfl, rfl, id⟩
  obtain ⟨target, sources, -, rfl | ⟨-, rfl⟩⟩ := h.detoured
  · exact hdetoured target sources
  · exact hdetoured target sources

theorem Widens.block {b : BlockId} {x : Block} (h : r.Widens base) (hx : r.blocks[b]? = some x) :
    ∃ y, base.blocks[b]? = some y ∧ y.id = x.id ∧ y.body = x.body ∧
      ((∃ t, x.term = .jump t) → ∃ t, y.term = .jump t) := by
  induction h generalizing x with
  | refl => exact ⟨x, hx, rfl, rfl, id⟩
  | step hd _ ih =>
    obtain ⟨y, hy, hid, hbody, hjump⟩ := hd.block hx
    obtain ⟨z, hz, hid', hbody', hjump'⟩ := ih hy
    exact ⟨z, hz, hid'.trans hid, hbody'.trans hbody, fun h => hjump' (hjump h)⟩

theorem Widens.added {b : BlockId} {y : Block} (h : r.Widens base) (hb : r.blocks.length ≤ b)
    (hy : base.blocks[b]? = some y) : y.body = [] ∧ ∃ t, y.term = .jump t := by
  induction h with
  | refl => exact absurd (List.getElem?_eq_some_iff.mp hy).1 (Nat.not_lt.mpr hb)
  | @step r wider base hd hrest ih =>
    have hnew : wider.blocks.length = r.blocks.length + 1 ∧
        ∃ t, wider.blocks[r.blocks.length]? = some ⟨r.blocks.length, [], .jump t⟩ := by
      have hlast : ∀ target sources, (r.detoured target sources).blocks[r.blocks.length]? =
          some ⟨r.blocks.length, [], .jump target⟩ := by
        intro target sources
        rw [← codeAt_detoured_last r target sources]
        exact getElem?_codeAt (by rw [length_detoured]; exact Nat.lt_succ_self _)
      obtain ⟨target, sources, -, rfl | ⟨-, rfl⟩⟩ := hd.detoured
      · exact ⟨length_detoured, target, hlast target sources⟩
      · exact ⟨length_detoured, target, hlast target sources⟩
    obtain ⟨hlength, t, hlast⟩ := hnew
    rcases Nat.lt_or_eq_of_le hb with hlt | rfl
    · exact ih (by omega) hy
    · obtain ⟨z, hz, -, hbody, hjump⟩ := hrest.block hlast
      obtain rfl := Option.some.inj (hy.symm.trans hz)
      exact ⟨hbody, hjump ⟨t, rfl⟩⟩

end Routine

/-- Canonical loops do not change what a routine does: on every sequence of decisions it runs the
same instructions of the same blocks, decides at the same blocks and ends alike, or not at all. All
blocks keep their place, number and body, the added ones are empty and jump, and the contract is kept. -/
theorem canonicalize_keeps_execution (r : Routine) (h : r.check = .ok ()) : ∃ base changed,
    r.canonicalize = .ok (base, changed) ∧
      (∀ decisions acts ended, r.Shows decisions acts ended ↔ base.Shows decisions acts ended) ∧
      (∀ (b : BlockId) x, r.blocks[b]? = some x →
        ∃ y : Block, base.blocks[b]? = some y ∧ y.id = x.id ∧ y.body = x.body) ∧
      (∀ (b : BlockId) y, r.blocks.length ≤ b → base.blocks[b]? = some y → y.body = [] ∧ ∃ t, y.term = .jump t) ∧
      base.check = .ok () := by
  obtain ⟨base, changed, hbase, -, -, hwide⟩ := Routine.canonicalize_total (Routine.entry_lt_of_check h)
  have hlawful := Routine.lawful_of_check h fun _ => False
  refine ⟨base, changed, hbase, fun _ acts ended => hwide.shows_iff hlawful acts ended, fun b x hx => ?_,
    fun b y hb hy => hwide.added hb hy, ?_⟩
  · obtain ⟨y, hy, hid, hbody, -⟩ := hwide.block hx
    exact ⟨y, hy, hid, hbody⟩
  · refine Routine.check_of_breaches (List.eq_nil_iff_forall_not_mem.mpr fun breach hb => ?_)
    obtain ⟨b, v, -, hodd, -⟩ := (hlawful.widens hwide).breach hb
    exact hodd

/-- A routine that starts in a loop, with two ways back and two ways out that meet again. -/
def headFirst : Routine where
  name := "head_first"
  params := [0]
  blocks := [⟨0, [.assign 1 (.var 0)], .switch 0 [(0, 0), (1, 0), (2, 2)] 1⟩, ⟨1, [], .jump 2⟩, ⟨2, [], .ret 1⟩]
  entry := 0
  storage := [.trivial, .trivial]

theorem canonicalize_keeps_execution_headFirst : headFirst.check = .ok () ∧
    headFirst.canonicalize.map (fun x => (x.1.blocks.map Block.term, x.1.entry, x.2)) =
      .ok ([.switch 0 [(0, 0), (1, 0), (2, 4)] 1, .jump 2, .ret 1, .jump 0, .jump 2], 3, true) ∧
    ∃ base changed, headFirst.canonicalize = .ok (base, changed) ∧
      (∀ decisions acts ended, headFirst.Shows decisions acts ended ↔ base.Shows decisions acts ended) ∧
      (∀ (b : BlockId) x, headFirst.blocks[b]? = some x →
        ∃ y : Block, base.blocks[b]? = some y ∧ y.id = x.id ∧ y.body = x.body) ∧
      (∀ (b : BlockId) y, headFirst.blocks.length ≤ b → base.blocks[b]? = some y →
        y.body = [] ∧ ∃ t, y.term = .jump t) ∧
      base.check = .ok () :=
  ⟨rfl, by decide +kernel, canonicalize_keeps_execution headFirst rfl⟩

end CountMotion
