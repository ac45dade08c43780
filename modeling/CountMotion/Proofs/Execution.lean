import CountMotion.Proofs.Machine
import CountMotion.Proofs.SoundFacts

/-! The points of a routine that runs can come to, and with which memory, whatever the script. -/
namespace CountMotion

namespace Terminator

variable {t : Terminator} {script rest : List Bool} {b : BlockId}

private theorem mem_of_pick (cases : List (Nat × BlockId)) (fallback : BlockId) (script : List Bool) :
    (pick cases fallback script).1 ∈ cases.map Prod.snd ++ [fallback] := by
  induction cases generalizing script with
  | nil => exact .head _
  | cons c cases ih =>
    rw [pick]
    split
    · exact .tail _ (ih _)
    · exact .head _

theorem mem_targets_of_go (h : t.go script = .inl (b, rest)) : b ∈ t.targets := by
  cases t with
  | ret => cases h
  | trap => cases h
  | jump target =>
    cases h
    exact .head _
  | branch cond yes no =>
    simp only [go, Sum.inl.injEq, Prod.mk.injEq] at h
    rw [← h.1, targets]
    split
    · exact .head _
    · exact .tail _ (.head _)
  | switch scrutinee cases fallback =>
    simp only [go, Sum.inl.injEq] at h
    have := mem_of_pick cases fallback script
    rw [h] at this
    exact this

private theorem exists_pick {cases : List (Nat × BlockId)} {fallback : BlockId}
    (h : b ∈ cases.map Prod.snd ++ [fallback]) (rest : List Bool) :
    ∃ script, pick cases fallback script = (b, rest) := by
  induction cases with
  | nil =>
    obtain rfl := List.mem_singleton.mp h
    exact ⟨rest, rfl⟩
  | cons c cases ih =>
    rcases List.mem_cons.mp h with rfl | h
    · exact ⟨false :: rest, rfl⟩
    · obtain ⟨script, hscript⟩ := ih h
      exact ⟨true :: script, hscript⟩

theorem exists_go (h : b ∈ t.targets) (rest : List Bool) : ∃ script, t.go script = .inl (b, rest) := by
  cases t with
  | ret => cases h
  | trap => cases h
  | jump target =>
    obtain rfl := List.mem_singleton.mp h
    exact ⟨rest, rfl⟩
  | branch cond yes no =>
    rcases List.mem_cons.mp h with rfl | h
    · exact ⟨true :: rest, rfl⟩
    · obtain rfl := List.mem_singleton.mp h
      exact ⟨false :: rest, rfl⟩
  | switch scrutinee cases fallback =>
    obtain ⟨script, hscript⟩ := exists_pick h rest
    exact ⟨script, congrArg Sum.inl hscript⟩

end Terminator

namespace Memory

variable {m m' : Memory} {i : Instr} {body : List Instr}

theorem execAll_append (m : Memory) (body body' : List Instr) :
    m.execAll (body ++ body') = m.execAll body >>= fun m => m.execAll body' := List.foldlM_append

theorem execAll_cons (m : Memory) (i : Instr) (body : List Instr) :
    m.execAll (i :: body) = m.exec i >>= fun m => m.execAll body := List.foldlM_cons

theorem execAll_concat (h : m.execAll body = .ok m') (i : Instr) : m.execAll (body ++ [i]) = m'.exec i := by
  rw [execAll_append, h]
  exact bind_pure (m'.exec i)

theorem of_execAll_append {body' : List Instr} (h : m.execAll (body ++ body') = .ok m') :
    ∃ next, m.execAll body = .ok next ∧ next.execAll body' = .ok m' := by
  rw [execAll_append] at h
  cases hm : m.execAll body with
  | error o => rw [hm] at h; cases h
  | ok next =>
    rw [hm] at h
    exact ⟨next, rfl, h⟩

theorem of_execAll_concat (h : m.execAll (body ++ [i]) = .ok m') :
    ∃ next, m.execAll body = .ok next ∧ next.exec i = .ok m' := by
  obtain ⟨next, hnext, hlast⟩ := of_execAll_append h
  exact ⟨next, hnext, (bind_pure (next.exec i)).symm.trans hlast⟩

end Memory

namespace Routine

variable {r : Routine} {p : Point} {m m' : Memory} {i : Instr} {b t : BlockId}

theorem instrAt?_eq (r : Routine) (p : Point) : r.instrAt? p = (r.codeAt p.block).body[p.index]? := by
  rw [instrAt?, codeAt]
  cases r.blocks[p.block]? with
  | none => rfl
  | some x => rfl

theorem take_succ (hi : r.instrAt? p = some i) :
    (r.codeAt p.block).body.take (p.index + 1) = (r.codeAt p.block).body.take p.index ++ [i] := by
  rw [instrAt?_eq] at hi
  rw [List.take_add_one, hi]
  rfl

theorem index_lt (hi : r.instrAt? p = some i) : p.index < (r.codeAt p.block).body.length := by
  rw [instrAt?_eq] at hi
  exact (List.getElem?_eq_some_iff.mp hi).1

theorem mem_targets_of_edge (h : r.flow.Edge b t) : t ∈ (r.codeAt b).term.targets := by
  obtain ⟨x, hx, ht, -⟩ := mem_next_flow.mp h.1
  rwa [codeAt_eq hx]

/-- Control stays inside the routine. -/
structure Wired (r : Routine) : Prop where
  entry : r.entry < r.blocks.length
  targets : ∀ b, ∀ t ∈ (r.codeAt b).term.targets, t < r.blocks.length

theorem Wired.edge (h : r.Wired) (ht : t ∈ (r.codeAt b).term.targets) : r.flow.Edge b t := by
  refine edge_flow.mpr (mem_next_flow.mpr ?_)
  cases hx : r.blocks[b]? with
  | none =>
    rw [codeAt, hx] at ht
    cases ht
  | some x =>
    have hlt := h.targets b t ht
    rw [codeAt_eq hx] at ht
    exact ⟨x, rfl, ht, hlt⟩

/-- Some run that starts with one memory comes to the point with another. -/
inductive From (r : Routine) (start : Memory) : Point → Memory → Prop where
  | start : From r start ⟨r.entry, 0⟩ start
  | instr {p : Point} {m m' : Memory} {i : Instr} (h : From r start p m) (hi : r.instrAt? p = some i)
      (he : m.exec i = .ok m') : From r start ⟨p.block, p.index + 1⟩ m'
  | jump {b t : BlockId} {m : Memory} (h : From r start ⟨b, (r.codeAt b).body.length⟩ m) (he : r.flow.Edge b t) :
      From r start ⟨t, 0⟩ m

/-- Some run comes to the point with the memory. -/
abbrev At (r : Routine) : Point → Memory → Prop := r.From r.boot

namespace From

variable {start : Memory}

theorem index_le (h : r.From start p m) : p.index ≤ (r.codeAt p.block).body.length := by
  cases h with
  | start => exact Nat.zero_le _
  | instr _ hi _ => exact index_lt hi
  | jump => exact Nat.zero_le _

theorem reached (h : r.From start p m) : r.flow.Reaches r.entry p.block := by
  induction h with
  | start => exact .refl ..
  | instr _ _ _ ih => exact ih
  | jump _ he ih => exact ih.edge he

theorem along (h : r.From start ⟨b, 0⟩ m) {n : Nat} (hn : n ≤ (r.codeAt b).body.length)
    (he : m.execAll ((r.codeAt b).body.take n) = .ok m') : r.From start ⟨b, n⟩ m' := by
  induction n generalizing m' with
  | zero =>
    obtain rfl := Except.ok.inj he
    exact h
  | succ n ih =>
    have hi : r.instrAt? ⟨b, n⟩ = some ((r.codeAt b).body.get ⟨n, hn⟩) := by
      rw [instrAt?_eq]
      exact List.getElem?_eq_getElem hn
    have htake := take_succ hi
    dsimp only at htake
    rw [htake] at he
    obtain ⟨next, hnext, hexec⟩ := Memory.of_execAll_concat he
    exact .instr (ih (Nat.le_of_succ_le hn) hnext) hi hexec

end From

section Scripts

variable {script : List Bool} {n : Nat} {c : Stage}

theorem of_advance {c' : Stage} (h : r.advance c = .ok (.inl c')) :
    c.mem.execAll (r.codeAt c.block).body = .ok c'.mem ∧
      (r.codeAt c.block).term.go c.script = .inl (c'.block, c'.script) := by
  rw [advance] at h
  cases hm : c.mem.execAll (r.codeAt c.block).body with
  | error o => rw [hm] at h; cases h
  | ok m =>
    rw [hm] at h
    cases hgo : (r.codeAt c.block).term.go c.script with
    | inl x =>
      rw [hgo] at h
      cases h
      exact ⟨rfl, rfl⟩
    | inr e => rw [hgo] at h; cases h

theorem play_succ_of_inl (h : r.play script n = .ok (.inl c)) : r.play script (n + 1) = r.advance c := by
  rw [play, h]
  rfl

theorem of_play_succ {c : Stage} (h : r.play script (n + 1) = .ok (.inl c)) :
    ∃ c', r.play script n = .ok (.inl c') ∧ r.advance c' = .ok (.inl c) := by
  rw [play] at h
  cases hn : r.play script n with
  | error o => rw [hn] at h; cases h
  | ok x =>
    rw [hn] at h
    cases x with
    | inl c' => exact ⟨c', rfl, h⟩
    | inr events => cases h

theorem at_of_play (hw : r.Wired) (h : r.play script n = .ok (.inl c)) : r.At ⟨c.block, 0⟩ c.mem := by
  induction n generalizing c with
  | zero =>
    cases h
    exact .start
  | succ n ih =>
    obtain ⟨c', hc', hadv⟩ := of_play_succ h
    obtain ⟨hexec, hgo⟩ := of_advance hadv
    refine .jump (b := c'.block) ((ih hc').along (Nat.le_refl _) ?_) (hw.edge (Terminator.mem_targets_of_go hgo))
    rwa [List.take_length]

/-- Some script leads to any point where a run can be, with any decisions left. -/
theorem At.exists_play (h : r.At p m) (rest : List Bool) : ∃ script n c, r.play script n = .ok (.inl c) ∧
    c.block = p.block ∧ c.script = rest ∧ c.mem.execAll ((r.codeAt p.block).body.take p.index) = .ok m := by
  induction h generalizing rest with
  | start => exact ⟨rest, 0, _, rfl, rfl, rfl, rfl⟩
  | @instr p m m' i _ hi he ih =>
    obtain ⟨script, n, c, hplay, hblock, hrest, hexec⟩ := ih rest
    refine ⟨script, n, c, hplay, hblock, hrest, ?_⟩
    rw [take_succ hi, Memory.execAll_concat hexec, he]
  | @jump b t m _ he ih =>
    obtain ⟨decisions, hgo⟩ := Terminator.exists_go (mem_targets_of_edge he) rest
    obtain ⟨script, n, c, hplay, rfl, rfl, hexec⟩ := ih decisions
    rw [List.take_length] at hexec
    refine ⟨script, n + 1, ⟨t, m, rest⟩, ?_, rfl, rfl, rfl⟩
    rw [play_succ_of_inl hplay, advance, hexec]
    simp only [bind, Except.bind, hgo]
    rfl

/-- A safe routine never gets stuck on an instruction. -/
theorem Safe.exec (hs : r.Safe) (h : r.At p m) (hi : r.instrAt? p = some i) : ∃ m', m.exec i = .ok m' := by
  obtain ⟨script, n, c, hplay, hblock, -, hexec⟩ := h.exists_play []
  obtain ⟨m', hm', -⟩ := hs script n c hplay (p.index + 1) (hblock ▸ index_lt hi)
  rw [hblock, take_succ hi, Memory.execAll_concat hexec] at hm'
  exact ⟨m', hm'⟩

theorem Safe.tidy (hs : r.Safe) (h : r.At p m) : r.Tidy m := by
  obtain ⟨script, n, c, hplay, hblock, -, hexec⟩ := h.exists_play []
  obtain ⟨m', hm', htidy⟩ := hs script n c hplay p.index (hblock ▸ h.index_le)
  rw [hblock] at hm'
  obtain rfl := Except.ok.inj (hexec.symm.trans hm')
  exact htidy

/-- A safe run always goes on or ends. -/
theorem Safe.play_total (hs : r.Safe) (script : List Bool) (n : Nat) : ∃ x, r.play script n = .ok x := by
  induction n with
  | zero => exact ⟨_, rfl⟩
  | succ n ih =>
    obtain ⟨x, hx⟩ := ih
    cases x with
    | inr events => exact ⟨.inr events, by rw [play, hx]; rfl⟩
    | inl c =>
      obtain ⟨m, hm, -⟩ := hs script n c hx _ (Nat.le_refl _)
      rw [List.take_length] at hm
      rw [play_succ_of_inl hx, advance, hm]
      simp only [bind, Except.bind]
      split
      · exact ⟨_, rfl⟩
      · exact ⟨_, rfl⟩

end Scripts

end Routine

end CountMotion
