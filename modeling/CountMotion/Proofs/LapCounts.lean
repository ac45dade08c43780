import CountMotion.Proofs.Backing
import CountMotion.Proofs.Laps
import CountMotion.Proofs.Lifetimes

/-! Where all trips through a loop come to nothing, the operations so far have come to a number that
depends on the point only. -/
namespace CountMotion

section Alternating

variable {xs ys : List Bool} {e : Bool}

theorem Alternates.left_of_append (h : Alternates (xs ++ ys)) : Alternates xs := by
  obtain ⟨hchain, hhead⟩ := h
  refine ⟨(List.isChain_append.mp hchain).1, fun hfalse => hhead ?_⟩
  rw [List.head?_append, hfalse]
  rfl

/-- A retain finds all before it released, a release finds one retain. -/
theorem Alternates.netCount_of_append (h : Alternates (xs ++ e :: ys)) :
    CountMotion.netCount xs = if e then 0 else 1 := by
  rw [List.append_cons] at h
  have hnet := h.left_of_append.netCount
  rw [netCount_append, List.getLast?_concat] at hnet
  cases e with
  | true =>
    have hone : CountMotion.netCount [true] = 1 := rfl
    simp only [if_true] at hnet ⊢
    omega
  | false =>
    have hone : CountMotion.netCount [false] = -1 := rfl
    simp at hnet ⊢
    omega

end Alternating

variable {r : Routine} {k : Facts} {root : Var} {l : Region} {id b t : Nat} {path : List BlockId} {p : Point} {i : Instr}
  {net : Point → Int}

namespace Routine

def turnsTo (r : Routine) (k : Facts) (root : Var) (path : List BlockId) (p : Point) : List Bool :=
  r.turnsOf k root path ++ ((r.codeAt p.block).body.take p.index).filterMap (k.turn? root)

theorem turnsTo_start (path : List BlockId) (b : BlockId) : r.turnsTo k root path ⟨b, 0⟩ = r.turnsOf k root path :=
  List.append_nil _

theorem turnsTo_end (path : List BlockId) (b : BlockId) :
    r.turnsTo k root path ⟨b, (r.codeAt b).body.length⟩ = r.turnsOf k root (path ++ [b]) := by
  rw [turnsTo, List.take_length, turnsOf_append, turnsOf, turnsOf, List.flatMap_singleton]
  rfl

theorem turnsIn_split (hi : r.instrAt? p = some i) : k.turnsIn root (r.codeAt p.block) =
    ((r.codeAt p.block).body.take p.index).filterMap (k.turn? root) ++ (k.turn? root i).toList ++
      ((r.codeAt p.block).body.drop (p.index + 1)).filterMap (k.turn? root) := by
  have hbody : (r.codeAt p.block).body = (r.codeAt p.block).body.take p.index ++
      i :: (r.codeAt p.block).body.drop (p.index + 1) := by
    rw [instrAt?_eq] at hi
    obtain ⟨hlt, rfl⟩ := List.getElem?_eq_some_iff.mp hi
    rw [List.getElem_cons_drop, List.take_append_drop]
  conv_lhs => rw [Facts.turnsIn, hbody, List.filterMap_append, List.filterMap_cons]
  cases k.turn? root i <;> simp

theorem turnsTo_succ (hi : r.instrAt? p = some i) :
    r.turnsTo k root path ⟨p.block, p.index + 1⟩ = r.turnsTo k root path p ++ (k.turn? root i).toList := by
  rw [instrAt?_eq] at hi
  rw [turnsTo, turnsTo, List.take_add_one, hi, List.append_assoc, List.filterMap_append]
  cases hturn : k.turn? root i <;> simp [hturn]

theorem Underway.eq_nil (h : r.Underway l (path ++ [l.header])) : path = [] := by
  cases path with
  | nil => rfl
  | cons a path => exact absurd (List.mem_append_right path (.head _)) h.once

/-- Whatever the way, the operations before a point have come to this number. -/
def LapNet (r : Routine) (k : Facts) (root : Var) (l : Region) (net : Point → Int) : Prop :=
  ∀ path p, r.Underway l (path ++ [p.block]) → net p = netCount (r.turnsTo k root path p)

end Routine

namespace Facts.Sound

theorem exists_underway (hk : k.Sound r) (hl : k.forest.IsLoop id l) (hb : b ∈ l.blocks) :
    ∃ path, r.Underway l (path ++ [b]) := by
  have hpath := hk.path_from_header hl.2 hb (hk.reaches_of_mem hl hb)
  clear hb
  induction hpath with
  | here hmem => exact ⟨[], .begin hmem⟩
  | @snoc a b _ he hmem ih =>
    by_cases hne : b = l.header
    · exact ⟨[], hne ▸ .begin (hne ▸ hmem)⟩
    · obtain ⟨path, hway⟩ := ih
      exact ⟨path ++ [a], hway.snoc (by simp) he hmem hne⟩

theorem exists_rest (hk : k.Sound r) (hl : k.forest.IsLoop id l) (root : Var) (hb : b ∈ l.blocks) :
    ∃ rest, ∀ path, r.Underway l (path ++ [b]) → r.Lap k root l (path ++ b :: rest) := by
  have hnat := hk.forest.natural hl
  rcases (hk.mem_loop_iff hl).mp hb with rfl | ⟨hreach, latch, hlatch, hpath⟩
  · obtain ⟨latch, hlatch⟩ := hnat.header
    obtain ⟨path, hway⟩ := hk.exists_underway hl ((hk.mem_loop_iff hl).mpr hlatch.inLoop)
    obtain ⟨rest, hrest⟩ : ∃ rest, path ++ [latch] = l.header :: rest := by
      have hstarts := hway.starts
      cases hlist : path ++ [latch] with
      | nil => simp at hlist
      | cons a rest =>
        rw [hlist] at hstarts
        exact ⟨rest, by rw [Option.some.inj hstarts]⟩
    refine ⟨rest, fun first hfirst => ?_⟩
    obtain rfl := hfirst.eq_nil
    rw [List.nil_append, ← hrest]
    exact ⟨hway, latch, l.header, by simp, hlatch.edge, .inl rfl⟩
  · suffices hall : ∀ n, r.flow.Path (r.flow.Between (· ≠ l.header) b latch) b n → ∃ rest,
        ∀ path, r.Underway l (path ++ [b]) → r.Underway l (path ++ b :: rest) ∧ (path ++ b :: rest).getLast? = some n by
      obtain ⟨rest, hrest⟩ := hall latch (hpath.between (.here hpath.first) (.here hpath.last))
      refine ⟨rest, fun path hway => ?_⟩
      obtain ⟨hway, hlast⟩ := hrest path hway
      exact ⟨hway, latch, l.header, hlast, hlatch.edge, .inl rfl⟩
    intro n hn
    induction hn with
    | here => exact ⟨[], fun path hway => ⟨hway, by simp⟩⟩
    | @snoc m n _ he hbetween ih =>
      obtain ⟨rest, hrest⟩ := ih
      refine ⟨rest ++ [n], fun path hway => ?_⟩
      obtain ⟨hway, hlast⟩ := hrest path hway
      have hmem : n ∈ l.blocks :=
        (hk.mem_loop_iff hl).mpr (.inr ⟨hreach.trans hbetween.1.reaches, latch, hlatch, hbetween.2⟩)
      have hnext := hway.snoc hlast he hmem hbetween.1.last
      rw [List.append_assoc, List.cons_append] at hnext
      exact ⟨hnext, List.getLast?_eq_some_iff.mpr ⟨path ++ b :: rest, by simp⟩⟩

/-- Where all trips come to nothing, the number is the same on all ways to a point. -/
theorem exists_lapNet (hk : k.Sound r) (hl : k.forest.IsLoop id l)
    (hlaps : ∀ path, r.Lap k root l path → netCount (r.turnsOf k root path) = 0) : ∃ net, r.LapNet k root l net := by
  have hone : ∀ p, ∃ c, ∀ path, r.Underway l (path ++ [p.block]) → c = netCount (r.turnsTo k root path p) := by
    intro p
    by_cases hb : p.block ∈ l.blocks
    · obtain ⟨rest, hrest⟩ := hk.exists_rest hl root hb
      refine ⟨netCount (((r.codeAt p.block).body.take p.index).filterMap (k.turn? root)) -
        netCount (r.turnsOf k root (p.block :: rest)), fun path hway => ?_⟩
      have hzero := hlaps _ (hrest path hway)
      rw [Routine.turnsOf_append, netCount_append] at hzero
      rw [Routine.turnsTo, netCount_append]
      omega
    · exact ⟨0, fun path hway => absurd (hway.inside _ (by simp)) hb⟩
  choose net hnet using hone
  exact ⟨net, fun path p hway => hnet p path hway⟩

end Facts.Sound

namespace Routine.LapNet

theorem at_header (h : r.LapNet k root l net) (hmem : l.header ∈ l.blocks) : net ⟨l.header, 0⟩ = 0 := by
  rw [h [] ⟨l.header, 0⟩ (.begin hmem), turnsTo_start]
  rfl

variable (h : r.LapNet k root l net) (hk : k.Sound r) (hl : k.forest.IsLoop id l)
include h hk hl

theorem step (hb : p.block ∈ l.blocks) (hi : r.instrAt? p = some i) :
    net ⟨p.block, p.index + 1⟩ = net p + netCount (k.turn? root i).toList := by
  obtain ⟨path, hway⟩ := hk.exists_underway hl hb
  rw [h path ⟨p.block, p.index + 1⟩ hway, h path p hway, turnsTo_succ hi, netCount_append]

theorem inside (hb : b ∈ l.blocks) (he : r.flow.Edge b t) (ht : t ∈ l.blocks) (hne : t ≠ l.header) :
    net ⟨t, 0⟩ = net ⟨b, (r.codeAt b).body.length⟩ := by
  obtain ⟨path, hway⟩ := hk.exists_underway hl hb
  rw [h (path ++ [b]) ⟨t, 0⟩ (hway.snoc (by simp) he ht hne), h path ⟨b, _⟩ hway, turnsTo_start, turnsTo_end]

theorem closes (hlaps : ∀ path, r.Lap k root l path → netCount (r.turnsOf k root path) = 0) (hb : b ∈ l.blocks)
    (he : r.flow.Edge b t) (hend : t = l.header ∨ t ∉ l.blocks ∧ ¬ k.quietExit r root t) :
    net ⟨b, (r.codeAt b).body.length⟩ = 0 := by
  obtain ⟨path, hway⟩ := hk.exists_underway hl hb
  rw [h path ⟨b, _⟩ hway, turnsTo_end]
  exact hlaps _ ⟨hway, b, t, by simp, he, hend⟩

/-- Where operations take turns, a retain finds the number zero and a release finds it one. -/
theorem turn (hturns : ∀ path, r.Lap k root l path → Alternates (r.turnsOf k root path)) (hb : p.block ∈ l.blocks)
    (hi : r.instrAt? p = some i) {e : Bool} (he : k.turn? root i = some e) : net p = if e then 0 else 1 := by
  obtain ⟨path, hway⟩ := hk.exists_underway hl hb
  obtain ⟨rest, hrest⟩ := hk.exists_rest hl root hb
  have hlap := hturns _ (hrest path hway)
  rw [turnsOf_append, turnsOf, turnsOf, List.flatMap_cons, turnsIn_split hi, he] at hlap
  have hsplit : Alternates (r.turnsTo k root path p ++ e ::
      (((r.codeAt p.block).body.drop (p.index + 1)).filterMap (k.turn? root) ++ r.turnsOf k root rest)) := by
    simpa [turnsTo, turnsOf] using hlap
  rw [h path p hway]
  exact hsplit.netCount_of_append

end Routine.LapNet

section Liveness

variable {m : Memory} {o : ObjId} {v : Var} {kind : CountKind} {j n : Nat}

/-- Inside a loop that does not define the root anew, every point leads to every other. -/
theorem Facts.Sound.leads_in_loop (hk : k.Sound r) (hl : k.forest.IsLoop id l)
    (hs : ∀ b ∈ l.blocks, r.Spares root b) (hb : b ∈ l.blocks) (ht : t ∈ l.blocks) (hj : j ≤ (r.codeAt b).body.length)
    (hn : n ≤ (r.codeAt t).body.length) : r.Leads root ⟨b, j⟩ ⟨t, n⟩ := by
  have hnat := hk.forest.natural hl
  have hin : ∀ {x}, x ∈ l.blocks ↔ r.flow.InLoop r.entry l.header x := hk.mem_loop_iff hl
  obtain ⟨z, hbz, hz⟩ := (hin.mp hb).exists_next hnat.header
  obtain ⟨latch, hlatch, hpath⟩ := hz.path_to_latch hnat.header
  have hway : r.flow.Path (r.Spares root) z t :=
    ((hpath.snoc hlatch.edge (.inl rfl)).trans ((hin.mp ht).path_from_header hnat.header)).mono fun x hx =>
      hs x (hin.mpr hx)
  have hend : r.Leads root ⟨b, j⟩ ⟨b, (r.codeAt b).body.length⟩ :=
    Routine.Leads.refl.along hj (Nat.le_refl _) fun q i _ _ => hs b hb q i
  exact ((hend.jump hbz).path hway).block (hs t ht) hn

/-- A release to which control may come back leaves a reference. -/
theorem Routine.Proper.two_le_of_returns (hr : r.Proper) (h : r.Leads root ⟨p.block, p.index + 1⟩ p) (hat : r.At p m)
    (hi : r.instrAt? p = some (.release v kind)) (henv : ∀ m, r.At p m → m.env v = m.env root)
    (ho : m.env root = some o) : 2 ≤ m.count o := by
  obtain ⟨n, he⟩ := hr.safe.exec hat hi
  have ho' : n.env root = some o := by
    rw [(Memory.exec_iff.mp he).keeps.env root nofun, ho]
  have hpos := hr.alive h (.instr hat hi he) ho' hi rfl henv
  have := Memory.count_release_lt he ((henv m hat).trans ho)
  omega

end Liveness

end CountMotion
