import CountMotion.Proofs.Weaving

/-! Moves of count operations, seen along a run: each opens a span over which one object counts
one more or one less than before, and nothing on the way may tell the difference. -/
namespace CountMotion

namespace Memory

variable {m m' n n' : Memory} {up down up' down' u d : ObjId → Nat} {v : Var} {kind : CountKind}

/-- One for the object that the variable holds. -/
def holding (m : Memory) (v : Var) (o : ObjId) : Nat := if m.env v = some o then 1 else 0

theorem holding_congr {w : Var} (h : m'.env v = m.env w) : m'.holding v = m.holding w := by
  funext o
  rw [holding, holding, h]

theorem Shift.refl (m : Memory) : m.Shift (fun _ => 0) (fun _ => 0) m :=
  ⟨rfl, rfl, rfl, fun _ => rfl, fun _ => rfl, fun _ h => absurd h (Nat.lt_irrefl _)⟩

theorem Shift.trans (h : m.Shift up down m') (hn : m'.Shift u d n')
    (hbal : ∀ o, up' o + d o + down o = up o + u o + down' o) (hal : ∀ o, 0 < down' o → down' o < m.count o) :
    m.Shift up' down' n' where
  env := hn.env.trans h.env
  events := hn.events.trans h.events
  size := hn.size.trans h.size
  fields o := (hn.fields o).trans (h.fields o)
  count o := by
    have := h.count o
    have := hn.count o
    have := hbal o
    omega
  alive := hal

theorem Shift.rebase (h : m.Shift up down m') (hn : m.Shift u d n)
    (hbal : ∀ o, up' o + down o + u o = up o + down' o + d o) (hal : ∀ o, 0 < down' o → down' o < n.count o) :
    n.Shift up' down' m' where
  env := h.env.trans hn.env.symm
  events := h.events.trans hn.events.symm
  size := h.size.trans hn.size.symm
  fields o := (h.fields o).trans (hn.fields o).symm
  count o := by
    have := h.count o
    have := hn.count o
    have := hbal o
    omega
  alive := hal

theorem exec_retain (m : Memory) (v : Var) (kind : CountKind) (h : ∀ o, m.env v = some o → 0 < m.count o) :
    ∃ n, m.exec (.retain v kind) = .ok n ∧ m.Shift (m.holding v) (fun _ => 0) n := by
  cases hv : m.env v with
  | none =>
    refine ⟨m, exec_iff.mpr (.idle rfl hv), ?_⟩
    rw [show m.holding v = fun _ => 0 from funext fun o => if_neg (by rw [hv]; exact nofun)]
    exact .refl m
  | some o =>
    have hpos := h o hv
    refine ⟨_, exec_iff.mpr (.retain kind (live_eq_some.mpr ⟨hv, hpos⟩)), ?_⟩
    refine ⟨rfl, rfl, length_setCount .., fields_setCount m o _, fun a => ?_, fun _ h => absurd h (Nat.lt_irrefl _)⟩
    rw [count_setCount (lt_of_count hpos), holding, hv]
    by_cases ha : a = o
    · simp [ha]
    · simp [ha, Ne.symm ha]

theorem exec_release (m : Memory) (v : Var) (kind : CountKind) (h : ∀ o, m.env v = some o → 2 ≤ m.count o) :
    ∃ n, m.exec (.release v kind) = .ok n ∧ m.Shift (fun _ => 0) (m.holding v) n := by
  cases hv : m.env v with
  | none =>
    refine ⟨m, exec_iff.mpr (.idle rfl hv), ?_⟩
    rw [show m.holding v = fun _ => 0 from funext fun o => if_neg (by rw [hv]; exact nofun)]
    exact .refl m
  | some o =>
    have htwo := h o hv
    have hpos : 0 < m.count o := Nat.lt_of_lt_of_le Nat.two_pos htwo
    refine ⟨_, exec_iff.mpr (.release kind (live_eq_some.mpr ⟨hv, hpos⟩) (drop_of_two_le htwo)), ?_⟩
    refine ⟨rfl, rfl, length_setCount .., fields_setCount m o _, fun a => ?_, fun a ha => ?_⟩
    · rw [count_setCount (lt_of_count hpos), holding, hv]
      by_cases ha : a = o
      · subst ha
        simp
        omega
      · simp [ha, Ne.symm ha]
    · rw [holding, hv] at ha ⊢
      split at ha
      · rename_i heq
        rw [if_pos heq, ← Option.some.inj heq]
        exact htwo
      · cases ha

theorem execAll_env {l : List Instr} (hl : ∀ i ∈ l, i.isCount) (h : m.execAll l = .ok n) : n.env = m.env := by
  induction l generalizing m with
  | nil => cases h; rfl
  | cons i l ih =>
    rw [execAll_cons] at h
    cases hm : m.exec i with
    | error o => rw [hm] at h; cases h
    | ok mid =>
      rw [hm] at h
      rw [ih (fun j hj => hl j (.tail _ hj)) h]
      funext v
      refine (exec_iff.mp hm).keeps.env v ?_
      rw [Instr.target?_of_isCount (hl i (.head _))]
      exact nofun

end Memory

/-- A stretch of runs over which the object of the root counts one more, or one less if it is
no lift. It opens and closes at points where an operation comes, and by operations that go. The
last field tells at which points a run may be while the span is open or closed. -/
structure Span where
  root : Var
  lift : Bool
  opensAt : List Point
  closesAt : List Point
  opensBy : List Point
  closesBy : List Point
  may : Bool → Point → Prop

namespace Span

/-- Whether the span is open once the operations that come at the point have run. -/
def turnAt (z : Span) (p : Point) (on : Bool) : Bool := if on then p ∉ z.closesAt else p ∈ z.opensAt

/-- Whether the span is open once the instruction at the point has run. -/
def turnBy (z : Span) (p : Point) (on : Bool) : Bool := if on then p ∉ z.closesBy else p ∈ z.opensBy

def insertions (z : Span) (r : Routine) : List (Point × Instr) :=
  let kind := ((r.storage[z.root]?).map Storage.countKind).getD .strong
  z.opensAt.map (fun p => (p, .retain z.root kind)) ++ z.closesAt.map fun p => (p, .release z.root kind)

def removed (z : Span) : List Point := if z.lift then z.closesBy ++ z.opensBy else z.opensBy ++ z.closesBy

def edits (zs : List Span) (r : Routine) : Edits := ⟨zs.flatMap fun z => z.insertions r, zs.flatMap removed⟩

/-- The span follows every run, and on its way nothing reads or uses up the count of the
object except releases that leave a reference to it. -/
structure Valid (z : Span) (r : Routine) : Prop where
  nodup_opensAt : z.opensAt.Nodup
  nodup_closesAt : z.closesAt.Nodup
  placed : ∀ p ∈ z.opensAt ++ z.closesAt,
    p.block < r.blocks.length ∧ p.index ≤ (r.codeAt p.block).body.length ∧ r.Available p z.root
  plain : z.lift = false → z.opensAt = [] ∧ z.closesAt = []
  start : z.may false ⟨r.entry, 0⟩
  step : ∀ {on p i m}, r.At p m → z.may on p → r.instrAt? p = some i →
    z.may (z.turnBy p (z.turnAt p on)) ⟨p.block, p.index + 1⟩
  jump : ∀ {on b t m}, r.At ⟨b, (r.codeAt b).body.length⟩ m → z.may on ⟨b, (r.codeAt b).body.length⟩ →
    r.flow.Edge b t → z.may (z.turnAt ⟨b, (r.codeAt b).body.length⟩ on) ⟨t, 0⟩
  once_at : ∀ {p m}, r.At p m → (z.may true p → p ∉ z.opensAt) ∧ (z.may false p → p ∉ z.closesAt)
  once_by : ∀ {on p m}, r.At p m → z.may on p →
    (z.turnAt p on = true → p ∉ z.opensBy) ∧ (z.turnAt p on = false → p ∉ z.closesBy)
  alive : ∀ {p m o}, r.At p m → z.may false p → p ∈ z.opensAt → m.env z.root = some o → 0 < m.count o
  opener : ∀ {p}, p ∈ z.opensBy → ∃ v kind,
    r.instrAt? p = some (if z.lift then .release v kind else .retain v kind) ∧ ∀ m, r.At p m → m.env v = m.env z.root
  closer : ∀ {p}, p ∈ z.closesBy → ∃ v kind,
    r.instrAt? p = some (if z.lift then .retain v kind else .release v kind) ∧ ∀ m, r.At p m → m.env v = m.env z.root
  two : ∀ {p m o}, z.lift = true → p ∈ z.opensBy → r.At p m → m.env z.root = some o → 2 ≤ m.count o
  clear : ∀ {on p i m}, r.At p m → z.may on p → z.turnAt p on = true → p ∉ z.closesBy → r.instrAt? p = some i →
    i.target? ≠ some z.root ∧ ∀ o, m.env z.root = some o → m.Touches o i →
      z.lift = true ∧ 2 ≤ m.count o ∧ ∃ v kind, i = .release v kind ∧ m.env v = some o

theorem mem_removed {z : Span} {p : Point} : p ∈ z.removed ↔ p ∈ z.opensBy ∨ p ∈ z.closesBy := by
  rw [removed]
  split <;> rw [List.mem_append]
  exact or_comm

/-- How much more, or less, the open spans make an object count. -/
def excess (zs : List (Span × Bool)) (lift : Bool) (m : Memory) (o : ObjId) : Nat :=
  tally (fun z => if z.2 && z.1.lift == lift then m.holding z.1.root o else 0) zs

/-- Memories of the two runs while some spans are open. -/
structure Related (zs : List (Span × Bool)) (m m' : Memory) : Prop where
  shift : m.Shift (excess zs true m) (excess zs false m) m'
  alive : ∀ z ∈ zs, z.2 = true → ∀ o, m.env z.1.root = some o → 0 < m.count o

variable {r : Routine} {z : Span} {zs ys before after : List (Span × Bool)} {p : Point} {m m' n : Memory} {on : Bool}
  {i : Instr}

@[simp] theorem excess_append (ys zs : List (Span × Bool)) (lift : Bool) (m : Memory) (o : ObjId) :
    excess (ys ++ zs) lift m o = excess ys lift m o + excess zs lift m o := tally_append ..

@[simp] theorem excess_cons (z : Span × Bool) (zs : List (Span × Bool)) (lift : Bool) (m : Memory) (o : ObjId) :
    excess (z :: zs) lift m o = (if z.2 && z.1.lift == lift then m.holding z.1.root o else 0) + excess zs lift m o :=
  tally_cons ..

/-- The operations of a span that come at a point. -/
def opsAt (z : Span) (r : Routine) (p : Point) : List Instr := ((z.insertions r).filter fun x => x.1 == p).map Prod.snd

theorem insertedAt_edits (zs : List Span) (r : Routine) (p : Point) :
    (edits zs r).insertedAt p = zs.flatMap fun z => z.opsAt r p := by
  rw [edits, Edits.insertedAt, List.filter_flatMap, List.map_flatMap]
  rfl

private theorem opsAt_eq (z : Span) (r : Routine) (p : Point) : ∃ kind, z.opsAt r p =
    (z.opensAt.filter fun q => q == p).map (fun _ => .retain z.root kind) ++
      (z.closesAt.filter fun q => q == p).map fun _ => .release z.root kind := by
  refine ⟨((r.storage[z.root]?).map Storage.countKind).getD .strong, ?_⟩
  rw [opsAt, insertions, List.filter_append, List.map_append, List.filter_map, List.filter_map, List.map_map,
    List.map_map]
  rfl

private theorem filter_self {l : List Point} (hn : l.Nodup) (hp : p ∈ l) : l.filter (fun q => q == p) = [p] := by
  rw [List.filter_beq, List.count_eq_one_of_mem hn hp, List.replicate_one]

private theorem filter_other {l : List Point} (hp : p ∉ l) : l.filter (fun q => q == p) = [] :=
  List.filter_eq_nil_iff.mpr fun _ hq heq => hp (beq_iff_eq.mp heq ▸ hq)

private theorem Related.insert_one (hz : z.Valid r) (hat : r.At p m) (hmay : z.may on p)
    (h : Related (before ++ (z, on) :: after) m m') : ∃ n', m'.execAll (z.opsAt r p) = .ok n' ∧
      Related (before ++ (z, z.turnAt p on) :: after) m n' := by
  obtain ⟨kind, hops⟩ := z.opsAt_eq r p
  have hlift : p ∈ z.opensAt ∨ p ∈ z.closesAt → z.lift = true := by
    intro hp
    by_contra hno
    obtain ⟨hopens, hcloses⟩ := hz.plain (by simpa using hno)
    rw [hopens, hcloses] at hp
    rcases hp with hp | hp <;> cases hp
  have henv := h.shift.env
  cases on with
  | false =>
    have hcloses := (hz.once_at hat).2 hmay
    by_cases hp : p ∈ z.opensAt
    · have hpos : ∀ o, m.env z.root = some o → 0 < m.count o := fun o => hz.alive hat hmay hp
      obtain ⟨n', hn', hshift⟩ := Memory.exec_retain m' z.root kind
        fun o ho => h.shift.pos (hpos o (henv ▸ ho))
      rw [hops, filter_self hz.nodup_opensAt hp, filter_other hcloses]
      refine ⟨n', (bind_pure (m'.exec _)).trans hn', ?_⟩
      rw [turnAt, if_neg Bool.false_ne_true, decide_eq_true hp]
      refine ⟨h.shift.trans hshift (fun o => ?_) (fun o => ?_), fun y hy hon => ?_⟩
      · rw [Memory.holding_congr (congrFun henv z.root)]
        simp [hlift (.inl hp)]
        omega
      · have := h.shift.alive o
        simpa [hlift (.inl hp)] using this
      · rcases List.mem_append.mp hy with hy | hy
        · exact h.alive y (List.mem_append_left _ hy) hon
        · rcases List.mem_cons.mp hy with rfl | hy
          · exact hpos
          · exact h.alive y (List.mem_append_right _ (.tail _ hy)) hon
    · rw [hops, filter_other hp, filter_other hcloses, turnAt, if_neg Bool.false_ne_true, decide_eq_false hp]
      exact ⟨m', rfl, h⟩
  | true =>
    have hopens := (hz.once_at hat).1 hmay
    by_cases hp : p ∈ z.closesAt
    · have hpos := h.alive (z, true) (by simp) rfl
      obtain ⟨n', hn', hshift⟩ := Memory.exec_release m' z.root kind fun o ho => by
        rw [henv] at ho
        have hone : m.holding z.root o = 1 := if_pos ho
        have := hpos o ho
        have := h.shift.count o
        have := h.shift.alive o
        simp [hlift (.inr hp), hone] at *
        omega
      rw [hops, filter_other hopens, filter_self hz.nodup_closesAt hp]
      refine ⟨n', (bind_pure (m'.exec _)).trans hn', ?_⟩
      rw [turnAt, if_pos rfl, decide_eq_false (not_not_intro hp)]
      refine ⟨h.shift.trans hshift (fun o => ?_) (fun o => ?_), fun y hy hon => ?_⟩
      · rw [Memory.holding_congr (congrFun henv z.root)]
        simp [hlift (.inr hp)]
        omega
      · have := h.shift.alive o
        simpa [hlift (.inr hp)] using this
      · rcases List.mem_append.mp hy with hy | hy
        · exact h.alive y (List.mem_append_left _ hy) hon
        · rcases List.mem_cons.mp hy with rfl | hy
          · cases hon
          · exact h.alive y (List.mem_append_right _ (.tail _ hy)) hon
    · rw [hops, filter_other hopens, filter_other hp, turnAt, if_pos rfl, decide_eq_true hp]
      exact ⟨m', rfl, h⟩

/-- The operations that come at a point turn the spans that they open and close. -/
theorem Related.insert (hat : r.At p m) (hzs : ∀ z ∈ zs, z.1.Valid r ∧ z.1.may z.2 p) (h : Related zs m m') :
    ∃ n', m'.execAll ((edits (zs.map Prod.fst) r).insertedAt p) = .ok n' ∧
      Related (zs.map fun z => (z.1, z.1.turnAt p z.2)) m n' := by
  suffices rest : ∀ (after before : List (Span × Bool)) (m' : Memory), (∀ z ∈ after, z.1.Valid r ∧ z.1.may z.2 p) →
      Related (before ++ after) m m' → ∃ n', m'.execAll (after.flatMap fun z => z.1.opsAt r p) = .ok n' ∧
        Related (before ++ after.map fun z => (z.1, z.1.turnAt p z.2)) m n' by
    rw [insertedAt_edits, List.flatMap_map]
    exact rest zs [] m' hzs h
  intro after
  induction after with
  | nil => exact fun before m' _ h => ⟨m', rfl, h⟩
  | cons z after ih =>
    intro before m' hall h
    obtain ⟨hz, hmay⟩ := hall z (.head _)
    obtain ⟨mid, hmid, hrel⟩ := h.insert_one hz hat hmay
    obtain ⟨n', hn', hlast⟩ := ih (before ++ [(z.1, z.1.turnAt p z.2)]) mid (fun y hy => hall y (.tail _ hy))
      (by simpa using hrel)
    refine ⟨n', ?_, by simpa using hlast⟩
    rw [List.flatMap_cons, Memory.execAll_append, hmid]
    exact hn'

private theorem excess_congr {lift : Bool} (h : ∀ z ∈ zs, z.2 = true → n.env z.1.root = m.env z.1.root) :
    excess zs lift n = excess zs lift m := by
  funext o
  induction zs with
  | nil => rfl
  | cons z zs ih =>
    rw [excess_cons, excess_cons, ih fun y hy => h y (.tail _ hy)]
    cases hz : z.2 with
    | false => rfl
    | true => rw [Memory.holding_congr (h z (.head _) hz)]

private theorem alive_after {o : ObjId} (he : m.exec i = .ok n) (hpos : 0 < m.count o)
    (htouch : m.Touches o i → 2 ≤ m.count o ∧ ∃ v kind, i = .release v kind ∧ m.env v = some o) : 0 < n.count o := by
  by_cases ht : m.Touches o i
  · obtain ⟨htwo, v, kind, rfl, hv⟩ := htouch ht
    obtain ⟨n', hn', hshift⟩ := Memory.exec_release m v kind fun a ha => by
      rwa [Option.some.inj (ha.symm.trans hv)]
    obtain rfl := Except.ok.inj (he.symm.trans hn')
    have := hshift.count o
    rw [Memory.holding, if_pos hv] at this
    omega
  · exact Nat.lt_of_lt_of_le hpos ((Memory.exec_iff.mp he).keeps.count o ht)

theorem count_pos_of_retain {v : Var} {kind : CountKind} {o : ObjId} (he : m.exec (.retain v kind) = .ok n)
    (ho : m.env v = some o) : 0 < m.count o := by
  cases Memory.exec_iff.mp he with
  | copy _ hc => cases hc
  | retain kind hl =>
    obtain ⟨henv, hpos⟩ := Memory.live_eq_some.mp hl
    rwa [Option.some.inj (ho.symm.trans henv)]
  | idle hc hnone =>
    cases hc
    cases ho.symm.trans hnone

/-- What is asked of an open span at an instruction. -/
private def Allows (z : Span × Bool) (m : Memory) (i : Instr) : Prop := z.2 = true →
  i.target? ≠ some z.1.root ∧ ∀ o, m.env z.1.root = some o → m.Touches o i →
    z.1.lift = true ∧ 2 ≤ m.count o ∧ ∃ v kind, i = .release v kind ∧ m.env v = some o

private theorem excess_drop_eq_zero {o : ObjId} (hall : ∀ z ∈ zs, Allows z m i) (ht : m.Touches o i) :
    excess zs false m o = 0 := by
  induction zs with
  | nil => rfl
  | cons z zs ih =>
    rw [excess_cons, ih fun y hy => hall y (.tail _ hy)]
    split
    · rename_i hon
      simp only [Bool.and_eq_true, beq_iff_eq] at hon
      rw [Memory.holding, if_neg]
      intro ho
      cases (((hall z (.head _) hon.1).2 o ho ht).1).symm.trans hon.2
    · rfl

private theorem excess_eq_zero {o : ObjId} {lift : Bool} (h : ∀ z ∈ zs, z.2 = true → m.env z.1.root ≠ some o) :
    excess zs lift m o = 0 := by
  induction zs with
  | nil => rfl
  | cons z zs ih =>
    rw [excess_cons, ih fun y hy => h y (.tail _ hy)]
    split
    · rename_i hon
      rw [Bool.and_eq_true] at hon
      rw [Memory.holding, if_neg (h z (.head _) hon.1)]
    · rfl

private theorem Related.keep (he : m.exec i = .ok n) (hall : ∀ z ∈ zs, Allows z m i) (h : Related zs m m') :
    ∃ n', m'.exec i = .ok n' ∧ Related zs n n' := by
  have hkeeps := (Memory.exec_iff.mp he).keeps
  have henv : ∀ z ∈ zs, z.2 = true → n.env z.1.root = m.env z.1.root :=
    fun z hz hon => hkeeps.env _ (hall z hz hon).1
  obtain ⟨n', hstep, hshift⟩ := h.shift.step (Memory.exec_iff.mp he) fun o ht => by
    by_cases hheld : ∃ z ∈ zs, z.2 = true ∧ m.env z.1.root = some o
    · obtain ⟨z, hz, hon, ho⟩ := hheld
      obtain ⟨-, htwo, v, kind, hrel, hv⟩ := (hall z hz hon).2 o ho ht
      exact .inr ⟨excess_drop_eq_zero hall ht, htwo, v, kind, hrel, hv⟩
    · have hno : ∀ z ∈ zs, z.2 = true → m.env z.1.root ≠ some o := fun z hz hon ho => hheld ⟨z, hz, hon, ho⟩
      exact .inl ⟨excess_eq_zero hno, excess_eq_zero hno⟩
  refine ⟨n', Memory.exec_iff.mpr hstep, ?_, fun z hz hon o ho => ?_⟩
  · rw [excess_congr henv, excess_congr henv]
    exact hshift
  · rw [henv z hz hon] at ho
    exact alive_after he (h.alive z hz hon o ho) fun ht => ((hall z hz hon).2 o ho ht).2

private theorem Related.skip (hz : z.Valid r) (hat : r.At p m) (hi : r.instrAt? p = some i) (he : m.exec i = .ok n)
    (hp : p ∈ z.removed) (hon : (on = true → p ∉ z.opensBy) ∧ (on = false → p ∉ z.closesBy))
    (hothers : ∀ y ∈ before ++ after, Allows y m i) (h : Related (before ++ (z, on) :: after) m m') :
    Related (before ++ (z, z.turnBy p on) :: after) n m' := by
  have finish : ∀ {u d : ObjId → Nat} {b : Bool}, m.Shift u d n →
      (∀ o, excess (before ++ (z, b) :: after) true m o + excess (before ++ (z, on) :: after) false m o + u o =
        excess (before ++ (z, on) :: after) true m o + excess (before ++ (z, b) :: after) false m o + d o) →
      (∀ o, 0 < excess (before ++ (z, b) :: after) false m o → excess (before ++ (z, b) :: after) false m o < n.count o) →
      (b = true → ∀ o, m.env z.root = some o → 0 < n.count o) → Related (before ++ (z, b) :: after) n m' := by
    intro u d b hshift hbal halive hself
    refine ⟨?_, fun y hy hyon o ho => ?_⟩
    · rw [excess_congr fun y _ _ => congrFun hshift.env y.1.root, excess_congr fun y _ _ => congrFun hshift.env y.1.root]
      exact h.shift.rebase hshift hbal halive
    · rw [hshift.env] at ho
      rw [List.mem_append, List.mem_cons] at hy
      rcases hy with hy | rfl | hy
      · exact alive_after he (h.alive y (List.mem_append_left _ hy) hyon o ho)
          fun ht => ((hothers y (List.mem_append_left _ hy) hyon).2 o ho ht).2
      · exact hself hyon o ho
      · exact alive_after he (h.alive y (List.mem_append_right _ (.tail _ hy)) hyon o ho)
          fun ht => ((hothers y (List.mem_append_right _ hy) hyon).2 o ho ht).2
  have halive := h.shift.alive
  cases on with
  | true =>
    have hby : p ∈ z.closesBy := (mem_removed.mp hp).resolve_left (hon.1 rfl)
    obtain ⟨v, kind, hv, henv⟩ := hz.closer hby
    have hhold := Memory.holding_congr (henv m hat)
    obtain rfl := Option.some.inj (hi.symm.trans hv)
    rw [turnBy, if_pos rfl, decide_eq_false (not_not_intro hby)]
    have hpos := h.alive (z, true) (by simp) rfl
    cases hl : z.lift with
    | true =>
      rw [hl] at he
      obtain ⟨n', hn', hshift⟩ := Memory.exec_retain m v kind
        fun o ho => hpos o (henv m hat ▸ ho)
      obtain rfl := Except.ok.inj (he.symm.trans hn')
      refine finish hshift (fun o => ?_) (fun o hdown => ?_) nofun
      · simp [hl, hhold]
        omega
      · have := hshift.count o
        have := halive o
        simp [hl] at *
        omega
    | false =>
      rw [hl] at he
      have htwo : ∀ o, m.env v = some o → 2 ≤ m.count o := by
        intro o ho
        have hone : m.holding z.root o = 1 := if_pos (henv m hat ▸ ho)
        have := halive o
        simp [hl, hone] at this
        omega
      obtain ⟨n', hn', hshift⟩ := Memory.exec_release m v kind htwo
      obtain rfl := Except.ok.inj (he.symm.trans hn')
      refine finish hshift (fun o => ?_) (fun o hdown => ?_) nofun
      · simp [hl, hhold]
        omega
      · have := hshift.count o
        have := halive o
        simp [hl, hhold] at *
        omega
  | false =>
    have hby : p ∈ z.opensBy := (mem_removed.mp hp).resolve_right (hon.2 rfl)
    obtain ⟨v, kind, hv, henv⟩ := hz.opener hby
    have hhold := Memory.holding_congr (henv m hat)
    obtain rfl := Option.some.inj (hi.symm.trans hv)
    rw [turnBy, if_neg Bool.false_ne_true, decide_eq_true hby]
    cases hl : z.lift with
    | true =>
      rw [hl] at he hothers
      have htwo : ∀ o, m.env v = some o → 2 ≤ m.count o := fun o ho => hz.two hl hby hat (henv m hat ▸ ho)
      obtain ⟨n', hn', hshift⟩ := Memory.exec_release m v kind htwo
      obtain rfl := Except.ok.inj (he.symm.trans hn')
      -- no other span may take a reference away while this release runs
      have hnone : ∀ o, 0 < m.holding v o → excess (before ++ after) false m o = 0 := by
        intro o ho
        refine excess_drop_eq_zero hothers ⟨o, ?_, .refl⟩
        by_contra hno
        rw [Memory.holding, if_neg hno] at ho
        cases ho
      refine finish hshift (fun o => ?_) (fun o hdown => ?_) fun _ o ho => ?_
      · simp [hl, hhold]
        omega
      · have := hshift.count o
        have := halive o
        have := hnone o
        simp [hl] at *
        omega
      · have := htwo o (henv m hat ▸ ho)
        have := hshift.count o
        rw [Memory.holding, if_pos (henv m hat ▸ ho)] at this
        omega
    | false =>
      rw [hl] at he
      have hpos : ∀ o, m.env v = some o → 0 < m.count o := fun o ho => count_pos_of_retain he ho
      obtain ⟨n', hn', hshift⟩ := Memory.exec_retain m v kind hpos
      obtain rfl := Except.ok.inj (he.symm.trans hn')
      have hone : ∀ o, 0 < m.holding v o → 0 < m.count o := by
        intro o ho
        refine hpos o ?_
        by_contra hno
        rw [Memory.holding, if_neg hno] at ho
        cases ho
      refine finish hshift (fun o => ?_) (fun o hdown => ?_) fun _ o ho => ?_
      · simp [hl, hhold]
        omega
      · have := hshift.count o
        have := halive o
        have := hone o
        simp [hl, hhold] at *
        omega
      · have := hshift.count o
        have := hpos o (henv m hat ▸ ho)
        omega

private theorem turnBy_of_not_mem (hp : p ∉ z.removed) : z.turnBy p on = on := by
  rw [mem_removed, not_or] at hp
  cases on with
  | false => exact decide_eq_false hp.1
  | true => exact decide_eq_true hp.2

private theorem Related.step (hat : r.At p m) (hi : r.instrAt? p = some i) (he : m.exec i = .ok n)
    (hzs : ∀ z ∈ zs, z.1.Valid r ∧ z.1.may z.2 p) (hn : ((zs.map Prod.fst).flatMap removed).Nodup)
    (h : Related (zs.map fun z => (z.1, z.1.turnAt p z.2)) m m') :
    ∃ n', m'.execAll (if p ∈ (edits (zs.map Prod.fst) r).deletes then [] else [i]) = .ok n' ∧
      Related (zs.map fun z => (z.1, z.1.turnBy p (z.1.turnAt p z.2))) n n' := by
  have hallow : ∀ z ∈ zs, p ∉ z.1.removed → Allows (z.1, z.1.turnAt p z.2) m i := by
    intro z hz hp hon
    exact (hzs z hz).1.clear hat (hzs z hz).2 hon (fun hc => hp (mem_removed.mpr (.inr hc))) hi
  have hstill : ∀ ys : List (Span × Bool), (∀ z ∈ ys, p ∉ z.1.removed) →
      (ys.map fun z => (z.1, z.1.turnBy p (z.1.turnAt p z.2))) = ys.map fun z => (z.1, z.1.turnAt p z.2) :=
    fun ys hys => List.map_congr_left fun z hz => by rw [turnBy_of_not_mem (hys z hz)]
  rw [List.flatMap_map] at hn
  by_cases hp : p ∈ (edits (zs.map Prod.fst) r).deletes
  · rw [if_pos hp]
    refine ⟨m', rfl, ?_⟩
    obtain ⟨_, hmem, hpz⟩ := List.mem_flatMap.mp hp
    obtain ⟨z, hz, rfl⟩ := List.mem_map.mp hmem
    obtain ⟨before, after, rfl⟩ := List.append_of_mem hz
    have happart : ∀ y ∈ before ++ after, p ∉ y.1.removed := by
      have hpair := (List.nodup_flatMap.mp hn).2
      rw [List.pairwise_append, List.pairwise_cons] at hpair
      intro y hy hpy
      rcases List.mem_append.mp hy with hy | hy
      · exact hpair.2.2 y hy z (.head _) hpy hpz
      · exact hpair.2.1.1 y hy hpz hpy
    have hothers : ∀ y ∈ before ++ after, Allows (y.1, y.1.turnAt p y.2) m i := fun y hy =>
      hallow y (by simpa [or_left_comm] using Or.inr (List.mem_append.mp hy)) (happart y hy)
    rw [List.map_append, List.map_cons] at h ⊢
    rw [hstill before fun y hy => happart y (List.mem_append_left _ hy),
      hstill after fun y hy => happart y (List.mem_append_right _ hy)]
    refine h.skip (hzs z hz).1 hat hi he hpz ((hzs z hz).1.once_by hat (hzs z hz).2) fun y hy => ?_
    rw [← List.map_append] at hy
    obtain ⟨y', hy', rfl⟩ := List.mem_map.mp hy
    exact hothers y' hy'
  · rw [if_neg hp]
    have hnone : ∀ z ∈ zs, p ∉ z.1.removed := fun z hz hpz =>
      hp (List.mem_flatMap.mpr ⟨z.1, List.mem_map_of_mem hz, hpz⟩)
    obtain ⟨n', hn', hrel⟩ := h.keep he fun y hy => by
      obtain ⟨z, hz, rfl⟩ := List.mem_map.mp hy
      exact hallow z hz (hnone z hz)
    rw [hstill zs hnone]
    exact ⟨n', (bind_pure (m'.exec i)).trans hn', hrel⟩

section Runs

variable {spans : List Span} {b : BlockId} {script : List Bool}

private theorem isCount_of_mem_insertedAt (zs : List Span) (hi : i ∈ (edits zs r).insertedAt p) : i.isCount := by
  rw [insertedAt_edits] at hi
  obtain ⟨z, -, hi⟩ := List.mem_flatMap.mp hi
  obtain ⟨x, hx, rfl⟩ := List.mem_map.mp hi
  rcases List.mem_append.mp (List.mem_filter.mp hx).1 with hx | hx
  · obtain ⟨q, -, rfl⟩ := List.mem_map.mp hx
    rfl
  · obtain ⟨q, -, rfl⟩ := List.mem_map.mp hx
    rfl

private theorem tidy_inserted (zs : List Span) (hm : r.Tidy m) (henv : m'.env = m.env)
    (h : m'.execAll ((edits zs r).insertedAt p) = .ok n) (l : Nat) :
    ∃ k, m'.execAll (((edits zs r).insertedAt p).take l) = .ok k ∧ r.Tidy k := by
  rw [← List.take_append_drop l ((edits zs r).insertedAt p)] at h
  obtain ⟨k, hk, -⟩ := Memory.of_execAll_append h
  refine ⟨k, hk, fun v hv => ?_⟩
  rw [Memory.execAll_env (fun i hi => isCount_of_mem_insertedAt zs (List.mem_of_mem_take hi)) hk, henv]
  exact hm v hv

/-- Where both runs are at the end of a block, and every part of the second on the way. -/
private structure Follows (r : Routine) (spans : List Span) (b : BlockId) (m m' : Memory) (l l' : List Instr) : Prop where
  ends : ∃ (n n' : Memory) (zs : List (Span × Bool)), m.execAll l = .ok n ∧ m'.execAll l' = .ok n' ∧
    r.At ⟨b, (r.codeAt b).body.length⟩ n ∧
    zs.map Prod.fst = spans ∧ (∀ z ∈ zs, z.1.may z.2 ⟨b, (r.codeAt b).body.length⟩) ∧
      Related (zs.map fun z => (z.1, z.1.turnAt ⟨b, (r.codeAt b).body.length⟩ z.2)) n n'
  tidy : ∀ j, ∃ k, m'.execAll (l'.take j) = .ok k ∧ r.Tidy k

private theorem Related.block (hr : r.Proper) (hvalid : ∀ z ∈ spans, z.Valid r) (hn : (spans.flatMap removed).Nodup)
    {l : List Instr} {j : Nat} (hl : (r.codeAt b).body.drop j = l) (hat : r.At ⟨b, j⟩ m) (hfst : zs.map Prod.fst = spans)
    (hmay : ∀ z ∈ zs, z.1.may z.2 ⟨b, j⟩) (h : Related zs m m') :
    Follows r spans b m m' l ((edits spans r).woven b j l) := by
  have hpair : ∀ {zs : List (Span × Bool)} {p : Point}, zs.map Prod.fst = spans → (∀ z ∈ zs, z.1.may z.2 p) →
      ∀ z ∈ zs, z.1.Valid r ∧ z.1.may z.2 p :=
    fun hfst hmay z hz => ⟨hvalid z.1 (hfst ▸ List.mem_map_of_mem hz), hmay z hz⟩
  induction l generalizing j m m' zs with
  | nil =>
    obtain ⟨n', hn', hrel⟩ := h.insert hat (hpair hfst hmay)
    rw [hfst] at hn'
    obtain rfl : j = (r.codeAt b).body.length := Nat.le_antisymm hat.index_le (List.drop_eq_nil_iff.mp hl)
    exact ⟨⟨m, n', zs, rfl, hn', hat, hfst, hmay, hrel⟩, tidy_inserted spans (hr.safe.tidy hat) h.shift.env hn'⟩
  | cons i l ih =>
    have hi : r.instrAt? ⟨b, j⟩ = some i := by
      rw [Routine.instrAt?_eq]
      have := congrArg (·[0]?) hl
      simpa using this
    have hdrop : (r.codeAt b).body.drop (j + 1) = l := by
      rw [← List.tail_drop, hl]
      rfl
    obtain ⟨n, he⟩ := hr.safe.exec hat hi
    obtain ⟨mid, hmid, hrel⟩ := h.insert hat (hpair hfst hmay)
    obtain ⟨n', hn', hnext⟩ := hrel.step hat hi he (hpair hfst hmay) (hfst ▸ hn)
    rw [hfst] at hmid hn'
    have hturned : (zs.map fun z => (z.1, z.1.turnBy ⟨b, j⟩ (z.1.turnAt ⟨b, j⟩ z.2))).map Prod.fst = spans := by
      rw [← hfst, List.map_map]
      rfl
    obtain ⟨⟨last, last', zs', hexec, hexec', hlast, hfst', hmay', hrel'⟩, htidy⟩ := ih hdrop (.instr hat hi he) hturned
      (fun z hz => by
        obtain ⟨y, hy, rfl⟩ := List.mem_map.mp hz
        exact (hpair hfst hmay y hy).1.step hat (hmay y hy) hi) hnext
    refine ⟨⟨last, last', zs', ?_, ?_, hlast, hfst', hmay', hrel'⟩, fun k => ?_⟩
    · rw [Memory.execAll_cons, he]
      exact hexec
    · rw [Edits.woven, Memory.execAll_append, hmid]
      refine (Memory.execAll_append mid _ _).trans ?_
      rw [hn']
      exact hexec'
    · rw [Edits.woven]
      by_cases hk : k ≤ ((edits spans r).insertedAt ⟨b, j⟩).length
      · rw [List.take_append_of_le_length hk]
        exact tidy_inserted spans (hr.safe.tidy hat) h.shift.env hmid k
      · rw [List.take_append, List.take_of_length_le (Nat.le_of_not_le hk), Memory.execAll_append, hmid]
        generalize k - ((edits spans r).insertedAt ⟨b, j⟩).length = k
        show ∃ x, mid.execAll (List.take k _) = .ok x ∧ r.Tidy x
        split at hn'
        · cases hn'
          rw [if_pos ‹_›]
          exact htidy k
        · rw [if_neg ‹_›]
          cases k with
          | zero =>
            refine ⟨mid, rfl, fun v hv => ?_⟩
            rw [hrel.shift.env]
            exact hr.safe.tidy hat v hv
          | succ k =>
            obtain ⟨x, hx, hxt⟩ := htidy k
            refine ⟨x, ?_, hxt⟩
            rw [List.singleton_append, List.take_succ_cons, Memory.execAll_cons,
              show mid.exec i = .ok n' from (bind_pure (mid.exec i)).symm.trans hn']
            exact hx

private theorem edits_fit (hvalid : ∀ z ∈ spans, z.Valid r) (hn : (spans.flatMap removed).Nodup) :
    (edits spans r).Fits r ∧ (edits spans r).Placed r ∧
      ∀ x ∈ (edits spans r).inserts, ∀ v ∈ x.2.operands, r.Available x.1 v := by
  have hins : ∀ x ∈ (edits spans r).inserts, ∃ z ∈ spans, x.1 ∈ z.opensAt ++ z.closesAt ∧ x.2.isCount ∧
      x.2.operands = [z.root] := by
    intro x hx
    obtain ⟨z, hz, hx⟩ := List.mem_flatMap.mp hx
    rcases List.mem_append.mp hx with hx | hx
    · obtain ⟨q, hq, rfl⟩ := List.mem_map.mp hx
      exact ⟨z, hz, List.mem_append_left _ hq, rfl, rfl⟩
    · obtain ⟨q, hq, rfl⟩ := List.mem_map.mp hx
      exact ⟨z, hz, List.mem_append_right _ hq, rfl, rfl⟩
  refine ⟨⟨hn, fun p hp => ?_, fun x hx => ?_⟩, fun x hx => ?_, fun x hx v hv => ?_⟩
  · obtain ⟨z, hz, hp⟩ := List.mem_flatMap.mp hp
    rcases mem_removed.mp hp with hp | hp
    · obtain ⟨v, kind, hi, -⟩ := (hvalid z hz).opener hp
      exact ⟨_, hi, by split <;> rfl⟩
    · obtain ⟨v, kind, hi, -⟩ := (hvalid z hz).closer hp
      exact ⟨_, hi, by split <;> rfl⟩
  · obtain ⟨z, hz, hp, hcount, -⟩ := hins x hx
    exact ⟨((hvalid z hz).placed _ hp).1, hcount⟩
  · obtain ⟨z, hz, hp, -, -⟩ := hins x hx
    exact ⟨((hvalid z hz).placed _ hp).1, ((hvalid z hz).placed _ hp).2.1⟩
  · obtain ⟨z, hz, hp, -, hop⟩ := hins x hx
    rw [hop, List.mem_singleton] at hv
    rw [hv]
    exact ((hvalid z hz).placed _ hp).2.2

/-- Where the two runs are after so many blocks. -/
private structure Abreast (r : Routine) (spans : List Span) (c c' : Stage) : Prop where
  block : c'.block = c.block
  script : c'.script = c.script
  reached : r.At ⟨c.block, 0⟩ c.mem
  related : ∃ zs : List (Span × Bool), zs.map Prod.fst = spans ∧ (∀ z ∈ zs, z.1.may z.2 ⟨c.block, 0⟩) ∧
    Related zs c.mem c'.mem

private theorem Abreast.follows {c c' : Stage} (hr : r.Proper) (hvalid : ∀ z ∈ spans, z.Valid r)
    (hn : (spans.flatMap removed).Nodup) (h : Abreast r spans c c') :
    Follows r spans c.block c.mem c'.mem (r.codeAt c.block).body (((edits spans r).applied r).codeAt c'.block).body := by
  obtain ⟨zs, hfst, hmay, hrel⟩ := h.related
  rw [h.block, Edits.codeAt_applied (edits_fit hvalid hn).2.1]
  exact hrel.block hr hvalid hn (List.drop_zero ..) h.reached hfst hmay

private theorem plays (hr : r.Proper) (hvalid : ∀ z ∈ spans, z.Valid r) (hn : (spans.flatMap removed).Nodup) {l : Nat}
    {c : Stage} (h : r.play script l = .ok (.inl c)) :
    ∃ c', ((edits spans r).applied r).play script l = .ok (.inl c') ∧ Abreast r spans c c' := by
  have hterm := Edits.codeAt_applied (edits_fit hvalid hn).2.1
  induction l generalizing c with
  | zero =>
    cases h
    refine ⟨_, rfl, rfl, rfl, .start, spans.map fun z => (z, false), ?_, fun z hz => ?_, ?_, fun z hz hon => ?_⟩
    · rw [List.map_map]
      exact List.map_id _
    · obtain ⟨y, hy, rfl⟩ := List.mem_map.mp hz
      exact (hvalid y hy).start
    · have hzero : ∀ lift, excess (spans.map fun z => (z, false)) lift r.boot = fun _ => 0 := by
        intro lift
        funext o
        refine excess_eq_zero fun z hz hon => ?_
        obtain ⟨y, -, rfl⟩ := List.mem_map.mp hz
        cases hon
      rw [hzero, hzero]
      exact .refl _
    · obtain ⟨y, -, rfl⟩ := List.mem_map.mp hz
      cases hon
  | succ l ih =>
    obtain ⟨d, hd, hadv⟩ := Routine.of_play_succ h
    obtain ⟨d', hd', habreast⟩ := ih hd
    obtain ⟨hexec, hgo⟩ := Routine.of_advance hadv
    obtain ⟨n, n', zs, hn, hn', hat, hfst, hmay, hrel⟩ := (habreast.follows hr hvalid hn).ends
    obtain rfl := Except.ok.inj (hexec.symm.trans hn)
    have hedge := hr.wired.edge (Terminator.mem_targets_of_go hgo)
    refine ⟨⟨c.block, n', c.script⟩, ?_, rfl, rfl, .jump hat hedge, _, ?_, fun z hz => ?_, hrel⟩
    · rw [Routine.play_succ_of_inl hd', Routine.advance, hn']
      simp only [bind, Except.bind]
      rw [hterm, habreast.block, habreast.script, hgo]
      rfl
    · rw [List.map_map]
      exact hfst
    · obtain ⟨y, hy, rfl⟩ := List.mem_map.mp hz
      exact (hvalid y.1 (hfst ▸ List.mem_map_of_mem hy)).jump hat (hmay y hy) hedge

private theorem plays_out (hr : r.Proper) (hvalid : ∀ z ∈ spans, z.Valid r) (hn : (spans.flatMap removed).Nodup) {l : Nat}
    {events : List Event} (h : r.play script l = .ok (.inr events)) :
    ((edits spans r).applied r).play script l = .ok (.inr events) := by
  have hterm := Edits.codeAt_applied (edits_fit hvalid hn).2.1
  induction l with
  | zero => cases h
  | succ l ih =>
    obtain ⟨x, hx⟩ := hr.safe.play_total script l
    cases x with
    | inr es =>
      rw [Routine.play, hx] at h
      cases h
      rw [Routine.play, ih hx]
      rfl
    | inl d =>
      obtain ⟨d', hd', habreast⟩ := plays hr hvalid hn hx
      obtain ⟨n, n', zs, hn, hn', -, -, -, hrel⟩ := (habreast.follows hr hvalid hn).ends
      rw [Routine.play_succ_of_inl hx, Routine.advance, hn] at h
      rw [Routine.play_succ_of_inl hd', Routine.advance, hn']
      simp only [bind, Except.bind] at h ⊢
      rw [hterm, habreast.block, habreast.script]
      cases hgo : (r.codeAt d.block).term.go d.script with
      | inl t => rw [hgo] at h; cases h
      | inr e =>
        rw [hgo] at h
        cases h
        rw [hrel.shift.events]
        rfl

/-- Moves along valid spans that share no operation change nothing that a run shows, and the
routine stays one as the pass takes it. -/
theorem preserve (hr : r.Proper) (hvalid : ∀ z ∈ spans, z.Valid r) (hn : (spans.flatMap removed).Nodup) :
    ((edits spans r).applied r).Proper ∧
      ∀ script events, r.Yields script events → ((edits spans r).applied r).Yields script events := by
  obtain ⟨hfit, hplaced, hav⟩ := edits_fit hvalid hn
  have hbare := hfit.bare_applied
  refine ⟨⟨⟨?_, fun b t ht => ?_⟩, fun p i v hi hv => ?_, hr.ssa.applied hfit hplaced hav, ?_⟩, ?_⟩
  · rw [Routine.length_of_bare hbare]
    exact hr.wired.entry
  · rw [Edits.codeAt_applied hplaced] at ht
    rw [Routine.length_of_bare hbare]
    exact hr.wired.targets b t ht
  · have hmem : v ∈ ((edits spans r).applied r).instrs.filterMap Instr.target? :=
      List.mem_filterMap.mpr ⟨i, Routine.mem_instrs_iff.mpr ⟨p, hi⟩, hv⟩
    rw [← Routine.targets_bare, hbare, Routine.targets_bare] at hmem
    obtain ⟨j, hj, hjv⟩ := List.mem_filterMap.mp hmem
    obtain ⟨q, hq⟩ := Routine.mem_instrs_iff.mp hj
    exact hr.known q j v hq hjv
  · intro script l c' hc' i hi
    obtain ⟨x, hx⟩ := hr.safe.play_total script l
    cases x with
    | inr events => cases hc'.symm.trans (plays_out hr hvalid hn hx)
    | inl c =>
      obtain ⟨d, hd, habreast⟩ := plays hr hvalid hn hx
      obtain rfl := Sum.inl.inj (Except.ok.inj (hc'.symm.trans hd))
      exact (habreast.follows hr hvalid hn).tidy i
  · rintro script events ⟨l, hl⟩
    exact ⟨l, plays_out hr hvalid hn hl⟩

end Runs

end Span

end CountMotion
