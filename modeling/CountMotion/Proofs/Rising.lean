import CountMotion.Proofs.Backing
import CountMotion.Proofs.Lifetimes
import CountMotion.Proofs.WholeView

/-! Several retains of a closure rise to one retain where their paths part. -/
namespace CountMotion

variable {y : Layout} {root : Var} {members : List Point} {start target n : Nat} {p x : Point} {i : Instr} {m : Memory}
  {fan : Nat → Prop}

namespace Layout

def Ahead (y : Layout) : Nat → Nat → Prop := Relation.ReflTransGen fun a b => b ∈ y.flat.succs a

theorem Ahead.idxOf_le {a b : Nat} (h : y.Ahead a b) : y.order.idxOf a ≤ y.order.idxOf b := by
  induction h with
  | refl => exact Nat.le_refl _
  | tail _ hs ih => exact Nat.le_trans ih (Nat.le_of_lt (mem_succs.mp hs).2.2)

/-- All paths from the start meet a member, with only harmless code before it. -/
structure Fans (y : Layout) (root : Var) (members : List Point) (start : Nat) (fan : Nat → Prop) : Prop where
  first : ¬ y.flat.liveEscape root start ∧ ∀ s ∈ y.flat.succs start, fan s
  inner : ∀ {b n}, fan n → y.Stands b n →
    (y.child b = none ∧ ∃ j, ⟨b, j⟩ ∈ members ∧ ∀ l < j, (y.facts.effectAt root (y.routine.codeAt b) l).harmless) ∨
    ((y.child b = none → ∀ l ≤ (y.routine.codeAt b).body.length,
        (y.facts.effectAt root (y.routine.codeAt b) l).harmless) ∧
      (∀ c, y.child b = some c → (((y.summary c).getD .blackBox).effectOn y.facts root).harmless) ∧
      ¬ y.flat.liveEscape root n ∧ ∀ s ∈ y.flat.succs n, fan s)
  after : ∀ {n}, fan n → ∃ s ∈ y.flat.succs start, y.Ahead s n

private theorem scan_eq_hit {member barred : Nat → Bool} {len : Nat}
    (h : Flat.scan member barred (List.range len) = .hit) : ∃ j, member j ∧ ∀ l < j, barred l = false := by
  rw [Flat.scan] at h
  split at h
  · rename_i j hj
    obtain ⟨-, -, hbefore⟩ := List.find?_range_eq_some.mp hj
    split at h
    · refine ⟨j, ‹_›, fun l hl => ?_⟩
      have := hbefore l hl
      simp only [Bool.not_or, Bool.and_eq_true, Bool.not_eq_true'] at this
      exact this.2
    · cases h
  · cases h

private theorem scan_eq_clear {member barred : Nat → Bool} {len : Nat}
    (h : Flat.scan member barred (List.range len) = .clear) : ∀ l < len, barred l = false := by
  rw [Flat.scan] at h
  split at h
  · split at h <;> cases h
  · rename_i hnone
    intro l hl
    have := List.find?_eq_none.mp hnone l (List.mem_range.mpr hl)
    simp only [Bool.or_eq_true, not_or, Bool.not_eq_true] at this
    exact this.2

private theorem of_continues (h : y.flat.continues root n) : ¬ y.flat.liveEscape root n ∧ y.flat.succs n ≠ [] := by
  simp only [Flat.continues, Bool.and_eq_true, Bool.not_eq_true', List.isEmpty_eq_false_iff] at h
  exact ⟨by simp [h.1], h.2⟩

private theorem of_meetRetain {b : Nat} (hb : y.Stands b n) (h : y.flat.meetRetain root members n ≠ .barred) :
    (y.child b = none ∧ ∃ j, ⟨b, j⟩ ∈ members ∧ ∀ l < j, (y.facts.effectAt root (y.routine.codeAt b) l).harmless) ∨
    ((y.child b = none → ∀ l ≤ (y.routine.codeAt b).body.length,
        (y.facts.effectAt root (y.routine.codeAt b) l).harmless) ∧
      (∀ c, y.child b = some c → (((y.summary c).getD .blackBox).effectOn y.facts root).harmless) ∧
      ¬ y.flat.liveEscape root n ∧ ((y.flat.meetRetain root members n = .clear ∧ y.flat.succs n ≠ []) ∨
        (y.flat.succs n = [] ∧ y.flat.traps n))) := by
  have hopen : y.flat.meetRetain root members n = .hit ∨ (¬ y.flat.liveEscape root n ∧
      ((y.flat.meetRetain root members n = .clear ∧ y.flat.succs n ≠ []) ∨
        (y.flat.succs n = [] ∧ y.flat.traps n))) := by
    rcases y.flat.meetRetain_cases root members n with hbar | ⟨hhit, -⟩ | ⟨hclear, hgo⟩ | ⟨-, hnil, hesc, htraps⟩
    · exact absurd hbar h
    · exact .inl hhit
    · obtain ⟨hesc, hnext⟩ := of_continues hgo
      exact .inr ⟨hesc, .inl ⟨hclear, hnext⟩⟩
    · exact .inr ⟨hesc, .inr ⟨hnil, htraps⟩⟩
  cases hc : y.child b with
  | none =>
    have hblock : y.flat.block? n = some (b, y.routine.codeAt b) := block?_eq_some.mpr ⟨hb.own hc, rfl⟩
    cases hs : Flat.scan (fun j => members.contains ⟨b, j⟩)
        (fun l => !(y.flat.facts.effectAt root (y.routine.codeAt b) l).harmless)
        (List.range ((y.routine.codeAt b).body.length + 1)) with
    | hit =>
      obtain ⟨j, hj, hbefore⟩ := scan_eq_hit hs
      exact .inl ⟨rfl, j, List.contains_iff_mem.mp hj, fun l hl => Bool.not_eq_eq_eq_not.mp (hbefore l hl)⟩
    | clear =>
      have hall := scan_eq_clear hs
      refine .inr ⟨fun _ l hl => Bool.not_eq_eq_eq_not.mp (hall l (Nat.lt_succ_of_le hl)),
        fun c h => absurd h.symm (Option.some_ne_none c), hopen.resolve_left ?_⟩
      simp only [Flat.meetRetain, hblock, hs]
      split_ifs <;> decide
    | dead => exact absurd hs Flat.scan_ne_dead
    | barred =>
      refine absurd ?_ h
      simp only [Flat.meetRetain, hblock, hs]
  | some c =>
    have hplace : y.places[n]? = some (.loop c) := by rw [hb.2, placeOf, hc]
    obtain ⟨q, e, heff, -, -, rfl⟩ := effects_inner root hplace
    have hblock : y.flat.block? n = none := by
      rw [Flat.block?, getElem?_nodes, hplace]
      rfl
    by_cases hall : (y.flat.effects root n).all fun x => x.2 == .use
    · refine .inr ⟨fun h => absurd h (Option.some_ne_none c), fun c' hc' => ?_, hopen.resolve_left ?_⟩
      · obtain rfl := Option.some.inj hc'
        rw [heff] at hall
        cases he : ((y.summary c).getD .blackBox).effectOn y.facts root <;> rw [he] at hall <;>
          first | rfl | cases hall
      · rw [Flat.meetRetain, hblock]
        have hmet : (if (y.flat.effects root n).all fun x => x.2 == .use then Flat.Meeting.clear else .barred) = .clear :=
          if_pos hall
        erw [hmet]
        split_ifs <;> decide
    · refine absurd ?_ h
      rw [Flat.meetRetain, hblock]
      have hmet : (if (y.flat.effects root n).all fun x => x.2 == .use then Flat.Meeting.clear else .barred) = .barred :=
        if_neg hall
      erw [hmet]

/-- Paths that meet no member end where all traps, and some path leads on from the start. -/
structure Fanned (y : Layout) (root : Var) (members : List Point) (start : Nat) (fan : Nat → Prop) : Prop where
  fans : y.Fans root members start fan
  opens : y.flat.succs start ≠ []
  traps : ∀ {b n}, fan n → y.Stands b n → (∀ j, ⟨b, j⟩ ∉ members) → y.flat.succs n = [] → y.flat.traps n

theorem fanned_of_meets (h : y.flat.pathsMeet root members start) : ∃ fan, y.Fanned root members start fan := by
  rw [Flat.pathsMeet, Bool.and_eq_true, List.all_eq_true] at h
  obtain ⟨hgo, hopen⟩ := h
  generalize hfound : explore (List.range y.flat.size) _ _ [] = found at hopen
  obtain ⟨hesc, hopens⟩ := of_continues hgo
  refine ⟨(· ∈ found), ⟨⟨hesc, fun s hs => ?_⟩, fun {b n} hn hb => ?_, fun {n} hn => ?_⟩, hopens,
    fun {b n} hn hb hno hnil => ?_⟩ <;> subst hfound
  · exact mem_explore_of_pending hs (mem_range_of_succs hs)
  · rcases of_meetRetain hb (by simpa using hopen n hn) with hmember | ⟨hown, hinner, hesc, hnext⟩
    · exact .inl hmember
    · refine .inr ⟨hown, hinner, hesc, fun s hs => ?_⟩
      rcases hnext with ⟨hclear, -⟩ | ⟨hnil, -⟩
      · exact explore_closed hn List.not_mem_nil (by simpa [hclear] using hs) (mem_range_of_succs hs)
      · rw [hnil] at hs
        cases hs
  · refine explore_induct (p := fun n => ∃ s ∈ y.flat.succs start, y.Ahead s n) (by simp) ?_ ?_ n hn
    · exact fun s hs _ => ⟨s, hs, .refl⟩
    · rintro a b - ⟨s, hs, ha⟩ hb -
      split at hb
      · exact ⟨s, hs, ha.tail hb⟩
      · cases hb
  · rcases of_meetRetain hb (by simpa using hopen n hn) with ⟨-, j, hj, -⟩ | ⟨-, -, -, ⟨-, hne⟩ | ⟨-, htraps⟩⟩
    · exact absurd hj (hno j)
    · exact absurd hnil hne
    · exact htraps

theorem fans_of_meets (h : y.flat.pathsMeet root members start) : ∃ fan, y.Fans root members start fan :=
  (fanned_of_meets h).imp fun _ hf => hf.fans

/-- A member lies ahead of the point, which stands at the node. -/
def LeadsTo (y : Layout) (members : List Point) (n : Nat) (p : Point) : Prop :=
  ∃ x ∈ members, (x.block = p.block ∧ p.index ≤ x.index) ∨
    ∃ s ∈ y.flat.succs n, ∃ nx, y.Stands x.block nx ∧ y.Ahead s nx

/-- No way leads around the start to a member. -/
structure Guards (y : Layout) (start : Nat) (members : List Point) : Prop where
  reached : start ∈ y.order
  ahead : ∀ {a b x nx}, a ∈ y.order → b ∈ y.flat.succs a → y.order.idxOf a < y.order.idxOf start →
    y.order.idxOf start < y.order.idxOf b → x ∈ members → y.Stands x.block nx → ¬ y.Ahead b nx
  back : ∀ {a b s x nx}, a ∈ y.order → b ∈ y.graph.next a → ¬ y.order.idxOf a < y.order.idxOf b →
    s ∈ y.flat.succs start → y.Ahead s b → x ∈ members → y.Stands x.block nx → ¬ y.Ahead b nx

theorem Guards.ahead_of_start {nx : Nat} (h : y.Guards start members) (hs : y.Sound) (hx : x ∈ members)
    (hnx : y.Stands x.block nx) (hn : n ∈ y.order) (hlt : y.order.idxOf start < y.order.idxOf n) (ha : y.Ahead n nx) :
    ∃ s ∈ y.flat.succs start, y.Ahead s n := by
  induction hk : y.order.idxOf n using Nat.strong_induction_on generalizing n with
  | _ k ih =>
    subst hk
    rcases (searchOrder hs).entered n hn with rfl | ⟨a, he, han⟩
    · rw [(searchOrder hs).idxOf_entry] at hlt
      cases hlt
    · have ho : a ∈ y.order := List.idxOf_lt_length_iff.mp (Nat.lt_trans han (List.idxOf_lt_length_of_mem hn))
      have hsucc : n ∈ y.flat.succs a := mem_succs.mpr ⟨ho, edge_graph.mp he, han⟩
      rcases Nat.lt_trichotomy (y.order.idxOf a) (y.order.idxOf start) with hb | heq | hb
      · exact absurd ha (h.ahead ho hsucc hb hlt hx hnx)
      · obtain rfl := (List.idxOf_inj ho).mp heq
        exact ⟨n, hsucc, .refl⟩
      · obtain ⟨s, hstart, has⟩ := ih _ han ho hb (.head hsucc ha) rfl
        exact ⟨s, hstart, has.tail hsucc⟩

theorem not_leadsTo (h : ¬ y.flat.leadsOn members x) (hn : y.Stands x.block n)
    (hown : ∀ z ∈ members, y.child z.block = none) : ¬ y.LeadsTo members n ⟨x.block, x.index + 1⟩ := by
  rw [Flat.leadsOn, nodeOf_eq_some.mpr hn, Bool.or_eq_true, not_or] at h
  obtain ⟨hblock, hahead⟩ := h
  rintro ⟨z, hz, ⟨hb, hle⟩ | ⟨s, hs, nz, hnz, ha⟩⟩
  · exact hblock (List.any_eq_true.mpr ⟨z, hz, by simpa using ⟨hb, hle⟩⟩)
  · refine hahead (List.any_eq_true.mpr ⟨nz, ?_, ?_⟩)
    · clear hnz
      induction ha with
      | refl => exact mem_explore_of_pending hs (mem_range_of_succs hs)
      | tail _ hsucc ih => exact explore_closed ih List.not_mem_nil hsucc (mem_range_of_succs hsucc)
    · have hb : y.flat.block? nz = some (z.block, y.routine.codeAt z.block) :=
        block?_eq_some.mpr ⟨hnz.own (hown z hz), rfl⟩
      rw [hb]
      exact List.any_eq_true.mpr ⟨z, hz, by simp⟩

end Layout

namespace Closure

variable {c : Closure} {down up : Nat → Option Pending} {net : Point → Int} {on : Bool}

/-- The retains of a closure can rise to a block where their paths part. -/
structure Rises (c : Closure) (y : Layout) (net : Point → Int) (target start : Nat) (fan : Nat → Prop) : Prop where
  nets : y.Nets c.root net
  fans : y.Fans c.root c.retains start fan
  guards : y.Guards start c.retains
  place : y.places[start]? = some (.block target)
  apart : ∀ x ∈ c.retains, ¬ y.flat.leadsOn c.retains x
  dominated : ∀ x ∈ c.retains, target ≠ x.block ∧ y.routine.flow.Dominates y.routine.entry target x.block
  available : y.routine.Available ⟨target, (y.routine.codeAt target).body.length⟩ c.root

/-- All retains go, and one comes at the end of the target. The span is open from there to each
of them. -/
def riseSpan (c : Closure) (y : Layout) (target start : Nat) (fan : Nat → Prop) : Span where
  root := c.root
  lift := true
  opensAt := [⟨target, (y.routine.codeAt target).body.length⟩]
  closesAt := []
  opensBy := []
  closesBy := c.retains
  may on p :=
    (on = true → (∃ n, y.Stands p.block n ∧ fan n ∧ ∀ x ∈ c.retains, x.block = p.block → p.index ≤ x.index) ∨
      y.facts.Quiet y.routine c.root p.block) ∧
    (on = false → ∀ n, y.Stands p.block n → ∀ s ∈ y.flat.succs start, y.Ahead s n → ¬ y.LeadsTo c.retains n p)

private theorem turnAt_rise (c : Closure) (y : Layout) (target start : Nat) (fan : Nat → Prop) (p : Point) (on : Bool) :
    (c.riseSpan y target start fan).turnAt p on = true ↔
      on = true ∨ p = ⟨target, (y.routine.codeAt target).body.length⟩ := by
  cases on <;> simp [Span.turnAt, riseSpan]

private theorem turnBy_rise (c : Closure) (y : Layout) (target start : Nat) (fan : Nat → Prop) (p : Point) (on : Bool) :
    (c.riseSpan y target start fan).turnBy p on = true ↔ on = true ∧ p ∉ c.retains := by
  cases on with
  | false => simp [Span.turnBy, riseSpan]
  | true => exact ⟨fun h => ⟨rfl, of_decide_eq_true h⟩, fun h => decide_eq_true h.2⟩

namespace Rises

theorem stands (h : c.Rises y net target start fan) : y.Stands target start := (Layout.stands_of_place h.place).1

private theorem alive (h : c.Rises y net target start fan) (hc : c.Standing y down up) (hv : y.Views) {o : ObjId}
    (hat : y.routine.At ⟨target, (y.routine.codeAt target).body.length⟩ m) (ho : m.env c.root = some o) :
    0 < m.count o := by
  obtain ⟨x, hx⟩ := List.exists_mem_of_ne_nil _ hc.ne_nil
  obtain ⟨v, kind, hi, henv⟩ := hc.retain_env hv hx
  obtain ⟨hne, hdom⟩ := h.dominated x hx
  obtain ⟨-, hreach⟩ := (hc.retains x hx).reached hv
  obtain hall | heq | ⟨d, -, he, hpath⟩ := hreach.after target
  · exact absurd (hall.mono fun _ h => h.2) hdom
  · exact absurd heq.symm hne
  · have hspares := hv.proper.ssa.spares_of_dominated h.available hat.reached hdom (hpath.mono fun _ h => h.2)
    exact hv.proper.alive
      (.block (.path (.jump .refl he) hspares) hspares.last (Nat.le_of_lt (Routine.index_lt hi))) hat ho hi rfl henv

private theorem clear (h : c.Rises y net target start fan) (hv : y.Views) (hat : y.routine.At p m)
    (hi : y.routine.instrAt? p = some i) (hs : y.Stands p.block n) (hfan : fan n)
    (hle : ∀ x ∈ c.retains, x.block = p.block → p.index ≤ x.index) (hp : p ∉ c.retains) :
    i.target? ≠ some c.root ∧ ∀ o, m.env c.root = some o → m.Touches o i →
      2 ≤ m.count o ∧ ∃ v kind, i = .release v kind ∧ m.env v = some o := by
  obtain ⟨s, hsucc, hahead⟩ := h.fans.after hfan
  have hlt : y.order.idxOf start < y.order.idxOf n :=
    Nat.lt_of_lt_of_le (Layout.mem_succs.mp hsucc).2.2 hahead.idxOf_le
  have hst := h.stands
  have hreach := (hv.reached hst).mp h.guards.reached
  have htarget : ∀ {q i}, y.Stands q.block n → y.routine.instrAt? q = some i → i.target? ≠ some c.root :=
    fun hq hi => hv.target_ne hst.1 hreach h.available (.inl (by rwa [hst.rank, hq.rank])) hq.1 hi
  refine ⟨htarget hs hi, fun o ho ht => ?_⟩
  have hquiet : (y.facts.effect c.root i).harmless → False := fun h => hv.not_touches hat h ho ht
  rw [← Facts.effectAt_of_instr hi] at hquiet
  rcases h.fans.inner hfan hs with ⟨-, j, hj, hbefore⟩ | ⟨hown, hinner, -⟩
  · have hne : p.index ≠ j := by
      rintro rfl
      exact hp hj
    exact (hquiet (hbefore _ (Nat.lt_of_le_of_ne (hle _ hj rfl) hne))).elim
  · cases hl : y.child p.block with
    | none => exact (hquiet (hown hl _ (Nat.le_of_lt (Routine.index_lt hi)))).elim
    | some l =>
      have hpasses : y.Passes c.root p.block := by
        refine ⟨l, hl, hinner l hl, fun q i hq hql hi => htarget ⟨hq, ?_⟩ hi⟩
        rw [hs.2, Layout.placeOf, Layout.placeOf, hl, hql]
      rcases h.nets.step hat.reached hs.1 hpasses hi with ⟨hh, -⟩ | ⟨hret, -⟩ | ⟨hrel, -⟩
      · rw [← Facts.effectAt_of_instr hi] at hh
        exact (hquiet hh).elim
      · obtain ⟨v, kind, rfl, -⟩ := Facts.effect_eq_retain hret
        exact ht.elim
      · refine ⟨h.nets.spare hat hs.1 hpasses hi hrel ho, ?_⟩
        obtain ⟨v, kind, rfl, hroot⟩ := Facts.effect_eq_release hrel
        exact ⟨v, kind, rfl, (hv.describes.env_of_root hv.proper hat hi (.head _) hroot).trans ho⟩

private theorem goes_on (hv : y.Views) {b t : Nat} (hs : y.Stands b n)
    (hr : y.routine.flow.Reaches y.routine.entry b) (he : y.routine.flow.Edge b t)
    (hesc : ¬ y.flat.liveEscape c.root n) (hsame : (y.child b).isSome → fan n) (hnext : ∀ s ∈ y.flat.succs n, fan s) :
    (∃ n', y.Stands t n' ∧ fan n') ∨ y.facts.Quiet y.routine c.root t := by
  rcases hv.entered.goes_on hs hr he hesc with ⟨n', hn', -, ⟨rfl, hinner⟩ | hsucc⟩ | ⟨-, hexit⟩
  · exact .inl ⟨n', hn', hsame hinner⟩
  · exact .inl ⟨n', hn', hnext n' hsucc⟩
  · exact .inr ⟨t, hexit, .refl ..⟩

private theorem outside (h : c.Rises y net target start fan) (hc : c.Standing y down up) (hv : y.Views) {b t s : Nat}
    (hne : b ≠ target) (hr : y.routine.flow.Reaches y.routine.entry b) (he : y.routine.flow.Edge b t)
    (hb : ∀ n, y.Stands b n → ∀ s ∈ y.flat.succs start, y.Ahead s n →
      ¬ y.LeadsTo c.retains n ⟨b, (y.routine.codeAt b).body.length⟩)
    (ht : y.Stands t n) (hs : s ∈ y.flat.succs start) (ha : y.Ahead s n) : ¬ y.LeadsTo c.retains n ⟨t, 0⟩ := by
  intro hleads
  have hg := h.guards
  have hlt : y.order.idxOf start < y.order.idxOf n := Nat.lt_of_lt_of_le (Layout.mem_succs.mp hs).2.2 ha.idxOf_le
  by_cases hmem : b ∈ y.region.blocks
  · obtain ⟨nb, hnb⟩ := Layout.exists_stands hmem
    have hnbo := (hv.reached hnb).mpr hr
    rcases hnb.edge ht (Routine.mem_targets_of_edge he) with ⟨rfl, hinner⟩ | hedge
    · obtain ⟨x, hx, ⟨hxt, -⟩ | hway⟩ := hleads
      · obtain ⟨-, -, -, hchild, -⟩ := hc.retains x hx
        have := Layout.inner_congr hnb ht hinner
        rw [← show x.block = t from hxt, hchild] at this
        cases this
      · exact hb n hnb s hs ha ⟨x, hx, .inr hway⟩
    · obtain ⟨x, hx, nx, hnx, hax⟩ : ∃ x ∈ c.retains, ∃ nx, y.Stands x.block nx ∧ y.Ahead n nx := by
        obtain ⟨x, hx, ⟨hxt, -⟩ | ⟨s', hs', nx, hnx, hax⟩⟩ := hleads
        · exact ⟨x, hx, n, by rwa [show x.block = t from hxt], .refl⟩
        · exact ⟨x, hx, nx, hnx, .head hs' hax⟩
      by_cases hfwd : y.order.idxOf nb < y.order.idxOf n
      · have hsucc : n ∈ y.flat.succs nb := Layout.mem_succs.mpr ⟨hnbo, hedge, hfwd⟩
        rcases Nat.lt_trichotomy (y.order.idxOf nb) (y.order.idxOf start) with hlt' | heq | hlt'
        · exact hg.ahead hnbo hsucc hlt' hlt hx hnx hax
        · obtain rfl := (List.idxOf_inj hnbo).mp heq
          exact hne (hnb.eq_block h.place).1
        · obtain ⟨s', hs', ha'⟩ := hg.ahead_of_start hv.sound hx hnx hnbo hlt' (.head hsucc hax)
          exact hb nb hnb s' hs' ha' ⟨x, hx, .inr ⟨n, hsucc, nx, hnx, hax⟩⟩
      · exact hg.back hnbo hedge hfwd hs ha hx hnx hax
  · rw [ht.eq_entry (hv.enter hr he hmem ht.1), (Layout.searchOrder hv.sound).idxOf_entry] at hlt
    cases hlt

private theorem step (h : c.Rises y net target start fan) (hc : c.Standing y down up)
    (hmay : (c.riseSpan y target start fan).may on p) (hi : y.routine.instrAt? p = some i) :
    (c.riseSpan y target start fan).may ((c.riseSpan y target start fan).turnBy p
      ((c.riseSpan y target start fan).turnAt p on)) ⟨p.block, p.index + 1⟩ := by
  cases on with
  | false =>
    have hoff : (c.riseSpan y target start fan).turnAt p false = false := by
      refine Bool.eq_false_iff.mpr fun hon => ?_
      obtain rfl := ((turnAt_rise ..).mp hon).resolve_left Bool.false_ne_true
      exact Nat.lt_irrefl _ (Routine.index_lt hi)
    have hstay : (c.riseSpan y target start fan).turnBy p false = false :=
      Bool.eq_false_iff.mpr fun hon => Bool.false_ne_true ((turnBy_rise ..).mp hon).1
    rw [hoff, hstay]
    refine ⟨fun hon => absurd hon Bool.false_ne_true, fun _ n hs s hsucc ha hleads => hmay.2 rfl n hs s hsucc ha ?_⟩
    exact hleads.imp fun x ⟨hx, hway⟩ => ⟨hx, hway.imp_left fun ⟨hb, hle⟩ => ⟨hb, Nat.le_of_succ_le hle⟩⟩
  | true =>
    rw [(turnAt_rise ..).mpr (.inl rfl)]
    by_cases hp : p ∈ c.retains
    · have hclose : (c.riseSpan y target start fan).turnBy p true = false :=
        Bool.eq_false_iff.mpr fun hon => ((turnBy_rise ..).mp hon).2 hp
      have hown : ∀ z ∈ c.retains, y.child z.block = none := fun z hz => (hc.retains z hz).choose_spec.2.2.1
      rw [hclose]
      exact ⟨fun hon => absurd hon Bool.false_ne_true,
        fun _ n hs _ _ _ => Layout.not_leadsTo (h.apart p hp) hs hown⟩
    · rw [(turnBy_rise ..).mpr ⟨rfl, hp⟩]
      refine ⟨fun _ => (hmay.1 rfl).imp_left fun ⟨n, hs, hfan, hle⟩ => ⟨n, hs, hfan, fun x hx hb => ?_⟩,
        fun hon => absurd hon.symm Bool.false_ne_true⟩
      refine Nat.lt_of_le_of_ne (hle x hx hb) fun heq => hp ?_
      rwa [show p = x from congr (congrArg Point.mk hb.symm) heq]

private theorem jump (h : c.Rises y net target start fan) (hc : c.Standing y down up) (hv : y.Views) {b t : Nat}
    (hat : y.routine.At ⟨b, (y.routine.codeAt b).body.length⟩ m)
    (hmay : (c.riseSpan y target start fan).may on ⟨b, (y.routine.codeAt b).body.length⟩)
    (he : y.routine.flow.Edge b t) :
    (c.riseSpan y target start fan).may
      ((c.riseSpan y target start fan).turnAt ⟨b, (y.routine.codeAt b).body.length⟩ on) ⟨t, 0⟩ := by
  have hmayOn : (∃ n', y.Stands t n' ∧ fan n') ∨ y.facts.Quiet y.routine c.root t →
      (c.riseSpan y target start fan).may true ⟨t, 0⟩ := fun h =>
    ⟨fun _ => h.imp_left fun ⟨n', hs', hfan⟩ => ⟨n', hs', hfan, fun _ _ _ => Nat.zero_le _⟩,
      fun hon => absurd hon.symm Bool.false_ne_true⟩
  by_cases hb : b = target
  · subst hb
    rw [(turnAt_rise ..).mpr (.inr rfl)]
    refine hmayOn (goes_on hv h.stands hat.reached he h.fans.first.1 (fun hchild => ?_) h.fans.first.2)
    rw [(h.stands.eq_block h.place).2] at hchild
    cases hchild
  · cases on with
    | false =>
      have hoff : (c.riseSpan y target start fan).turnAt ⟨b, (y.routine.codeAt b).body.length⟩ false = false := by
        refine Bool.eq_false_iff.mpr fun hon => hb ?_
        exact congrArg Point.block (((turnAt_rise ..).mp hon).resolve_left Bool.false_ne_true)
      rw [hoff]
      exact ⟨fun hon => absurd hon Bool.false_ne_true,
        fun _ n hs s hsucc ha => h.outside hc hv hb hat.reached he (hmay.2 rfl) hs hsucc ha⟩
    | true =>
      rw [(turnAt_rise ..).mpr (.inl rfl)]
      refine hmayOn ?_
      rcases hmay.1 rfl with ⟨n, hs, hfan, hle⟩ | hquiet
      · rcases h.fans.inner hfan hs with ⟨-, j, hj, -⟩ | ⟨-, -, hesc, hnext⟩
        · obtain ⟨v, kind, hi, -⟩ := hc.retain_env hv hj
          exact absurd (Routine.index_lt hi) (Nat.not_lt.mpr (hle _ hj rfl))
        · exact goes_on hv hs hat.reached he hesc (fun _ => hfan) hnext
      · exact .inr (hquiet.edge he)

private theorem not_open (h : c.Rises y net target start fan) (hc : c.Standing y down up) (hv : y.Views) :
    ¬ (c.riseSpan y target start fan).may true ⟨target, (y.routine.codeAt target).body.length⟩ := by
  intro hmay
  rcases hmay.1 rfl with ⟨n, hs, hfan, -⟩ | hquiet
  · obtain ⟨s, hsucc, ha⟩ := h.fans.after hfan
    have hlt := Nat.lt_of_lt_of_le (Layout.mem_succs.mp hsucc).2.2 ha.idxOf_le
    rw [hs.unique h.stands] at hlt
    exact Nat.lt_irrefl _ hlt
  · obtain ⟨x, hx⟩ := List.exists_mem_of_ne_nil _ hc.ne_nil
    refine (hc.retains x hx).not_quiet (.inl rfl) (hquiet.reaches ?_)
    exact (h.dominated x hx).2.reaches ((hc.retains x hx).reached hv).2

private theorem not_closed (h : c.Rises y net target start fan) (hc : c.Standing y down up) (hv : y.Views)
    (hat : y.routine.At p m) (hp : p ∈ c.retains) : ¬ (c.riseSpan y target start fan).may false p := by
  intro hmay
  obtain ⟨n, hn, hs, -⟩ := hc.retains p hp
  have hle := hv.ranked h.stands.1 hs.1 hat.reached (h.dominated p hp).2
  rw [h.stands.rank, hs.rank] at hle
  have hlt : y.order.idxOf start < y.order.idxOf n := by
    refine Nat.lt_of_le_of_ne hle fun heq => (h.dominated p hp).1 ?_
    obtain rfl := (List.idxOf_inj h.guards.reached).mp heq
    exact (hs.eq_block h.place).1.symm
  obtain ⟨s, hsucc, ha⟩ := h.guards.ahead_of_start hv.sound hp hs hn hlt .refl
  exact hmay.2 rfl n hs s hsucc ha ⟨p, hp, .inl ⟨rfl, Nat.le_refl _⟩⟩

/-- Letting the retains of a closure rise to where their paths part keeps what runs show. -/
theorem valid (h : c.Rises y net target start fan) (hc : c.Standing y down up) (hv : y.Views) :
    (c.riseSpan y target start fan).Valid y.routine where
  nodup_opensAt := List.nodup_singleton _
  nodup_closesAt := .nil
  placed p hp := by
    obtain rfl := List.mem_singleton.mp hp
    exact ⟨hv.sound.exists_block _ h.stands.1, Nat.le_refl _, h.available⟩
  plain hlift := absurd hlift.symm Bool.false_ne_true
  start := by
    refine ⟨fun hon => absurd hon Bool.false_ne_true, fun _ n hs s hsucc ha => ?_⟩
    have hlt := Nat.lt_of_lt_of_le (Layout.mem_succs.mp hsucc).2.2 ha.idxOf_le
    rw [hs.eq_entry (hv.entry hs.1), (Layout.searchOrder hv.sound).idxOf_entry] at hlt
    cases hlt
  step _ hmay hi := h.step hc hmay hi
  jump hat hmay he := h.jump hc hv hat hmay he
  once_at _ := by
    refine ⟨fun hmay hp => ?_, fun _ => List.not_mem_nil⟩
    rw [List.mem_singleton.mp hp] at hmay
    exact h.not_open hc hv hmay
  once_by {on p m} hat hmay := by
    refine ⟨fun _ => List.not_mem_nil, fun hoff hp => ?_⟩
    cases on with
    | true => exact absurd ((turnAt_rise ..).mpr (.inl rfl)) (Bool.eq_false_iff.mp hoff)
    | false => exact h.not_closed hc hv hat hp hmay
  alive hat _ hp ho := by
    rw [List.mem_singleton.mp hp] at hat
    exact h.alive hc hv hat ho
  opener hp := absurd hp List.not_mem_nil
  closer hp := hc.retain_env hv hp
  two _ hp := absurd hp List.not_mem_nil
  clear {on p i m} hat hmay hon hp hi := by
    suffices hclear : i.target? ≠ some c.root ∧ ∀ o, m.env c.root = some o → m.Touches o i →
        2 ≤ m.count o ∧ ∃ v kind, i = .release v kind ∧ m.env v = some o from
      ⟨hclear.1, fun o ho ht => ⟨rfl, hclear.2 o ho ht⟩⟩
    cases on with
    | false =>
      obtain rfl := ((turnAt_rise ..).mp hon).resolve_left Bool.false_ne_true
      exact absurd (Routine.index_lt hi) (Nat.lt_irrefl _)
    | true =>
      rcases hmay.1 rfl with ⟨n, hs, hfan, hle⟩ | hquiet
      · exact h.clear hv hat hi hs hfan hle hp
      · have hquiet := hc.clear_of_quiet hv hat hi hquiet
        exact ⟨hquiet.1, fun o ho ht => absurd ht (hquiet.2 o ho)⟩

end Rises

end Closure

end CountMotion
