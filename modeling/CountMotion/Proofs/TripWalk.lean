import CountMotion.Trip
import CountMotion.Proofs.Standing

/-! What the walk of a trip finds: at each node the net count that all ways ahead agree on. -/
namespace CountMotion

section Turns

variable {k : Facts} {root : Var} {turns : List Bool} {v w : Net} {vs : List Net} {c : Int} {strict : Prop}

/-- A retain counts as true and a release as false. -/
def Effect.turn? : Effect → Option Bool
  | retain => some true
  | release => some false
  | observe | mayRelease | use | nothing => none

theorem Effect.harmless_iff_turn? {e : Effect} : e.harmless ↔ ¬ e.interferes ∧ e.turn? = none := by
  cases e <;> simp [harmless, interferes, turn?]

theorem Effect.cases_of_not_interferes {e : Effect} (h : ¬ e.interferes) : e.harmless ∨ e = .retain ∨ e = .release := by
  cases e <;> simp_all [harmless, interferes]

def Facts.turn? (k : Facts) (root : Var) : Instr → Option Bool
  | .retain v _ => if k.root v = some root then some true else none
  | .release v _ => if k.root v = some root then some false else none
  | _ => none

theorem Facts.turn?_effect (k : Facts) (root : Var) (i : Instr) : (k.effect root i).turn? = k.turn? root i := by
  have huse : ∀ hit, (useIf hit).turn? = none := by
    intro hit
    cases hit <;> rfl
  cases i with
  | retain v kind =>
    simp only [effect, turn?]
    split
    · rfl
    · exact huse _
  | release v kind =>
    simp only [effect, turn?]
    split
    · rfl
    · split <;> rfl
  | isShared _ v =>
    simp only [effect]
    split <;> rfl
  | call _ _ args effects =>
    cases effects with
    | mayRelease => rfl
    | readOnly => exact huse _
  | construct _ args => exact huse _
  | _ => rfl

/-- The operations of a block on the root, in order. -/
def Facts.turnsIn (k : Facts) (root : Var) (code : Block) : List Bool := code.body.filterMap (k.turn? root)

theorem Facts.turnsIn_eq (k : Facts) (root : Var) (b : Nat) (code : Block) :
    ((k.blockEffects root b code).map Prod.snd).filterMap Effect.turn? = k.turnsIn root code := by
  have hterm : (k.termEffect root code.term).turn? = none := by
    cases code.term with
    | ret v =>
      simp only [termEffect, useIf]
      split <;> rfl
    | _ => rfl
  have hbody : (List.range (code.body.length + 1)).map (fun j => code.body[j]?) = code.body.map some ++ [none] := by
    have hsome : (List.range code.body.length).map (fun j => code.body[j]?) = code.body.map some :=
      List.ext_getElem (by simp) fun j hj _ => by simp
    rw [List.range_succ, List.map_append, hsome]
    simp
  calc ((k.blockEffects root b code).map Prod.snd).filterMap Effect.turn?
      = (List.range (code.body.length + 1)).filterMap fun j => (k.effectAt root code j).turn? := by
        rw [blockEffects, List.filterMap_map, List.filterMap_filter, List.filterMap_map]
        refine List.filterMap_congr fun j _ => ?_
        cases h : k.effectAt root code j <;> simp [h, Effect.turn?]
    _ = ((List.range (code.body.length + 1)).map fun j => code.body[j]?).filterMap
          fun o => o.elim none fun i => (k.effect root i).turn? := by
        rw [List.filterMap_map]
        refine List.filterMap_congr fun j _ => ?_
        simp only [effectAt, Function.comp_apply]
        cases code.body[j]? with
        | none => exact hterm
        | some i => rfl
    _ = k.turnsIn root code := by
        rw [hbody, List.filterMap_append, List.filterMap_map, turnsIn]
        simp [Function.comp_def, turn?_effect]

/-- How many more retains than releases there are. -/
def netCount (turns : List Bool) : Int := turns.count true - turns.count false

theorem netCount_append (xs ys : List Bool) : netCount (xs ++ ys) = netCount xs + netCount ys := by
  simp only [netCount, List.count_append]
  omega

/-- Operations that take turns come to nothing, but for a retain at the end. -/
theorem Alternates.netCount (h : Alternates turns) :
    CountMotion.netCount turns = if turns.getLast? = some true then 1 else 0 := by
  induction turns using List.reverseRecOn with
  | nil => rfl
  | append_singleton turns e ih =>
    obtain ⟨hchain, hhead⟩ := h
    obtain ⟨hfirst, -, hlast⟩ := List.isChain_append.mp hchain
    have hbefore : CountMotion.netCount turns = if turns.getLast? = some true then 1 else 0 := by
      refine ih ⟨hfirst, fun hfalse => hhead ?_⟩
      rw [List.head?_append, hfalse]
      rfl
    rw [netCount_append, hbefore, List.getLast?_concat]
    cases e with
    | true =>
      have hnot : turns.getLast? ≠ some true := fun htrue => hlast _ htrue _ rfl rfl
      rw [if_neg hnot]
      rfl
    | false =>
      have htrue : turns.getLast? = some true := by
        cases hturns : turns.getLast? with
        | none =>
          rw [List.getLast?_eq_none_iff] at hturns
          subst hturns
          exact absurd rfl hhead
        | some x =>
          cases x with
          | true => rfl
          | false => exact absurd rfl (hlast _ hturns _ rfl)
      rw [if_pos htrue]
      rfl

namespace Net

/-- What a net tells of a count, if anything, is right. -/
def Tells (v : Net) (c : Int) : Prop := v = .unknown ∨ v = .known c

theorem Tells.add (h : v.Tells c) (step : Int) : (v.add step).Tells (c + step) := by
  rcases h with rfl | rfl
  · exact .inl rfl
  · rw [Net.add]
    split
    · exact .inr rfl
    · exact .inl rfl

theorem Tells.eq (h : v.Tells c) {d : Int} (hv : v = .known d) : c = d := by
  rcases h with rfl | rfl
  · cases hv
  · exact known.inj hv

private theorem foldl_agree (v : Net) (vs : List Net) :
    vs.foldl agree v = .unknown ∨ vs.foldl agree v = v ∧ ∀ w ∈ vs, w = v := by
  induction vs generalizing v with
  | nil => exact .inr ⟨rfl, nofun⟩
  | cons w vs ih =>
    rw [List.foldl_cons, agree]
    split
    · rename_i heq
      exact (ih v).imp_right fun ⟨hv, hall⟩ => ⟨hv, List.forall_mem_cons.mpr ⟨heq.symm, hall⟩⟩
    · exact .inl ((ih unknown).elim id And.left)

theorem agreeAll_eq (h : v ∈ vs) : agreeAll vs = .unknown ∨ agreeAll vs = v := by
  cases vs with
  | nil => cases h
  | cons w vs =>
    refine (foldl_agree w vs).imp_right fun ⟨hw, hall⟩ => ?_
    rcases List.mem_cons.mp h with rfl | h
    · exact hw
    · exact hw.trans (hall v h).symm

end Net

/-- The net is right about the operations so far, which take turns where that is asked. -/
structure Told (strict : Prop) (v : Net) (turns : List Bool) : Prop where
  tells : v.Tells (netCount turns)
  turns : strict → Alternates turns

theorem Told.of_eq (h : Told strict v turns) (hw : w = .unknown ∨ w = v) : Told strict w turns := by
  rcases hw with rfl | rfl
  · exact ⟨.inl rfl, h.turns⟩
  · exact h

namespace Trip

def turn (s : Net × Bool) (up : Bool) : Net × Bool := count s (if up then .retain else .release)

theorem foldl_count (es : List Effect) (s : Net × Bool) : es.foldl count s = (es.filterMap Effect.turn?).foldl turn s := by
  induction es generalizing s with
  | nil => rfl
  | cons e es ih => cases e <;> exact ih _

theorem turn_eq (v : Net) (ok up : Bool) :
    turn (v, ok) up = ((turn (v, true) up).1, ok && (turn (v, true) up).2) := by
  cases up <;> simp [turn, count]

theorem foldl_turn (v : Net) (ok : Bool) (turns : List Bool) : turns.foldl turn (v, ok) =
    ((turns.foldl turn (v, true)).1, ok && (turns.foldl turn (v, true)).2) := by
  induction turns generalizing v ok with
  | nil => simp
  | cons up turns ih =>
    rw [List.foldl_cons, List.foldl_cons, turn_eq, ih]
    obtain ⟨w, ok'⟩ := turn (v, true) up
    rw [ih w ok', Bool.and_assoc]

end Trip

theorem Told.turn (h : Told strict v turns) (up : Bool) (hok : strict → (Trip.turn (v, true) up).2) :
    Told strict (Trip.turn (v, true) up).1 (turns ++ [up]) := by
  cases up with
  | true =>
    refine ⟨?_, fun hs => ?_⟩
    · rw [netCount_append]
      exact h.tells.add 1
    · have hzero := h.tells.eq (by simpa [Trip.turn, Trip.count] using hok hs)
      refine (h.turns hs).snoc ⟨fun hlast => ?_, nofun⟩
      rw [(h.turns hs).netCount, if_pos hlast] at hzero
      cases hzero
  | false =>
    refine ⟨?_, fun hs => ?_⟩
    · rw [netCount_append]
      exact h.tells.add (-1)
    · have hone := h.tells.eq (by simpa [Trip.turn, Trip.count] using hok hs)
      refine (h.turns hs).snoc ⟨fun _ => rfl, fun _ => ?_⟩
      by_contra hlast
      rw [(h.turns hs).netCount, if_neg hlast] at hone
      cases hone

theorem Told.run (h : Told strict v turns) (later : List Bool) (hok : strict → (later.foldl Trip.turn (v, true)).2) :
    Told strict (later.foldl Trip.turn (v, true)).1 (turns ++ later) := by
  induction later generalizing v turns with
  | nil => simpa using h
  | cons up later ih =>
    rw [List.foldl_cons, Trip.foldl_turn] at hok ⊢
    have hstep := h.turn up fun hs => (Bool.and_eq_true_iff.mp (hok hs)).1
    simpa using ih hstep fun hs => (Bool.and_eq_true_iff.mp (hok hs)).2

end Turns

section Walks

variable {f : Flat} {root : Var} {t : Tour} {m n : Nat}

/-- The net after a node, and whether its operations find the counts they should. -/
def Flat.through (f : Flat) (root : Var) (n : Nat) (net : Net) : Net × Bool :=
  (f.nodes[n]?.map fun x => Trip.through f root x (net, true)).getD (net, true)

private theorem Trip.through_eq (f : Flat) (root : Var) (x : Node) (net : Net) (ok : Bool) :
    Trip.through f root x (net, ok) =
      ((Trip.through f root x (net, true)).1, ok && (Trip.through f root x (net, true)).2) := by
  cases hc : x.content with
  | block => simp only [through, hc, foldl_count, foldl_turn net ok]
  | loop _ _ summary => cases hx : summary.root? root <;> simp [through, hc, hx]

theorem Tour.visit_eq (f : Flat) (root : Var) (t : Tour) (n : Nat) : Tour.visit f root t n =
    { nets := (n, (f.through root n (t.into f n)).1) :: t.nets
      ends := if f.liveEscape root n then t.ends ++ [(f.through root n (t.into f n)).1] else t.ends
      alternating := t.alternating && (f.through root n (t.into f n)).2 } := by
  rw [visit, Flat.through]
  cases f.nodes[n]? with
  | none => simp
  | some x => simp only [Option.map_some, Option.getD_some, Trip.through_eq f root x _ t.alternating]

/-- What the walk so far tells of a node. -/
structure Tour.Tells (t : Tour) (f : Flat) (root : Var) (n : Nat) : Prop where
  net : t.nets.lookup n = some (f.through root n (t.into f n)).1
  ends : f.liveEscape root n → (f.through root n (t.into f n)).1 ∈ t.ends
  turns : t.alternating → (f.through root n (t.into f n)).2

private theorem into_visit (h : n ∉ f.preds m) : (Tour.visit f root t n).into f m = t.into f m := by
  rw [Tour.into, Tour.into, Tour.visit_eq]
  congr 2
  refine List.filterMap_congr fun a ha => ?_
  have hne : a ≠ n := fun han => h (han ▸ ha)
  rw [List.lookup_cons, beq_false_of_ne hne]

theorem Tour.visit_tells (h : n ∉ f.preds n) : (Tour.visit f root t n).Tells f root n := by
  have hinto : (Tour.visit f root t n).into f n = t.into f n := into_visit h
  refine ⟨?_, fun hlive => ?_, fun halt => ?_⟩ <;> rw [hinto]
  · rw [visit_eq, List.lookup_cons_self]
  · rw [visit_eq, if_pos hlive]
    exact List.mem_append_right _ (.head _)
  · rw [visit_eq] at halt
    exact (Bool.and_eq_true_iff.mp halt).2

theorem Tour.Tells.visit (ht : t.Tells f root m) (hne : m ≠ n) (h : n ∉ f.preds m) :
    (Tour.visit f root t n).Tells f root m := by
  have hinto : (Tour.visit f root t n).into f m = t.into f m := into_visit h
  refine ⟨?_, fun hlive => ?_, fun halt => ?_⟩ <;> rw [hinto]
  · rw [visit_eq, List.lookup_cons, beq_false_of_ne hne]
    exact ht.net
  · rw [visit_eq]
    dsimp only
    split
    · exact List.mem_append_left _ (ht.ends hlive)
    · exact ht.ends hlive
  · rw [visit_eq] at halt
    exact ht.turns (Bool.and_eq_true_iff.mp halt).1

theorem Layout.walk_tells {y : Layout} (hs : y.Sound) (hn : n ∈ y.order) : (y.flat.walk root).Tells y.flat root n := by
  have horder := searchOrder hs
  refine foldl_keeps (fun done (t : Tour) => ∀ m ∈ done, t.Tells y.flat root m) nofun ?_ n hn
  intro before a after t hl ht m hm
  have hidx : ∀ x, y.order.idxOf x < y.order.idxOf a ↔ x ∈ before := by
    intro x
    have hnodup := horder.nodup
    rw [show y.order = _ from hl.symm] at hnodup ⊢
    exact Graph.idxOf_lt_iff_mem hnodup
  rcases List.mem_append.mp hm with hm | hm
  · have hlt := (hidx m).mpr hm
    refine (ht m hm).visit (fun heq => Nat.lt_irrefl _ (heq ▸ hlt)) fun hpred => ?_
    exact Nat.lt_asymm hlt (mem_preds.mp hpred).2.2
  · obtain rfl := List.mem_singleton.mp hm
    exact Tour.visit_tells fun hpred => Nat.lt_irrefl _ (mem_preds.mp hpred).2.2

/-- Where trips cancel, every way round or out has come to nothing. -/
theorem Trip.eq_of_selfCancelling {ends : List Net} (h : shape ends = .selfCancelling) : ∀ v ∈ ends, v = .known 0 := by
  unfold shape at h
  split at h
  · cases h
  · split at h
    · cases h
    · split at h
      · rename_i first _ _ _ hall
        split at h
        · rename_i hzero
          intro v hv
          rw [← hzero]
          exact beq_iff_eq.mp (List.all_eq_true.mp hall v hv)
        · cases h
      · cases h

/-- Where trips are unbalanced, every way round or out has come to the same other number. -/
theorem Trip.eq_of_unbalanced {ends : List Net} (h : shape ends = .unbalanced) :
    ∃ c, c ≠ 0 ∧ ∀ v ∈ ends, v = .known c := by
  unfold shape at h
  split at h
  · cases h
  · rename_i first rest
    split at h
    · cases h
    · rename_i hknown
      split at h
      · rename_i hall
        split at h
        · cases h
        · rename_i hzero
          cases first with
          | unknown => exact absurd (List.contains_iff_mem.mpr (.head rest)) hknown
          | known c =>
            refine ⟨c, fun hc => hzero (by rw [hc]), fun v hv => ?_⟩
            exact beq_iff_eq.mp (List.all_eq_true.mp hall v hv)
      · cases h

end Walks

end CountMotion
