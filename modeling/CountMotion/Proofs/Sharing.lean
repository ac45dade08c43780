import CountMotion.Effect
import CountMotion.Proofs.BareFacts
import CountMotion.Proofs.Holding

/-! Variables that may not share an object hold objects with nothing in common, so harmless
effects leave the counts alone. -/
namespace CountMotion

variable {r : Routine} {p : Point} {m m' : Memory} {i : Instr} {v w x y : Var} {o a : ObjId}

theorem Memory.of_lives {vs : List Var} {os : List ObjId} (h : m.lives vs = .ok os) (ho : o ∈ os) :
    ∃ v ∈ vs, m.env v = some o := by
  have hmap : ∀ {hs}, vs.mapM m.live = .ok hs → some o ∈ hs → ∃ v ∈ vs, m.env v = some o := by
    clear h
    induction vs with
    | nil =>
      intro hs hhs
      cases hhs
      exact nofun
    | cons v vs ih =>
      intro hs hhs hmem
      rw [List.mapM_cons] at hhs
      cases hv : m.live v with
      | error e => rw [hv] at hhs; cases hhs
      | ok held =>
        cases hrest : vs.mapM m.live with
        | error e => rw [hv, hrest] at hhs; cases hhs
        | ok rest =>
          rw [hv, hrest] at hhs
          cases hhs
          rcases List.mem_cons.mp hmem with rfl | hmem
          · exact ⟨v, .head _, Memory.env_of_live hv⟩
          · obtain ⟨w, hw, henv⟩ := ih hrest hmem
            exact ⟨w, .tail _ hw, henv⟩
  rw [Memory.lives] at h
  cases hs : vs.mapM m.live with
  | error e => rw [hs] at h; cases h
  | ok hs' =>
    rw [hs] at h
    cases h
    obtain ⟨held, hheld, rfl⟩ := List.mem_filterMap.mp ho
    exact hmap hs hheld

structure Memory.Closed (m : Memory) : Prop where
  env : ∀ v o, m.env v = some o → o < m.objects.length
  fields : ∀ a, ∀ o ∈ m.fields a, o < m.objects.length

/-- Every variable has its object for itself, and no object owns another. -/
structure Memory.Apart (m : Memory) : Prop where
  made : ∀ v o, m.env v = some o → o < m.objects.length
  own : ∀ v w o, m.env v = some o → m.env w = some o → v = w
  bare : ∀ a, m.fields a = []

namespace Memory.Apart

theorem closed (h : m.Apart) : m.Closed := ⟨h.made, fun a _ ho => absurd (h.bare a ▸ ho) List.not_mem_nil⟩

theorem give (h : m.Apart) (v : Var) : ((m.alloc []).hold v (some m.objects.length)).Apart := by
  have hnew : ∀ w, m.env w ≠ some m.objects.length := fun w hw => Nat.lt_irrefl _ (h.made w _ hw)
  refine ⟨fun w o hw => ?_, fun w w' o hw hw' => ?_, fun a => ?_⟩
  · rw [env_hold] at hw
    split at hw
    · obtain rfl := Option.some.inj hw
      simp [alloc, hold]
    · simpa [alloc, hold] using Nat.lt_succ_of_lt (h.made w o hw)
  · rw [env_hold] at hw hw'
    split at hw <;> split at hw'
    · subst w w'
      rfl
    · obtain rfl := Option.some.inj hw
      exact absurd hw' (hnew w')
    · obtain rfl := Option.some.inj hw'
      exact absurd hw (hnew w)
    · exact h.own w w' o hw hw'
  · rw [fields_hold, fields_alloc, h.bare]
    exact ite_self _

end Memory.Apart

theorem Routine.boot_apart (r : Routine) : r.boot.Apart := by
  refine List.foldlRecOn r.params r.receive ⟨nofun, nofun, fun _ => rfl⟩ fun m hm v _ => ?_
  rw [receive]
  split
  · exact hm.give v
  · exact hm

theorem Memory.Step.closed (h : m.Step i m') (hc : m.Closed) : m'.Closed := by
  have hold : ∀ {m : Memory} (dst : Var) (x : Option ObjId), m.Closed → (∀ o, x = some o → o < m.objects.length) →
      (m.hold dst x).Closed := by
    refine fun dst x hc hx => ⟨fun v o hv => ?_, hc.fields⟩
    rw [Memory.env_hold] at hv
    split at hv
    · exact hx o hv
    · exact hc.env v o hv
  cases h with
  | copy ht hcopy => exact hold _ _ hc fun o ho => hc.env _ o ho
  | literal dst x => exact hold _ _ hc nofun
  | @project dst source field held hl =>
    refine hold _ _ hc fun o ho => ?_
    obtain ⟨a, -, hfield⟩ := Option.bind_eq_some_iff.mp ho
    exact hc.fields a o (List.mem_of_getElem? hfield)
  | @construct dst args fs hl =>
    have halloc : (m.alloc fs).objects.length = m.objects.length + 1 := by simp [Memory.alloc]
    refine hold _ _ ⟨fun v o hv => ?_, fun a o ho => ?_⟩ fun o ho => ?_
    · exact halloc ▸ Nat.lt_succ_of_lt (hc.env v o hv)
    · rw [Memory.fields_alloc] at ho
      refine halloc ▸ Nat.lt_succ_of_lt ?_
      split at ho
      · obtain ⟨v, -, hv⟩ := Memory.of_lives hl ho
        exact hc.env v o hv
      · exact hc.fields a o ho
    · obtain rfl := Option.some.inj ho
      exact halloc ▸ Nat.lt_succ_self _
  | call dst callee effect hl => exact hold (m := m.emit _) _ _ ⟨hc.env, hc.fields⟩ nofun
  | shared dst hl => exact hold (m := m.emit _) _ _ ⟨hc.env, hc.fields⟩ nofun
  | unheld dst hv => exact hold _ _ hc nofun
  | @retain v kind o hl =>
    exact ⟨fun w b hw => by simpa using hc.env w b hw, fun b c hb => by simpa using hc.fields b c (by simpa using hb)⟩
  | release kind hl hd =>
    have hlow := Memory.drop_lowers hd
    refine ⟨fun w b hw => ?_, fun b c hb => ?_⟩
    · rw [hlow.size]
      exact hc.env w b (hlow.env ▸ hw)
    · rw [hlow.size]
      exact hc.fields b c (hlow.fields b ▸ hb)
  | idle => exact hc

theorem Routine.From.closed {start : Memory} (h : r.From start p m) (hs : start.Closed) : m.Closed := by
  induction h with
  | start => exact hs
  | instr _ _ he ih => exact (Memory.exec_iff.mp he).closed ih
  | jump _ _ ih => exact ih

theorem Routine.At.closed (h : r.At p m) : m.Closed := From.closed h r.boot_apart.closed

/-- A routine as the pass takes it: control stays inside, variables are known, each has one
definition, and nothing goes wrong on any script. -/
structure Routine.Proper (r : Routine) : Prop where
  wired : r.Wired
  known : ∀ p i v, r.instrAt? p = some i → i.target? = some v → v < r.storage.length
  ssa : r.SSA
  safe : r.Safe

/-- What instructions define is known, and has no other definition. -/
structure Routine.Single (r : Routine) : Prop where
  known : ∀ p i v, r.instrAt? p = some i → i.target? = some v → v < r.storage.length
  once : r.Once

theorem Routine.Proper.single (h : r.Proper) : r.Single := ⟨h.known, h.ssa.once⟩

theorem Routine.counted_of_lt (h : v < r.storage.length) (hv : r.storage[v]? ≠ some .trivial) :
    (r.storage[v]?.map Storage.counted).getD false := by
  rw [List.getElem?_eq_getElem h] at hv ⊢
  cases hs : r.storage[v] with
  | trivial => exact absurd (congrArg some hs) hv
  | reference => rfl
  | aggregate => rfl

namespace Routine.Single

theorem sourceOf_eq (h : r.Single) (hp : r.instrAt? p = some i) (ht : i.target? = some v) :
    r.sourceOf v = i.copied? := h.once.sourceOf_eq (h.known p i v hp ht) hp ht

/-- A fresh root is made by an instruction that puts nothing counted into it. -/
theorem of_fresh (h : r.Single) (hy : (r.aliasing r.identity).isFresh y) :
    (∃ p args, r.instrAt? p = some (.construct y args) ∧ ∀ v ∈ args, r.storage[v]? = some .trivial) ∧
      y ∉ r.escaping r.identity ∧ r.rootOf y = some y := by
  rw [Alias.isFresh, List.contains_iff_mem] at hy
  obtain ⟨hleaf, hstay⟩ := List.mem_filter.mp hy
  obtain ⟨j, hj, hroot⟩ := List.mem_filterMap.mp hleaf
  obtain ⟨p, hp⟩ := mem_instrs_iff.mp hj
  cases j with
  | construct dst args =>
    dsimp only at hroot
    split at hroot
    · cases hroot
    · rename_i hargs
      rw [root_identity] at hroot
      obtain ⟨-, ⟨n, hn⟩, -, -⟩ := rootOf_eq_some.mp hroot
      cases hn with
      | step hs _ => cases hs.symm.trans (h.sourceOf_eq hp rfl)
      | self =>
        refine ⟨⟨p, args, hp, fun v hv => ?_⟩, by simpa using hstay, hroot⟩
        have hv := List.any_eq_false.mp (Bool.not_eq_true _ ▸ hargs) v hv
        rw [isCounted] at hv
        cases hs : r.storage[v]? with
        | none => rw [hs] at hv; cases hv rfl
        | some c => cases c <;> simp_all [Storage.counted]
  | _ => cases hroot

theorem root_of_copied (h : r.Single) (hp : r.instrAt? p = some i) (ht : i.target? = some v)
    (hc : i.copied? = some w) (hv : r.storage[v]? ≠ some .trivial) (hw : r.rootOf w = some y) :
    r.rootOf v = some y := by
  obtain ⟨-, ⟨n, hn⟩, hy⟩ := rootOf_eq_some.mp hw
  have hsource := (h.sourceOf_eq hp ht).trans hc
  exact rootOf_eq_some.mpr ⟨counted_of_lt (h.known p i v hp ht) hv, ⟨n + 1, .step hsource hn⟩, hy⟩

theorem root_of_source (h : r.Single) (hp : r.instrAt? p = some i) (ht : i.target? = some v)
    (hc : i.copied? = some w) (hw : r.storage[w]? ≠ some .trivial) (hy : r.rootOf y = some y)
    (hv : r.rootOf v = some y) : r.rootOf w = some y := by
  obtain ⟨-, ⟨n, hn⟩, hend⟩ := rootOf_eq_some.mp hv
  have hsource := (h.sourceOf_eq hp ht).trans hc
  cases hn with
  | self => cases hsource.symm.trans hend.1
  | step hs hrest =>
    obtain rfl := Option.some.inj (hs.symm.trans hsource)
    cases hrest with
    | self => exact hy
    | step hs' hrest' =>
      exact rootOf_eq_some.mpr ⟨counted_of_lt (exists_of_sourceOf hs').1 hw, ⟨_, .step hs' hrest'⟩, hend⟩

theorem eq_of_root (h : r.Single) (hp : r.instrAt? p = some i) (ht : i.target? = some v) (hc : i.copied? = none)
    (hv : r.rootOf v = some y) : v = y := by
  obtain ⟨-, ⟨n, hn⟩, -⟩ := rootOf_eq_some.mp hv
  cases hn with
  | self => rfl
  | step hs _ => cases hs.symm.trans ((h.sourceOf_eq hp ht).trans hc)

end Routine.Single

/-- Nothing but copies of a fresh root holds its object. -/
structure Memory.Alone (m : Memory) (r : Routine) (y : Var) (o : ObjId) : Prop where
  empty : m.fields o = []
  unstored : ∀ a, o ∉ m.fields a
  held : ∀ v, m.env v = some o → r.rootOf v = some y

namespace Memory.Alone

theorem eq_of_owns (h : m.Alone r y o) (ho : m.Owns o a) : a = o := by
  rcases Relation.ReflTransGen.cases_head ho with rfl | ⟨b, hb, -⟩
  · rfl
  · rw [h.empty] at hb
    cases hb

theorem eq_of_owned (h : m.Alone r y o) (ho : m.Owns a o) : a = o := by
  rcases Relation.ReflTransGen.cases_tail ho with rfl | ⟨b, -, hb⟩
  · rfl
  · exact absurd hb (h.unstored b)

end Memory.Alone

/-- The root and its copies hold objects that nothing else holds. They need not hold the same one: a
copy may keep an object of an earlier turn of a loop. -/
def Memory.Secludes (m : Memory) (r : Routine) (y : Var) : Prop :=
  ∀ v o, r.rootOf v = some y → m.env v = some o → m.Alone r y o

namespace Memory.Secludes

theorem of_apart (h : m.Apart) (r : Routine) (y : Var) : m.Secludes r y := fun v o hv ho =>
  ⟨h.bare o, fun a ha => List.not_mem_nil (h.bare a ▸ ha), fun w hw => h.own v w o ho hw ▸ hv⟩

theorem congr (h : m.Secludes r y) (henv : m'.env = m.env) (hfields : ∀ a, m'.fields a = m.fields a) :
    m'.Secludes r y := by
  intro v o hv ho
  rw [henv] at ho
  obtain ⟨hempty, hun, hheld⟩ := h v o hv ho
  exact ⟨by rw [hfields, hempty], fun a => by rw [hfields]; exact hun a, by rwa [henv]⟩

theorem emit (h : m.Secludes r y) (e : Event) : (m.emit e).Secludes r y := h.congr rfl fun _ => rfl

theorem hold (h : m.Secludes r y) {dst : Var} {x : Option ObjId}
    (hx : ∀ o, x = some o → (r.rootOf dst = some y → m.Alone r y o) ∧ (m.Alone r y o → r.rootOf dst = some y)) :
    (m.hold dst x).Secludes r y := by
  intro v o hv ho
  have halone : m.Alone r y o := by
    rw [env_hold] at ho
    split at ho
    · subst v
      exact (hx o ho).1 hv
    · exact h v o hv ho
  refine ⟨halone.empty, halone.unstored, fun w hw => ?_⟩
  rw [env_hold] at hw
  split at hw
  · subst w
    exact (hx o hw).2 halone
  · exact halone.held w hw

/-- A new object may own none of the secluded ones, and is empty if it is to be secluded. -/
theorem construct (h : m.Secludes r y) (hc : m.Closed) {dst : Var} {fs : List ObjId}
    (hfs : ∀ o ∈ fs, ¬ m.Alone r y o) (hdst : r.rootOf dst = some y → fs = []) :
    ((m.alloc fs).hold dst (some m.objects.length)).Secludes r y := by
  have hnew : ∀ v, m.env v ≠ some m.objects.length := fun v hv => Nat.lt_irrefl _ (hc.env v _ hv)
  intro v o hv ho
  rw [env_hold] at ho
  split at ho
  · subst v
    obtain rfl := Option.some.inj ho
    refine ⟨?_, fun a ha => ?_, fun w hw => ?_⟩
    · rw [fields_hold, fields_alloc, if_pos rfl, hdst hv]
    · rw [fields_hold, fields_alloc, hdst hv] at ha
      split at ha
      · cases ha
      · exact Nat.lt_irrefl _ (hc.fields a _ ha)
    · rw [env_hold] at hw
      split at hw
      · subst w
        exact hv
      · exact absurd hw (hnew w)
  · have halone := h v o hv ho
    have hlt : o < m.objects.length := hc.env v o ho
    refine ⟨?_, fun a ha => ?_, fun w hw => ?_⟩
    · rw [fields_hold, fields_alloc, if_neg (Nat.ne_of_lt hlt), halone.empty]
    · rw [fields_hold, fields_alloc] at ha
      split at ha
      · exact hfs o ha halone
      · exact halone.unstored a ha
    · rw [env_hold] at hw
      split at hw
      · obtain rfl := Option.some.inj hw
        exact absurd hlt (Nat.lt_irrefl _)
      · exact halone.held w hw

/-- No instruction lets a fresh root out of sight. -/
theorem step (hs : m.Secludes r y) (hr : r.Single) (hy : (r.aliasing r.identity).isFresh y)
    (hi : r.instrAt? p = some i) (h : m.Step i m') (hc : m.Closed) (ht : r.Tidy m) (ht' : r.Tidy m') :
    m'.Secludes r y := by
  obtain ⟨⟨q, args, hq, hargs⟩, hstay, hroot⟩ := hr.of_fresh hy
  have hdef : ∀ {dst : Var}, i.target? = some dst → i.copied? = none → (∀ args, i ≠ .construct dst args) →
      r.rootOf dst ≠ some y := by
    intro dst ht hc hno hdst
    obtain rfl := hr.eq_of_root hi ht hc hdst
    obtain rfl := hr.once.unique hq hi rfl ht
    exact hno args (Option.some.inj (hi.symm.trans hq))
  cases h with
  | @copy _ dst source htarget hcopy =>
    refine hs.hold fun o ho => ?_
    have hsource : r.storage[source]? ≠ some .trivial := fun htriv => by cases ho.symm.trans (ht source htriv)
    have hdst : r.storage[dst]? ≠ some .trivial := by
      intro htriv
      have := ht' dst htriv
      rw [env_hold, if_pos rfl, ho] at this
      cases this
    exact ⟨fun hv => hs source o (hr.root_of_source hi htarget hcopy hsource hroot hv) ho,
      fun halone => hr.root_of_copied hi htarget hcopy hdst (halone.held source ho)⟩
  | @project dst source field held hl =>
    refine hs.hold fun o ho => ⟨fun hv => absurd hv (hdef rfl rfl nofun), fun halone => ?_⟩
    obtain ⟨a, -, hfield⟩ := Option.bind_eq_some_iff.mp ho
    exact absurd (List.mem_of_getElem? hfield) (halone.unstored a)
  | @construct dst args' fs hl =>
    refine hs.construct hc (fun o ho halone => ?_) fun hv => ?_
    · obtain ⟨v, hv, henv⟩ := of_lives hl ho
      refine hstay (List.mem_append_left _ (List.mem_filterMap.mpr ⟨v, ?_, ?_⟩))
      · exact List.mem_flatMap.mpr ⟨_, Routine.mem_instrs_iff.mpr ⟨p, hi⟩, hv⟩
      · rw [Routine.root_identity, halone.held v henv]
    · obtain rfl := hr.eq_of_root hi rfl rfl hv
      obtain rfl := hr.once.unique hq hi rfl rfl
      cases Option.some.inj (hi.symm.trans hq)
      refine List.eq_nil_iff_forall_not_mem.mpr fun o ho => ?_
      obtain ⟨v, hv, henv⟩ := of_lives hl ho
      cases henv.symm.trans (ht v (hargs v hv))
  | literal dst x => exact hs.hold nofun
  | call dst callee effect hl => exact (hs.emit _).hold nofun
  | shared dst hl => exact (hs.emit _).hold nofun
  | unheld dst hv => exact hs.hold nofun
  | retain kind hl => exact hs.congr rfl (fields_setCount m _ _)
  | release kind hl hd => exact hs.congr (drop_lowers hd).env (drop_lowers hd).fields
  | idle => exact hs

end Memory.Secludes

namespace Routine.From

variable {start : Memory}

theorem secludes (h : r.From start p m) (hr : r.Single) (hs : start.Apart) (ht : ∀ p m, r.From start p m → r.Tidy m)
    (hy : (r.aliasing r.identity).isFresh y) : m.Secludes r y := by
  induction h with
  | start => exact .of_apart hs r y
  | jump _ _ ih => exact ih
  | instr hat hi he ih =>
    exact ih.step hr hy hi (Memory.exec_iff.mp he) (hat.closed hs.closed) (ht _ _ hat) (ht _ _ (.instr hat hi he))

end Routine.From

private theorem Routine.trivial_of_not_isCounted {t : Identity} (h : (r.aliasing t).isCounted v = false) :
    r.storage[v]? = some .trivial := by
  rw [Alias.isCounted, Routine.aliasing, List.getElem?_map] at h
  cases hs : r.storage[v]? with
  | none => rw [hs] at h; cases h
  | some c => cases c <;> simp_all [Storage.counted]

private theorem Routine.fresh_of_not_mayAlias (hno : (r.aliasing r.identity).mayAlias v w = false)
    (hv : (r.aliasing r.identity).isCounted v) (hw : (r.aliasing r.identity).isCounted w) :
    ∃ y, (r.aliasing r.identity).isFresh y ∧
      (r.rootOf v = some y ∧ r.rootOf w ≠ some y ∨ r.rootOf w = some y ∧ r.rootOf v ≠ some y) := by
  have hroot : ∀ u, (r.aliasing r.identity).roots[u]?.join = r.rootOf u := r.root_identity
  rw [Alias.mayAlias, hv, hw, hroot, hroot] at hno
  cases hx : r.rootOf v with
  | none =>
    cases hy : r.rootOf w with
    | none => simp [hx, hy] at hno
    | some y => exact ⟨y, by simpa [hx, hy] using hno, .inr ⟨rfl, nofun⟩⟩
  | some x =>
    cases hy : r.rootOf w with
    | none => exact ⟨x, by simpa [hx, hy] using hno, .inl ⟨rfl, nofun⟩⟩
    | some y =>
      simp only [hx, hy, Bool.true_and, Bool.or_eq_false_iff, beq_eq_false_iff_ne, ne_eq, Bool.and_eq_false_iff,
        Bool.not_eq_false'] at hno
      obtain ⟨hne, hfresh | hfresh⟩ := hno
      · exact ⟨x, hfresh, .inl ⟨rfl, fun h => hne (Option.some.inj h).symm⟩⟩
      · exact ⟨y, hfresh, .inr ⟨rfl, fun h => hne (Option.some.inj h)⟩⟩

/-- Variables that may not share an object hold objects of which neither owns the other. -/
theorem Routine.From.not_owns {start : Memory} (h : r.From start p m) (hr : r.Single) (hs : start.Apart)
    (ht : ∀ p m, r.From start p m → r.Tidy m) (hno : (r.aliasing r.identity).mayAlias v w = false)
    (ha : m.env v = some a) (ho : m.env w = some o) : ¬ m.Owns a o ∧ ¬ m.Owns o a := by
  have hcounted : ∀ {u b}, m.env u = some b → (r.aliasing r.identity).isCounted u = true := by
    intro u b hu
    refine Bool.not_eq_false _ ▸ fun hc => ?_
    cases hu.symm.trans (ht p m h u (trivial_of_not_isCounted hc))
  obtain ⟨y, hfresh, ⟨hv, hw⟩ | ⟨hw, hv⟩⟩ := fresh_of_not_mayAlias hno (hcounted ha) (hcounted ho)
  · have halone := h.secludes hr hs ht hfresh v a hv ha
    exact ⟨fun howns => hw (halone.held w (halone.eq_of_owns howns ▸ ho)),
      fun howns => hw (halone.held w (halone.eq_of_owned howns ▸ ho))⟩
  · have halone := h.secludes hr hs ht hfresh w o hw ho
    exact ⟨fun howns => hv (halone.held v (halone.eq_of_owned howns ▸ ha)),
      fun howns => hv (halone.held v (halone.eq_of_owns howns ▸ ha))⟩

end CountMotion
