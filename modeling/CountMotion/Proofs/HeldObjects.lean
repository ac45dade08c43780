import CountMotion.Proofs.Lawfulness

/-! What the facts say about the objects of a run: a variable holds the object of its root, and
variables that may not share an object hold objects with nothing in common. -/
namespace CountMotion

variable {r : Routine} {start m m' : Memory} {v : Var} {a o : ObjId} {kind : CountKind}

theorem Memory.count_eq_of_release (h : m.exec (.release v kind) = .ok m') (hv : m.env v = some a)
    (hno : ¬ m.Owns a o) : m'.count o = m.count o := by
  cases exec_iff.mp h with
  | copy ht => cases ht
  | idle hi hnone =>
    cases hi
    cases hv.symm.trans hnone
  | release _ hl hd =>
    obtain rfl := Option.some.inj (hv.symm.trans (live_eq_some.mp hl).1)
    exact count_drop hd fun b hb => List.mem_singleton.mp hb ▸ hno

/-- Where no instruction defines a trivial variable, no run puts an object into one. -/
theorem Routine.From.tidy {p : Point} (h : r.From start p m) (hs : r.Tidy start)
    (hno : ∀ i ∈ r.instrs, ∀ v, i.target? = some v → r.storage[v]? ≠ some .trivial) : r.Tidy m := by
  induction h with
  | start => exact hs
  | jump _ _ ih => exact ih
  | instr _ hi he ih =>
    intro v hv
    rw [(Memory.exec_iff.mp he).keeps.env v fun ht => hno _ (mem_instrs_iff.mpr ⟨_, hi⟩) v ht hv]
    exact ih v hv

/-- Wherever a variable is available, its root is so too, and holds the same object. So it does not
matter which of them is counted. -/
theorem root_holds_same_object (r : Routine) (h : r.check = .ok ()) (hs : r.SSA) :
    ∃ k, r.facts = .ok k ∧ ∀ start p m v root, r.From start p m → r.Available p v → k.root v = some root →
      m.env v = m.env root ∧ r.Available p root ∧ ∀ kind kind',
        m.exec (.retain v kind) = m.exec (.retain root kind') ∧
        m.exec (.release v kind) = m.exec (.release root kind') := by
  have hlawful := Routine.lawful_of_check h fun _ => True
  obtain ⟨k, hk, hdescribes⟩ := Routine.facts_describe hlawful.entry hlawful.numbered
  refine ⟨k, hk, fun start p m v root hfrom ha hroot => ?_⟩
  rw [hdescribes.root] at hroot
  have henv := hfrom.env_root hs ha hroot
  refine ⟨henv, ha.root hs hfrom.reached hroot, fun kind kind' => ?_⟩
  simp only [Memory.exec, Memory.live, henv, and_self]

/-- A loop that makes an object on every trip, copies it, and counts it under its three names. -/
def rebuiltLoop : Routine where
  name := "rebuilt_loop"
  params := [0, 1]
  blocks := [
    ⟨0, [], .jump 1⟩,
    ⟨1, [.construct 2 [], .assign 3 (.var 2), .cast 4 3, .retain 4 .strong, .release 3 .strong, .release 2 .strong],
      .branch 1 1 2⟩,
    ⟨2, [.release 0 .strong], .ret 1⟩]
  entry := 0
  storage := [.reference, .trivial, .reference, .reference, .reference]

private theorem rebuiltLoop_once : rebuiltLoop.Once := show [0, 1, 2, 3, 4].Nodup by decide

theorem root_holds_same_object_rebuiltLoop : rebuiltLoop.check = .ok () ∧ rebuiltLoop.SSA ∧
    ∃ k, rebuiltLoop.facts = .ok k ∧ k.root 4 = some 2 ∧
      ∀ start p m, rebuiltLoop.From start p m → rebuiltLoop.Available p 4 → m.env 4 = m.env 2 := by
  have hssa : rebuiltLoop.SSA := .of_local rebuiltLoop_once (by decide)
  obtain ⟨k, hk, h⟩ := root_holds_same_object rebuiltLoop rfl hssa
  have hroot : k.root 4 = some 2 := (Routine.describes_of_check rfl hk).root 4
  exact ⟨rfl, hssa, k, hk, hroot, fun start p m hfrom ha => (h start p m 4 2 hfrom ha hroot).1⟩

/-- From a start where every parameter has an object for itself, variables that may not share an
object never do, neither owns the other, and what is released with one leaves the other alone. -/
theorem apart_objects_stay_apart (r : Routine) (h : r.check = .ok ()) (honce : r.Once) :
    r.boot.Apart ∧ ∃ k, r.facts = .ok k ∧ ∀ start, start.Apart → (∀ p m, r.From start p m → r.Tidy m) →
      ∀ p m v w a b, r.From start p m → k.mayAlias v w = false → m.env v = some a → m.env w = some b →
        a ≠ b ∧ ¬ m.Owns a b ∧ ¬ m.Owns b a ∧
        (∀ kind m', m.exec (.release v kind) = .ok m' → m'.count b = m.count b) ∧
        (∀ kind m', m.exec (.release w kind) = .ok m' → m'.count a = m.count a) := by
  have hlawful := Routine.lawful_of_check h fun _ => True
  obtain ⟨k, hk, hdescribes⟩ := Routine.facts_describe hlawful.entry hlawful.numbered
  refine ⟨r.boot_apart, k, hk, fun start hs ht p m v w a b hfrom hno ha hb => ?_⟩
  rw [hdescribes.mayAlias] at hno
  obtain ⟨hab, hba⟩ := hfrom.not_owns (hlawful.single honce) hs ht hno ha hb
  refine ⟨?_, hab, hba, fun kind m' he => Memory.count_eq_of_release he ha hab,
    fun kind m' he => Memory.count_eq_of_release he hb hba⟩
  rintro rfl
  exact hab .refl

theorem apart_objects_stay_apart_rebuiltLoop : rebuiltLoop.check = .ok () ∧ rebuiltLoop.Once ∧
    (∀ p m, rebuiltLoop.At p m → rebuiltLoop.Tidy m) ∧ ∃ k, rebuiltLoop.facts = .ok k ∧ k.mayAlias 0 4 = false ∧
      ∀ p m a b, rebuiltLoop.At p m → m.env 0 = some a → m.env 4 = some b → a ≠ b ∧ ¬ m.Owns a b ∧ ¬ m.Owns b a := by
  have hboot : rebuiltLoop.Tidy rebuiltLoop.boot := by
    intro v hv
    match v with
    | 1 => rfl
    | v + 5 => rfl
  have htidy : ∀ p m, rebuiltLoop.At p m → rebuiltLoop.Tidy m := fun p m h => h.tidy hboot (by decide)
  obtain ⟨happart, k, hk, h⟩ := apart_objects_stay_apart rebuiltLoop rfl rebuiltLoop_once
  have hno : k.mayAlias 0 4 = false := (Routine.describes_of_check rfl hk).mayAlias 0 4
  refine ⟨rfl, rebuiltLoop_once, htidy, k, hk, hno, fun p m a b hat ha hb => ?_⟩
  obtain ⟨hne, hab, hba, -⟩ := h _ happart htidy p m 0 4 a b hat hno ha hb
  exact ⟨hne, hab, hba⟩

end CountMotion
