import CountMotion.Proofs.SoundFacts

/-! How control comes into a loop with a preheader: from there and nowhere else, unless the routine
starts at its header. -/
namespace CountMotion

namespace Graph

variable {g : Graph} {entry h p a b : Nat}

namespace Preheader

/-- The only step into the loop is the one from its preheader to its header. -/
theorem of_step (hp : g.Preheader entry h p) (hr : g.Reaches entry a) (he : g.Edge a b)
    (ha : ¬ g.InLoop entry h a) (hb : g.InLoop entry h b) : a = p ∧ b = h := by
  have hbh : b = h := Decidable.not_not.mp fun hne => ha (hb.of_edge hne hr he)
  subst hbh
  exact ⟨(hp.only a he).resolve_left ha, rfl⟩

/-- A preheader dominates its header, but for a header at which all paths start. -/
theorem dominates_iff (hp : g.Preheader entry h p) : g.Dominates entry p h ↔ h ≠ entry := by
  constructor
  · rintro hdom rfl
    exact hp.outside (.inl hdom.eq_entry)
  · intro hne hpath
    obtain hall | ⟨c, hc, -, -, rfl | ⟨d, hd, he⟩⟩ := hpath.meets (· ≠ h)
    · exact hall.last.2 rfl
    · exact hne (Decidable.not_not.mp hc).symm
    · obtain rfl : c = h := Decidable.not_not.mp hc
      rcases hp.only d he with hin | rfl
      · exact hin.dominated (hd.mono fun _ hn => hn.2)
      · exact hd.last.1 rfl

end Preheader

end Graph

theorem exists_first_after {α : Type} {p : α → Bool} {l : List α} (hhead : ∀ a, l.head? = some a → ¬ p a)
    (h : ∃ b ∈ l, p b) : ∃ before a b after, l = before ++ a :: b :: after ∧ p b ∧ ¬ p a ∧ ∀ x ∈ before, ¬ p x := by
  obtain ⟨b, hfind⟩ := Option.isSome_iff_exists.mp (List.find?_isSome.mpr h)
  obtain ⟨hb, front, after, rfl, hfront⟩ := List.find?_eq_some_iff_append.mp hfind
  rcases front.eq_nil_or_concat with rfl | ⟨before, a, rfl⟩
  · exact absurd hb (hhead b rfl)
  · simp only [List.concat_eq_append, List.mem_append, List.mem_singleton, Bool.not_eq_true'] at hfront
    refine ⟨before, a, b, after, by simp, hb, ?_, fun x hx => ?_⟩
    · simp [hfront a (.inr rfl)]
    · simp [hfront x (.inl hx)]

/-- A preheader lies outside its loop, and steps of paths from the entry into the loop lead from it
to the header. It dominates the header, and every path into the loop passes it, just where the
routine does not start at the header. -/
theorem loops_entered_through_preheader (r : Routine) (h : r.check = .ok ()) :
    ∃ dom f, r.domTree = .ok dom ∧ Forest.build r dom = .ok f ∧ ∀ i l p, f.IsLoop i l → l.preheader = some p →
      ¬ l.holds p ∧ (dom.dominates p l.header ↔ l.header ≠ r.entry) ∧
      ∀ path : List BlockId, path.head? = some r.entry → path.IsChain r.flow.Edge →
        (∀ before a b after, path = before ++ a :: b :: after → ¬ l.holds a → l.holds b → a = p ∧ b = l.header) ∧
        (l.header ≠ r.entry → (∃ b ∈ path, l.holds b) →
          ∃ before after, path = before ++ p :: l.header :: after ∧ ∀ x ∈ before, ¬ l.holds x) := by
  have hentry := Routine.entry_lt_of_check h
  obtain ⟨dom, hdom, hexact⟩ := r.domTree_exact hentry
  obtain ⟨f, hbuild, hf⟩ := Forest.build_exact hentry hexact
  refine ⟨dom, f, hdom, hbuild, fun i l p hl hp => ?_⟩
  have hnat := hf.natural hl
  have hpre := (hnat.preheader_iff p).mp hp
  refine ⟨fun hin => hpre.outside ((hnat.holds_iff p).mp hin), ?_, fun path hhead hpath => ?_⟩
  · rw [hexact.dominates_iff, ← hpre.dominates_iff]
    refine ⟨?_, fun hd => .inr ⟨hnat.header.reached, hd⟩⟩
    rintro (rfl | ⟨-, hd⟩)
    · exact absurd (.inl rfl) hpre.outside
    · exact hd
  · have hstep : ∀ before a b after, path = before ++ a :: b :: after → ¬ l.holds a → l.holds b →
        a = p ∧ b = l.header := by
      rintro before a b after rfl ha hb
      rw [hnat.holds_iff] at ha hb
      have hr := (Graph.path_of_chain hpath hhead (b := a) (by simp)).reaches
      exact hpre.of_step hr (List.isChain_append_cons_cons.mp hpath).2.1 ha hb
    refine ⟨hstep, fun hne hex => ?_⟩
    have hout : ∀ a, path.head? = some a → ¬ l.holds a := by
      intro a ha hin
      obtain rfl := Option.some.inj (hhead.symm.trans ha)
      exact hne ((hnat.holds_iff _).mp hin).dominated.eq_entry
    obtain ⟨before, a, b, after, heq, hb, ha, hbefore⟩ := exists_first_after hout hex
    obtain ⟨rfl, rfl⟩ := hstep before a b after heq ha hb
    exact ⟨before, after, heq, hbefore⟩

def blockBefore (entry : BlockId) : Routine where
  name := "block_before"
  params := [0]
  blocks := [⟨0, [], .branch 0 0 1⟩, ⟨1, [], .ret 0⟩, ⟨2, [], .jump 0⟩]
  entry := entry
  storage := [.trivial]

def preheadersOf (r : Routine) : Except Fault (List (Option (BlockId × Bool))) :=
  r.domTree.bind fun dom => (Forest.build r dom).map fun f => f.regions.map fun l =>
    l.preheader.map fun p => (p, dom.dominates p l.header)

theorem loops_entered_through_preheader_blockBefore : (blockBefore 2).check = .ok () ∧
    preheadersOf (blockBefore 2) = .ok [none, some (2, true)] ∧
    ∃ dom f, (blockBefore 2).domTree = .ok dom ∧ Forest.build (blockBefore 2) dom = .ok f ∧
    ∀ i l p, f.IsLoop i l → l.preheader = some p →
      ¬ l.holds p ∧ (dom.dominates p l.header ↔ l.header ≠ (blockBefore 2).entry) ∧
      ∀ path : List BlockId, path.head? = some (blockBefore 2).entry → path.IsChain (blockBefore 2).flow.Edge →
        (∀ before a b after, path = before ++ a :: b :: after → ¬ l.holds a → l.holds b → a = p ∧ b = l.header) ∧
        (l.header ≠ (blockBefore 2).entry → (∃ b ∈ path, l.holds b) →
          ∃ before after, path = before ++ p :: l.header :: after ∧ ∀ x ∈ before, ¬ l.holds x) :=
  ⟨rfl, by decide +kernel, loops_entered_through_preheader (blockBefore 2) rfl⟩

/-- Where the routine starts at the header, a block that no path reaches passes for its preheader. -/
theorem preheader_passed_by : (blockBefore 0).check = .ok () ∧
    preheadersOf (blockBefore 0) = .ok [none, some (2, false)] :=
  ⟨rfl, by decide +kernel⟩

end CountMotion
