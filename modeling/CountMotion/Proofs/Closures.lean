import CountMotion.Proofs.Matching
import CountMotion.Proofs.Standing

/-! Closures are tight: what awaits an answer on the way between their members is answered by
them. -/
namespace CountMotion

section Tight

variable {p : Pairing} {f : Flat} {seed : Point} {c : Closure}

/-- What is left of a pairing of the region. -/
structure Pairing.Within (p : Pairing) (f : Flat) : Prop where
  retains : ∀ x e, p.retains.get? x = some e → f.retainLedger.entries.get? x = some e
  releases : ∀ x e, p.releases.get? x = some e → f.releaseLedger.entries.get? x = some e

theorem Flat.paired_within (f : Flat) : f.paired.Within f := ⟨fun _ _ h => h, fun _ _ h => h⟩

theorem Pairing.Within.erase (h : p.Within f) (c : Closure) : (p.erase c).Within f := by
  refine ⟨fun x e hx => ?_, fun x e hx => ?_⟩
  · rw [Pairing.erase, TombMap.get?_foldl_erase] at hx
    split at hx
    · cases hx
    · exact h.retains x e hx
  · rw [Pairing.erase, TombMap.get?_foldl_erase] at hx
    split at hx
    · cases hx
    · exact h.releases x e hx

/-- No member is loose, and all that answers one is a member. -/
structure Closure.Tight (c : Closure) (f : Flat) : Prop where
  retain : ∀ x ∈ c.retains, ¬ f.retainLedger.Loose x
  release : ∀ x ∈ c.releases, ¬ f.releaseLedger.Loose x
  answers : ∀ x ∈ c.retains, ∀ y, f.retainLedger.Tied x y → y ∈ c.releases
  asks : ∀ x ∈ c.releases, ∀ y, f.releaseLedger.Tied x y → y ∈ c.retains
  spared : c.used = false → ∀ x ∈ c.retains, ¬ f.retainLedger.Used x
  unused : c.used = false → ∀ x ∈ c.releases, ¬ f.releaseLedger.Used x
  answered : ∀ x ∈ c.retains, ∃ y ∈ c.releases, f.retainLedger.Tied x y
  asked : ∀ x ∈ c.releases, ∃ y ∈ c.retains, f.releaseLedger.Tied x y

private theorem Pairing.Closes.entered {ledger : Ledger} {x : Point} (hc : p.Closes seed c) (side : Point → Member)
    (hw : ∀ e, p.entry? (side x) = some e → ledger.entries.get? x = some e) (hx : c.Has (side x)) :
    ∃ e, p.entry? (side x) = some e ∧ e.partners ≠ [] ∧ ¬ ledger.Loose x ∧ (c.used = false → ¬ ledger.Used x) ∧
      ∀ y, ledger.Tied x y ↔ y ∈ e.partners := by
  obtain ⟨e, he, hloose, -, hne, -⟩ := Pairing.sound_iff.mp (hc.sound hx)
  have hget := hw e he
  refine ⟨e, he, hne, ?_, fun hused hu => ?_, fun y => Ledger.tied_iff hget⟩
  · simp [Ledger.loose_iff hget, hloose]
  · exact absurd (hc.used.mpr ⟨_, e, hx, he, (Ledger.used_iff hget).mp hu⟩) (by simp [hused])

theorem Pairing.close_tight (h : p.Within f) (hclose : p.close seed = some c) : c.Tight f := by
  have hc := closes_of_close hclose
  have hdown := fun x (hx : x ∈ c.retains) => hc.entered .retain (h.retains x) hx
  have hup := fun x (hx : x ∈ c.releases) => hc.entered .release (h.releases x) hx
  have hanswers : ∀ x ∈ c.retains, ∀ e, p.entry? (.retain x) = some e → ∀ y ∈ e.partners, y ∈ c.releases := by
    intro x hx e he y hy
    exact hc.closed (m := .retain x) (q := .release y) hx (mem_partners_retain.mpr ⟨e, y, he, hy, rfl⟩)
  have hasks : ∀ x ∈ c.releases, ∀ e, p.entry? (.release x) = some e → ∀ y ∈ e.partners, y ∈ c.retains := by
    intro x hx e he y hy
    exact hc.closed (m := .release x) (q := .retain y) hx (mem_partners_release.mpr ⟨e, y, he, hy, rfl⟩)
  refine ⟨fun x hx => ?_, fun x hx => ?_, fun x hx y hy => ?_, fun x hx y hy => ?_, fun hused x hx => ?_,
    fun hused x hx => ?_, fun x hx => ?_, fun x hx => ?_⟩
  · obtain ⟨-, -, -, hloose, -⟩ := hdown x hx
    exact hloose
  · obtain ⟨-, -, -, hloose, -⟩ := hup x hx
    exact hloose
  · obtain ⟨e, he, -, -, -, hties⟩ := hdown x hx
    exact hanswers x hx e he y ((hties y).mp hy)
  · obtain ⟨e, he, -, -, -, hties⟩ := hup x hx
    exact hasks x hx e he y ((hties y).mp hy)
  · obtain ⟨-, -, -, -, hunused, -⟩ := hdown x hx
    exact hunused hused
  · obtain ⟨-, -, -, -, hunused, -⟩ := hup x hx
    exact hunused hused
  · obtain ⟨e, he, hne, -, -, hties⟩ := hdown x hx
    obtain ⟨y, hy⟩ := List.exists_mem_of_ne_nil _ hne
    exact ⟨y, hanswers x hx e he y hy, (hties y).mpr hy⟩
  · obtain ⟨e, he, hne, -, -, hties⟩ := hup x hx
    obtain ⟨y, hy⟩ := List.exists_mem_of_ne_nil _ hne
    exact ⟨y, hasks x hx e he y hy, (hties y).mpr hy⟩

end Tight

namespace Layout

variable {y : Layout} {root : Var} {n s : Nat} {x : Point} {c : Closure} {p : Pairing}

theorem downWalk_sorted (h : y.Sound) (root : Var) : (y.flat.downWalk root).Sorted :=
  ⟨(searchOrder h).nodup, fun _ _ _ hs _ => (mem_preds.mp hs).2.2⟩

theorem upWalk_sorted (h : y.Sound) (root : Var) : (y.flat.upWalk root).Sorted := by
  refine ⟨List.nodup_reverse.mpr (searchOrder h).nodup, fun n hn s hs hso => ?_⟩
  obtain ⟨hno, -, hlt⟩ := mem_succs.mp hs
  have hnodup := (searchOrder h).nodup
  obtain ⟨before, after, horder⟩ := List.append_of_mem hno
  have hrev : y.order.reverse = after.reverse ++ n :: before.reverse := by rw [horder]; simp
  have hlater : s ∈ after := by
    have hs' : s ∈ before ++ n :: after := by
      rw [← horder]
      exact List.mem_reverse.mp hso
    rcases List.mem_append.mp hs' with hb | hb
    · rw [horder] at hnodup hlt
      exact absurd ((Graph.idxOf_lt_iff_mem hnodup).mpr hb) (Nat.not_lt.mpr (Nat.le_of_lt hlt))
    · rcases List.mem_cons.mp hb with rfl | hb
      · exact absurd hlt (Nat.lt_irrefl _)
      · exact hb
  show y.order.reverse.idxOf s < y.order.reverse.idxOf n
  rw [hrev]
  refine (Graph.idxOf_lt_iff_mem ?_).mpr (List.mem_reverse.mpr hlater)
  rw [← hrev]
  exact List.nodup_reverse.mpr hnodup

/-- Both walks follow every root that is counted in the region. -/
theorem exists_traced (h : y.Sound) (hroot : root ∈ y.flat.rootList) :
    ∃ down up, (y.flat.downWalk root).Traced down y.flat.retainLedger ∧
      (y.flat.upWalk root).Traced up y.flat.releaseLedger := by
  obtain ⟨down, hdown⟩ := (Walk.runs_traced (downWalk_sorted h) y.flat.rootList (l := .empty) TombMap.whole_empty).2 root hroot
  obtain ⟨up, hup⟩ := (Walk.runs_traced (upWalk_sorted h) y.flat.rootList (l := .empty) TombMap.whole_empty).2 root hroot
  exact ⟨down, up, hdown, hup⟩

theorem Own.retain_at (h : y.Own .retain root x) :
    ∃ v kind, y.routine.instrAt? x = some (.retain v kind) ∧ y.facts.root v = some root := by
  obtain ⟨-, -, -, -, heff⟩ := h
  obtain ⟨v, kind, hi, hv⟩ := Facts.effectAt_eq_retain heff
  exact ⟨v, kind, by rw [Routine.instrAt?_eq]; exact hi, hv⟩

theorem Own.release_at (h : y.Own .release root x) :
    ∃ v kind, y.routine.instrAt? x = some (.release v kind) ∧ y.facts.root v = some root := by
  obtain ⟨-, -, -, -, heff⟩ := h
  obtain ⟨v, kind, hi, hv⟩ := Facts.effectAt_eq_release heff
  exact ⟨v, kind, by rw [Routine.instrAt?_eq]; exact hi, hv⟩

theorem Own.mem_roots (h : y.Own .retain root x) : root ∈ y.flat.rootList := by
  obtain ⟨v, kind, hi, hv⟩ := h.retain_at
  obtain ⟨n, hn, hstands, hc, -⟩ := h
  rw [Routine.instrAt?_eq] at hi
  have hblock : y.flat.block? n = some (x.block, y.routine.codeAt x.block) :=
    block?_eq_some.mpr ⟨hstands.own hc, rfl⟩
  refine List.mem_eraseDups.mpr (List.mem_flatMap.mpr ⟨n, hn, ?_⟩)
  rw [hblock]
  exact List.mem_filterMap.mpr ⟨_, List.mem_of_getElem? hi, hv⟩

end Layout

/-- A closure of a region with the states that led to it. -/
structure Closure.Standing (c : Closure) (y : Layout) (down up : Nat → Option Pending) : Prop where
  tight : c.Tight y.flat
  retains : ∀ x ∈ c.retains, y.Own .retain c.root x
  releases : ∀ x ∈ c.releases, y.Own .release c.root x
  ne_nil : c.retains ≠ []
  down : (y.flat.downWalk c.root).Traced down y.flat.retainLedger
  up : (y.flat.upWalk c.root).Traced up y.flat.releaseLedger

theorem Pairing.close_standing {y : Layout} {p : Pairing} {seed : Point} {c : Closure} (h : y.Sound)
    (hw : p.Within y.flat) (hf : p.Filed y.flat) (hc : p.close seed = some c) :
    ∃ down up, c.Standing y down up := by
  have hdrawn := Pairing.close_drawn hf hc
  have hretains : ∀ x ∈ c.retains, y.Own .retain c.root x := by
    intro x hx
    obtain ⟨n, hn, hmem⟩ := (hdrawn.retains x hx).1
    exact (Layout.own_of_effects (.inl rfl) hn hmem).1
  have hreleases : ∀ x ∈ c.releases, y.Own .release c.root x := by
    intro x hx
    obtain ⟨n, hn, hmem⟩ := (hdrawn.releases x hx).1
    exact (Layout.own_of_effects (.inr rfl) hn hmem).1
  obtain ⟨x, hx⟩ := List.exists_mem_of_ne_nil _ hdrawn.ne_nil
  obtain ⟨down, up, hdown, hup⟩ := Layout.exists_traced h (hretains x hx).mem_roots
  exact ⟨down, up, Pairing.close_tight hw hc, hretains, hreleases, hdrawn.ne_nil, hdown, hup⟩

end CountMotion
