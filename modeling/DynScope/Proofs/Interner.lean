import DynScope.Interner

/-!
# DynScope.Proofs.Interner

**The two directions of an interner are inverse to each other.** `WellFormed` is the
representation invariant: a text has a position exactly when the text at that position is
the one. It holds of the empty interner and every interning keeps it, so on interners that
can arise a name stands for one text and a text has one name.

Interning never takes a name back. `Extends t t'` says that every text that has a name in
`t` has the same name in `t'`.
-/

namespace DynScope.Interner

/-! ### Names that were handed out -/

/-- The interner has handed out the name. -/
def Holds (t : Interner) (n : Name) : Prop := n.index < t.size

instance (t : Interner) (n : Name) : Decidable (t.Holds n) :=
  inferInstanceAs (Decidable (n.index < t.size))

/-- A text has a position exactly when it stands there. -/
structure WellFormed (t : Interner) : Prop where
  /-- Positions and texts are inverse to each other. -/
  positions_iff : ∀ (s : String) (i : Nat), t.positions[s]? = some i ↔ t.texts[i]? = some s

/-- Every text with a name in `t` has that name in `t'`. -/
def Extends (t t' : Interner) : Prop := ∀ s n, t.find? s = some n → t'.find? s = some n

theorem find?_eq_some_iff_position (t : Interner) (s : String) (n : Name) :
    t.find? s = some n ↔ t.positions[s]? = some n.index := by
  simp only [find?, Option.map_eq_some_iff]
  constructor
  · rintro ⟨i, hi, rfl⟩
    exact hi
  · intro h
    exact ⟨n.index, h, rfl⟩

/-- On a well-formed interner, `n` is the name of `s` exactly when it was handed out and
stands for `s`. -/
theorem WellFormed.find?_eq_some_iff {t : Interner} (h : t.WellFormed) (s : String)
    (n : Name) : t.find? s = some n ↔ t.Holds n ∧ t.text n = s := by
  rw [find?_eq_some_iff_position, h.positions_iff, Holds, text, size]
  by_cases hn : n.index < t.texts.size
  · simp only [Array.getElem?_eq_getElem hn, Option.some.injEq, Option.getD_some, hn, true_and]
  · simp only [Array.getElem?_eq_none (Nat.le_of_not_lt hn), hn, false_and, reduceCtorEq]

/-- Two names that were handed out stand for one text only if they are one name. -/
theorem WellFormed.text_injective {t : Interner} (h : t.WellFormed) {n n' : Name}
    (hn : t.Holds n) (hn' : t.Holds n') (htext : t.text n = t.text n') : n = n' := by
  have hfind := (h.find?_eq_some_iff _ n).mpr ⟨hn, rfl⟩
  have hfind' := (h.find?_eq_some_iff _ n').mpr ⟨hn', rfl⟩
  rw [htext, hfind'] at hfind
  exact (Option.some.inj hfind).symm

/-! ### The invariant -/

theorem wellFormed_empty : empty.WellFormed where
  positions_iff s i := by
    simp only [empty, Std.TreeMap.getElem?_insert, Std.LawfulEqCmp.compare_eq_iff_eq]
    cases i with
    | zero => by_cases h : "" = s <;> simp [h]
    | succ i => by_cases h : "" = s <;> simp [h]

/-- Appending a text that has no position yet keeps the two directions inverse. -/
theorem WellFormed.enroll {t : Interner} (h : t.WellFormed) (s : String) :
    (t.enroll s).2.WellFormed := by
  cases hs : t.find? s with
  | some n => rwa [enroll_of_find?_eq_some hs]
  | none =>
      have hnew : t.positions[s]? = none := by simpa [find?] using hs
      rw [enroll_of_find?_eq_none hs]
      constructor
      intro s' i
      simp only [Std.TreeMap.getElem?_insert, Std.LawfulEqCmp.compare_eq_iff_eq, size,
        Array.getElem?_push]
      by_cases hss : s = s'
      · subst hss
        -- The text had no position, so it stood nowhere in the table.
        have hnone : ∀ i : Nat, t.texts[i]? ≠ some s := by
          intro i hi
          rw [(h.positions_iff s i).mpr hi] at hnew
          cases hnew
        by_cases hi : i = t.texts.size
        · simp [hi]
        · simp only [if_true, Option.some.injEq, hi, if_false]
          exact ⟨fun he => absurd he.symm hi, fun he => absurd he (hnone i)⟩
      · by_cases hi : i = t.texts.size
        · subst hi
          -- Another text cannot have the position that is only now given away.
          have hend : t.positions[s']? ≠ some t.texts.size := by
            intro he
            have hlast := (h.positions_iff s' _).mp he
            simp at hlast
          simp [hss, hend]
        · simp only [hss, hi, if_false]
          exact h.positions_iff s' i

theorem WellFormed.intern {t : Interner} (h : t.WellFormed) (s : String) :
    (t.intern s).2.WellFormed := by
  rw [intern_eq_enroll]
  exact h.enroll s

theorem WellFormed.internAll {t : Interner} (h : t.WellFormed) (ss : List String) :
    (t.internAll ss).2.WellFormed := by
  induction ss generalizing t with
  | nil => exact h
  | cons s ss ih => exact ih (h.intern s)

/-- The interner that is arrived at by interning texts in order. -/
def reached (texts : List String) : Interner := (empty.internAll texts).2

theorem wellFormed_reached (texts : List String) : (reached texts).WellFormed :=
  wellFormed_empty.internAll texts

/-! ### Interning keeps names -/

theorem Extends.refl (t : Interner) : t.Extends t := fun _ _ h => h

theorem Extends.trans {t t' t'' : Interner} (h : t.Extends t') (h' : t'.Extends t'') :
    t.Extends t'' := fun s n hn => h' s n (h s n hn)

theorem intern_of_find?_eq_some {t : Interner} {s : String} {n : Name}
    (h : t.find? s = some n) : t.intern s = (n, t) := by
  rw [intern_eq_enroll, enroll_of_find?_eq_some h]

/-- What interning answers is what looking up answers from then on. -/
theorem find?_intern_self (t : Interner) (s : String) :
    (t.intern s).2.find? s = some (t.intern s).1 := by
  rw [intern_eq_enroll]
  cases h : t.find? s with
  | some n => rwa [enroll_of_find?_eq_some h]
  | none =>
      rw [enroll_of_find?_eq_none h, find?_eq_some_iff_position]
      simp

theorem extends_intern (t : Interner) (s : String) : t.Extends (t.intern s).2 := by
  intro s' n hn
  rw [intern_eq_enroll]
  cases h : t.find? s with
  | some m => rwa [enroll_of_find?_eq_some h]
  | none =>
      have hne : s ≠ s' := by
        rintro rfl
        rw [h] at hn
        cases hn
      rw [find?_eq_some_iff_position] at hn
      rw [enroll_of_find?_eq_none h, find?_eq_some_iff_position]
      simp [Std.TreeMap.getElem?_insert, hne, hn]

/-- Interning a text gives no name to another one. -/
theorem find?_intern_of_ne (t : Interner) {s s' : String} (hne : s ≠ s') :
    (t.intern s).2.find? s' = t.find? s' := by
  rw [intern_eq_enroll]
  cases h : t.find? s with
  | some n => rw [enroll_of_find?_eq_some h]
  | none =>
      rw [enroll_of_find?_eq_none h, find?, find?]
      simp only [Std.TreeMap.getElem?_insert, Std.LawfulEqCmp.compare_eq_iff_eq, hne, if_false]

/-- Names that were handed out stay good, and go on to stand for the same texts. -/
theorem Extends.holds_text {t t' : Interner} (h : t.Extends t') (ht : t.WellFormed)
    (ht' : t'.WellFormed) {n : Name} (hn : t.Holds n) :
    t'.Holds n ∧ t'.text n = t.text n :=
  (ht'.find?_eq_some_iff _ n).mp (h _ n ((ht.find?_eq_some_iff _ n).mpr ⟨hn, rfl⟩))

end DynScope.Interner
