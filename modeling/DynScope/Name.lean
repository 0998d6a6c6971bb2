/-!
# DynScope.Name

**Interned identifiers.** Syntax trees and environments hold a `Name`, the position of
an identifier's text in an interner, and never the text itself.

* Two names of one interner are equal exactly when their texts are, so every comparison
  the evaluator makes is one comparison of numbers.
* Names are ordered by position, that is, by when their texts were first met. Frames are
  keyed by this order.
-/

namespace DynScope

/-- An identifier, given by the position of its text in an interner. -/
structure Name where
  /-- Position of the text in the interner that made the name. -/
  index : Nat
deriving DecidableEq, Repr, Inhabited

namespace Name

/-- The name of the empty text, which every interner holds from the start. -/
def empty : Name := ⟨0⟩

/-- Names compare by position. -/
instance : Ord Name := ⟨fun a b => compare a.index b.index⟩

theorem compare_def (a b : Name) : compare a b = compare a.index b.index := rfl

instance : Std.OrientedOrd Name where
  eq_swap {a b} := @Std.OrientedCmp.eq_swap Nat compare _ a.index b.index

instance : Std.TransOrd Name where
  isLE_trans {a b c} := @Std.TransCmp.isLE_trans Nat compare _ a.index b.index c.index

instance : Std.LawfulEqOrd Name where
  eq_of_compare {a b} h := by
    cases a; cases b
    exact congrArg Name.mk (Std.LawfulEqOrd.eq_of_compare h)

/-- The text that identifies a name in diagnostics: its position, not its spelling. -/
def diagnostic (n : Name) : String := s!"Name({n.index})"

end Name

end DynScope
