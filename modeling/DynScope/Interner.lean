import DynScope.Name
import Std.Data.TreeMap

/-!
# DynScope.Interner

**The table that gives each identifier text its `Name`.** Texts are numbered from zero
in the order in which they are first met, and the empty text is always number zero.

Design points:

* The table keeps both directions: `texts` answers "which text is this name?" and
  `positions` answers "which name is this text?". `enroll` extends the two together.
* Interning is a read followed, on a miss, by a write. The two are separate functions,
  `find?` and `enroll`, and `enroll` looks again before it appends, so that a table
  shared by several clients stays consistent however their reads and writes interleave.
* A position that the table has not handed out resolves to the empty text.
-/

namespace DynScope

/-- Identifier texts in the order of their first appearance, with the way back from a
text to its position. -/
structure Interner where
  /-- The text at each position. -/
  texts : Array String
  /-- The position of each text. -/
  positions : Std.TreeMap String Nat

namespace Interner

/-- The interner that holds the empty text only. -/
def empty : Interner := ⟨#[""], (∅ : Std.TreeMap String Nat).insert "" 0⟩

instance : Inhabited Interner := ⟨empty⟩

/-- How many texts the interner holds. -/
def size (t : Interner) : Nat := t.texts.size

/-- An interner is empty as long as the empty text is all it holds. -/
def isEmpty (t : Interner) : Bool := t.size ≤ 1

/-- The name of a text, if it has one. -/
def find? (t : Interner) (text : String) : Option Name := t.positions[text]?.map Name.mk

/-- The text of a name; the empty text if this interner has no such position. -/
def text (t : Interner) (n : Name) : String := t.texts[n.index]?.getD ""

/-- Give `text` the next free position, unless it has one by now. -/
def enroll (t : Interner) (text : String) : Name × Interner :=
  match t.find? text with
  | some n => (n, t)
  | none => (⟨t.size⟩, ⟨t.texts.push text, t.positions.insert text t.size⟩)

/-- The name of `text`, which is entered at the end if it is new. -/
def intern (t : Interner) (text : String) : Name × Interner :=
  match t.find? text with
  | some n => (n, t)
  | none => t.enroll text

/-- The names of several texts, entered from left to right. -/
def internAll (t : Interner) : List String → List Name × Interner
  | [] => ([], t)
  | s :: rest =>
    let (n, t) := t.intern s
    let (ns, t) := t.internAll rest
    (n :: ns, t)

/-! ### What the operations do to the table -/

theorem intern_eq_enroll (t : Interner) (s : String) : t.intern s = t.enroll s := by
  unfold intern
  split
  · next n h => simp [enroll, h]
  · rfl

theorem enroll_of_find?_eq_some {t : Interner} {s : String} {n : Name}
    (h : t.find? s = some n) : t.enroll s = (n, t) := by simp [enroll, h]

theorem enroll_of_find?_eq_none {t : Interner} {s : String} (h : t.find? s = none) :
    t.enroll s = (⟨t.size⟩, ⟨t.texts.push s, t.positions.insert s t.size⟩) := by
  simp [enroll, h]

@[simp] theorem size_empty : empty.size = 1 := rfl

@[simp] theorem text_empty (n : Name) : empty.text n = "" := by
  rcases n with ⟨_ | k⟩ <;> simp [text, empty]

end Interner

end DynScope
