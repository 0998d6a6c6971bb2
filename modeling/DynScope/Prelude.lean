import DynScope.Value

/-!
# DynScope.Prelude

**The values that are bound before a run starts.** A prelude is a list of texts with their
values. The order is that of first registration: registering a text again replaces its
value where it stands.
-/

namespace DynScope

variable {η : Type}

/-- Texts with the values they are bound to, in order of first registration. -/
structure Prelude (η : Type) where
  /-- The entries in order. -/
  entries : List (String × Value η)

namespace Prelude

/-- The prelude without entries. -/
def empty : Prelude η := ⟨[]⟩

/-- Replace the value of `name` where it stands, or append it. -/
def insertEntry (name : String) (v : Value η) :
    List (String × Value η) → List (String × Value η)
  | [] => [(name, v)]
  | (n, w) :: rest =>
    if n = name then (n, v) :: rest else (n, w) :: insertEntry name v rest

/-- Bind `name` to `v`. -/
def insert (p : Prelude η) (name : String) (v : Value η) : Prelude η :=
  ⟨insertEntry name v p.entries⟩

/-- Bind `name` to a host function that is shown by that name. -/
def insertHost (p : Prelude η) (name : String) (fn : HostFn η) : Prelude η :=
  p.insert name (.builtin ⟨name, 0, fn⟩)

/-- The value that `name` is bound to. -/
def find? (p : Prelude η) (name : String) : Option (Value η) :=
  p.entries.lookup name

/-- The texts of a prelude in order. -/
def names (p : Prelude η) : List String := p.entries.map Prod.fst

/-- The ratio of a circle's circumference to its diameter, as the nearest number. -/
def pi : Float := Float.ofBits 0x400921fb54442d18

/-- The prelude of the language: the numeric functions and the constant `π`. -/
def standard : Prelude η :=
  empty
    |>.insertHost "sin" (.math .sin)
    |>.insertHost "cos" (.math .cos)
    |>.insertHost "hypot" (.math .hypot)
    |>.insertHost "sqrt" (.math .sqrt)
    |>.insertHost "exp" (.math .exp)
    |>.insertHost "ln" (.math .ln)
    |>.insert "π" (.number pi)

/-! ### What an insertion does to the look-ups -/

theorem lookup_insertEntry (name key : String) (v : Value η)
    (entries : List (String × Value η)) :
    (insertEntry name v entries).lookup key =
      if key = name then some v else entries.lookup key := by
  induction entries with
  | nil => by_cases h : key = name <;> simp [insertEntry, h]
  | cons e rest ih =>
    obtain ⟨n, w⟩ := e
    by_cases hn : n = name <;> by_cases h : key = n <;>
      simp_all [insertEntry, List.lookup_cons, beq_eq_false_iff_ne.2, eq_comm]

@[simp] theorem find?_empty (key : String) : (empty : Prelude η).find? key = none := rfl

theorem find?_insert (p : Prelude η) (name key : String) (v : Value η) :
    (p.insert name v).find? key = if key = name then some v else p.find? key :=
  lookup_insertEntry name key v p.entries

end Prelude

end DynScope
