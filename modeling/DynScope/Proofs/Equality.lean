import Mathlib
import DynScope.Number.Exact
import DynScope.Value

/-!
# DynScope.Proofs.Equality

**What equality of values looks at.** Two values are equal exactly if neither holds a NaN
at any depth and their contents are the same (`beq_iff_content`). The content of a value
is the tree that is left of it when a negative zero is read as zero, the labels of arrays
are dropped, and a callable is reduced to what tells it from other objects.

How it works: sameness of contents is an equality of trees, so that equality of values is
an equality of trees cut down to the values without NaN. It is therefore symmetric and
transitive, and a value is equal to itself exactly if it is one of those. The kind and the
truthiness of a value can be told from its content, so equal values agree on both.
-/

namespace DynScope

/-! ### Numbers -/

namespace Number

/-- A number with a negative zero read as zero. -/
def unsignedZero (x : Float) : Float := if x = -0 then 0 else x

/-- Only the two zeros are read as the same. -/
theorem unsignedZero_eq_iff (x y : Float) : unsignedZero x = unsignedZero y ↔
    x = y ∨ x = 0 ∧ y = -0 ∨ x = -0 ∧ y = 0 := by
  have hzeros : (-0 : Float) ≠ 0 := by decide
  unfold unsignedZero
  split <;> split <;> grind

/-- Two numbers are equal exactly if neither is NaN and they are read as the same. -/
theorem beq_iff (x y : Float) : (x == y) = true ↔
    x.isNaN = false ∧ y.isNaN = false ∧ unsignedZero x = unsignedZero y := by
  rw [Float.beq_iff_ne_nan_and_eq, unsignedZero_eq_iff]
  simp

end Number

namespace Value

variable {η : Type}

/-! ### Values without NaN -/

mutual
/-- The numbers in a value, those inside nested arrays included. -/
def numbers : Value η → List Float
  | .number x => [x]
  | .array _ es => numbersAll es
  | .bool _ | .builtin _ | .function _ => []
/-- The numbers in a sequence of values. -/
def numbersAll : List (Value η) → List Float
  | [] => []
  | v :: vs => numbers v ++ numbersAll vs
end

/-- No number in the value is NaN, at any depth. -/
def NaNFree (v : Value η) : Prop := ∀ x ∈ v.numbers, x.isNaN = false

theorem mem_numbersAll_iff {x : Float} {vs : List (Value η)} :
    x ∈ numbersAll vs ↔ ∃ v ∈ vs, x ∈ v.numbers := by
  induction vs with
  | nil => simp [numbersAll]
  | cons v vs ih => simp [numbersAll, ih]

@[simp] theorem nanFree_number (x : Float) :
    (number x : Value η).NaNFree ↔ x.isNaN = false := by
  simp [NaNFree, numbers]

@[simp] theorem nanFree_bool (b : Bool) : (bool b : Value η).NaNFree := by
  simp [NaNFree, numbers]

@[simp] theorem nanFree_builtin (b : Builtin η) : (builtin b).NaNFree := by
  simp [NaNFree, numbers]

@[simp] theorem nanFree_function (d : FunctionDecl) : (function d : Value η).NaNFree := by
  simp [NaNFree, numbers]

/-- An array is without NaN exactly if its elements are. -/
@[simp] theorem nanFree_array (label : Option Nat) (es : List (Value η)) :
    (array label es).NaNFree ↔ ∀ v ∈ es, v.NaNFree := by
  simp only [NaNFree, numbers, mem_numbersAll_iff]
  exact ⟨fun h v hv x hx => h x ⟨v, hv, hx⟩, fun h x ⟨v, hv, hx⟩ => h v hv x hx⟩

/-! ### Content -/

/-- What two equal values have in common. -/
inductive Content where
  /-- A number, zero without its sign. -/
  | number (x : Float)
  /-- A boolean. -/
  | bool (b : Bool)
  /-- An array, by its elements in order. -/
  | array (elements : List Content)
  /-- A host function, as the object it is. -/
  | builtin (name : String) (serial : Nat)
  /-- A user-defined function, as the object it is. -/
  | function (name : Name) (serial : Nat)

mutual
/-- The content of a value. -/
def content : Value η → Content
  | .number x => .number (Number.unsignedZero x)
  | .bool b => .bool b
  | .array _ es => .array (contentAll es)
  | .builtin b => .builtin b.name b.serial
  | .function d => .function d.name d.serial
/-- The contents of the values of a sequence. -/
def contentAll : List (Value η) → List Content
  | [] => []
  | v :: vs => content v :: contentAll vs
end

/-! ### Equality by content -/

theorem sameObject_builtin_iff (b b' : Builtin η) :
    b.sameObject b' = true ↔ b.name = b'.name ∧ b.serial = b'.serial := by
  simp [Builtin.sameObject]

theorem sameObject_function_iff (d d' : FunctionDecl) :
    d.sameObject d' = true ↔ d.name = d'.name ∧ d.serial = d'.serial := by
  simp [FunctionDecl.sameObject]

mutual
/-- Values are equal exactly if they are without NaN and have the same content. -/
theorem beq_iff_content : (v w : Value η) →
    (v.beq w = true ↔ v.NaNFree ∧ w.NaNFree ∧ v.content = w.content)
  | .number x, w => by
      cases w with
      | number y => simp [beq, content, Number.beq_iff]
      | _ => simp [beq, content]
  | .bool b, w => by cases w <;> simp [beq, content]
  | .array l es, w => by
      cases w with
      | array l' es' => simp [beq, content, beqAll_iff_content es es']
      | _ => simp [beq, content]
  | .builtin b, w => by
      cases w with
      | builtin b' => simp [beq, content, sameObject_builtin_iff]
      | _ => simp [beq, content]
  | .function d, w => by
      cases w with
      | function d' => simp [beq, content, sameObject_function_iff]
      | _ => simp [beq, content]
/-- Sequences are equal exactly if all their values are without NaN and they have the same
contents, in order and in number. -/
theorem beqAll_iff_content : (vs ws : List (Value η)) →
    (beqAll vs ws = true ↔
      (∀ v ∈ vs, v.NaNFree) ∧ (∀ w ∈ ws, w.NaNFree) ∧ contentAll vs = contentAll ws)
  | [], [] => by simp [beqAll]
  | [], _ :: _ => by simp [beqAll, contentAll]
  | _ :: _, [] => by simp [beqAll, contentAll]
  | v :: vs, w :: ws => by
      rw [beqAll, Bool.and_eq_true, beq_iff_content v w, beqAll_iff_content vs ws]
      simp only [List.forall_mem_cons, contentAll, List.cons.injEq]
      constructor
      · rintro ⟨⟨hv, hw, h⟩, hvs, hws, hs⟩
        exact ⟨⟨hv, hvs⟩, ⟨hw, hws⟩, h, hs⟩
      · rintro ⟨⟨hv, hvs⟩, ⟨hw, hws⟩, h, hs⟩
        exact ⟨⟨hv, hw, h⟩, hvs, hws, hs⟩
end

/-! ### What can be told from the content -/

namespace Content

/-- The kind of the values with this content. -/
def kind : Content → Kind
  | .number _ => .number
  | .bool _ => .boolean
  | .array _ => .array
  | .builtin .. => .builtin
  | .function .. => .function

/-- What a condition takes the values with this content for. -/
def isTruthy : Content → Bool
  | .number x => !(x == 0) && !x.isNaN
  | .bool b => b
  | .array _ | .builtin .. | .function .. => true

end Content

theorem content_kind (v : Value η) : v.content.kind = v.kind := by
  cases v <;> rfl

/-- The sign of a zero does not matter to a condition. -/
theorem content_isTruthy (v : Value η) : v.content.isTruthy = v.isTruthy := by
  cases v with
  | number x =>
      by_cases hx : x = -0
      · rw [hx]
        rfl
      · simp only [content, Content.isTruthy, isTruthy, Number.unsignedZero, if_neg hx]
  | _ => rfl

/-- Equality of values is equality of contents on the values without NaN: two values are
equal exactly if no number in either of them is NaN, at any depth, and they are the same
when a negative zero is read as zero, arrays are read as the sequence of their elements,
and callables as the objects they are. So equality is symmetric and transitive, a value is
equal to itself exactly if it holds no NaN, whichever object it is, and equal values are of
one kind and are taken by a condition for the same. -/
theorem equality_by_content :
    (∀ v w : Value η, (v == w) = true ↔ v.NaNFree ∧ w.NaNFree ∧ v.content = w.content) ∧
    (∀ v w : Value η, (v == w) = (w == v)) ∧
    (∀ u v w : Value η, (u == v) = true → (v == w) = true → (u == w) = true) ∧
    (∀ v : Value η, (v == v) = true ↔ v.NaNFree) ∧
    (∀ v w : Value η, (v == w) = true → v.kind = w.kind ∧ v.isTruthy = w.isTruthy) := by
  have hiff (v w : Value η) :
      (v == w) = true ↔ v.NaNFree ∧ w.NaNFree ∧ v.content = w.content :=
    beq_iff_content v w
  refine ⟨hiff, ?symmetric, ?transitive, ?reflexive, ?agree⟩
  case symmetric =>
    intro v w
    rw [Bool.eq_iff_iff, hiff, hiff]
    exact ⟨fun ⟨hv, hw, h⟩ => ⟨hw, hv, h.symm⟩, fun ⟨hw, hv, h⟩ => ⟨hv, hw, h.symm⟩⟩
  case transitive =>
    intro u v w huv hvw
    obtain ⟨hu, -, huv⟩ := (hiff u v).mp huv
    obtain ⟨-, hw, hvw⟩ := (hiff v w).mp hvw
    exact (hiff u w).mpr ⟨hu, hw, huv.trans hvw⟩
  case reflexive =>
    intro v
    rw [hiff]
    exact ⟨fun ⟨hv, _⟩ => hv, fun hv => ⟨hv, hv, rfl⟩⟩
  case agree =>
    intro v w h
    obtain ⟨-, -, hcontent⟩ := (hiff v w).mp h
    constructor
    · rw [← content_kind v, hcontent, content_kind]
    · rw [← content_isTruthy v, hcontent, content_isTruthy]

/-- An array that holds a NaN differs from itself, also by way of its label. -/
example : (array (some 0) [number Number.nan] == (array (some 0) [number Number.nan] : Value η)) =
    false := rfl

end Value

end DynScope
