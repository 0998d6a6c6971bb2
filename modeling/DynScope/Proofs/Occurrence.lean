import DynScope.Host
import DynScope.Program
import DynScope.Value.Operation
import Mathlib.Data.Set.Basic

/-!
# DynScope.Proofs.Occurrence

**What occurs in trees and in values.** The names of an expression are the identifiers that
it reads and the callees that it calls, wherever they stand; those of a statement are in
addition the names that it declares or assigns to. Parameters are not among them: a
parameter that its body never reads is seen by nobody.

The callables of a value are the functions of either sort that stand in it, inside arrays of
whatever depth. **Operators pass callables on and never make any**: whatever can be called
in a result stood in an operand before (`Every.binary`, `Every.subscript`). An added host
function might do otherwise, so `Builtin.PassesOn` says of one that it does not.
-/

namespace DynScope

variable {η : Type}

/-! ### Names in trees -/

mutual
/-- The identifiers and callees of an expression. -/
def Expr.names : Expr → List Name
  | .numeral _ | .bool _ => []
  | .identifier n => [n]
  | .binary _ l r => l.names ++ r.names
  | .unary _ e => e.names
  | .conditional test consequent alternate => test.names ++ consequent.names ++ alternate.names
  | .call callee args => callee :: Expr.namesAll args
  | .array es => Expr.namesAll es
  | .subscript base index => base.names ++ index.names
/-- The identifiers and callees of several expressions. -/
def Expr.namesAll : List Expr → List Name
  | [] => []
  | e :: es => e.names ++ Expr.namesAll es
end

mutual
/-- The names that a statement reads, calls, declares or assigns to, in the bodies of
functions that it declares as well. -/
def Stmt.names : Stmt → List Name
  | .block body => Stmt.namesAll body
  | .declare n e | .assign n e => n :: e.names
  | .print e => e.names
  | .loop condition body => condition.names ++ Stmt.namesAll body
  | .function d => d.name :: d.body.names
/-- The names of the statements of a block. -/
def Stmt.namesAll : Block → List Name
  | [] => []
  | s :: rest => s.names ++ Stmt.namesAll rest
end

/-- The names of the statements of a program. -/
def Program.names (p : Program) : List Name := Stmt.namesAll p.body

/-! ### Callables in values -/

namespace Value

mutual
/-- The functions of either sort that stand in a value, at any depth of its arrays. -/
def callables : Value η → List (Value η)
  | .number _ | .bool _ => []
  | .array _ es => callablesAll es
  | .builtin b => [.builtin b]
  | .function d => [.function d]
/-- The callables that stand in several values. -/
def callablesAll : List (Value η) → List (Value η)
  | [] => []
  | v :: vs => v.callables ++ callablesAll vs
end

/-- `P` holds of every callable that stands in the value. -/
def Every (P : Value η → Prop) (v : Value η) : Prop := ∀ c ∈ v.callables, P c

variable {P : Value η → Prop}

theorem mem_callablesAll {c : Value η} {vs : List (Value η)} :
    c ∈ callablesAll vs ↔ ∃ v ∈ vs, c ∈ v.callables := by
  induction vs with
  | nil => simp [callablesAll]
  | cons v vs ih => simp [callablesAll, ih]

@[simp] theorem every_number (x : Float) : (number x : Value η).Every P := by
  simp [Every, callables]

@[simp] theorem every_bool (b : Bool) : (bool b : Value η).Every P := by
  simp [Every, callables]

@[simp] theorem every_builtin (b : Builtin η) : (builtin b).Every P ↔ P (.builtin b) := by
  simp [Every, callables]

@[simp] theorem every_function (d : FunctionDecl) :
    (function d : Value η).Every P ↔ P (.function d) := by
  simp [Every, callables]

theorem every_array (label : Option Nat) (es : List (Value η)) :
    (array label es).Every P ↔ ∀ e ∈ es, e.Every P := by
  simp only [Every, callables, mem_callablesAll]
  constructor
  · intro h e he c hc
    exact h c ⟨e, he, hc⟩
  · rintro h c ⟨e, he, hc⟩
    exact h e he c hc

/-! ### Operators make no callables -/

variable {l r v w : Value η}

theorem arithmetic_eq_ok {op : BinaryOp} {f : Float → Float → Float}
    (h : arithmetic op f l r = .ok v) : ∃ x, v = .number x := by
  unfold arithmetic at h
  split at h
  · exact ⟨_, (Except.ok.inj h).symm⟩
  · cases h

theorem ordering_eq_ok {op : BinaryOp} {f : Float → Float → Bool}
    (h : ordering op f l r = .ok v) : ∃ b, v = .bool b := by
  unfold ordering at h
  split at h
  · exact ⟨_, (Except.ok.inj h).symm⟩
  · cases h

/-- A binary operator comes to a scalar or to one of its operands. -/
theorem binary_eq_ok {op : BinaryOp} (h : binary op l r = .ok v) :
    (∃ x, v = .number x) ∨ (∃ b, v = .bool b) ∨ v = l ∨ v = r := by
  cases op with
  | eq | ne => exact Or.inr (Or.inl ⟨_, (Except.ok.inj h).symm⟩)
  | and | or =>
      simp only [binary] at h
      split at h
      · have hv := Except.ok.inj h
        simp [hv]
      · have hv := Except.ok.inj h
        simp [hv]
  | lt | le | ge | gt => exact Or.inr (Or.inl (ordering_eq_ok h))
  | add | sub | mul | div | rem | pow => exact Or.inl (arithmetic_eq_ok h)

theorem Every.binary {op : BinaryOp} (hl : l.Every P) (hr : r.Every P)
    (h : binary op l r = .ok v) : v.Every P := by
  rcases binary_eq_ok h with ⟨x, rfl⟩ | ⟨b, rfl⟩ | rfl | rfl
  · exact every_number x
  · exact every_bool b
  · exact hl
  · exact hr

/-- A unary operator comes to a scalar. -/
theorem unary_eq_ok {op : UnaryOp} (h : unary op v = .ok w) :
    (∃ x, w = .number x) ∨ ∃ b, w = .bool b := by
  unfold unary at h
  split at h
  · exact Or.inl ⟨_, (Except.ok.inj h).symm⟩
  · cases h
  · exact Or.inr ⟨_, (Except.ok.inj h).symm⟩

theorem every_unary {op : UnaryOp} (h : unary op v = .ok w) : w.Every P := by
  rcases unary_eq_ok h with ⟨x, rfl⟩ | ⟨b, rfl⟩
  · exact every_number x
  · exact every_bool b

theorem select_mem {es : List (Value η)} {x : Float} (h : select es x = .ok v) : v ∈ es := by
  unfold select at h
  split at h
  · next i _ =>
      cases hi : es[i]? with
      | none =>
          rw [hi] at h
          cases h
      | some u =>
          rw [hi] at h
          obtain rfl := Except.ok.inj h
          exact List.mem_of_getElem? hi
  · cases h

theorem Every.subscript (hl : l.Every P) (h : subscript l r = .ok v) : v.Every P := by
  unfold Value.subscript at h
  split at h
  · next label es x => exact (every_array label es).mp hl v (select_mem h)
  · cases h
  · cases h

end Value

/-! ### Host functions -/

/-- The host function comes to no callable that does not stand in its arguments. -/
def Builtin.PassesOn [Host η] (b : Builtin η) : Prop :=
  ∀ (args : List (Value η)) (v : Value η), b.call args = .ok v →
    ∀ c ∈ v.callables, c ∈ Value.callablesAll args

theorem MathFn.call_eq_ok {f : MathFn} {args : List (Value η)} {v : Value η}
    (h : f.call args = .ok v) : ∃ x, v = .number x := by
  have hone : ∀ name g, ofOne name g args = .ok v → ∃ x, v = .number x := by
    intro name g h
    unfold ofOne at h
    split at h
    · exact ⟨_, (Except.ok.inj h).symm⟩
    · cases h
    · cases h
  have hhypot : ∀ (acc : Float) (args : List (Value η)), hypotAll acc args = .ok v →
      ∃ x, v = .number x := by
    intro acc args
    induction args generalizing acc with
    | nil => exact fun h => ⟨acc, (Except.ok.inj h).symm⟩
    | cons w ws ih =>
        intro h
        cases w with
        | number x => exact ih _ h
        | _ => cases h
  cases f with
  | hypot => exact hhypot 0 args h
  | _ => exact hone _ _ h

/-- The numeric functions come to numbers only. -/
theorem Builtin.passesOn_math [Host η] (name : String) (serial : Nat) (f : MathFn) :
    (⟨name, serial, .math f⟩ : Builtin η).PassesOn := by
  intro args v h c hc
  obtain ⟨x, rfl⟩ := MathFn.call_eq_ok h
  simp [Value.callables] at hc

theorem Builtin.PassesOn.every [Host η] {b : Builtin η} (hb : b.PassesOn) {P : Value η → Prop}
    {args : List (Value η)} (hargs : ∀ a ∈ args, a.Every P) {v : Value η}
    (h : b.call args = .ok v) : v.Every P := by
  intro c hc
  obtain ⟨a, ha, hca⟩ := Value.mem_callablesAll.mp (hb args v h c hc)
  exact hargs a ha c hca

end DynScope
