import DynScope.Proofs.Copying
import DynScope.Proofs.Spelling

/-!
# DynScope.Proofs.Correspondence

**Values of two runs that answer to each other.** Scalars and built-ins answer to equal ones,
arrays to arrays element by element, and a function to the one that the other run declared
in its place. `W` says which declarations were carried out in each other's place; all that
the operators can see of two functions is whether they are one object, so it is enough that
`W` keeps that (`FunctionDecl.Pairing`).

Whatever the language does to corresponding values it does alike: kind, truth, printed text
and equality are the same, and every operator, subscript and numeric function comes to
corresponding results (`Result.Agree`).
-/

namespace DynScope

variable {η : Type}

/-- Declarations that two runs have carried out in each other's place. -/
structure FunctionDecl.Pairing (N : Name → Name → Prop)
    (W : FunctionDecl → FunctionDecl → Prop) : Prop where
  /-- They read the same. -/
  alike : ∀ {d d'}, W d d' → FunctionDecl.Alike N d d'
  /-- One object answers to one object, and two answer to two. -/
  sameObject_eq : ∀ {d d' e e'}, W d d' → W e e' → d.sameObject e = d'.sameObject e'

namespace Value

/-! ### Corresponding values -/

section Relation

variable (W : FunctionDecl → FunctionDecl → Prop)

mutual
/-- The values answer to each other. Of the built-ins only the numeric functions do, since
an added one may look at how a function is represented. -/
inductive Corresponds : Value η → Value η → Prop
  | number (x : Float) : Corresponds (.number x) (.number x)
  | bool (b : Bool) : Corresponds (.bool b) (.bool b)
  | array (label : Option Nat) {es es'} : CorrespondAll es es' →
      Corresponds (.array label es) (.array label es')
  | builtin (name : String) (serial : Nat) (f : MathFn) :
      Corresponds (.builtin ⟨name, serial, .math f⟩) (.builtin ⟨name, serial, .math f⟩)
  | function {d d'} : W d d' → Corresponds (.function d) (.function d')
/-- Equally many values, answering to each other one by one. -/
inductive CorrespondAll : List (Value η) → List (Value η) → Prop
  | nil : CorrespondAll [] []
  | cons {v v' vs vs'} : Corresponds v v' → CorrespondAll vs vs' →
      CorrespondAll (v :: vs) (v' :: vs')
end

end Relation

variable {W W₁ : FunctionDecl → FunctionDecl → Prop}

mutual
/-- More declarations carried out leave corresponding values corresponding. -/
theorem Corresponds.mono (hsub : ∀ {d d'}, W d d' → W₁ d d') :
    ∀ {v v' : Value η}, Corresponds W v v' → Corresponds W₁ v v'
  | _, _, .number x => .number x
  | _, _, .bool b => .bool b
  | _, _, .array label hes => .array label (hes.mono hsub)
  | _, _, .builtin name serial f => .builtin name serial f
  | _, _, .function hd => .function (hsub hd)
theorem CorrespondAll.mono (hsub : ∀ {d d'}, W d d' → W₁ d d') :
    ∀ {vs vs' : List (Value η)}, CorrespondAll W vs vs' → CorrespondAll W₁ vs vs'
  | _, _, .nil => .nil
  | _, _, .cons hv hvs => .cons (hv.mono hsub) (hvs.mono hsub)
end

theorem CorrespondAll.length_eq {vs vs' : List (Value η)} (h : CorrespondAll W vs vs') :
    vs.length = vs'.length := by
  induction vs generalizing vs' with
  | nil =>
      cases h
      rfl
  | cons v vs ih =>
      cases h with
      | cons _ hvs => rw [List.length_cons, List.length_cons, ih hvs]

theorem CorrespondAll.append {vs vs' ws ws' : List (Value η)} (h : CorrespondAll W vs vs')
    (hw : CorrespondAll W ws ws') : CorrespondAll W (vs ++ ws) (vs' ++ ws') := by
  induction vs generalizing vs' with
  | nil =>
      cases h
      exact hw
  | cons v vs ih =>
      cases h with
      | cons hv hvs => exact .cons hv (ih hvs)

theorem CorrespondAll.getElem? {vs vs' : List (Value η)} (h : CorrespondAll W vs vs')
    (i : Nat) : Option.Rel (Corresponds W) vs[i]? vs'[i]? := by
  induction vs generalizing vs' i with
  | nil =>
      cases h
      exact .none
  | cons v vs ih =>
      cases h with
      | cons hv hvs =>
          cases i with
          | zero => exact .some hv
          | succ i => exact ih hvs i

/-! ### What can be seen of a value -/

theorem Corresponds.kind_eq {v v' : Value η} (h : Corresponds W v v') : v.kind = v'.kind := by
  cases h <;> rfl

theorem Corresponds.isTruthy_eq {v v' : Value η} (h : Corresponds W v v') :
    v.isTruthy = v'.isTruthy := by
  cases h <;> rfl

mutual
/-- Corresponding values are printed alike. -/
theorem Corresponds.display_eq : ∀ {v v' : Value η}, Corresponds W v v' → v.display = v'.display
  | _, _, .number _ => rfl
  | _, _, .bool _ => rfl
  | _, _, .array _ hes => by simp only [display, hes.displayAll_eq]
  | _, _, .builtin _ _ _ => rfl
  | _, _, .function _ => by simp only [display]
theorem CorrespondAll.displayAll_eq :
    ∀ {vs vs' : List (Value η)}, CorrespondAll W vs vs' → displayAll vs = displayAll vs'
  | _, _, .nil => rfl
  | _, _, .cons hv hvs => by simp only [displayAll, hv.display_eq, hvs.displayAll_eq]
end

theorem CorrespondAll.map_display_eq {vs vs' : List (Value η)} (h : CorrespondAll W vs vs') :
    vs.map display = vs'.map display := by
  induction vs generalizing vs' with
  | nil =>
      cases h
      rfl
  | cons v vs ih =>
      cases h with
      | cons hv hvs => rw [List.map_cons, List.map_cons, hv.display_eq, ih hvs]

mutual
/-- Corresponding values are equal to corresponding values. -/
theorem Corresponds.beq_eq
    (hW : ∀ {d d' e e'}, W d d' → W e e' → d.sameObject e = d'.sameObject e') :
    ∀ {v v' w w' : Value η}, Corresponds W v v' → Corresponds W w w' → beq v w = beq v' w'
  | _, _, _, _, .number _, h => by cases h <;> simp only [beq]
  | _, _, _, _, .bool _, h => by cases h <;> simp only [beq]
  | _, _, _, _, .array _ hes, h => by
      cases h with
      | array _ hes' => simp only [beq, hes.beqAll_eq hW hes']
      | _ => simp only [beq]
  | _, _, _, _, .builtin _ _ _, h => by cases h <;> simp only [beq]
  | _, _, _, _, .function hd, h => by
      cases h with
      | function he => simp only [beq, hW hd he]
      | _ => simp only [beq]
theorem CorrespondAll.beqAll_eq
    (hW : ∀ {d d' e e'}, W d d' → W e e' → d.sameObject e = d'.sameObject e') :
    ∀ {vs vs' ws ws' : List (Value η)}, CorrespondAll W vs vs' → CorrespondAll W ws ws' →
      beqAll vs ws = beqAll vs' ws'
  | _, _, _, _, .nil, h => by cases h <;> simp only [beqAll]
  | _, _, _, _, .cons hv hvs, h => by
      cases h with
      | nil => simp only [beqAll]
      | cons hw hws => simp only [beqAll, hv.beq_eq hW hw, hvs.beqAll_eq hW hws]
end

end Value

/-! ### Corresponding results -/

namespace Copying.Result

variable {α β γ δ : Type}

/-- Both results are values that stand in `R`, or both are one error, or both lack fuel. -/
inductive Agree (R : α → β → Prop) : Result α → Result β → Prop
  | value {a b} : R a b → Agree R (some (.ok a)) (some (.ok b))
  | error (e : EvalError) : Agree R (some (.error e)) (some (.error e))
  | exhausted : Agree R none none

theorem Agree.bind {R : α → β → Prop} {S : γ → δ → Prop} {r : Result α} {r' : Result β}
    {f : α → Result γ} {f' : β → Result δ} (h : Agree R r r')
    (hf : ∀ a b, R a b → Agree S (f a) (f' b)) : Agree S (r >>= f) (r' >>= f') := by
  cases h with
  | value hab => exact hf _ _ hab
  | error e => exact .error e
  | exhausted => exact .exhausted

end Copying.Result

/-! ### What can be done to a value -/

namespace Value

open Copying (Result)
open Copying.Result (Agree)

variable {W : FunctionDecl → FunctionDecl → Prop} {l l' r r' v v' : Value η}

/-- An operator that takes two numbers and otherwise reports the kinds of both operands. -/
theorem corresponds_ofNumbers {f : Float → Float → Value η} (fault : Kind → Kind → EvalError)
    (hf : ∀ x y, Corresponds W (f x y) (f x y)) :
    Corresponds W l l' → Corresponds W r r' →
      Agree (Corresponds W)
        (.ofExcept (match l, r with
          | .number x, .number y => .ok (f x y)
          | _, _ => .error (fault l.kind r.kind)))
        (.ofExcept (match l', r' with
          | .number x, .number y => .ok (f x y)
          | _, _ => .error (fault l'.kind r'.kind))) := by
  intro hl hr
  rw [hl.kind_eq, hr.kind_eq]
  cases hl with
  | number x =>
      cases hr with
      | number y => exact .value (hf x y)
      | _ => exact .error _
  | _ => exact .error _

theorem Corresponds.arithmetic (op : BinaryOp) (f : Float → Float → Float)
    (hl : Corresponds W l l') (hr : Corresponds W r r') :
    Agree (Corresponds W) (.ofExcept (arithmetic op f l r)) (.ofExcept (arithmetic op f l' r')) :=
  corresponds_ofNumbers (fun k k' => .typeError (.arithmetic op k k')) (fun _ _ => .number _) hl hr

theorem Corresponds.ordering (op : BinaryOp) (f : Float → Float → Bool)
    (hl : Corresponds W l l') (hr : Corresponds W r r') :
    Agree (Corresponds W) (.ofExcept (ordering op f l r)) (.ofExcept (ordering op f l' r')) :=
  corresponds_ofNumbers (fun k k' => .typeError (.ordering op k k')) (fun _ _ => .bool _) hl hr

/-- Every binary operator takes corresponding operands to corresponding results. -/
theorem Corresponds.binary
    (hW : ∀ {d d' e e'}, W d d' → W e e' → d.sameObject e = d'.sameObject e')
    (op : BinaryOp) (hl : Corresponds W l l') (hr : Corresponds W r r') :
    Agree (Corresponds W) (.ofExcept (binary op l r)) (.ofExcept (binary op l' r')) := by
  have heq : (l == r) = (l' == r') := hl.beq_eq hW hr
  cases op with
  | eq =>
      simp only [Value.binary, heq]
      exact .value (.bool _)
  | ne =>
      simp only [Value.binary, heq]
      exact .value (.bool _)
  | and =>
      simp only [Value.binary, hl.isTruthy_eq]
      split
      · exact .value hr
      · exact .value hl
  | or =>
      simp only [Value.binary, hl.isTruthy_eq]
      split
      · exact .value hl
      · exact .value hr
  | lt => exact hl.ordering _ _ hr
  | le => exact hl.ordering _ _ hr
  | ge => exact hl.ordering _ _ hr
  | gt => exact hl.ordering _ _ hr
  | _ => exact hl.arithmetic _ _ hr

theorem Corresponds.unary (op : UnaryOp) (h : Corresponds W v v') :
    Agree (Corresponds W) (.ofExcept (unary op v)) (.ofExcept (unary op v')) := by
  cases op with
  | not => cases h <;> exact .value (.bool _)
  | neg => cases h <;> first | exact .value (.number _) | exact .error _

theorem CorrespondAll.select {es es' : List (Value η)} (h : CorrespondAll W es es')
    (x : Float) :
    Agree (Corresponds W) (.ofExcept (select es x)) (.ofExcept (select es' x)) := by
  unfold Value.select
  rw [h.length_eq]
  split
  · next i _ =>
    have hi := h.getElem? i
    cases hes : es[i]? <;> cases hes' : es'[i]? <;> rw [hes, hes'] at hi <;> cases hi
    · exact .error _
    · next hv => exact .value hv
  · exact .error _

theorem Corresponds.subscript {b b' i i' : Value η} (hb : Corresponds W b b')
    (hi : Corresponds W i i') :
    Agree (Corresponds W) (.ofExcept (subscript b i)) (.ofExcept (subscript b' i')) := by
  cases hb with
  | array label hes =>
      cases hi with
      | number x => exact hes.select x
      | _ => exact .error _
  | _ => exact .error _

end Value

/-! ### Numeric functions -/

namespace MathFn

open Value (Corresponds CorrespondAll)
open Copying.Result (Agree)

variable {W : FunctionDecl → FunctionDecl → Prop} {args args' : List (Value η)}

theorem ofOne_agree (name : String) (f : Float → Float) (h : CorrespondAll W args args') :
    Agree (Corresponds W) (.ofExcept (ofOne name f args)) (.ofExcept (ofOne name f args')) := by
  cases h with
  | nil => exact .error _
  | cons hv hvs =>
      cases hvs with
      | nil => cases hv <;> first | exact .value (.number _) | exact .error _
      | cons hw hws =>
          simp only [ofOne, List.length_cons, hws.length_eq]
          exact .error _

theorem hypotAll_agree (acc : Float) (h : CorrespondAll W args args') :
    Agree (Corresponds W) (.ofExcept (hypotAll acc args)) (.ofExcept (hypotAll acc args')) := by
  induction args generalizing acc args' with
  | nil =>
      cases h
      exact .value (.number _)
  | cons v vs ih =>
      cases h with
      | cons hv hvs =>
          cases hv with
          | number x => exact ih _ hvs
          | _ => exact .error _

/-- Every numeric function takes corresponding arguments to corresponding results. -/
theorem call_agree (f : MathFn) (h : CorrespondAll W args args') :
    Agree (Corresponds W) (.ofExcept (f.call args)) (.ofExcept (f.call args')) := by
  cases f with
  | hypot => exact hypotAll_agree _ h
  | _ => exact ofOne_agree _ _ h

end MathFn

end DynScope
