import DynScope.Number.Exact
import DynScope.Value

/-!
# DynScope.Value.Operation

**What the operators do to values.** All of them get their operands evaluated, the logical
ones included; these only choose between the two values.

* Arithmetic and ordering need two numbers. The check looks at both operands at once, so
  that an error names the kinds of both.
* A subscript truncates its index toward zero. Whatever lies outside the array then is
  reported with the index as it was given.
-/

namespace DynScope.Value

variable {η : Type}

/-- An operator from two numbers to a number. -/
def arithmetic (op : BinaryOp) (f : Float → Float → Float) (l r : Value η) :
    Except EvalError (Value η) :=
  match l, r with
  | .number x, .number y => .ok (.number (f x y))
  | _, _ => .error (.typeError (.arithmetic op l.kind r.kind))

/-- A comparison of two numbers. A NaN on either side makes it false. -/
def ordering (op : BinaryOp) (f : Float → Float → Bool) (l r : Value η) :
    Except EvalError (Value η) :=
  match l, r with
  | .number x, .number y => .ok (.bool (f x y))
  | _, _ => .error (.typeError (.ordering op l.kind r.kind))

/-- The value of `l op r`. -/
def binary (op : BinaryOp) (l r : Value η) : Except EvalError (Value η) :=
  match op with
  | .add => arithmetic op (· + ·) l r
  | .sub => arithmetic op (· - ·) l r
  | .mul => arithmetic op (· * ·) l r
  | .div => arithmetic op (· / ·) l r
  | .rem => arithmetic op Number.remainder l r
  | .pow => arithmetic op Float.pow l r
  | .lt => ordering op (fun x y => x < y) l r
  | .le => ordering op (fun x y => x ≤ y) l r
  | .ge => ordering op (fun x y => y ≤ x) l r
  | .gt => ordering op (fun x y => y < x) l r
  | .eq => .ok (.bool (l == r))
  | .ne => .ok (.bool (!(l == r)))
  | .and => .ok (if l.isTruthy then r else l)
  | .or => .ok (if l.isTruthy then l else r)

/-- The value of `op v`. -/
def unary (op : UnaryOp) (v : Value η) : Except EvalError (Value η) :=
  match op, v with
  | .neg, .number x => .ok (.number (-x))
  | .neg, v => .error (.typeError (.negation v.kind))
  | .not, v => .ok (.bool (!v.isTruthy))

/-- The element of a sequence that an index selects: the one at the index truncated toward
zero, if that lies inside. -/
def select (elements : List (Value η)) (index : Float) : Except EvalError (Value η) :=
  match Number.wholePart? index with
  | some (.ofNat i) =>
    match elements[i]? with
    | some v => .ok v
    | none => .error (.indexOutOfRange index elements.length)
  | _ => .error (.indexOutOfRange index elements.length)

/-- The value of `base[index]`. A base that is no array is reported before an index that is
no number. -/
def subscript (base index : Value η) : Except EvalError (Value η) :=
  match base, index with
  | .array _ es, .number x => select es x
  | .array _ _, v => .error (.typeError (.index v.kind))
  | v, _ => .error (.typeError (.subscripted v.kind))

end DynScope.Value
