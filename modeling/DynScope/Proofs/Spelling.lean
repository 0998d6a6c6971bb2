import DynScope.Program
import DynScope.Proofs.Interner
import Mathlib.Data.List.Forall2

/-!
# DynScope.Proofs.Spelling

**Trees that read the same.** Two trees over different interners are alike if they become
one tree when every name is replaced by its text. The relation is parameterized by the names
that stand for each other (`Interner.SameText` for two interners); numerals have to be equal,
and the serial numbers of function declarations are not looked at, since they are no part of
what is written.

All that a run needs of such names is `Naming`: they have one text, and they are equal on
one side exactly where they are equal on the other.
-/

namespace DynScope

/-! ### Names -/

/-- Two names, each of its own interner, that stand for one text. -/
def Interner.SameText (t t' : Interner) (n n' : Name) : Prop :=
  t.Holds n ∧ t'.Holds n' ∧ t.text n = t'.text n'

instance (t t' : Interner) (n n' : Name) : Decidable (Interner.SameText t t' n n') :=
  inferInstanceAs (Decidable (t.Holds n ∧ t'.Holds n' ∧ t.text n = t'.text n'))

/-- Names that stand for each other as far as a run can tell. -/
structure Naming (N : Name → Name → Prop) (texts texts' : Interner) : Prop where
  /-- They have one text. -/
  text_eq : ∀ {n n'}, N n n' → texts.text n = texts'.text n'
  /-- Equal names stand for equal names. -/
  eq_iff : ∀ {n n' k k'}, N n n' → N k k' → (n = k ↔ n' = k')

/-- Names of one text stand for each other, also when the interners have grown since. -/
theorem Interner.naming_sameText {t t' texts texts' : Interner} (h : t.WellFormed)
    (h' : t'.WellFormed) (ht : texts.WellFormed) (ht' : texts'.WellFormed)
    (hext : t.Extends texts) (hext' : t'.Extends texts') :
    Naming (SameText t t') texts texts' where
  text_eq := by
    rintro n n' ⟨hn, hn', htext⟩
    rw [(hext.holds_text h ht hn).2, (hext'.holds_text h' ht' hn').2, htext]
  eq_iff := by
    rintro n n' k k' ⟨hn, hn', htext⟩ ⟨hk, hk', hktext⟩
    constructor
    · rintro rfl
      exact h'.text_injective hn' hk' (htext.symm.trans hktext)
    · rintro rfl
      exact h.text_injective hn hk (htext.trans hktext.symm)

/-! ### Trees -/

section Trees

variable (N : Name → Name → Prop)

mutual
/-- The expressions are one tree up to names that stand for each other. -/
inductive Expr.Alike : Expr → Expr → Prop
  | numeral (x : Float) : Expr.Alike (.numeral x) (.numeral x)
  | bool (b : Bool) : Expr.Alike (.bool b) (.bool b)
  | identifier {n n'} : N n n' → Expr.Alike (.identifier n) (.identifier n')
  | binary (op : BinaryOp) {l l' r r'} : Expr.Alike l l' → Expr.Alike r r' →
      Expr.Alike (.binary op l r) (.binary op l' r')
  | unary (op : UnaryOp) {e e'} : Expr.Alike e e' → Expr.Alike (.unary op e) (.unary op e')
  | conditional {t t' c c' a a'} : Expr.Alike t t' → Expr.Alike c c' → Expr.Alike a a' →
      Expr.Alike (.conditional t c a) (.conditional t' c' a')
  | call {f f' es es'} : N f f' → Expr.AlikeAll es es' → Expr.Alike (.call f es) (.call f' es')
  | array {es es'} : Expr.AlikeAll es es' → Expr.Alike (.array es) (.array es')
  | subscript {b b' i i'} : Expr.Alike b b' → Expr.Alike i i' →
      Expr.Alike (.subscript b i) (.subscript b' i')
/-- Equally many expressions, alike one by one. -/
inductive Expr.AlikeAll : List Expr → List Expr → Prop
  | nil : Expr.AlikeAll [] []
  | cons {e e' es es'} : Expr.Alike e e' → Expr.AlikeAll es es' →
      Expr.AlikeAll (e :: es) (e' :: es')
end

/-- The declarations read the same. Which objects they are does not matter. -/
structure FunctionDecl.Alike (d d' : FunctionDecl) : Prop where
  name : N d.name d'.name
  params : List.Forall₂ N d.params d'.params
  body : Expr.Alike N d.body d'.body

mutual
/-- The statements are one tree up to names that stand for each other. -/
inductive Stmt.Alike : Stmt → Stmt → Prop
  | block {b b'} : Stmt.AlikeAll b b' → Stmt.Alike (.block b) (.block b')
  | declare {n n' e e'} : N n n' → Expr.Alike N e e' →
      Stmt.Alike (.declare n e) (.declare n' e')
  | assign {n n' e e'} : N n n' → Expr.Alike N e e' → Stmt.Alike (.assign n e) (.assign n' e')
  | print {e e'} : Expr.Alike N e e' → Stmt.Alike (.print e) (.print e')
  | loop {c c' b b'} : Expr.Alike N c c' → Stmt.AlikeAll b b' →
      Stmt.Alike (.loop c b) (.loop c' b')
  | function {d d'} : FunctionDecl.Alike N d d' → Stmt.Alike (.function d) (.function d')
/-- Equally many statements, alike one by one. -/
inductive Stmt.AlikeAll : Block → Block → Prop
  | nil : Stmt.AlikeAll [] []
  | cons {s s' b b'} : Stmt.Alike s s' → Stmt.AlikeAll b b' → Stmt.AlikeAll (s :: b) (s' :: b')
end

end Trees

/-- The programs become one tree when every name is replaced by its text. -/
def Program.Alike (t t' : Interner) (p p' : Program) : Prop :=
  Stmt.AlikeAll (Interner.SameText t t') p.body p'.body

variable {N : Name → Name → Prop}

theorem Expr.AlikeAll.length_eq {es es' : List Expr} (h : Expr.AlikeAll N es es') :
    es.length = es'.length := by
  induction es generalizing es' with
  | nil =>
      cases h
      rfl
  | cons e es ih =>
      cases h with
      | cons _ hes => rw [List.length_cons, List.length_cons, ih hes]

theorem FunctionDecl.Alike.arity_eq {d d' : FunctionDecl} (h : FunctionDecl.Alike N d d') :
    d.arity = d'.arity := h.params.length_eq

end DynScope
