import DynScope.Proofs.Diagnosis

/-!
# DynScope.Proofs.Provenance

**Where callables come from.** Evaluating an expression forges no callable: whatever can be
called in its value stood in a binding that was visible before. So a property of callables that
holds in all bindings holds in every value that comes up, at any depth of calls.

How it works: one induction over the tree says what an evaluation comes to, given as much for
the calls that may come up in it (`Copying.evalWith_provided`). What a call evaluates lives on two
things, which binding the parameters keeps: some names are bound, and a property holds of all
callables at hand (`Store.Provides`). If the property says of a function that its body makes do
with those names and its parameters, and of a host function that it makes do with its arguments
(`Copying.Suffices`), then all calls keep to it, by induction on the fuel
(`Copying.call_provided`). Which errors about unbound names are put up with is a parameter, and so
is whether the fuel may run out.
-/

namespace DynScope

variable {η : Type}

/-- If the error is that a name is unbound, then its text is as `U` says. -/
def EvalError.Blames (U : String → Prop) : EvalError → Prop
  | .unboundVariable s => U s
  | .duplicateDeclaration _ | .notCallable .. | .arityMismatch .. | .indexOutOfRange ..
  | .typeError _ => True

/-- An error that arises in any program, with any bindings, is about no unbound name. -/
theorem EvalError.blames_of_arises {U : String → Prop} {err : EvalError}
    (h : ∀ p texts (m : Copying.Store η), Arises p texts m err) : err.Blames U := by
  cases h ⟨[]⟩ .empty fun _ => some (.bool true) with
  | identifier _ hnone | callee _ hnone => cases hnone
  | notCallable | arity | hostArity | index | type => trivial

namespace Copying

/-! ### What evaluations live on -/

section Provisions

variable {V : Name → Prop} {P : Value η → Prop}

/-- The names of `V` are bound, and `P` holds of all callables in the bindings. -/
structure Store.Provides (V : Name → Prop) (P : Value η → Prop) (m : Store η) : Prop where
  /-- The names of `V` are bound. -/
  bound : ∀ n, V n → m n ≠ none
  /-- Callables are as `P` says. -/
  every : ∀ n v, m n = some v → v.Every P

/-- A call makes do with the names of `V` and its arguments, if `P` holds of what is called: but
for names whose texts are as `U` says, it finds none unbound. -/
structure Suffices [Host η] (texts : Interner) (V : Name → Prop) (U : String → Prop)
    (P : Value η → Prop) : Prop where
  /-- What a body mentions is there or is a parameter. -/
  function : ∀ d, P (.function d) →
    ∀ n ∈ d.body.names, V n ∨ n ∈ d.params ∨ U (texts.text n)
  /-- A host function comes to no callable of its own. -/
  passesOn : ∀ b, P (.builtin b) → b.PassesOn
  /-- A host function finds no other name unbound. -/
  blames : ∀ b, P (.builtin b) → ∀ args err, b.call args = .error err → err.Blames U

/-- Where any name may be found unbound, it is enough that host functions make no callables. -/
theorem Suffices.of_passesOn [Host η] (texts : Interner)
    (hP : ∀ b, P (.builtin b) → b.PassesOn) :
    Suffices texts (fun _ => False) (fun _ => True) P where
  function _ _ _ _ := Or.inr (Or.inr trivial)
  passesOn := hP
  blames _ _ _ err _ := by cases err <;> trivial

theorem Store.Provides.insertAll {m : Store η} (hm : m.Provides V P) (ns : List Name)
    {vs : List (Value η)} (hvs : ∀ v ∈ vs, v.Every P) : (m.insertAll ns vs).Provides V P where
  bound n hn hnone := hm.bound n hn (Store.eq_none_of_insertAll hnone)
  every := Store.every_insertAll ns hvs hm.every

/-- Parameters are bound, given as many values. -/
theorem Store.insertAll_ne_none {ns : List Name} {vs : List (Value η)} {m : Store η} {n : Name}
    (hlength : vs.length = ns.length) (hn : n ∈ ns) : m.insertAll ns vs n ≠ none := by
  induction ns generalizing m vs with
  | nil => cases hn
  | cons k ns ih =>
      cases vs with
      | nil => cases hlength
      | cons v vs =>
          rcases List.mem_cons.mp hn with rfl | hn
          · intro hnone
            have hinsert : m.insert n v n = none := Store.eq_none_of_insertAll hnone
            rw [Store.insert, if_pos rfl] at hinsert
            cases hinsert
          · exact ih (Nat.succ.inj hlength) hn

end Provisions

/-! ### What evaluations come to -/

/-- A value is as `Q` says, an error is about no unbound name but those that `U` allows for, and
the fuel runs out only if `X`. -/
inductive Result.Provided {α : Type} (X : Prop) (U : String → Prop) (Q : α → Prop) :
    Result α → Prop
  | value {a} : Q a → Provided X U Q (some (.ok a))
  | error {err} : err.Blames U → Provided X U Q (some (.error err))
  | exhausted : X → Provided X U Q none

namespace Result.Provided

variable {α β : Type} {X : Prop} {U : String → Prop} {P P' : α → Prop} {Q : β → Prop}

theorem mono {r : Result α} (h : Provided X U P r) (hP : ∀ a, P a → P' a) :
    Provided X U P' r := by
  cases h with
  | value ha => exact .value (hP _ ha)
  | error herr => exact .error herr
  | exhausted hX => exact .exhausted hX

theorem bind {r : Result α} {k : α → Result β} (h : Provided X U P r)
    (hk : ∀ a, P a → Provided X U Q (k a)) : Provided X U Q (r >>= k) := by
  cases h with
  | value ha => exact hk _ ha
  | error herr => exact .error herr
  | exhausted hX => exact .exhausted hX

theorem ofExcept {r : Except EvalError α} (hok : ∀ a, r = .ok a → P a)
    (herror : ∀ err, r = .error err → err.Blames U) : Provided X U P (.ofExcept r) := by
  cases r with
  | ok a => exact .value (hok a rfl)
  | error err => exact .error (herror err rfl)

end Result.Provided

section Evaluation

variable {V : Name → Prop} {X : Prop} {U : String → Prop} {P : Value η → Prop} {texts : Interner}

/-- A name is read to a value of the bindings, unless it is one that may be unbound. -/
theorem read_provided {m : Store η} (hm : ∀ n v, m n = some v → v.Every P) {n : Name}
    (hn : m n = none → U (texts.text n)) :
    (read texts m n).Provided X U fun v => m n = some v ∧ v.Every P := by
  rw [read]
  cases hv : m n with
  | some v => exact .value ⟨rfl, hm n v hv⟩
  | none => exact .error (hn hv)

variable {call : Store η → FunctionDecl → List (Value η) → Result (Value η)}

/-- What the expression needs itself, to be evaluated with the bindings `m`: its names are bound,
but for those that may be missing, and a call that it may make comes to what it should. -/
structure Affords (texts : Interner)
    (call : Store η → FunctionDecl → List (Value η) → Result (Value η)) (X : Prop)
    (U : String → Prop) (P : Value η → Prop) (m : Store η) (e : Expr) : Prop where
  /-- Its names are bound. -/
  bound : ∀ n ∈ e.names, m n = none → U (texts.text n)
  /-- Its call comes to what it should. -/
  called : ∀ c args, e = .call c args → ∀ d, m c = some (.function d) → ∀ vs,
    vs.length = d.arity → (∀ v ∈ vs, v.Every P) → (call m d vs).Provided X U (Value.Every P)

variable [Host η]

mutual
theorem evalWith_provided (hP : Suffices texts V U P) {m : Store η}
    (hm : ∀ n v, m n = some v → v.Every P) : ∀ e : Expr,
      (∀ part ∈ e.parts, Affords texts call X U P m part) →
        (evalWith texts call m e).Provided X U (Value.Every P)
  | .numeral x, _ => by
      simp only [evalWith]
      exact .value (Value.every_number x)
  | .bool b, _ => by
      simp only [evalWith]
      exact .value (Value.every_bool b)
  | .identifier n, hparts => by
      simp only [Expr.parts, List.forall_mem_singleton] at hparts
      have hn := hparts.bound n (by simp [Expr.names])
      simp only [evalWith]
      exact (read_provided hm hn).mono fun _ hv => hv.2
  | .binary op l r, hparts => by
      simp only [Expr.parts, List.forall_mem_cons, List.forall_mem_append] at hparts
      simp only [evalWith]
      refine (evalWith_provided hP hm l hparts.2.1).bind fun v hv => ?_
      refine (evalWith_provided hP hm r hparts.2.2).bind fun w hw => ?_
      refine .ofExcept (fun _ h => hv.binary hw h) fun _ h => ?_
      exact EvalError.blames_of_arises fun _ _ _ => .of_binary h
  | .unary op e, hparts => by
      simp only [Expr.parts, List.forall_mem_cons] at hparts
      simp only [evalWith]
      refine (evalWith_provided hP hm e hparts.2).bind fun v _ => ?_
      refine .ofExcept (fun _ h => Value.every_unary h) fun _ h => ?_
      exact EvalError.blames_of_arises fun _ _ _ => .of_unary h
  | .conditional test consequent alternate, hparts => by
      simp only [Expr.parts, List.forall_mem_cons, List.forall_mem_append] at hparts
      obtain ⟨-, ⟨htest, hconsequent⟩, halternate⟩ := hparts
      simp only [evalWith]
      refine (evalWith_provided hP hm test htest).bind fun v _ => ?_
      split
      · exact evalWith_provided hP hm consequent hconsequent
      · exact evalWith_provided hP hm alternate halternate
  | .call callee args, hparts => by
      simp only [Expr.parts, List.forall_mem_cons] at hparts
      obtain ⟨hself, hargs⟩ := hparts
      have hn := hself.bound callee (by simp [Expr.names])
      have hvs := evalAllWith_provided hP hm args hargs
      simp only [evalWith]
      refine (read_provided hm hn).bind fun f ⟨hcallee, hf⟩ => ?_
      cases f with
      | builtin b =>
          have hb : P (.builtin b) := (Value.every_builtin b).mp hf
          refine hvs.bind fun vs ⟨_, hvs⟩ => ?_
          exact .ofExcept (fun _ h => (hP.passesOn b hb).every hvs h) (hP.blames b hb vs)
      | function d =>
          dsimp only
          split
          · next harity =>
              refine hvs.bind fun vs ⟨hlength, hvs⟩ => ?_
              exact hself.called callee args rfl d hcallee vs (hlength.trans harity) hvs
          · exact .error trivial
      | number _ | bool _ | array _ _ => exact .error trivial
  | .array es, hparts => by
      simp only [Expr.parts, List.forall_mem_cons] at hparts
      simp only [evalWith]
      refine (evalAllWith_provided hP hm es hparts.2).bind fun vs ⟨_, hvs⟩ => ?_
      exact .value ((Value.every_array none vs).mpr hvs)
  | .subscript base index, hparts => by
      simp only [Expr.parts, List.forall_mem_cons, List.forall_mem_append] at hparts
      simp only [evalWith]
      refine (evalWith_provided hP hm base hparts.2.1).bind fun v hv => ?_
      refine (evalWith_provided hP hm index hparts.2.2).bind fun w _ => ?_
      refine .ofExcept (fun _ h => hv.subscript h) fun _ h => ?_
      exact EvalError.blames_of_arises fun _ _ _ => .of_subscript h
theorem evalAllWith_provided (hP : Suffices texts V U P) {m : Store η}
    (hm : ∀ n v, m n = some v → v.Every P) : ∀ es : List Expr,
      (∀ part ∈ Expr.partsAll es, Affords texts call X U P m part) →
        (evalAllWith texts call m es).Provided X U
          fun vs => vs.length = es.length ∧ ∀ v ∈ vs, v.Every P
  | [], _ => by
      simp only [evalAllWith]
      exact .value ⟨rfl, by simp⟩
  | e :: es, hparts => by
      simp only [Expr.partsAll, List.forall_mem_append] at hparts
      simp only [evalAllWith]
      refine (evalWith_provided hP hm e hparts.1).bind fun v hv => ?_
      refine (evalAllWith_provided hP hm es hparts.2).bind fun vs ⟨hlength, hvs⟩ => ?_
      exact .value ⟨congrArg (· + 1) hlength, List.forall_mem_cons.mpr ⟨hv, hvs⟩⟩
end

/-- A call of what makes do with the bindings provided makes do with them at any depth. -/
theorem call_provided (hP : Suffices texts V U P) (fuel : Nat) {m : Store η} {d : FunctionDecl}
    {vs : List (Value η)} (hm : m.Provides V P) (hd : P (.function d))
    (hlength : vs.length = d.arity) (hvs : ∀ v ∈ vs, v.Every P) :
    (Copying.call texts fuel m d vs).Provided True U (Value.Every P) := by
  induction fuel generalizing m d vs with
  | zero => exact .exhausted trivial
  | succ fuel ih =>
      have hm' := hm.insertAll d.params hvs
      refine evalWith_provided hP hm'.every d.body fun part hpart => ⟨?_, ?_⟩
      · intro n hn hnone
        rcases hP.function d hd n (Expr.mem_names_of_part hpart hn) with hV | hparam | hU
        · exact absurd hnone (hm'.bound n hV)
        · exact absurd hnone (Store.insertAll_ne_none hlength hparam)
        · exact hU
      · intro c args _ d' hd' vs' hlength' hvs'
        exact ih hm' ((Value.every_function d').mp (hm'.every c _ hd')) hlength' hvs'

/-- An evaluation of what makes do with the bindings provided comes to a value in which all
callables are as `P` says, and fails over no unbound names but those allowed for. -/
theorem eval_provided (hP : Suffices texts V U P) (fuel : Nat) {m : Store η}
    (hm : m.Provides V P) {e : Expr} (he : ∀ n ∈ e.names, m n = none → U (texts.text n)) :
    (eval texts fuel m e).Provided True U (Value.Every P) := by
  refine evalWith_provided hP hm.every e fun part hpart => ⟨?_, ?_⟩
  · exact fun n hn => he n (Expr.mem_names_of_part hpart hn)
  · intro c args _ d hd vs hlength hvs
    exact call_provided hP fuel hm ((Value.every_function d).mp (hm.every c _ hd)) hlength hvs

end Evaluation

end Copying

/-! ### Values -/

/-- **Evaluation forges no callable.** What holds of all callables in the visible bindings holds
of those in the value of an expression, where host functions make no callables. -/
theorem Expr.ComesTo.every [Host η] {texts : Interner} {env : Environment η} {e : Expr}
    {v : Value η} {P : Value η → Prop} (hP : ∀ b, P (.builtin b) → b.PassesOn)
    (henv : ∀ n w, env.lookup? n = some w → w.Every P) (h : Expr.ComesTo texts env e v) :
    v.Every P := by
  obtain ⟨fuel, hfuel⟩ := h.eval_eq
  have hprovides : Copying.Store.Provides (fun _ => False) P env.lookup? :=
    { bound := fun _ h => h.elim
      every := henv }
  have hsound := Copying.eval_provided (.of_passesOn texts hP) fuel hprovides (e := e)
    fun _ _ _ => trivial
  rw [hfuel] at hsound
  cases hsound with
  | value hv => exact hv

end DynScope
