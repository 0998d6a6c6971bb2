import DynScope.Proofs.Contents
import DynScope.Proofs.Declarations

/-!
# DynScope.Proofs.Diagnosis

**Errors tell the truth.** What the error of a failed run says holds of the program and of the
bindings that the run has left, however many calls deep it arose: the names it mentions stand
in the program in that part, a name called unbound is unbound, one declared twice is bound, and
so on (`EvalError.Truthful`, `Interpreter.interpret_truthful`).

How it works:

* `EvalError.Arises` lists the sites at which the evaluation of an expression fails. Only one of
  them depends on the bindings, the one that reads a name. A call binds its parameters and takes
  no binding away, so a name that is unbound inside is unbound outside (`Arises.of_insertAll`).
* Whatever is evaluated stands in the program. For the body of a function that is so because
  every function at hand was declared there: operators and the numeric functions make none
  (`Value.Native`). The induction over the evaluation proves both together
  (`Copying.evalWith_sound`).
* The last statement breaks in the environment that the run leaves (`Stmt.RunsAll.culprit`).
-/

namespace DynScope

variable {η : Type}

/-! ### What errors say -/

/-- The text is that of a name that is bound. -/
def Environment.BindsText (env : Environment η) (texts : Interner) (s : String) : Prop :=
  ∃ n, texts.find? s = some n ∧ env.isBound n = true

/-- What the error says is true of the program and of the bindings. -/
def EvalError.Truthful (p : Program) (texts : Interner) (env : Environment η) :
    EvalError → Prop
  | .unboundVariable s => (∃ n, p.Uses n ∧ texts.text n = s) ∧ ¬ env.BindsText texts s
  | .duplicateDeclaration s => (∃ n, p.Declares n ∧ texts.text n = s) ∧ env.BindsText texts s
  | .notCallable s kind =>
    (∃ callee args, p.Calls callee args ∧ texts.text callee = s) ∧
      kind ∈ [Kind.number, .boolean, .array]
  | .arityMismatch s expected got =>
    expected ≠ got ∧ ∃ callee args, p.Calls callee args ∧ args.length = got ∧
      (texts.text callee = s ∨ s ∈ ["sin", "cos", "sqrt", "exp", "ln"] ∧ expected = 1)
  | .indexOutOfRange x length => ¬ ∃ i : Nat, Number.wholePart? x = some i ∧ i < length
  | .typeError _ => True

/-! ### Where errors arise -/

open Copying (Store Result)

/-- A site at which the evaluation of an expression of the program fails, with the bindings
`m`. -/
inductive EvalError.Arises (p : Program) (texts : Interner) (m : Store η) : EvalError → Prop
  | identifier {n} : p.Contains (.identifier n) → m n = none →
      Arises p texts m (.unboundVariable (texts.text n))
  | callee {n args} : p.Calls n args → m n = none →
      Arises p texts m (.unboundVariable (texts.text n))
  | notCallable {n args kind} : p.Calls n args → kind ∈ [Kind.number, .boolean, .array] →
      Arises p texts m (.notCallable (texts.text n) kind)
  | arity {n args expected} : p.Calls n args → args.length ≠ expected →
      Arises p texts m (.arityMismatch (texts.text n) expected args.length)
  | hostArity {n args s} : p.Calls n args → s ∈ ["sin", "cos", "sqrt", "exp", "ln"] →
      args.length ≠ 1 → Arises p texts m (.arityMismatch s 1 args.length)
  | index {x length} : (¬ ∃ i : Nat, Number.wholePart? x = some i ∧ i < length) →
      Arises p texts m (.indexOutOfRange x length)
  | type (fault) : Arises p texts m (.typeError fault)

/-- Parameters take no binding away. -/
theorem Copying.Store.eq_none_of_insertAll {ns : List Name} {vs : List (Value η)} {m : Store η}
    {n : Name} (h : m.insertAll ns vs n = none) : m n = none := by
  induction ns generalizing m vs with
  | nil => simpa only [insertAll] using h
  | cons k ns ih =>
      cases vs with
      | nil => exact h
      | cons v vs =>
          have hinsert : m.insert k v n = none := ih h
          rw [insert] at hinsert
          split at hinsert
          · cases hinsert
          · exact hinsert

namespace EvalError.Arises

variable {p : Program} {texts : Interner} {m : Store η}

theorem of_insertAll {ns : List Name} {vs : List (Value η)} {err : EvalError}
    (h : Arises p texts (m.insertAll ns vs) err) : Arises p texts m err := by
  cases h with
  | identifier hn hnone => exact .identifier hn (Store.eq_none_of_insertAll hnone)
  | callee hn hnone => exact .callee hn (Store.eq_none_of_insertAll hnone)
  | notCallable hn hkind => exact .notCallable hn hkind
  | arity hn hne => exact .arity hn hne
  | hostArity hn hs hne => exact .hostArity hn hs hne
  | index hx => exact .index hx
  | type fault => exact .type fault

theorem of_binary {op : BinaryOp} {l r : Value η} {err : EvalError}
    (h : Value.binary op l r = .error err) : Arises p texts m err := by
  have harithmetic : ∀ f, Value.arithmetic op f l r = .error err → Arises p texts m err := by
    intro f h
    unfold Value.arithmetic at h
    split at h
    · cases h
    · exact Except.error.inj h ▸ .type _
  have hordering : ∀ f, Value.ordering op f l r = .error err → Arises p texts m err := by
    intro f h
    unfold Value.ordering at h
    split at h
    · cases h
    · exact Except.error.inj h ▸ .type _
  cases op with
  | eq | ne | and | or => cases h
  | lt | le | ge | gt => exact hordering _ h
  | add | sub | mul | div | rem | pow => exact harithmetic _ h

theorem of_unary {op : UnaryOp} {v : Value η} {err : EvalError}
    (h : Value.unary op v = .error err) : Arises p texts m err := by
  unfold Value.unary at h
  split at h
  · cases h
  · exact Except.error.inj h ▸ .type _
  · cases h

theorem of_select {es : List (Value η)} {x : Float} {err : EvalError}
    (h : Value.select es x = .error err) : Arises p texts m err := by
  unfold Value.select at h
  split at h
  · next i hi =>
      cases hes : es[i]? with
      | some v =>
          rw [hes] at h
          cases h
      | none =>
          rw [hes] at h
          obtain rfl := Except.error.inj h
          refine .index ?_
          rintro ⟨j, hj, hlt⟩
          -- The index selects no element, so it lies past the last one.
          obtain rfl : i = j := Int.ofNat.inj (Option.some.inj (hi.symm.trans hj))
          exact absurd (List.getElem?_eq_none_iff.mp hes) (Nat.not_le_of_lt hlt)
  · next hnone =>
      obtain rfl := Except.error.inj h
      refine .index ?_
      rintro ⟨i, hi, -⟩
      exact hnone i hi

theorem of_subscript {base index : Value η} {err : EvalError}
    (h : Value.subscript base index = .error err) : Arises p texts m err := by
  unfold Value.subscript at h
  split at h
  · exact of_select h
  · exact Except.error.inj h ▸ .type _
  · exact Except.error.inj h ▸ .type _

end EvalError.Arises

/-- A numeric function fails over an argument that is no number, or over their count. -/
theorem MathFn.call_eq_error {f : MathFn} {args : List (Value η)} {err : EvalError}
    (h : f.call args = .error err) : (∃ fault, err = .typeError fault) ∨
      ∃ s ∈ ["sin", "cos", "sqrt", "exp", "ln"], args.length ≠ 1 ∧
        err = .arityMismatch s 1 args.length := by
  have hone : ∀ s ∈ ["sin", "cos", "sqrt", "exp", "ln"], ∀ g, ofOne s g args = .error err →
      (∃ fault, err = .typeError fault) ∨ ∃ s ∈ ["sin", "cos", "sqrt", "exp", "ln"],
        args.length ≠ 1 ∧ err = .arityMismatch s 1 args.length := by
    intro s hs g h
    unfold ofOne at h
    split at h
    · cases h
    · exact Or.inl ⟨_, (Except.error.inj h).symm⟩
    · next hnumber hother =>
        refine Or.inr ⟨s, hs, fun hlength => ?_, (Except.error.inj h).symm⟩
        obtain ⟨v, rfl⟩ := List.length_eq_one_iff.mp hlength
        exact hother v rfl
  have hhypot : ∀ (acc : Float) (args : List (Value η)), hypotAll acc args = .error err →
      ∃ fault, err = .typeError fault := by
    intro acc args
    induction args generalizing acc with
    | nil => exact fun h => nomatch h
    | cons v vs ih =>
        intro h
        cases v with
        | number x => exact ih _ h
        | _ => exact ⟨_, (Except.error.inj h).symm⟩
  cases f with
  | hypot => exact Or.inl (hhypot 0 args h)
  | _ => exact hone _ (by simp) _ h

/-! ### Evaluation -/

/-- A callable that a run with the standard prelude can have at hand: a function that the
program declares, or a numeric function. -/
def Value.Native (p : Program) : Value η → Prop
  | .function d => p.Executes (.function d)
  | .builtin b => ∃ f, b.fn = .math f
  | .number _ | .bool _ | .array .. => True

namespace Copying

/-- All callables in the bindings are native. -/
def Store.Native (p : Program) (m : Store η) : Prop :=
  ∀ n v, m n = some v → v.Every (Value.Native p)

/-- A value is as `Q` says, and an error is as `G` says. -/
inductive Result.Sound {α : Type} (G : EvalError → Prop) (Q : α → Prop) : Result α → Prop
  | value {a} : Q a → Sound G Q (some (.ok a))
  | error {e} : G e → Sound G Q (some (.error e))
  | exhausted : Sound G Q none

namespace Result.Sound

variable {α β : Type} {G G' : EvalError → Prop} {P : α → Prop} {Q : β → Prop}

theorem bind {r : Result α} {k : α → Result β} (h : Sound G P r)
    (hk : ∀ a, P a → Sound G Q (k a)) : Sound G Q (r >>= k) := by
  cases h with
  | value ha => exact hk _ ha
  | error he => exact .error he
  | exhausted => exact .exhausted

theorem mono_error {r : Result α} (h : Sound G P r) (hG : ∀ e, G e → G' e) : Sound G' P r := by
  cases h with
  | value ha => exact .value ha
  | error he => exact .error (hG _ he)
  | exhausted => exact .exhausted

theorem ofExcept {r : Except EvalError α} (hok : ∀ a, r = .ok a → P a)
    (herror : ∀ e, r = .error e → G e) : Sound G P (.ofExcept r) := by
  cases r with
  | ok a => exact .value (hok a rfl)
  | error e => exact .error (herror e rfl)

end Result.Sound

variable {p : Program} {texts : Interner}

section Every

variable {P : Value η → Prop} {m : Store η}

theorem Store.every_insert (h : ∀ k w, m k = some w → w.Every P) (n : Name) {v : Value η}
    (hv : v.Every P) : ∀ k w, m.insert n v k = some w → w.Every P := by
  intro k w hw
  rw [Store.insert] at hw
  split at hw
  · exact Option.some.inj hw ▸ hv
  · exact h k w hw

theorem Store.every_insertAll (ns : List Name) {vs : List (Value η)} (hvs : ∀ v ∈ vs, v.Every P)
    (h : ∀ k w, m k = some w → w.Every P) :
    ∀ k w, m.insertAll ns vs k = some w → w.Every P := by
  induction ns generalizing m vs with
  | nil => simpa only [Store.insertAll] using h
  | cons n ns ih =>
      cases vs with
      | nil => exact h
      | cons v vs =>
          have hv := hvs v List.mem_cons_self
          exact ih (fun w hw => hvs w (List.mem_cons_of_mem _ hw)) (Store.every_insert h n hv)

end Every

/-- What an expression comes to, evaluated with the bindings `m`: a value in which all callables
are native, or an error that arises from the program. -/
abbrev Result.SoundIn (p : Program) (texts : Interner) (m : Store η) : Result (Value η) → Prop :=
  Result.Sound (EvalError.Arises p texts m) (Value.Every (Value.Native p))

theorem read_sound {m : Store η} (hm : Store.Native p m) {n : Name}
    (hn : m n = none → EvalError.Arises p texts m (.unboundVariable (texts.text n))) :
    Result.SoundIn p texts m (read texts m n) := by
  rw [read]
  cases hv : m n with
  | some v => exact .value (hm n v hv)
  | none => exact .error (hn hv)

section Expressions

variable [Host η]

section Calls

variable {call : Store η → FunctionDecl → List (Value η) → Result (Value η)}

mutual
theorem evalWith_sound (hcall : ∀ {m d vs}, Store.Native p m → p.Executes (.function d) →
      (∀ v ∈ vs, v.Every (Value.Native p)) → Result.SoundIn p texts m (call m d vs))
    {m : Store η} (hm : Store.Native p m) : ∀ e : Expr, (∀ part ∈ e.parts, p.Contains part) →
      Result.SoundIn p texts m (evalWith texts call m e)
  | .numeral x, _ => by
      simp only [evalWith]
      exact .value (Value.every_number x)
  | .bool b, _ => by
      simp only [evalWith]
      exact .value (Value.every_bool b)
  | .identifier n, hp => by
      have hn := hp _ (Expr.mem_parts_self _)
      simp only [evalWith]
      exact read_sound hm (.identifier hn)
  | .binary op l r, hp => by
      simp only [Expr.parts, List.forall_mem_cons, List.forall_mem_append] at hp
      simp only [evalWith]
      refine (evalWith_sound hcall hm l hp.2.1).bind fun v hv => ?_
      refine (evalWith_sound hcall hm r hp.2.2).bind fun w hw => ?_
      exact .ofExcept (fun _ h => hv.binary hw h) fun _ h => .of_binary h
  | .unary op e, hp => by
      simp only [Expr.parts, List.forall_mem_cons] at hp
      simp only [evalWith]
      refine (evalWith_sound hcall hm e hp.2).bind fun v _ => ?_
      exact .ofExcept (fun _ h => Value.every_unary h) fun _ h => .of_unary h
  | .conditional test consequent alternate, hp => by
      simp only [Expr.parts, List.forall_mem_cons, List.forall_mem_append] at hp
      obtain ⟨-, ⟨htest, hconsequent⟩, halternate⟩ := hp
      simp only [evalWith]
      refine (evalWith_sound hcall hm test htest).bind fun v _ => ?_
      split
      · exact evalWith_sound hcall hm consequent hconsequent
      · exact evalWith_sound hcall hm alternate halternate
  | .call callee args, hp => by
      simp only [Expr.parts, List.forall_mem_cons] at hp
      obtain ⟨hcalls, hargs⟩ := hp
      have hvs := evalAllWith_sound hcall hm args hargs
      simp only [evalWith]
      refine (read_sound hm (.callee hcalls)).bind fun f hf => ?_
      cases f with
      | builtin b =>
          obtain ⟨name, serial, fn⟩ := b
          obtain ⟨f, rfl⟩ := (Value.every_builtin _).mp hf
          refine hvs.bind fun vs ⟨hlength, hvs⟩ => ?_
          refine .ofExcept (fun _ h => (Builtin.passesOn_math name serial f).every hvs h) ?_
          intro err h
          rcases MathFn.call_eq_error h with ⟨fault, rfl⟩ | ⟨s, hs, hne, rfl⟩
          · exact .type fault
          · rw [hlength] at hne ⊢
            exact .hostArity hcalls hs hne
      | function d =>
          have hd : p.Executes (.function d) := (Value.every_function d).mp hf
          dsimp only
          split
          · exact hvs.bind fun vs ⟨_, hvs⟩ => hcall hm hd hvs
          · next hne => exact .error (.arity hcalls hne)
      | number _ | bool _ | array _ _ => exact .error (.notCallable hcalls (by simp [Value.kind]))
  | .array es, hp => by
      simp only [Expr.parts, List.forall_mem_cons] at hp
      simp only [evalWith]
      refine (evalAllWith_sound hcall hm es hp.2).bind fun vs ⟨_, hvs⟩ => ?_
      exact .value ((Value.every_array none vs).mpr hvs)
  | .subscript base index, hp => by
      simp only [Expr.parts, List.forall_mem_cons, List.forall_mem_append] at hp
      simp only [evalWith]
      refine (evalWith_sound hcall hm base hp.2.1).bind fun v hv => ?_
      refine (evalWith_sound hcall hm index hp.2.2).bind fun w _ => ?_
      exact .ofExcept (fun _ h => hv.subscript h) fun _ h => .of_subscript h
theorem evalAllWith_sound (hcall : ∀ {m d vs}, Store.Native p m → p.Executes (.function d) →
      (∀ v ∈ vs, v.Every (Value.Native p)) → Result.SoundIn p texts m (call m d vs))
    {m : Store η} (hm : Store.Native p m) :
    ∀ es : List Expr, (∀ part ∈ Expr.partsAll es, p.Contains part) →
      Result.Sound (EvalError.Arises p texts m)
        (fun vs => vs.length = es.length ∧ ∀ v ∈ vs, v.Every (Value.Native p))
        (evalAllWith texts call m es)
  | [], _ => by
      simp only [evalAllWith]
      exact .value ⟨rfl, by simp⟩
  | e :: es, hp => by
      simp only [Expr.partsAll, List.forall_mem_append] at hp
      simp only [evalAllWith]
      refine (evalWith_sound hcall hm e hp.1).bind fun v hv => ?_
      refine (evalAllWith_sound hcall hm es hp.2).bind fun vs ⟨hlength, hvs⟩ => ?_
      exact .value ⟨congrArg (· + 1) hlength, List.forall_mem_cons.mpr ⟨hv, hvs⟩⟩
end

end Calls

theorem call_sound (fuel : Nat) {m : Store η} {d : FunctionDecl} {vs : List (Value η)}
    (hm : Store.Native p m) (hd : p.Executes (.function d))
    (hvs : ∀ v ∈ vs, v.Every (Value.Native p)) :
    Result.SoundIn p texts m (call texts fuel m d vs) := by
  induction fuel generalizing m d vs with
  | zero => exact .exhausted
  | succ fuel ih =>
      have hbody := evalWith_sound ih (Store.every_insertAll d.params hvs hm) d.body (hd.contains rfl)
      exact hbody.mono_error fun _ h => h.of_insertAll

theorem eval_sound (texts : Interner) (fuel : Nat) {m : Store η} (hm : Store.Native p m) {e : Expr}
    (he : ∀ part ∈ e.parts, p.Contains part) :
    Result.SoundIn p texts m (eval texts fuel m e) :=
  evalWith_sound (call_sound fuel) hm e he

end Expressions

end Copying

/-! ### Names and texts -/

namespace Environment

variable {env : Environment η} {texts : Interner} {n : Name}

/-- Of a name that has its text to itself: it is bound exactly if its text is. -/
theorem bindsText_iff (hn : texts.find? (texts.text n) = some n) :
    env.BindsText texts (texts.text n) ↔ env.isBound n = true := by
  constructor
  · rintro ⟨k, hk, hb⟩
    rw [hn] at hk
    exact Option.some.inj hk ▸ hb
  · exact fun hb => ⟨n, hn, hb⟩

theorem native_bind {p : Program} (henv : Copying.Store.Native p env.lookup?) (n : Name)
    {v : Value η} (hv : v.Every (Value.Native p)) :
    Copying.Store.Native p (env.bind n v).lookup? := by
  rw [Environment.lookup?_bind_eq_insert]
  exact Copying.Store.every_insert henv n hv

end Environment

/-- An error at a site of the program is true, if the names of the program have their texts to
themselves. -/
theorem EvalError.Arises.truthful {p : Program} {texts : Interner} {env : Environment η}
    {err : EvalError} (h : EvalError.Arises p texts env.lookup? err)
    (htexts : ∀ n ∈ p.names, texts.find? (texts.text n) = some n) : err.Truthful p texts env := by
  have hunbound : ∀ n, p.Uses n → env.lookup? n = none →
      (EvalError.unboundVariable (texts.text n)).Truthful p texts env := by
    intro n hn hnone
    refine ⟨⟨n, hn, rfl⟩, fun hbinds => ?_⟩
    have hbound := (Environment.bindsText_iff (htexts n hn.mem_names)).mp hbinds
    rw [Environment.isBound, hnone] at hbound
    cases hbound
  cases h with
  | identifier hn hnone => exact hunbound _ (Or.inl hn) hnone
  | callee hn hnone => exact hunbound _ (Or.inr (Or.inl ⟨_, hn⟩)) hnone
  | notCallable hn hkind => exact ⟨⟨_, _, hn, rfl⟩, hkind⟩
  | arity hn hne => exact ⟨Ne.symm hne, _, _, hn, rfl, Or.inl rfl⟩
  | hostArity hn hs hne => exact ⟨Ne.symm hne, _, _, hn, rfl, Or.inr ⟨hs, rfl⟩⟩
  | index hx => exact hx
  | type fault => trivial

/-! ### The standard prelude -/

namespace Prelude

/-- What holds of all callables in some entries holds of those in an environment that they are
bound in. -/
theorem every_bindEntries {P : Value η → Prop} {entries : List (String × Value η)}
    (h : ∀ entry ∈ entries, entry.2.Every P) (t : Interner) {env : Environment η}
    (henv : env.overlays = []) (hP : ∀ n v, env.lookup? n = some v → v.Every P) (n : Name)
    (v : Value η) (hv : (bindEntries t env entries).2.lookup? n = some v) : v.Every P := by
  induction entries generalizing t env with
  | nil => exact hP n v hv
  | cons entry rest ih =>
      obtain ⟨name, w⟩ := entry
      have hw : w.Every P := h _ List.mem_cons_self
      have hnext : (env.bindGlobal (t.intern name).1 w).overlays = [] := henv
      refine ih (fun e he => h e (List.mem_cons_of_mem _ he)) (t.intern name).2 hnext ?_ hv
      intro k u hu
      rw [Environment.bindGlobal_eq_bind henv, Environment.lookup?_bind] at hu
      split at hu
      · exact Option.some.inj hu ▸ hw
      · exact hP k u hu

/-- The standard prelude brings numeric functions only. -/
theorem native_standard (p : Program) (t : Interner) :
    Copying.Store.Native p ((standard : Prelude η).environment t).2.lookup? := by
  have hhost : ∀ (q : Prelude η) (name : String) (f : MathFn),
      (∀ entry ∈ q.entries, entry.2.Every (Value.Native p)) →
        ∀ entry ∈ (q.insertHost name (.math f)).entries, entry.2.Every (Value.Native p) := by
    intro q name f h
    refine forall_mem_insert (P := fun v => v.Every (Value.Native p)) h name ?_
    exact (Value.every_builtin _).mpr ⟨f, rfl⟩
  have hentries : ∀ entry ∈ (standard : Prelude η).entries, entry.2.Every (Value.Native p) := by
    refine forall_mem_insert (P := fun v => v.Every (Value.Native p)) ?_ "π" (Value.every_number pi)
    iterate 6 refine hhost _ _ _ ?_
    intro entry h
    cases h
  refine every_bindEntries hentries t rfl fun n v hv => ?_
  rw [Environment.lookup?_empty] at hv
  cases hv

end Prelude

/-! ### Runs -/

section Runs

variable [Host η] {p : Program} {texts : Interner} {env env' : Environment η}

theorem Expr.ComesTo.eval_eq {e : Expr} {v : Value η} (h : Expr.ComesTo texts env e v) :
    ∃ fuel, Copying.eval texts fuel env.lookup? e = some (.ok v) := by
  let s : State η := { env, output := #[], sink := .discard }
  obtain ⟨-, fuel, hfuel⟩ := h s rfl
  have hdone : e.eval texts fuel s = .done v s := hfuel fuel (Nat.le_refl fuel)
  rcases Expr.eval_restores_state texts fuel e s with ⟨w, hw, heval⟩ | ⟨_, -, heval⟩ | ⟨-, heval⟩
  all_goals
    rw [hdone] at heval
    cases heval
  exact ⟨fuel, hw⟩

theorem Expr.FailsWith.eval_eq {e : Expr} {err : EvalError}
    (h : Expr.FailsWith texts env e err) :
    ∃ fuel, Copying.eval texts fuel env.lookup? e = some (.error err) := by
  let s : State η := { env, output := #[], sink := .discard }
  obtain ⟨-, fuel, hfuel⟩ := h s rfl
  have hfailed : e.eval texts fuel s = .failed err s := hfuel fuel (Nat.le_refl fuel)
  rcases Expr.eval_restores_state texts fuel e s with ⟨_, -, heval⟩ | ⟨_, herr, heval⟩ | ⟨-, heval⟩
  all_goals
    rw [hfailed] at heval
    cases heval
  exact ⟨fuel, herr⟩

/-- An expression of the program comes to a value in which all callables are native. -/
theorem Expr.ComesTo.native {e : Expr} {v : Value η} (h : Expr.ComesTo texts env e v)
    (henv : Copying.Store.Native p env.lookup?) (he : ∀ part ∈ e.parts, p.Contains part) :
    v.Every (Value.Native p) := by
  obtain ⟨fuel, hfuel⟩ := h.eval_eq
  have hsound := Copying.eval_sound texts fuel henv he
  rw [hfuel] at hsound
  cases hsound with
  | value hv => exact hv

/-- An expression of the program fails at one of its sites. -/
theorem Expr.FailsWith.arises {e : Expr} {err : EvalError} (h : Expr.FailsWith texts env e err)
    (henv : Copying.Store.Native p env.lookup?) (he : ∀ part ∈ e.parts, p.Contains part) :
    EvalError.Arises p texts env.lookup? err := by
  obtain ⟨fuel, hfuel⟩ := h.eval_eq
  have hsound := Copying.eval_sound texts fuel henv he
  rw [hfuel] at hsound
  cases hsound with
  | error herr => exact herr

/-- A statement of the program that completes leaves native callables only. -/
theorem Stmt.Completes.native {st : Stmt} {effect : Effect η}
    (h : Stmt.Completes texts env st effect) (henv' : effect.carryOut env = .ok env')
    (hst : p.Executes st) (henv : Copying.Store.Native p env.lookup?) :
    Copying.Store.Native p env'.lookup? := by
  have hparts : ∀ root, st.expr? = some root → ∀ e ∈ root.parts, p.Contains e :=
    fun _ => hst.contains
  obtain ⟨n, v, rfl, -, rfl⟩ | ⟨n, v, rfl, -, rfl⟩ | ⟨v, -, rfl⟩ := Effect.carryOut_cases henv'
  · cases h with
    | declare _ hv => exact Environment.native_bind henv n (hv.native henv (hparts _ rfl))
    | function d => exact Environment.native_bind henv d.name ((Value.every_function d).mpr hst)
  · cases h with
    | assign _ hv => exact Environment.native_bind henv n (hv.native henv (hparts _ rfl))
  · exact henv

theorem Event.Chain.native {es : List (Event η)} (h : Event.Chain texts env es env')
    (hes : ∀ e ∈ es, p.Executes e.stmt) (henv : Copying.Store.Native p env.lookup?) :
    Copying.Store.Native p env'.lookup? := by
  induction h with
  | nil => exact henv
  | @cons _ _ _ e _ hdone hstep _ ih =>
      have he := hes e List.mem_cons_self
      exact ih (fun e' he' => hes e' (List.mem_cons_of_mem _ he')) (hdone.native hstep he henv)

/-- The error of a statement of the program that breaks is true. -/
theorem Stmt.Breaks.truthful {st : Stmt} {err : EvalError} (h : Stmt.Breaks texts env st err)
    (hst : p.Executes st) (henv : Copying.Store.Native p env.lookup?)
    (htexts : ∀ n ∈ p.names, texts.find? (texts.text n) = some n) : err.Truthful p texts env := by
  have hparts : ∀ root, st.expr? = some root → ∀ e ∈ root.parts, p.Contains e :=
    fun _ => hst.contains
  have hduplicate : ∀ n, p.Declares n → env.isBound n = true →
      (EvalError.duplicateDeclaration (texts.text n)).Truthful p texts env := by
    intro n hn hbound
    exact ⟨⟨n, hn, rfl⟩, (Environment.bindsText_iff (htexts n hn.mem_names)).mpr hbound⟩
  cases h with
  | duplicate hb => exact hduplicate _ (Or.inl ⟨_, hst⟩) hb
  | function hb => exact hduplicate _ (Or.inr ⟨_, hst, rfl⟩) hb
  | @unbound n e hb =>
      have hn : p.Uses n := Or.inr (Or.inr ⟨e, hst⟩)
      refine ⟨⟨n, hn, rfl⟩, fun hbinds => ?_⟩
      rw [Environment.bindsText_iff (htexts n hn.mem_names), hb] at hbinds
      cases hbinds
  | initializer _ h | source _ h | print h | condition h =>
      exact (h.arises henv (hparts _ rfl)).truthful htexts

/-- **Errors tell the truth.** Let a program be run with the standard prelude, on an interner
that holds its names, and fail. Then the error is true of the program and of the bindings at
the end: a name that is called unbound is used in the program and is not bound; one that is
declared twice is declared in the program and is bound; what cannot be called is called in the
program, and is a number, a boolean or an array; a wrong number of arguments is that of a call
in the program, of a name in the program or of a function of one argument; and an index out of
range selects no element. -/
theorem Interpreter.interpret_truthful (i : Interpreter η) (p : Program) (fuel : Nat)
    (err : EvalError) (i' : Interpreter η) (hprelude : i.prelude = .standard)
    (hinterner : i.interner.WellFormed) (hp : ∀ n ∈ p.names, i.interner.Holds n)
    (h : i.interpret fuel p = .failed err i') : err.Truthful p i'.interner i'.env := by
  have hstart := Prelude.native_standard (η := η) p i.interner
  rw [← hprelude] at hstart
  have htexts : ∀ n ∈ p.names, i'.interner.find? (i'.interner.text n) = some n := by
    intro n hn
    obtain ⟨s, -, rfl⟩ := Interpreter.state?_interpret_eq_some (congrArg Outcome.state? h)
    have hwf := i.prelude.wellFormed_environment hinterner
    have hholds := (i.prelude.extends_environment i.interner).holds_text hinterner hwf (hp n hn)
    exact (hwf.find?_eq_some_iff _ n).mpr ⟨hholds.1, rfl⟩
  obtain ⟨s, -, hi'⟩ := Interpreter.state?_interpret_eq_some (congrArg Outcome.state? h)
  have hended : i.interpret fuel p = .ended (some err) i' := h
  obtain ⟨es, hruns, -, -⟩ := Interpreter.exists_runsAll hended
  -- The run failed in a statement of the program, with what the others have left.
  have hnative := hruns.chain.native hruns.mem_partsAll hstart
  obtain ⟨culprit, hculprit, hbreaks⟩ := hruns.culprit err rfl
  have hinterner' : i'.interner = (i.prelude.environment i.interner).1 := by rw [hi']
  rw [hinterner'] at htexts ⊢
  exact hbreaks.truthful hculprit hnative htexts

/-- Declares `f` with a parameter `a`, which calls `g` with it, and `g` with a parameter `b`,
which reads `x`, and prints what `f` gives for `true`. -/
def readThroughCalls : Program :=
  ⟨[.function ⟨⟨1⟩, 1, [⟨4⟩], .call ⟨2⟩ [.identifier ⟨4⟩]⟩,
    .function ⟨⟨2⟩, 2, [⟨5⟩], .identifier ⟨3⟩⟩, .print (.call ⟨1⟩ [.bool true])]⟩

/-- The name that a computation found to be unbound, if it failed for that. -/
def Outcome.unbound? {σ α : Type} : Outcome σ α → Option String
  | .failed (.unboundVariable s) _ => some s
  | _ => none

theorem Outcome.eq_failed_of_unbound? {σ α : Type} {o : Outcome σ α} {s : String}
    (h : o.unbound? = some s) : ∃ st, o = .failed (.unboundVariable s) st := by
  cases o with
  | failed err st =>
      cases err with
      | unboundVariable s' =>
          obtain rfl := Option.some.inj h
          exact ⟨st, rfl⟩
      | _ => cases h
  | done a st => cases h
  | outOfFuel => cases h

/-- The read of `x` fails two calls deep. -/
theorem Interpreter.interpret_truthful_readThroughCalls :
    let i : Interpreter Empty := .new (.reached ["f", "g", "x", "a", "b"]) .standard
    ∃ i', i.interpret 2 readThroughCalls = .failed (.unboundVariable "x") i' ∧
      (EvalError.unboundVariable "x").Truthful readThroughCalls i'.interner i'.env := by
  intro i
  have hunbound : (i.interpret 2 readThroughCalls).unbound? = some "x" := by decide +kernel
  have hp : ∀ n ∈ readThroughCalls.names, i.interner.Holds n := by decide +kernel
  obtain ⟨i', hrun⟩ := Outcome.eq_failed_of_unbound? hunbound
  have hinterner := Interner.wellFormed_reached ["f", "g", "x", "a", "b"]
  exact ⟨i', hrun, i.interpret_truthful readThroughCalls 2 _ i' rfl hinterner hp hrun⟩

end Runs

end DynScope
