import DynScope.Proofs.Provenance

/-!
# DynScope.Proofs.Visibility

**No name is missed where all that are needed are visible.** Functions capture nothing, so a body
depends on the bindings of whoever calls it. Let the names of an expression be visible, and for
every function in a visible value the names of its body, its parameters apart. Then no
evaluation of the expression finds a name unbound, however the functions are handed on.

How it works: the names that are visible at the start are visible in every call, which only adds
bindings, though it may hide what they were bound to. What hides them was computed, and so every
function in it has been among the visible values before (`Copying.eval_provided`).
-/

namespace DynScope

variable {η : Type}

/-- Where the names of `V` are visible, a call of the callable finds no name unbound: the body of
a function mentions only these and the parameters, and a host function is numeric, or else comes
to no callable of its own and does not fail so. -/
def Value.Supplied [Host η] (V : Name → Prop) : Value η → Prop
  | .function d => ∀ n ∈ d.body.names, V n ∨ n ∈ d.params
  | .builtin b => (∃ f, b.fn = .math f) ∨
    b.PassesOn ∧ ∀ args s, b.call args ≠ .error (.unboundVariable s)
  | .number _ | .bool _ | .array .. => True

section Supplied

variable [Host η] {V : Name → Prop} {b : Builtin η}

theorem Value.Supplied.passesOn (h : (Value.builtin b).Supplied V) : b.PassesOn := by
  rcases h with ⟨f, hf⟩ | ⟨hpasses, -⟩
  · obtain ⟨name, serial, fn⟩ := b
    obtain rfl : fn = .math f := hf
    exact Builtin.passesOn_math name serial f
  · exact hpasses

theorem Value.Supplied.call_ne_unbound (h : (Value.builtin b).Supplied V) (args : List (Value η))
    (s : String) : b.call args ≠ .error (.unboundVariable s) := by
  rcases h with ⟨f, hf⟩ | ⟨-, hne⟩
  · intro hcall
    rw [Builtin.call, hf] at hcall
    rcases MathFn.call_eq_error hcall with ⟨fault, herr⟩ | ⟨_, -, -, herr⟩
    · cases herr
    · cases herr
  · exact hne args s

/-- Supplied callables may be called without missing a name. -/
theorem Copying.suffices_supplied (texts : Interner) (V : Name → Prop) :
    Suffices texts V (fun _ => False) (Value.Supplied (η := η) V) where
  function _ hd n hn := (hd n hn).imp_right Or.inl
  passesOn _ hb := hb.passesOn
  blames _ hb args err herr := by
    cases err with
    | unboundVariable s => exact hb.call_ne_unbound args s herr
    | _ => trivial

end Supplied

/-- **No name is missed.** In a state with whatever frames, let every identifier and callee of an
expression be visible, and let all callables in visible values, at any depth of arrays, be
supplied with the visible names. Then no evaluation of the expression ends in the error that a
name is unbound. -/
theorem Expr.eval_never_unbound [Host η] (texts : Interner) (e : Expr) (s : State η)
    (hnames : ∀ n ∈ e.names, s.env.isBound n = true)
    (hvalues : ∀ n v, s.env.lookup? n = some v →
      v.Every (Value.Supplied fun k => s.env.isBound k = true)) :
    ∀ (fuel : Nat) (text : String) (s' : State η),
      e.eval texts fuel s ≠ .failed (.unboundVariable text) s' := by
  intro fuel text s' h
  have hbound : ∀ n, s.env.isBound n = true → s.env.lookup? n ≠ none := by
    intro n hn hnone
    rw [Environment.isBound, hnone] at hn
    cases hn
  have hprovides : Copying.Store.Provides (fun k => s.env.isBound k = true)
      (Value.Supplied fun k => s.env.isBound k = true) s.env.lookup? :=
    { bound := hbound
      every := hvalues }
  have hsound := Copying.eval_provided (Copying.suffices_supplied texts _) fuel hprovides
    fun n hn hnone => hbound n (hnames n hn) hnone
  rw [Expr.eval_eq_reading, Evaluation.reading_apply] at h
  generalize Copying.eval texts fuel s.env.lookup? e = r at hsound h
  cases hsound with
  | value hv => cases h
  | error herr =>
      cases h
      exact herr
  | exhausted => cases h

/-- A function `apply` of `g` and `x`, which is `g(x)`. -/
def applyDecl : FunctionDecl := ⟨⟨1⟩, 1, [⟨4⟩, ⟨5⟩], .call ⟨4⟩ [.identifier ⟨5⟩]⟩

/-- A function `again` of `y`, which is `y ? z : again(true)`. -/
def againDecl : FunctionDecl :=
  ⟨⟨3⟩, 3, [⟨6⟩], .conditional (.identifier ⟨6⟩) (.identifier ⟨7⟩) (.call ⟨3⟩ [.bool true])⟩

/-- Both functions, with `again` in an array `fs` as well, and `z` in a frame above them. -/
def Environment.withAgain : Environment Empty :=
  (empty.bindAll [⟨1⟩, ⟨2⟩, ⟨3⟩] [.function applyDecl, .array none [.function againDecl],
    .function againDecl]).snapshot.2.bind ⟨7⟩ (.bool true)

/-- `apply(fs[0], false)` hands a recursive function on, and misses no name. -/
theorem Expr.eval_never_unbound_withAgain :
    let s : State Empty := { env := .withAgain, output := #[], sink := .discard }
    let e : Expr := .call ⟨1⟩ [.subscript (.identifier ⟨2⟩) (.numeral 0), .bool false]
    (∀ n ∈ e.names, s.env.isBound n = true) ∧
      (∀ n v, s.env.lookup? n = some v →
        v.Every (Value.Supplied fun k => s.env.isBound k = true)) ∧
      ∀ (fuel : Nat) (text : String) (s' : State Empty),
        e.eval .empty fuel s ≠ .failed (.unboundVariable text) s' := by
  intro s e
  have hnames : ∀ n ∈ e.names, s.env.isBound n = true := by decide +kernel
  have hsupplied : ∀ d ∈ [applyDecl, againDecl],
      (Value.function d : Value Empty).Supplied fun k => s.env.isBound k = true := by
    show ∀ d ∈ [applyDecl, againDecl], ∀ n ∈ d.body.names,
      s.env.isBound n = true ∨ n ∈ d.params
    decide +kernel
  have hvalues : ∀ n v, s.env.lookup? n = some v →
      v.Every (Value.Supplied fun k => s.env.isBound k = true) := by
    show ∀ n v, Environment.withAgain.lookup? n = some v → _
    rw [Environment.withAgain, Environment.lookup?_bind_eq_insert, Environment.lookup?_snapshot,
      Environment.lookup?_bindAll]
    refine Copying.Store.every_insert ?_ _ (Value.every_bool true)
    refine Copying.Store.every_insertAll _ ?_ ?_
    · simp [Value.every_array, hsupplied]
    · intro k w hw
      rw [Environment.lookup?_empty] at hw
      cases hw
  exact ⟨hnames, hvalues, Expr.eval_never_unbound .empty e s hnames hvalues⟩

end DynScope
