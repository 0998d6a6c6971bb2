import DynScope.Proofs.Provenance

/-!
# DynScope.Proofs.Termination

**Programs without loops and recursion end.** A callee is whatever its name is bound to when the
call is made, so that a program without loops may still run for ever. It does not if the names
have ranks that fall along the calls in bodies, and if the names called there are bound by
function declarations and by the prelude only. Calls at top level are free to go through
variables.

How it works: all bindings that a run makes are tame (`Store.Tame`). A name that is called in a
body is bound to a host function or to the function that is declared under it. So the ranks of
the callees fall from call to call, and as much fuel as there are ranks is enough for all calls
(`Copying.call_settled`). The statements of a program without loops take no fuel of their own
(`Copying.exec_finishes`).
-/

namespace DynScope

variable {η : Type}

/-! ### Programs without recursion -/

namespace Program

variable (p : Program)

/-- No loop stands in the program. -/
def LoopFree : Prop := ∀ condition body, ¬ p.Executes (.loop condition body)

/-- The body of a declared function calls something by the name. -/
def CallsInside (c : Name) : Prop :=
  ∃ d args, p.Executes (.function d) ∧ .call c args ∈ d.body.parts

/-- Every name that a body calls ranks below the name of the function. -/
def RankedBy (rank : Name → Nat) : Prop :=
  ∀ d, p.Executes (.function d) → ∀ c args, .call c args ∈ d.body.parts → rank c < rank d.name

/-- The name is no parameter of a declared function, and nothing declares it as a variable or
assigns to it. -/
def Fixed (c : Name) : Prop :=
  (∀ d, p.Executes (.function d) → c ∉ d.params) ∧ (∀ e, ¬ p.Executes (.declare c e)) ∧
    ∀ e, ¬ p.Executes (.assign c e)

/-- There are only so many declared functions. -/
theorem exists_rank_bound (rank : Name → Nat) :
    ∃ bound, ∀ d, p.Executes (.function d) → rank d.name < bound := by
  have hbound : ∀ sts : List Stmt, ∃ bound, ∀ d, .function d ∈ sts → rank d.name < bound := by
    intro sts
    induction sts with
    | nil => exact ⟨0, by simp⟩
    | cons st sts ih =>
        obtain ⟨bound, hbound⟩ := ih
        cases st with
        | function f =>
            refine ⟨max bound (rank f.name + 1), fun d hd => ?_⟩
            rcases List.mem_cons.mp hd with heq | hd
            · obtain rfl := Stmt.function.inj heq
              omega
            · have hlt := hbound d hd
              omega
        | _ =>
            refine ⟨bound, fun d hd => ?_⟩
            rcases List.mem_cons.mp hd with heq | hd
            · cases heq
            · exact hbound d hd
  exact hbound (Stmt.partsAll p.body)

end Program

namespace Copying

variable {p : Program} {texts : Interner}

/-! ### Tame bindings -/

/-- All callables are native, and a name that some body calls is bound to no function but the one
that is declared under it. -/
structure Store.Tame (p : Program) (m : Store η) : Prop where
  /-- Callables are native. -/
  native : m.Native p
  /-- Functions are called by their names. -/
  named : ∀ c, p.CallsInside c → ∀ d, m c = some (.function d) → d.name = c

theorem Store.insert_of_ne {m : Store η} {n k : Name} (h : n ≠ k) (v : Value η) :
    m.insert n v k = m k := by
  rw [Store.insert, if_neg h]

theorem Store.insertAll_of_not_mem {ns : List Name} {k : Name} (h : k ∉ ns) (m : Store η)
    (vs : List (Value η)) : m.insertAll ns vs k = m k := by
  induction ns generalizing m vs with
  | nil => simp only [Store.insertAll]
  | cons n ns ih =>
      cases vs with
      | nil => rfl
      | cons v vs =>
          have hne : n ≠ k := fun heq => h (heq ▸ List.mem_cons_self)
          have hk : k ∉ ns := fun hk => h (List.mem_cons_of_mem n hk)
          rw [Store.insertAll, ih hk, Store.insert_of_ne hne]

namespace Store.Tame

variable {m : Store η}

/-- Binding a name that no body calls keeps bindings tame. -/
theorem insert (h : m.Tame p) {n : Name} (hn : ¬ p.CallsInside n) {v : Value η}
    (hv : v.Every (Value.Native p)) : (m.insert n v).Tame p where
  native := Store.every_insert h.native n hv
  named c hc d hd := by
    have hne : n ≠ c := fun heq => hn (heq ▸ hc)
    rw [Store.insert_of_ne hne] at hd
    exact h.named c hc d hd

/-- Binding a function under its name keeps bindings tame. -/
theorem insert_function (h : m.Tame p) {d : FunctionDecl} (hd : p.Executes (.function d)) :
    (m.insert d.name (.function d)).Tame p where
  native := Store.every_insert h.native d.name ((Value.every_function d).mpr hd)
  named c hc d' hd' := by
    by_cases heq : d.name = c
    · rw [Store.insert, if_pos heq] at hd'
      cases hd'
      exact heq
    · rw [Store.insert_of_ne heq] at hd'
      exact h.named c hc d' hd'

/-- The bindings of a call are tame, if parameters are not called. -/
theorem insertAll (h : m.Tame p) (hfixed : ∀ c, p.CallsInside c → p.Fixed c) {d : FunctionDecl}
    (hd : p.Executes (.function d)) {vs : List (Value η)}
    (hvs : ∀ v ∈ vs, v.Every (Value.Native p)) : (m.insertAll d.params vs).Tame p where
  native := Store.every_insertAll d.params hvs h.native
  named c hc d' hd' := by
    have hparam : c ∉ d.params := (hfixed c hc).1 d hd
    rw [Store.insertAll_of_not_mem hparam] at hd'
    exact h.named c hc d' hd'

end Store.Tame

/-! ### Expressions -/

/-- The result is not for want of fuel, and in a value all callables are native. -/
abbrev Result.Settled (p : Program) : Result (Value η) → Prop :=
  Result.Provided False (fun _ => True) (Value.Every (Value.Native p))

section Expressions

variable [Host η] {rank : Name → Nat} {fuel : Nat} {m : Store η}

theorem suffices_native (p : Program) (texts : Interner) :
    Suffices texts (fun _ => False) (fun _ => True) (Value.Native (η := η) p) := by
  refine .of_passesOn texts fun b hb => ?_
  obtain ⟨name, serial, fn⟩ := b
  obtain ⟨f, rfl⟩ : ∃ f, fn = .math f := hb
  exact Builtin.passesOn_math name serial f

/-- More fuel than the rank of its name is enough for calling a function. -/
theorem call_settled (hranks : p.RankedBy rank) (hfixed : ∀ c, p.CallsInside c → p.Fixed c)
    {d : FunctionDecl} {vs : List (Value η)} (hm : m.Tame p) (hd : p.Executes (.function d))
    (hvs : ∀ v ∈ vs, v.Every (Value.Native p)) (hfuel : rank d.name < fuel) :
    (call texts fuel m d vs).Settled p := by
  induction fuel generalizing m d vs with
  | zero => omega
  | succ fuel ih =>
      have hm' := hm.insertAll hfixed hd hvs
      refine evalWith_provided (suffices_native p texts) hm'.native d.body fun part hpart =>
        ⟨fun _ _ _ => trivial, ?_⟩
      rintro c args rfl d' hd' vs' - hvs'
      -- The callee is the function of its name, which ranks below the caller.
      have hname : d'.name = c := hm'.named c ⟨d, args, hd, hpart⟩ d' hd'
      have hlt : rank d'.name < rank d.name := hname ▸ hranks d hd c args hpart
      exact ih hm' ((Value.every_function d').mp (hm'.native c _ hd')) hvs' (by omega)

/-- With more fuel than any rank, no expression is cut short. -/
theorem eval_settled (hranks : p.RankedBy rank) (hfixed : ∀ c, p.CallsInside c → p.Fixed c)
    (hbound : ∀ d, p.Executes (.function d) → rank d.name < fuel) (hm : m.Tame p) (e : Expr) :
    (eval texts fuel m e).Settled p := by
  refine evalWith_provided (suffices_native p texts) hm.native e fun part _ =>
    ⟨fun _ _ _ => trivial, ?_⟩
  intro c args _ d hd vs _ hvs
  have hexecutes : p.Executes (.function d) := (Value.every_function d).mp (hm.native c _ hd)
  exact call_settled hranks hfixed hm hexecutes hvs (hbound d hexecutes)

end Expressions

/-! ### Statements -/

/-- The computation is not cut short, and if it is done, it leaves tame bindings. -/
inductive Finishes (p : Program) : Outcome (State η) Unit → Prop
  | done {s} : s.vars.Tame p → Finishes p (.done () s)
  | failed (err s) : Finishes p (.failed err s)

theorem Finishes.andThen {o : Outcome (State η) Unit}
    {next : Unit → State η → Outcome (State η) Unit} (h : Finishes p o)
    (hnext : ∀ s, s.vars.Tame p → Finishes p (next () s)) : Finishes p (o.andThen next) := by
  cases h with
  | done hs => exact hnext _ hs
  | failed err s => exact .failed err s

theorem Finishes.proceed {r : Result (Value η)} {s : State η}
    {next : Value η → Outcome (State η) Unit} (hr : r.Settled p)
    (hnext : ∀ v, v.Every (Value.Native p) → Finishes p (next v)) :
    Finishes p (s.proceed r next) := by
  cases hr with
  | value hv => exact hnext _ hv
  | error _ => exact .failed _ s
  | exhausted h => exact h.elim

section Statements

variable [Host η] {rank : Name → Nat} {fuel : Nat}

mutual
/-- A statement without loops finishes, with more fuel than any rank. -/
theorem exec_finishes (hranks : p.RankedBy rank) (hfixed : ∀ c, p.CallsInside c → p.Fixed c)
    (hloops : p.LoopFree) (hbound : ∀ d, p.Executes (.function d) → rank d.name < fuel) :
    ∀ st : Stmt, (∀ part ∈ st.parts, p.Executes part) → ∀ s : State η, s.vars.Tame p →
      Finishes p (exec texts fuel st s)
  | .block body, hst, s, hs => by
      simp only [exec]
      exact execAll_finishes hranks hfixed hloops hbound body
        (fun part h => hst part (Stmt.mem_parts_block h)) s hs
  | .declare n e, hst, s, hs => by
      have hexecutes : p.Executes (.declare n e) := hst _ (Stmt.mem_parts_self _)
      have hn : ¬ p.CallsInside n := fun hc => (hfixed n hc).2.1 e hexecutes
      simp only [exec]
      split
      · exact .failed _ s
      · refine .proceed (eval_settled hranks hfixed hbound hs e) fun v hv => ?_
        exact .done (hs.insert hn hv)
  | .assign n e, hst, s, hs => by
      have hexecutes : p.Executes (.assign n e) := hst _ (Stmt.mem_parts_self _)
      have hn : ¬ p.CallsInside n := fun hc => (hfixed n hc).2.2 e hexecutes
      simp only [exec]
      split
      · refine .proceed (eval_settled hranks hfixed hbound hs e) fun v hv => ?_
        exact .done (hs.insert hn hv)
      · exact .failed _ s
  | .print e, hst, s, hs => by
      simp only [exec]
      refine .proceed (eval_settled hranks hfixed hbound hs e) fun v _ => ?_
      exact .done hs
  | .loop condition body, hst, _, _ =>
      absurd (hst _ (Stmt.mem_parts_self _)) (hloops condition body)
  | .function d, hst, s, hs => by
      have hexecutes : p.Executes (.function d) := hst _ (Stmt.mem_parts_self _)
      simp only [exec]
      split
      · exact .failed _ s
      · exact .done (hs.insert_function hexecutes)
theorem execAll_finishes (hranks : p.RankedBy rank) (hfixed : ∀ c, p.CallsInside c → p.Fixed c)
    (hloops : p.LoopFree) (hbound : ∀ d, p.Executes (.function d) → rank d.name < fuel) :
    ∀ b : Block, (∀ part ∈ Stmt.partsAll b, p.Executes part) → ∀ s : State η, s.vars.Tame p →
      Finishes p (execAll texts fuel b s)
  | [], _, s, hs => by
      simp only [execAll]
      exact .done hs
  | st :: rest, hb, s, hs => by
      simp only [execAll]
      refine Finishes.andThen (exec_finishes hranks hfixed hloops hbound st
        (fun part h => hb part (Stmt.mem_partsAll_head h)) s hs) fun s' hs' => ?_
      exact execAll_finishes hranks hfixed hloops hbound rest
        (fun part h => hb part (Stmt.mem_partsAll_tail h)) s' hs'
end

end Statements

end Copying

/-! ### Runs -/

/-- The standard prelude binds no functions of programs, so that it is tame for all of them. -/
theorem Prelude.tame_standard (p : Program) (t : Interner) :
    Copying.Store.Tame p ((standard : Prelude η).environment t).2.lookup? where
  native := native_standard p t
  named c _ d hd := by
    -- It is native to the empty program, which declares no function.
    have hnone : (⟨[]⟩ : Program).Executes (.function d) :=
      (Value.every_function d).mp (native_standard ⟨[]⟩ t c _ hd)
    cases hnone

/-- **Programs without loops and recursion end.** Let a program have no loops. Let there be
ranks, such that the names that the body of a declared function calls rank below its own name,
and let no name that is called in such a body be a parameter, a declared variable or the target
of an assignment. Then every run of the program with the standard prelude ends, in success or in
an error. -/
theorem Interpreter.interpret_ends [Host η] (i : Interpreter η) (p : Program)
    (rank : Name → Nat) (hprelude : i.prelude = .standard) (hloops : p.LoopFree)
    (hranks : p.RankedBy rank) (hfixed : ∀ c, p.CallsInside c → p.Fixed c) :
    ∃ error i', EndsAs (i.interpret · p) (.ended error i') := by
  obtain ⟨fuel, hbound⟩ := p.exists_rank_bound rank
  have hstart := Prelude.tame_standard (η := η) p i.interner
  rw [← hprelude] at hstart
  have hfinishes : Copying.Finishes p ((i.interpret fuel p).mapState Interpreter.flat) := by
    rw [Interpreter.interpret_flat, Copying.interpret, Prelude.environment_flat]
    exact Copying.execAll_finishes hranks hfixed hloops hbound p.body (fun _ h => h) _ hstart
  have hne : i.interpret fuel p ≠ .outOfFuel := by
    intro h
    rw [h] at hfinishes
    cases hfinishes
  have hends := (Interpreter.interpret_fuelMonotone i p).endsAs hne
  cases hrun : i.interpret fuel p with
  | done u i' =>
      rw [hrun] at hends
      exact ⟨none, i', hends⟩
  | failed err i' =>
      rw [hrun] at hends
      exact ⟨some err, i', hends⟩
  | outOfFuel => exact absurd hrun hne

/-- A function `g` of `y`, which is `y ? y : sin(y)`. -/
def innerDecl : FunctionDecl :=
  ⟨⟨2⟩, 2, [⟨5⟩], .conditional (.identifier ⟨5⟩) (.identifier ⟨5⟩) (.call ⟨1⟩ [.identifier ⟨5⟩])⟩

/-- A function `f` of `x`, which is `g(x)`. -/
def outerDecl : FunctionDecl := ⟨⟨3⟩, 3, [⟨4⟩], .call ⟨2⟩ [.identifier ⟨4⟩]⟩

/-- Declares both functions, makes `h` another name of `f` and prints `h(true)`. -/
def callThroughVariable : Program :=
  ⟨[.function innerDecl, .function outerDecl, .declare ⟨6⟩ (.identifier ⟨3⟩),
    .print (.call ⟨6⟩ [.bool true])]⟩

/-- The names `sin`, `g` and `f` rank in this order, and `h` is not called in a body. -/
theorem Interpreter.interpret_ends_callThroughVariable :
    let i : Interpreter Empty := .new (.reached ["sin", "g", "f", "x", "y", "h"]) .standard
    ∃ error i', EndsAs (i.interpret · callThroughVariable) (.ended error i') := by
  intro i
  have hdecls : ∀ d, callThroughVariable.Executes (.function d) →
      d = innerDecl ∨ d = outerDecl := by
    intro d hd
    simpa [Program.Executes, callThroughVariable, Stmt.partsAll, Stmt.parts] using hd
  have hcalls : ∀ d, callThroughVariable.Executes (.function d) →
      ∀ c args, .call c args ∈ d.body.parts →
        (d = innerDecl ∧ c = ⟨1⟩) ∨ (d = outerDecl ∧ c = ⟨2⟩) := by
    intro d hd c args hc
    rcases hdecls d hd with rfl | rfl
    · simp [innerDecl, Expr.parts, Expr.partsAll] at hc
      exact Or.inl ⟨rfl, hc.1⟩
    · simp [outerDecl, Expr.parts, Expr.partsAll] at hc
      exact Or.inr ⟨rfl, hc.1⟩
  have hloops : callThroughVariable.LoopFree := by
    intro condition body h
    simp [Program.Executes, callThroughVariable, Stmt.partsAll, Stmt.parts] at h
  have hranks : callThroughVariable.RankedBy Name.index := by
    intro d hd c args hc
    rcases hcalls d hd c args hc with ⟨rfl, rfl⟩ | ⟨rfl, rfl⟩
    · decide
    · decide
  have hfixed : ∀ c, callThroughVariable.CallsInside c → callThroughVariable.Fixed c := by
    rintro c ⟨d, args, hd, hc⟩
    have hmem : c ∈ [⟨1⟩, ⟨2⟩] := by
      rcases hcalls d hd c args hc with ⟨-, rfl⟩ | ⟨-, rfl⟩
      · decide
      · decide
    have hparams : ∀ k ∈ [⟨1⟩, ⟨2⟩], k ∉ innerDecl.params ∧ k ∉ outerDecl.params := by decide
    refine ⟨fun d' hd' => ?_, fun e he => ?_, fun e he => ?_⟩
    · rcases hdecls d' hd' with rfl | rfl
      · exact (hparams c hmem).1
      · exact (hparams c hmem).2
    · simp [Program.Executes, callThroughVariable, Stmt.partsAll, Stmt.parts] at he
      simp [he] at hmem
    · simp [Program.Executes, callThroughVariable, Stmt.partsAll, Stmt.parts] at he
  exact i.interpret_ends callThroughVariable Name.index rfl hloops hranks hfixed

end DynScope
