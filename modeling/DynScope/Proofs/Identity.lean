import DynScope.Proofs.CallChain
import DynScope.Proofs.Provenance
import Mathlib.Data.List.Nodup

/-!
# DynScope.Proofs.Identity

**Functions are who their names say.** A function is equal to itself alone, and a name is declared
once. So two functions that turn up in a run are one object exactly if they were declared under
one name, whatever variables, parameters and arrays they went through, and a built-in that turns
up is one that the prelude brought (`Program.run_identifies`).

How it works: the record of a run shows which function declarations have succeeded so far. Along
the run their names are distinct and bound, and all callables at hand are genuine
(`Inventory`): a function is one of those declared, and a built-in is one of the prelude. A
statement adds to that what it evaluates, and evaluation forges nothing; inside the evaluation
the arguments of calls come from values, too (`Point.Explained.every`). Every run has its record,
whether it ends or not, so that nothing here depends on how it ends.
-/

namespace DynScope

variable {η : Type}

/-! ### Values at the points of an evaluation -/

/-- `P` holds of all callables that are at hand at the point. -/
structure Point.Every (P : Value η → Prop) (u : Point η) : Prop where
  /-- Those in visible bindings. -/
  visible : ∀ n v, u.env.lookup? n = some v → v.Every P
  /-- Those in the arguments of active calls. -/
  arguments : ∀ c ∈ u.calls, ∀ v ∈ c.args, v.Every P

theorem Call.lookup?_enter (c : Call η) (env : Environment η) :
    (c.enter env).lookup? = Copying.Store.insertAll env.lookup? c.decl.params c.args := by
  rw [enter, Environment.lookup?_bindAll, Environment.lookup?_snapshot]

section Points

variable [Host η] {texts : Interner} {P : Value η → Prop}

theorem Expr.AllComeTo.every {env : Environment η} {es : List Expr} {vs : List (Value η)}
    (hP : ∀ b, P (.builtin b) → b.PassesOn)
    (henv : ∀ n v, env.lookup? n = some v → v.Every P) (h : Expr.AllComeTo texts env es vs) :
    ∀ v ∈ vs, v.Every P := by
  induction h with
  | nil => simp
  | cons hv _ ih => exact List.forall_mem_cons.mpr ⟨hv.every hP henv, ih⟩

variable {start : Environment η}

/-- What the bindings and arguments at a place hold was there at the start or was computed at
the place of the caller. -/
theorem Point.Placed.every {seen : List (Point η)} {calls : List (Call η)} {env : Environment η}
    (hP : ∀ b, P (.builtin b) → b.PassesOn)
    (hstart : ∀ n v, start.lookup? n = some v → v.Every P) (hseen : ∀ u ∈ seen, u.Every P)
    (h : Point.Placed texts start seen calls env) (e : Expr) :
    Point.Every P ⟨calls, env, e⟩ := by
  cases h with
  | outside => exact ⟨hstart, by simp⟩
  | @inside calls env callee args c hcall _ hinvokes =>
      have hcaller := hseen _ hcall
      have hargs : ∀ v ∈ c.args, v.Every P := by
        cases hinvokes with
        | call _ _ hvs => exact hvs.every hP hcaller.visible
      refine ⟨?_, List.forall_mem_cons.mpr ⟨hargs, hcaller.arguments⟩⟩
      show ∀ n v, (c.enter env).lookup? n = some v → v.Every P
      rw [Call.lookup?_enter]
      exact Copying.Store.every_insertAll _ hargs hcaller.visible

/-- What holds of all callables at the start of an evaluation holds of those at all its points. -/
theorem Point.Explained.every {seen us : List (Point η)} (hP : ∀ b, P (.builtin b) → b.PassesOn)
    (hstart : ∀ n v, start.lookup? n = some v → v.Every P)
    (h : Point.Explained texts start seen us) (hseen : ∀ u ∈ seen, u.Every P) :
    ∀ u ∈ us, u.Every P := by
  induction h with
  | nil => simp
  | @cons seen u rest hplaced _ ih =>
      have hu : u.Every P := hplaced.every hP hstart hseen u.expr
      refine List.forall_mem_cons.mpr ⟨hu, ih ?_⟩
      exact List.forall_mem_append.mpr ⟨hseen, List.forall_mem_singleton.mpr hu⟩

/-- What holds of all callables before a statement, and of the function that it declares, if it
declares one, holds of those that it leaves and prints. -/
theorem Stmt.Completes.every {env env' : Environment η} {st : Stmt} {effect : Effect η}
    (hP : ∀ b, P (.builtin b) → b.PassesOn)
    (henv : ∀ n v, env.lookup? n = some v → v.Every P)
    (hfunction : ∀ d, st = .function d → P (.function d))
    (h : Stmt.Completes texts env st effect) (hcarry : effect.carryOut env = .ok env') :
    (∀ n v, env'.lookup? n = some v → v.Every P) ∧
      ∀ v, effect.printed? = some v → v.Every P := by
  have hbind : ∀ n v, v.Every P → ∀ k w, (env.bind n v).lookup? k = some w → w.Every P := by
    intro n v hv
    rw [Environment.lookup?_bind_eq_insert]
    exact Copying.Store.every_insert henv n hv
  obtain ⟨n, v, rfl, -, rfl⟩ | ⟨n, v, rfl, -, rfl⟩ | ⟨v, rfl, rfl⟩ := Effect.carryOut_cases hcarry
  · refine ⟨?_, by simp [Effect.printed?]⟩
    cases h with
    | declare _ hv => exact hbind n v (hv.every hP henv)
    | function d => exact hbind d.name _ ((Value.every_function d).mpr (hfunction d rfl))
  · refine ⟨?_, by simp [Effect.printed?]⟩
    cases h with
    | assign _ hv => exact hbind n v (hv.every hP henv)
  · refine ⟨henv, fun w hw => ?_⟩
    obtain rfl : v = w := Option.some.inj hw
    cases h with
    | print hv => exact hv.every hP henv

end Points

/-! ### Functions declared in a run -/

/-- The function that was declared in the episode, if one was: a function declaration succeeds if
the name is free. -/
def Episode.declared? (ep : Episode η) : Option FunctionDecl :=
  match ep.stmt with
  | .function d => if ep.start.isBound d.name then none else some d
  | _ => none

/-- The functions that were declared, in order. -/
def Episode.declared (eps : List (Episode η)) : List FunctionDecl := eps.filterMap (·.declared?)

theorem Episode.declared?_eq_some_iff {ep : Episode η} {d : FunctionDecl} :
    ep.declared? = some d ↔ ep.stmt = .function d ∧ ep.start.isBound d.name = false := by
  obtain ⟨st, start, points⟩ := ep
  cases st with
  | function d' =>
      by_cases hb : start.isBound d'.name
      · simp only [declared?, hb, if_true]
        constructor
        · intro h
          cases h
        · rintro ⟨h, hfree⟩
          obtain rfl := Stmt.function.inj h
          rw [hb] at hfree
          cases hfree
      · simp only [declared?, hb, Bool.false_eq_true, if_false]
        constructor
        · intro h
          obtain rfl := Option.some.inj h
          exact ⟨rfl, Bool.eq_false_of_not_eq_true hb⟩
        · rintro ⟨h, -⟩
          exact congrArg some (Stmt.function.inj h)
  | _ => simp [declared?]

theorem Episode.mem_declared {eps : List (Episode η)} {d : FunctionDecl} :
    d ∈ declared eps ↔
      ∃ ep ∈ eps, ep.stmt = .function d ∧ ep.start.isBound d.name = false := by
  simp only [declared, List.mem_filterMap, declared?_eq_some_iff]

theorem Episode.declared_concat (eps : List (Episode η)) (ep : Episode η) :
    declared (eps ++ [ep]) = declared eps ++ ep.declared?.toList := by
  rw [declared, List.filterMap_append]
  cases h : ep.declared? <;> simp [declared, h]

/-- A function is one of the list, and a built-in is one of the standard prelude. -/
def Value.Genuine (ds : List FunctionDecl) : Value η → Prop
  | .function d => d ∈ ds
  | .builtin b => ∃ entry ∈ (Prelude.standard : Prelude η).entries, entry.2 = .builtin b
  | .number _ | .bool _ | .array .. => True

theorem Value.Every.genuine_mono {ds ds' : List FunctionDecl} (hds : ds ⊆ ds') {v : Value η}
    (h : v.Every (Value.Genuine ds)) : v.Every (Value.Genuine ds') := by
  intro c hc
  have hgenuine := h c hc
  cases c with
  | function d => exact hds hgenuine
  | builtin b => exact hgenuine
  | _ => trivial

/-- A number or a numeric function. -/
def Value.Numeric (v : Value η) : Prop :=
  (∃ name f, v = .builtin ⟨name, 0, .math f⟩) ∨ ∃ x, v = .number x

namespace Prelude

theorem numeric_standard : ∀ entry ∈ (standard : Prelude η).entries, entry.2.Numeric := by
  have hhost : ∀ (q : Prelude η) (name : String) (f : MathFn),
      (∀ entry ∈ q.entries, entry.2.Numeric) →
        ∀ entry ∈ (q.insertHost name (.math f)).entries, entry.2.Numeric :=
    fun q name f h => forall_mem_insert h name (Or.inl ⟨name, f, rfl⟩)
  refine forall_mem_insert ?_ "π" (Or.inr ⟨pi, rfl⟩)
  iterate 6 refine hhost _ _ _ ?_
  intro entry h
  cases h

/-- What the standard prelude binds is genuine before any function is declared. -/
theorem genuine_standard (t : Interner) (n : Name) (v : Value η)
    (hv : ((standard : Prelude η).environment t).2.lookup? n = some v) :
    v.Every (Value.Genuine []) := by
  refine every_bindEntries (fun entry hentry => ?_) t rfl (fun k w hw => ?_) n v hv
  · rcases numeric_standard entry hentry with ⟨name, f, hb⟩ | ⟨x, hx⟩
    · rw [hb, Value.every_builtin]
      exact ⟨entry, hentry, hb⟩
    · rw [hx]
      exact Value.every_number x
  · rw [Environment.lookup?_empty] at hw
    cases hw

end Prelude

/-- Built-ins of the standard prelude make no callables. -/
theorem Value.Genuine.passesOn [Host η] {ds : List FunctionDecl} {b : Builtin η}
    (h : (Value.builtin b).Genuine ds) : b.PassesOn := by
  obtain ⟨entry, hentry, hb⟩ := h
  rcases Prelude.numeric_standard entry hentry with ⟨name, f, heq⟩ | ⟨x, hx⟩
  · obtain rfl := Value.builtin.inj (hb.symm.trans heq)
    exact Builtin.passesOn_math name 0 f
  · rw [hb] at hx
    cases hx

/-! ### Records and state of a run -/

/-- The functions declared in the episodes have distinct names, which are bound, and all callables
at hand are genuine: those that any of the statements has started with, those in the bindings and
those in the output. -/
structure Inventory (eps : List (Episode η)) (s : State η) : Prop where
  /-- No two functions were declared under one name. -/
  nodup : ((Episode.declared eps).map (·.name)).Nodup
  /-- The names are bound. -/
  bound : ∀ d ∈ Episode.declared eps, s.env.isBound d.name = true
  /-- Callables in starting environments are genuine. -/
  starts : ∀ ep ∈ eps, ∀ n v, ep.start.lookup? n = some v →
    v.Every (Value.Genuine (Episode.declared eps))
  /-- Callables in bindings are genuine. -/
  visible : ∀ n v, s.env.lookup? n = some v → v.Every (Value.Genuine (Episode.declared eps))
  /-- Callables in printed values are genuine. -/
  printed : ∀ v ∈ s.output, v.Every (Value.Genuine (Episode.declared eps))

namespace Inventory

variable {eps : List (Episode η)} {s : State η} {ep : Episode η}

/-- An episode that starts in the state and declares no function changes nothing. -/
theorem keep (h : Inventory eps s) (hstart : ep.start = s.env) (hep : ep.declared? = none) :
    Inventory (eps ++ [ep]) s := by
  have hdeclared : Episode.declared (eps ++ [ep]) = Episode.declared eps := by
    rw [Episode.declared_concat, hep, Option.toList_none, List.append_nil]
  refine ⟨?_, ?_, ?_, ?_, ?_⟩
  all_goals rw [hdeclared]
  · exact h.nodup
  · exact h.bound
  · refine List.forall_mem_append.mpr ⟨h.starts, List.forall_mem_singleton.mpr ?_⟩
    exact hstart ▸ h.visible
  · exact h.visible
  · exact h.printed

/-- A function is declared under a free name, and the names of the others are bound. -/
theorem nodup_concat (h : Inventory eps s) (hstart : ep.start = s.env) :
    ((Episode.declared (eps ++ [ep])).map (·.name)).Nodup := by
  rw [Episode.declared_concat, List.map_append]
  cases hep : ep.declared? with
  | none => simpa using h.nodup
  | some d =>
      obtain ⟨-, hfree⟩ := Episode.declared?_eq_some_iff.mp hep
      refine List.nodup_append.mpr ⟨h.nodup, by simp, ?_⟩
      intro n hn n' hn' heq
      obtain ⟨d', hd', rfl⟩ := List.mem_map.mp hn
      obtain rfl : n' = d.name := by simpa using hn'
      have hbound := h.bound d' hd'
      rw [heq, ← hstart, hfree] at hbound
      cases hbound

/-- A statement that completes declares a function only if it is a function declaration, and all
that it binds and prints is genuine. -/
theorem advance [Host η] {texts : Interner} (h : Inventory eps s) (hstart : ep.start = s.env)
    {effect : Effect η} {env' : Environment η}
    (hdone : Stmt.Completes texts ep.start ep.stmt effect)
    (hcarry : effect.carryOut ep.start = .ok env') :
    Inventory (eps ++ [ep]) (s.advance [⟨ep.stmt, effect⟩] env') := by
  have hsubset : Episode.declared eps ⊆ Episode.declared (eps ++ [ep]) := by
    rw [Episode.declared_concat]
    exact List.subset_append_left _ _
  have heffect : ∀ d, ep.stmt = .function d → effect = .declare d.name (.function d) := by
    intro d hd
    rw [hd] at hdone
    cases hdone with
    | function => rfl
  have hfunction : ∀ d, ep.stmt = .function d → d ∈ Episode.declared (eps ++ [ep]) := by
    intro d hd
    have hfree := Effect.isBound_of_declare hcarry (congrArg Effect.declared? (heffect d hd))
    exact Episode.mem_declared.mpr ⟨ep, List.mem_append_right _ List.mem_cons_self, hd, hfree⟩
  have hbefore : ∀ n v, ep.start.lookup? n = some v →
      v.Every (Value.Genuine (Episode.declared (eps ++ [ep]))) := by
    intro n v hv
    rw [hstart] at hv
    exact (h.visible n v hv).genuine_mono hsubset
  obtain ⟨hvisible, hprinted⟩ := hdone.every (fun _ hb => hb.passesOn) hbefore hfunction hcarry
  refine ⟨h.nodup_concat hstart, ?_, ?_, hvisible, ?_⟩
  · intro d hd
    rw [Episode.declared_concat, List.mem_append] at hd
    refine (Effect.isBound_carryOut hcarry d.name).mpr ?_
    rcases hd with hd | hd
    · exact Or.inl (hstart ▸ h.bound d hd)
    · obtain ⟨hst, -⟩ := Episode.declared?_eq_some_iff.mp (by simpa using hd)
      exact Or.inr (congrArg Effect.declared? (heffect d hst))
  · refine List.forall_mem_append.mpr ⟨?_, List.forall_mem_singleton.mpr hbefore⟩
    intro ep' hep' n v hv
    exact (h.starts ep' hep' n v hv).genuine_mono hsubset
  · intro v hv
    have hcases : v ∈ s.output ∨ effect.printed? = some v := by
      simpa [State.advance, Event.printed] using hv
    rcases hcases with hv | hv
    · exact (h.printed v hv).genuine_mono hsubset
    · exact hprinted v hv

end Inventory

/-! ### Along a run -/

/-- From records and a state that are as `I` says, the step goes on to such records and such a
state: the one that it ends in, unless it is cut short. -/
def Traced.Upholds {ρ α : Type} (I : List ρ → State η → Prop) (m : Traced ρ η α) : Prop :=
  ∀ seen s, I seen s →
    ∃ s', I (seen ++ (m s).1) s' ∧ ∀ t, (m s).2.state? = some t → t = s'

namespace Traced.Upholds

variable {ρ α β : Type} {I : List ρ → State η → Prop}

theorem pure (a : α) : Upholds I (Pure.pure a : Traced ρ η α) := by
  intro seen s h
  refine ⟨s, ?_, fun t ht => (Option.some.inj ht).symm⟩
  show I (seen ++ []) s
  rwa [List.append_nil]

theorem bind {m : Traced ρ η α} {f : α → Traced ρ η β} (hm : Upholds I m)
    (hf : ∀ a, Upholds I (f a)) : Upholds I (m >>= f) := by
  intro seen s h
  obtain ⟨s₁, h₁, hstate⟩ := hm seen s h
  change ∃ s', I (seen ++ (Traced.bind m f s).1) s' ∧
    ∀ t, (Traced.bind m f s).2.state? = some t → t = s'
  unfold Traced.bind
  generalize m s = end₁ at h₁ hstate ⊢
  rcases end₁ with ⟨rs, a | _ | _⟩
  · obtain rfl := hstate _ rfl
    obtain ⟨s₂, h₂, hstate₂⟩ := hf a _ _ h₁
    refine ⟨s₂, ?_, hstate₂⟩
    rwa [List.append_assoc] at h₂
  · exact ⟨s₁, h₁, hstate⟩
  · exact ⟨s₁, h₁, hstate⟩

theorem repeatWhile {condition : Traced ρ η Bool} {body : Traced ρ η Unit}
    (hcondition : Upholds I condition) (hbody : Upholds I body) (turns : Nat) :
    Upholds I (repeatWhile condition body turns) := by
  induction turns with
  | zero =>
      intro seen s h
      refine ⟨s, ?_, fun t ht => ?_⟩
      · show I (seen ++ []) s
        rwa [List.append_nil]
      · cases ht
  | succ turns ih =>
      refine hcondition.bind fun v => ?_
      cases v with
      | true => exact hbody.bind fun _ => ih
      | false => exact .pure ()

end Traced.Upholds

section Statements

open Traced

variable [Host η] {texts : Interner} {fuel : Nat}

/-- A statement other than a block or a loop is cut short, breaks or completes. -/
theorem Stmt.exec_cases {st : Stmt} (hblock : ∀ b, st ≠ .block b) (hloop : ∀ c b, st ≠ .loop c b)
    (s : State η) :
    st.exec texts fuel s = .outOfFuel ∨
      (∃ err, st.exec texts fuel s = .failed err s) ∨
      ∃ effect env', Stmt.Completes texts s.env st effect ∧ effect.carryOut s.env = .ok env' ∧
        st.exec texts fuel s = .done () (s.advance [⟨st, effect⟩] env') := by
  rcases Stmt.exec_explained texts fuel st s with h | ⟨es, error, env', hruns, h⟩
  · exact Or.inl h
  · cases hruns with
    | completes hdone hcarry => exact Or.inr (Or.inr ⟨_, env', hdone, hcarry, h⟩)
    | breaks _ =>
        rw [State.advance_nil] at h
        exact Or.inr (Or.inl ⟨_, h⟩)
    | block _ => exact absurd rfl (hblock _)
    | stop _ _ | bodyBreaks _ _ _ | turn _ _ _ _ => exact absurd rfl (hloop _ _)

/-- A function declaration succeeds under a free name. -/
theorem Stmt.exec_function_of_free {d : FunctionDecl} {s : State η}
    (h : s.env.isBound d.name = false) : (Stmt.function d).exec texts fuel s =
      .done () { s with env := s.env.bind d.name (.function d) } := by
  simp only [Stmt.exec]
  rw [Evaluation.rebind_declare_apply, h]
  rfl

theorem Stmt.upholds_of_within {st : Stmt} {m : Traced (Point η) η Unit}
    (hm : st.trace texts fuel = within st m) (hblock : ∀ b, st ≠ .block b)
    (hloop : ∀ c b, st ≠ .loop c b) : Upholds Inventory (st.trace (η := η) texts fuel) := by
  intro seen s h
  have hexec : (st.trace texts fuel s).2 = st.exec texts fuel s :=
    congrFun (Stmt.erase_trace texts fuel st) s
  have hrecord : (st.trace texts fuel s).1 = [⟨st, s.env, (m s).1⟩] := by rw [hm]; rfl
  rw [hexec, hrecord]
  -- What does not complete is no function declaration under a free name.
  have hkeep : (∀ t, st.exec texts fuel s ≠ .done () t) →
      Inventory (seen ++ [⟨st, s.env, (m s).1⟩]) s := by
    intro hne
    refine h.keep rfl (Option.eq_none_iff_forall_ne_some.mpr fun d hd => ?_)
    obtain ⟨rfl, hfree⟩ := Episode.declared?_eq_some_iff.mp hd
    exact hne _ (Stmt.exec_function_of_free hfree)
  obtain hend | ⟨err, hend⟩ | ⟨effect, env', hdone, hcarry, hend⟩ :=
    Stmt.exec_cases hblock hloop s
  all_goals rw [hend] at hkeep ⊢
  · refine ⟨s, hkeep fun t ht => ?_, fun t ht => ?_⟩
    · cases ht
    · cases ht
  · refine ⟨s, hkeep fun t ht => ?_, fun t ht => (Option.some.inj ht).symm⟩
    cases ht
  · exact ⟨_, h.advance rfl hdone hcarry, fun t ht => (Option.some.inj ht).symm⟩

/-- Looking at the condition of a loop changes nothing. -/
theorem Stmt.condition_upholds (c : Expr) (b : Block) : Upholds (η := η) Inventory
    (within (.loop c b) do return (← c.trace texts fuel).isTruthy) := by
  intro seen s h
  refine ⟨s, h.keep rfl rfl, fun t ht => ?_⟩
  have heval : (within (.loop c b) (do return (← c.trace texts fuel).isTruthy) s).2 =
      Stmt.evalCondition texts fuel c s := by
    rw [← erase_apply, erase_within, erase_bind, Expr.trace, Expr.erase_traceWith_traceCall]
    rfl
  rw [heval, Stmt.evalCondition, Evaluation.bind_apply] at ht
  rcases Expr.eval_cases texts fuel c s with hend | ⟨v, -, hend⟩ | ⟨err, -, hend⟩
  all_goals rw [hend] at ht
  · cases ht
  · exact (Option.some.inj ht).symm
  · exact (Option.some.inj ht).symm

variable (texts fuel)

mutual
theorem Stmt.trace_upholds : ∀ st : Stmt, Upholds (η := η) Inventory (st.trace texts fuel)
  | .block b => by
      simp only [Stmt.trace]
      exact Stmt.traceAll_upholds b
  | .declare n e => Stmt.upholds_of_within rfl (by simp) (by simp)
  | .assign n e => Stmt.upholds_of_within rfl (by simp) (by simp)
  | .print e => Stmt.upholds_of_within rfl (by simp) (by simp)
  | .loop c b => by
      simp only [Stmt.trace]
      exact .repeatWhile (Stmt.condition_upholds c b) (Stmt.traceAll_upholds b) fuel
  | .function d => Stmt.upholds_of_within rfl (by simp) (by simp)
theorem Stmt.traceAll_upholds : ∀ b : Block,
    Upholds (η := η) Inventory (Stmt.traceAll texts fuel b)
  | [] => .pure ()
  | st :: rest => by
      simp only [Stmt.traceAll]
      exact (Stmt.trace_upholds st).bind fun _ => Stmt.traceAll_upholds rest
end

/-! ### Runs with the standard prelude -/

/-- The value turns up in a run of the program with so much fuel, whether the run is cut short or
not. -/
inductive Interpreter.Shows (i : Interpreter η) (fuel : Nat) (p : Program) : Value η → Prop
  /-- A statement, or a turn of a loop, starts with it in a visible binding. -/
  | start {ep n v} : ep ∈ (i.trace fuel p).1 → ep.start.lookup? n = some v → Shows i fuel p v
  /-- It is in a visible binding at a point of an evaluation, during whatever calls. -/
  | visible {ep u n v} : ep ∈ (i.trace fuel p).1 → u ∈ ep.points → u.env.lookup? n = some v →
      Shows i fuel p v
  /-- It is an argument of a call. -/
  | argument {ep u c v} : ep ∈ (i.trace fuel p).1 → u ∈ ep.points → c ∈ u.calls → v ∈ c.args →
      Shows i fuel p v
  /-- An expression comes to it, be it to be printed or for another purpose. -/
  | computed {ep u v} : ep ∈ (i.trace fuel p).1 → u ∈ ep.points →
      Expr.ComesTo (i.prelude.environment i.interner).1 u.env u.expr v → Shows i fuel p v
  /-- The run leaves it in a visible binding. -/
  | left {i' n v} : (i.interpret fuel p).state? = some i' → i'.env.lookup? n = some v →
      Shows i fuel p v
  /-- The run has printed it. -/
  | printed {i' v} : (i.interpret fuel p).state? = some i' → v ∈ i'.output → Shows i fuel p v

variable {i : Interpreter η} {p : Program}

theorem Interpreter.exists_inventory (hprelude : i.prelude = .standard) :
    ∃ s, Inventory (i.trace fuel p).1 s ∧
      ∀ i', (i.interpret fuel p).state? = some i' → i'.state = s := by
  have hvisible := Prelude.genuine_standard (η := η) i.interner
  rw [← hprelude] at hvisible
  have hstart : Inventory []
      { env := (i.prelude.environment i.interner).2, output := #[], sink := i.state.sink } :=
    { nodup := List.nodup_nil
      bound := by simp [Episode.declared]
      starts := by simp
      visible := hvisible
      printed := by simp }
  obtain ⟨s, hs, hstate⟩ := Stmt.traceAll_upholds (i.prelude.environment i.interner).1 fuel
    p.body [] _ hstart
  refine ⟨s, hs, fun i' hi' => ?_⟩
  rw [← i.erase_trace fuel p] at hi'
  simp only [Interpreter.trace, Outcome.state?_mapState, Option.map_eq_some_iff] at hi'
  obtain ⟨t, ht, rfl⟩ := hi'
  exact hstate t ht

theorem Interpreter.sound_of_mem_trace {ep : Episode η} (h : ep ∈ (i.trace fuel p).1) :
    ep.Sound (i.prelude.environment i.interner).1 (Stmt.partsAll p.body) := by
  have hrecords : Records (η := η)
      (Episode.Sound (i.prelude.environment i.interner).1 (Stmt.partsAll p.body))
      (Stmt.traceAll _ fuel p.body) := Stmt.traceAll_records _ fuel p.body fun _ h => h
  exact (hrecords ⟨_, #[], i.state.sink⟩ (i.prelude.overlays_environment i.interner)).1 ep h

/-- All callables that turn up are functions declared in the run and built-ins of the prelude. -/
theorem Interpreter.Shows.genuine (hprelude : i.prelude = .standard) {v : Value η}
    (h : i.Shows fuel p v) : v.Every (Value.Genuine (Episode.declared (i.trace fuel p).1)) := by
  obtain ⟨s, hs, hstate⟩ := i.exists_inventory fuel hprelude
  have hpoints : ∀ ep ∈ (i.trace fuel p).1, ∀ u ∈ ep.points,
      u.Every (Value.Genuine (Episode.declared (i.trace fuel p).1)) := by
    intro ep hep
    have hexplained := (Interpreter.sound_of_mem_trace fuel hep).explained
    exact hexplained.every (fun _ hb => hb.passesOn) (hs.starts ep hep) (by simp)
  cases h with
  | start hep hv => exact hs.starts _ hep _ v hv
  | visible hep hu hv => exact (hpoints _ hep _ hu).visible _ v hv
  | argument hep hu hc hv => exact (hpoints _ hep _ hu).arguments _ hc v hv
  | computed hep hu hv => exact hv.every (fun _ hb => hb.passesOn) (hpoints _ hep _ hu).visible
  | left hi' hv =>
      rw [Interpreter.env, hstate _ hi'] at hv
      exact hs.visible _ v hv
  | printed hi' hv =>
      rw [Interpreter.output, hstate _ hi'] at hv
      exact hs.printed v (Array.mem_toList_iff.mp hv)

/-- **Functions are who their names say.** Run a program once, with the standard prelude. However
the run ends, and if it does not end, with whatever amount of fuel it is followed: the functions
that were declared in it have distinct names, and each was declared by a declaration of the
program. Whatever value turns up, in a binding or as an argument, computed or printed, all the
callables in it, at any depth of arrays, are such functions and built-ins of the prelude. Two
functions in such values that were declared under one name are the same function; and `==` tells
two of them to be equal exactly if they were declared under one name. -/
theorem Program.run_identifies (t : Interner) (p : Program) (fuel : Nat) :
    let i : Interpreter η := .new t .standard
    let declared := Episode.declared (i.trace fuel p).1
    (i.trace fuel p).2 = p.run fuel t ∧
    (declared.map (·.name)).Nodup ∧
    (∀ d ∈ declared, p.Executes (.function d)) ∧
    (∀ v, i.Shows fuel p v → v.Every (Value.Genuine declared)) ∧
    ∀ v w, i.Shows fuel p v → i.Shows fuel p w →
      ∀ d d', .function d ∈ v.callables → .function d' ∈ w.callables →
        (d.name = d'.name → d = d') ∧
        Value.binary .eq (.function d : Value η) (.function d') =
          .ok (.bool (d.name == d'.name)) := by
  intro i declared
  obtain ⟨s, hs, -⟩ := i.exists_inventory (p := p) fuel rfl
  have hgenuine : ∀ v, i.Shows fuel p v → v.Every (Value.Genuine declared) :=
    fun v hv => hv.genuine fuel rfl
  refine ⟨i.erase_trace fuel p, hs.nodup, ?_, hgenuine, ?_⟩
  · intro d hd
    obtain ⟨ep, hep, hstmt, -⟩ := Episode.mem_declared.mp hd
    exact hstmt ▸ (Interpreter.sound_of_mem_trace fuel hep).stmt_mem
  · intro v w hv hw d d' hd hd'
    have hmem : d ∈ declared := hgenuine v hv _ hd
    have hmem' : d' ∈ declared := hgenuine w hw _ hd'
    have hsame : d.name = d'.name → d = d' :=
      List.inj_on_of_nodup_map hs.nodup hmem hmem'
    refine ⟨hsame, congrArg (fun b => Except.ok (Value.bool b)) ?_⟩
    show d.sameObject d' = (d.name == d'.name)
    by_cases hname : d.name = d'.name
    · obtain rfl := hsame hname
      simp [FunctionDecl.sameObject]
    · simp [FunctionDecl.sameObject, hname]

/-- Two functions that read alike but for their names: `f == f` holds and `f == g` does not. -/
example :
    let p : Program := ⟨[.function ⟨⟨1⟩, 1, [], .bool true⟩, .function ⟨⟨2⟩, 2, [], .bool true⟩,
      .print (.binary .eq (.identifier ⟨1⟩) (.identifier ⟨1⟩)),
      .print (.binary .eq (.identifier ⟨1⟩) (.identifier ⟨2⟩))]⟩
    ((p.run 0 (.reached ["f", "g"]) : Outcome (Interpreter Empty) Unit).state?.map
      (·.output.map Value.display)) = some ["true", "false"] := by
  decide +kernel

end Statements

end DynScope
