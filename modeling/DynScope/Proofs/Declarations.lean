import DynScope.Proofs.Points
import DynScope.Proofs.Prelude
import DynScope.Proofs.Replay

/-!
# DynScope.Proofs.Declarations

**A name is declared once and stays bound.** The names that are visible at top level are those
of the prelude and the ones that declarations have bound since; nothing else that a run does
adds one, and nothing takes one away. So no declaration of a run binds a name that an earlier
one has bound, and a declaration that is executed again fails
(`Interpreter.interpret_declares_once`).

How it works: an event binds the name that it declares and no other (`Effect.isBound_carryOut`),
and it declares no name that is bound (`Effect.isBound_of_declare`). The rest is an induction
over the events of the run. Calls bind their parameters in overlays, which the points of an
evaluation keep apart from the top level (`Expr.Reaches.globals_eq`).
-/

namespace DynScope

variable {η : Type}

/-! ### One event -/

/-- The name that was declared, if one was. -/
def Effect.declared? : Effect η → Option Name
  | .declare n _ => some n
  | .assign .. | .print _ => none

/-- The names that were declared, in order. -/
def Event.declared (es : List (Event η)) : List Name := es.filterMap (·.effect.declared?)

theorem Event.declared_append (es es' : List (Event η)) :
    declared (es ++ es') = declared es ++ declared es' := by
  rw [declared, declared, declared, List.filterMap_append]

namespace Environment

/-- At top level the visible names are those of the global frame. -/
theorem isBound_iff_mem_globals {env : Environment η} (h : env.overlays = []) (n : Name) :
    env.isBound n ↔ n ∈ env.globals := by
  rw [isBound, lookup?, h, Std.TreeMap.mem_iff_isSome_getElem?]
  rfl

end Environment

namespace Effect

variable {env env' : Environment η} {effect : Effect η}

/-- An effect is carried out by binding a name, if it is one of binding. -/
theorem carryOut_cases (h : effect.carryOut env = .ok env') :
    (∃ n v, effect = .declare n v ∧ env.isBound n = false ∧ env' = env.bind n v) ∨
      (∃ n v, effect = .assign n v ∧ env.isBound n = true ∧ env' = env.bind n v) ∨
      ∃ v, effect = .print v ∧ env' = env := by
  cases effect with
  | declare n v =>
      cases hb : env.isBound n with
      | true => simp [carryOut, Environment.declare, hb] at h
      | false =>
          have hbind := h.symm.trans (Environment.declare_of_unbound hb v)
          exact Or.inl ⟨n, v, rfl, hb, Except.ok.inj hbind⟩
  | assign n v =>
      cases hb : env.isBound n with
      | true =>
          have hbind := h.symm.trans (Environment.assign_of_bound hb v)
          exact Or.inr (Or.inl ⟨n, v, rfl, hb, Except.ok.inj hbind⟩)
      | false => simp [carryOut, Environment.assign, hb] at h
  | print v => exact Or.inr (Or.inr ⟨v, rfl, (Except.ok.inj h).symm⟩)

/-- Only a declaration makes a name visible, and only its own. -/
theorem isBound_carryOut (h : effect.carryOut env = .ok env') (k : Name) :
    env'.isBound k ↔ env.isBound k ∨ effect.declared? = some k := by
  obtain ⟨n, v, rfl, -, rfl⟩ | ⟨n, v, rfl, hb, rfl⟩ | ⟨v, rfl, rfl⟩ := carryOut_cases h
  · rw [Environment.isBound_bind, declared?, Option.some.injEq]
    exact or_congr_right ⟨Eq.symm, Eq.symm⟩
  · rw [Environment.isBound_bind]
    constructor
    · rintro (hk | rfl)
      · exact Or.inl hk
      · exact Or.inl hb
    · rintro (hk | hk)
      · exact Or.inl hk
      · cases hk
  · simp [declared?]

theorem isBound_of_declare (h : effect.carryOut env = .ok env') {n : Name}
    (hn : effect.declared? = some n) : env.isBound n = false := by
  obtain ⟨m, v, rfl, hb, -⟩ | ⟨m, v, rfl, -, -⟩ | ⟨v, rfl, -⟩ := carryOut_cases h
  · obtain rfl := Option.some.inj hn
    exact hb
  · cases hn
  · cases hn

theorem overlays_carryOut (h : effect.carryOut env = .ok env') (henv : env.overlays = []) :
    env'.overlays = [] := by
  obtain ⟨n, v, -, -, rfl⟩ | ⟨n, v, -, -, rfl⟩ | ⟨v, -, rfl⟩ := carryOut_cases h
  · exact Environment.overlays_bind_eq_nil henv n v
  · exact Environment.overlays_bind_eq_nil henv n v
  · exact henv

end Effect

/-! ### All the events of a run -/

namespace Environment

variable {env env' : Environment η} {es : List (Event η)}

theorem replay_cons_eq_ok {e : Event η} {rest : List (Event η)}
    (h : env.replay (e :: rest) = .ok env') :
    ∃ env₁, e.effect.carryOut env = .ok env₁ ∧ env₁.replay rest = .ok env' := by
  rw [replay] at h
  cases he : e.effect.carryOut env with
  | error err =>
      rw [he] at h
      cases h
  | ok env₁ =>
      rw [he] at h
      exact ⟨env₁, rfl, h⟩

/-- The visible names after some events are those of before and those that were declared. -/
theorem isBound_replay (h : env.replay es = .ok env') (k : Name) :
    env'.isBound k ↔ env.isBound k ∨ k ∈ Event.declared es := by
  induction es generalizing env with
  | nil =>
      obtain rfl := Except.ok.inj h
      simp [Event.declared]
  | cons e rest ih =>
      obtain ⟨env₁, he, hrest⟩ := replay_cons_eq_ok h
      rw [ih hrest, Effect.isBound_carryOut he, or_assoc, ← List.singleton_append,
        Event.declared_append, List.mem_append]
      simp [Event.declared]

theorem overlays_replay (h : env.replay es = .ok env') (henv : env.overlays = []) :
    env'.overlays = [] := by
  induction es generalizing env with
  | nil =>
      obtain rfl := Except.ok.inj h
      exact henv
  | cons e rest ih =>
      obtain ⟨env₁, he, hrest⟩ := replay_cons_eq_ok h
      exact ih hrest (Effect.overlays_carryOut he henv)

/-- No name is declared that was bound before. -/
theorem isBound_of_mem_declared (h : env.replay es = .ok env') {n : Name}
    (hn : n ∈ Event.declared es) : env.isBound n = false := by
  induction es generalizing env with
  | nil => cases hn
  | cons e rest ih =>
      obtain ⟨env₁, he, hrest⟩ := replay_cons_eq_ok h
      rw [← List.singleton_append, Event.declared_append, List.mem_append] at hn
      rcases hn with hn | hn
      · exact Effect.isBound_of_declare he (by simpa [Event.declared] using hn)
      · -- What is not bound after the first event was not bound before it.
        have hafter := ih hrest hn
        by_contra hb
        have hbound := (Effect.isBound_carryOut he n).mpr (Or.inl (by simpa using hb))
        rw [hafter] at hbound
        cases hbound

/-- **No name is declared twice.** -/
theorem nodup_declared (h : env.replay es = .ok env') : (Event.declared es).Nodup := by
  induction es generalizing env with
  | nil => exact List.nodup_nil
  | cons e rest ih =>
      obtain ⟨env₁, he, hrest⟩ := replay_cons_eq_ok h
      rw [← List.singleton_append, Event.declared_append]
      refine List.nodup_append.mpr ⟨?_, ih hrest, ?_⟩
      · cases hd : e.effect.declared? with
        | none => simp [Event.declared, hd]
        | some n => simp [Event.declared, hd]
      · rintro n hn _ hn' rfl
        have hbound := (Effect.isBound_carryOut he n).mpr
          (Or.inr (by simpa [Event.declared] using hn))
        rw [isBound_of_mem_declared hrest hn'] at hbound
        cases hbound

end Environment

/-! ### Declarations executed again -/

section Runs

variable [Host η] {texts : Interner}

/-- A declaration that has completed fails where its name is bound. -/
theorem Stmt.Completes.exec_again {env : Environment η} {st : Stmt} {n : Name} {v : Value η}
    (h : Stmt.Completes texts env st (.declare n v)) (fuel : Nat) {s : State η}
    (hs : s.env.isBound n = true) :
    st.exec texts fuel s = .failed (.duplicateDeclaration (texts.text n)) s := by
  cases h with
  | declare _ _ =>
      simp only [Stmt.exec]
      rw [Evaluation.bind_expectBound_false_apply, if_pos hs]
  | function d =>
      simp only [Stmt.exec]
      rw [Evaluation.rebind_declare_apply, if_pos hs]

theorem Event.Chain.exec_again {env env' : Environment η} {es : List (Event η)}
    (h : Event.Chain texts env es env') {e : Event η} (he : e ∈ es) {n : Name} {v : Value η}
    (hn : e.effect = .declare n v) (fuel : Nat) {s : State η} (hs : s.env = env') :
    e.stmt.exec texts fuel s = .failed (.duplicateDeclaration (texts.text n)) s := by
  have hmem : n ∈ Event.declared es := by
    refine List.mem_filterMap.mpr ⟨e, he, ?_⟩
    rw [hn, Effect.declared?]
  have hbound : s.env.isBound n = true := by
    rw [hs]
    exact (Environment.isBound_replay h.replay_eq n).mpr (Or.inr hmem)
  obtain ⟨before, after, hes⟩ := List.append_of_mem he
  obtain ⟨env₁, -, hdone⟩ := h.completes_of_split hes
  exact (hn ▸ hdone).exec_again fuel hbound

/-- **A name is declared once and stays bound.** A run diverges, or it ends in success or
failure with the list of its events, and then the names that its declarations have bound are
pairwise distinct and none of them is one of the prelude. Between any two moments of the run
the names visible at top level become more by those that were declared in between, and by no
others; at every point of an evaluation in the meantime the global frame holds just these
names, and an evaluation leaves the bindings as they were. A declaration that has completed
fails whenever it is executed again. At the end there are no overlays, and the visible names
are those of the prelude and the declared ones. -/
theorem Interpreter.interpret_declares_once (i : Interpreter η) (p : Program) :
    Diverges (i.interpret · p) ∨
      ∃ (i' : Interpreter η) (error : Option EvalError) (es : List (Event η)),
        let texts := (i.prelude.environment i.interner).1
        let fresh := (i.prelude.environment i.interner).2
        let builtins := (i.interner.internAll i.prelude.names).1
        EndsAs (i.interpret · p) (.ended error i') ∧
        Stmt.RunsAll texts fresh p.body es error i'.env ∧
        (Event.declared es).Nodup ∧
        (∀ n ∈ Event.declared es, n ∉ builtins) ∧
        (∀ before between after, es = before ++ between ++ after →
          ∃ env₁ env₂, fresh.replay before = .ok env₁ ∧ env₁.replay between = .ok env₂ ∧
            (∀ n, env₂.isBound n ↔ env₁.isBound n ∨ n ∈ Event.declared between) ∧
            (∀ e calls env' e', Expr.Reaches texts env₂ e calls env' e' →
              ∀ n, n ∈ env'.globals ↔ env₂.isBound n) ∧
            (∀ fuel (e : Expr) s s', s.env = env₂ → (e.eval texts fuel s).state? = some s' →
              s'.env = env₂) ∧
            ∀ x ∈ before ++ between, ∀ n v, x.effect = .declare n v → ∀ fuel s, s.env = env₂ →
              x.stmt.exec texts fuel s = .failed (.duplicateDeclaration (texts.text n)) s) ∧
        i'.env.depth = 1 ∧
        ∀ n, i'.env.isBound n ↔ n ∈ builtins ∨ n ∈ Event.declared es := by
  rcases i.interpret_explained p with hd | ⟨i', error, es, hends, hruns, -, -⟩
  · exact Or.inl hd
  have hreplay := hruns.chain.replay_eq
  have hfresh := i.prelude.isBound_environment i.interner
  have hlevel := i.prelude.overlays_environment i.interner
  refine Or.inr ⟨i', error, es, hends, hruns, Environment.nodup_declared hreplay, ?_, ?_, ?_, ?_⟩
  · intro n hn hbuiltin
    have hfree := Environment.isBound_of_mem_declared hreplay hn
    rw [(hfresh n).mpr hbuiltin] at hfree
    cases hfree
  · rintro before between after rfl
    obtain ⟨env₂, hchain, -⟩ := hruns.chain.split
    obtain ⟨env₁, hbefore, hbetween⟩ := hchain.split
    have hlevel₂ := Environment.overlays_replay hchain.replay_eq hlevel
    refine ⟨env₁, env₂, hbefore.replay_eq, hbetween.replay_eq,
      Environment.isBound_replay hbetween.replay_eq, ?_, ?_, ?_⟩
    · intro e calls env' e' hreached n
      rw [hreached.globals_eq, Environment.isBound_iff_mem_globals hlevel₂]
    · intro fuel e s s' hs hstate
      rw [Expr.state_eq_of_eval hstate, hs]
    · exact fun x hx n v hn fuel s hs => hchain.exec_again hx hn fuel hs
  · rw [Environment.depth_eq, Environment.overlays_replay hreplay hlevel]
    rfl
  · intro n
    rw [Environment.isBound_replay hreplay, hfresh]

end Runs

end DynScope
