import DynScope.Proofs.Correspondence
import DynScope.Proofs.Prelude
import DynScope.Proofs.Refinement
import DynScope.Proofs.TwoRuns

/-!
# DynScope.Proofs.Renaming

**A run depends on identifiers only through their text.** Two programs over two interners
that read the same run alike: both go on for ever, or both succeed, or both fail with one
error, and what they print corresponds value by value (`Program.run_alike`).

How it works: by `Interpreter.interpret_flat` it is enough to look at the copying
interpreter, whose stores are plain functions. `Store.Agree` relates two stores at names
that stand for each other. Expressions keep it by the shape of the tree, and the bodies of
functions by the fuel. Statements keep `State.Agree`, which adds the invariant that makes
functions comparable: a name that is bound stays bound, so at most one declaration of a name
is ever carried out, and two functions are one object exactly where their names are equal
(`Declared.pairing`).
-/

namespace DynScope

variable {η : Type}

open Value (Corresponds CorrespondAll)

namespace Copying

variable {N : Name → Name → Prop} {W : FunctionDecl → FunctionDecl → Prop}
  {texts texts' : Interner}

/-! ### Stores -/

/-- Names that stand for each other are unbound, or bound to corresponding values. -/
def Store.Agree (N : Name → Name → Prop) (W : FunctionDecl → FunctionDecl → Prop)
    (m m' : Store η) : Prop :=
  ∀ n n', N n n' → Option.Rel (Corresponds W) (m n) (m' n')

theorem Store.Agree.mono {W₁ : FunctionDecl → FunctionDecl → Prop} {m m' : Store η}
    (hsub : ∀ {d d'}, W d d' → W₁ d d') (h : Store.Agree N W m m') : Store.Agree N W₁ m m' := by
  intro n n' hn
  have hrel := h n n' hn
  generalize m n = o, m' n' = o' at hrel ⊢
  cases hrel with
  | some hv => exact .some (hv.mono hsub)
  | none => exact .none

theorem Store.Agree.isSome_eq {m m' : Store η} (h : Store.Agree N W m m') {n n' : Name}
    (hn : N n n') : (m n).isSome = (m' n').isSome := by
  have hrel := h n n' hn
  generalize m n = o, m' n' = o' at hrel ⊢
  cases hrel <;> rfl

theorem Store.Agree.insert (hN : Naming N texts texts') {m m' : Store η}
    (h : Store.Agree N W m m') {n n' : Name} (hn : N n n') {v v' : Value η}
    (hv : Corresponds W v v') : Store.Agree N W (m.insert n v) (m'.insert n' v') := by
  intro k k' hk
  by_cases hnk : n = k
  · have hnk' : n' = k' := (hN.eq_iff hn hk).mp hnk
    rw [Store.insert, Store.insert, if_pos hnk, if_pos hnk']
    exact .some hv
  · have hnk' : n' ≠ k' := fun he => hnk ((hN.eq_iff hn hk).mpr he)
    rw [Store.insert, Store.insert, if_neg hnk, if_neg hnk']
    exact h k k' hk

theorem Store.Agree.insertAll (hN : Naming N texts texts') {ns ns' : List Name}
    (hns : List.Forall₂ N ns ns') {vs vs' : List (Value η)} (hvs : CorrespondAll W vs vs')
    {m m' : Store η} (h : Store.Agree N W m m') :
    Store.Agree N W (m.insertAll ns vs) (m'.insertAll ns' vs') := by
  induction hns generalizing vs vs' m m' with
  | nil => exact h
  | cons hn hns ih =>
      cases hvs with
      | nil => exact h
      | cons hv hvs => exact ih hvs (h.insert hN hn hv)

/-! ### Expressions -/

theorem read_agree (hN : Naming N texts texts') {m m' : Store η} (h : Store.Agree N W m m')
    {n n' : Name} (hn : N n n') :
    Result.Agree (Corresponds W) (read texts m n) (read texts' m' n') := by
  have hrel := h n n' hn
  rw [read, read, hN.text_eq hn]
  generalize m n = o, m' n' = o' at hrel ⊢
  cases hrel with
  | some hv => exact .value hv
  | none => exact .error _

section Expressions

variable [Host η]

variable {apply apply' : Store η → FunctionDecl → List (Value η) → Result (Value η)}

mutual
theorem evalWith_agree (hN : Naming N texts texts') (hW : FunctionDecl.Pairing N W)
    (happly : ∀ {m m' d d' vs vs'}, Store.Agree N W m m' → W d d' → CorrespondAll W vs vs' →
      Result.Agree (Corresponds W) (apply m d vs) (apply' m' d' vs'))
    {m m' : Store η} (hm : Store.Agree N W m m') : ∀ {e e' : Expr}, Expr.Alike N e e' →
      Result.Agree (Corresponds W) (evalWith texts apply m e) (evalWith texts' apply' m' e')
  | _, _, .numeral x => by
      simp only [evalWith]
      exact .value (.number x)
  | _, _, .bool b => by
      simp only [evalWith]
      exact .value (.bool b)
  | _, _, .identifier hn => by
      simp only [evalWith]
      exact read_agree hN hm hn
  | _, _, .binary op hl hr => by
      simp only [evalWith]
      refine (evalWith_agree hN hW happly hm hl).bind fun l l' hl => ?_
      refine (evalWith_agree hN hW happly hm hr).bind fun r r' hr => ?_
      exact hl.binary hW.sameObject_eq op hr
  | _, _, .unary op he => by
      simp only [evalWith]
      exact (evalWith_agree hN hW happly hm he).bind fun v v' hv => hv.unary op
  | _, _, .conditional ht hc ha => by
      simp only [evalWith]
      refine (evalWith_agree hN hW happly hm ht).bind fun v v' hv => ?_
      rw [hv.isTruthy_eq]
      split
      · exact evalWith_agree hN hW happly hm hc
      · exact evalWith_agree hN hW happly hm ha
  | _, _, .call hf hargs => by
      have hvs := evalAllWith_agree hN hW happly hm hargs
      simp only [evalWith]
      refine (read_agree hN hm hf).bind fun v v' hv => ?_
      -- Values that answer to each other are of one sort, so both calls go the same way.
      cases hv with
      | builtin name serial f => exact hvs.bind fun vs vs' h => f.call_agree h
      | function hd =>
          simp only [hargs.length_eq, (hW.alike hd).arity_eq, hN.text_eq hf]
          split
          · exact hvs.bind fun vs vs' h => happly hm hd h
          · exact .error _
      | _ =>
          simp only [hN.text_eq hf]
          exact .error _
  | _, _, .array hes => by
      simp only [evalWith]
      exact (evalAllWith_agree hN hW happly hm hes).bind fun vs vs' h => .value (.array none h)
  | _, _, .subscript hb hi => by
      simp only [evalWith]
      refine (evalWith_agree hN hW happly hm hb).bind fun b b' hb => ?_
      exact (evalWith_agree hN hW happly hm hi).bind fun i i' hi => hb.subscript hi
theorem evalAllWith_agree (hN : Naming N texts texts') (hW : FunctionDecl.Pairing N W)
    (happly : ∀ {m m' d d' vs vs'}, Store.Agree N W m m' → W d d' → CorrespondAll W vs vs' →
      Result.Agree (Corresponds W) (apply m d vs) (apply' m' d' vs'))
    {m m' : Store η} (hm : Store.Agree N W m m') : ∀ {es es' : List Expr},
      Expr.AlikeAll N es es' → Result.Agree (CorrespondAll W) (evalAllWith texts apply m es)
        (evalAllWith texts' apply' m' es')
  | _, _, .nil => by
      simp only [evalAllWith]
      exact .value .nil
  | _, _, .cons he hes => by
      simp only [evalAllWith]
      refine (evalWith_agree hN hW happly hm he).bind fun v v' hv => ?_
      exact (evalAllWith_agree hN hW happly hm hes).bind fun vs vs' hvs => .value (.cons hv hvs)
end

theorem call_agree (hN : Naming N texts texts') (hW : FunctionDecl.Pairing N W) (fuel : Nat)
    {m m' : Store η} {d d' : FunctionDecl} {vs vs' : List (Value η)} (hm : Store.Agree N W m m')
    (hd : W d d') (hvs : CorrespondAll W vs vs') :
    Result.Agree (Corresponds W) (call texts fuel m d vs) (call texts' fuel m' d' vs') := by
  induction fuel generalizing m m' d d' vs vs' with
  | zero => exact .exhausted
  | succ fuel ih =>
      -- The parameters overwrite the stores of the callers alike, and the bodies are alike.
      have hparams := (hW.alike hd).params
      exact evalWith_agree hN hW ih (hm.insertAll hN hparams hvs) (hW.alike hd).body

/-- Expressions that read the same come to corresponding results in stores that agree. -/
theorem eval_agree (hN : Naming N texts texts') (hW : FunctionDecl.Pairing N W) (fuel : Nat)
    {m m' : Store η} (hm : Store.Agree N W m m') {e e' : Expr} (he : Expr.Alike N e e') :
    Result.Agree (Corresponds W) (eval texts fuel m e) (eval texts' fuel m' e') :=
  evalWith_agree hN hW (call_agree hN hW fuel) hm he

end Expressions

/-! ### Statements -/

/-- The declarations that were carried out, in a run that has made the bindings `m` and in
another one. A name is bound once and for all, so there is at most one for each name. -/
structure Declared (N : Name → Name → Prop) (W : FunctionDecl → FunctionDecl → Prop)
    (m : Store η) : Prop where
  alike : ∀ {d d'}, W d d' → FunctionDecl.Alike N d d'
  unique : ∀ {d d' e e'}, W d d' → W e e' → d.name = e.name → d = e ∧ d' = e'
  bound : ∀ {d d'}, W d d' → (m d.name).isSome

/-- Functions of one run are one object exactly if those of the other run are. -/
theorem Declared.pairing (hN : Naming N texts texts') {m : Store η} (h : Declared N W m) :
    FunctionDecl.Pairing N W where
  alike := h.alike
  sameObject_eq := by
    intro d d' e e' hd he
    by_cases hname : d.name = e.name
    -- Serial numbers never decide: functions of one name are one, and others differ by name.
    · obtain ⟨rfl, rfl⟩ := h.unique hd he hname
      simp only [FunctionDecl.sameObject, beq_self_eq_true]
    · have hname' : d'.name ≠ e'.name := fun heq =>
        hname ((hN.eq_iff (h.alike hd).name (h.alike he).name).mpr heq)
      simp only [FunctionDecl.sameObject, beq_eq_false_iff_ne.mpr hname,
        beq_eq_false_iff_ne.mpr hname', Bool.false_and]

/-- Binding a name unbinds none. -/
theorem Store.isSome_insert {m : Store η} {k : Name} (h : (m k).isSome) (n : Name)
    (v : Value η) : (m.insert n v k).isSome := by
  rw [Store.insert]
  split
  · rfl
  · exact h

theorem Declared.insert {m : Store η} (h : Declared N W m) (n : Name) (v : Value η) :
    Declared N W (m.insert n v) where
  alike := h.alike
  unique := h.unique
  bound hd := Store.isSome_insert (h.bound hd) n v

/-- Carrying out one more pair of declarations, of a name that was unbound. -/
theorem Declared.function {m : Store η} (h : Declared N W m) {d d' : FunctionDecl}
    (hd : FunctionDecl.Alike N d d') (hfree : ¬ (m d.name).isSome) (v : Value η) :
    Declared N (fun e e' => W e e' ∨ (e = d ∧ e' = d')) (m.insert d.name v) where
  alike := by
    rintro e e' (he | ⟨rfl, rfl⟩)
    · exact h.alike he
    · exact hd
  unique := by
    rintro e e' f f' (he | ⟨rfl, rfl⟩) (hf | ⟨rfl, rfl⟩) hname
    · exact h.unique he hf hname
    -- A name that is still free has not been declared before.
    · exact absurd (hname ▸ h.bound he) hfree
    · exact absurd (hname ▸ h.bound hf) hfree
    · exact ⟨rfl, rfl⟩
  bound := by
    rintro e e' (he | ⟨rfl, rfl⟩)
    · exact Store.isSome_insert (h.bound he) _ _
    · simp only [Store.insert, if_true, Option.isSome_some]

/-- The states agree on names that stand for each other, and in what has been printed. -/
def State.Agree (N : Name → Name → Prop) (s s' : State η) : Prop :=
  ∃ W, Declared N W s.vars ∧ Store.Agree N W s.vars s'.vars ∧ CorrespondAll W s.output s'.output

section Statements

variable [Host η]

mutual
/-- **Simulation.** Statements that read the same keep states in agreement. -/
theorem exec_agree (hN : Naming N texts texts') (fuel : Nat) : ∀ {st st' : Stmt},
    Stmt.Alike N st st' → ∀ {s s' : State η}, State.Agree N s s' →
      Outcome.Agree (State.Agree N) (exec texts fuel st s) (exec texts' fuel st' s')
  | _, _, .block hb, _, _, hs => by
      simp only [exec]
      exact execAll_agree hN fuel hb hs
  | _, _, .declare hn he, s, s', hs => by
      obtain ⟨W, hdecl, hvars, hout⟩ := id hs
      simp only [exec, hN.text_eq hn, hvars.isSome_eq hn]
      split
      · exact .failed _ hs
      · refine proceed_agree hs (eval_agree hN (hdecl.pairing hN) fuel hvars he) fun v v' hv => ?_
        exact .done () ⟨W, hdecl.insert _ _, hvars.insert hN hn hv, hout⟩
  | _, _, .assign hn he, s, s', hs => by
      obtain ⟨W, hdecl, hvars, hout⟩ := id hs
      simp only [exec, hN.text_eq hn, hvars.isSome_eq hn]
      split
      · refine proceed_agree hs (eval_agree hN (hdecl.pairing hN) fuel hvars he) fun v v' hv => ?_
        exact .done () ⟨W, hdecl.insert _ _, hvars.insert hN hn hv, hout⟩
      · exact .failed _ hs
  | _, _, .print he, s, s', hs => by
      obtain ⟨W, hdecl, hvars, hout⟩ := id hs
      simp only [exec]
      refine proceed_agree hs (eval_agree hN (hdecl.pairing hN) fuel hvars he) fun v v' hv => ?_
      exact .done () ⟨W, hdecl, hvars, hout.append (.cons hv .nil)⟩
  | _, _, .loop hc hb, s, s', hs => by
      simp only [exec]
      refine repeatWhile_agree ?_ (execAll_agree hN fuel hb) fuel hs
      rintro s s' ⟨W, hdecl, hvars, -⟩
      exact (eval_agree hN (hdecl.pairing hN) fuel hvars hc).mono fun _ _ hv => hv.isTruthy_eq
  | _, _, @Stmt.Alike.function _ d d' hd, s, s', hs => by
      obtain ⟨W, hdecl, hvars, hout⟩ := id hs
      have hsub : ∀ {e e'}, W e e' → W e e' ∨ (e = d ∧ e' = d') := Or.inl
      simp only [exec, hN.text_eq hd.name]
      by_cases hb : (s.vars d.name).isSome
      · rw [if_pos hb, if_pos (hvars.isSome_eq hd.name ▸ hb)]
        exact .failed _ hs
      · rw [if_neg hb, if_neg (hvars.isSome_eq hd.name ▸ hb)]
        -- From here on the two declarations stand in each other's place.
        refine .done () ⟨_, hdecl.function hd hb _, ?_, hout.mono hsub⟩
        exact (hvars.mono hsub).insert hN hd.name (.function (Or.inr ⟨rfl, rfl⟩))
theorem execAll_agree (hN : Naming N texts texts') (fuel : Nat) : ∀ {b b' : Block},
    Stmt.AlikeAll N b b' → ∀ {s s' : State η}, State.Agree N s s' →
      Outcome.Agree (State.Agree N) (execAll texts fuel b s) (execAll texts' fuel b' s')
  | _, _, .nil, _, _, hs => by
      simp only [execAll]
      exact .done () hs
  | _, _, .cons hst hb, _, _, hs => by
      simp only [execAll]
      exact (exec_agree hN fuel hst hs).andThen fun _ _ _ => execAll_agree hN fuel hb
end

end Statements

end Copying

/-! ### The start of a run -/

/-- The values of the standard prelude answer to themselves. -/
theorem Prelude.standard_corresponds (W : FunctionDecl → FunctionDecl → Prop) :
    ∀ entry ∈ (standard : Prelude η).entries, Corresponds W entry.2 entry.2 := by
  have hempty : ∀ entry ∈ (empty : Prelude η).entries, Corresponds W entry.2 entry.2 := by
    intro entry h
    cases h
  have hhost : ∀ (p : Prelude η) (name : String) (f : MathFn),
      (∀ entry ∈ p.entries, Corresponds W entry.2 entry.2) →
        ∀ entry ∈ (p.insertHost name (.math f)).entries, Corresponds W entry.2 entry.2 :=
    fun p name f h => forall_mem_insert (P := fun v => Corresponds W v v) h name
      (.builtin name 0 f)
  refine forall_mem_insert (P := fun v => Corresponds W v v) ?_ "π" (.number pi)
  iterate 6 refine hhost _ _ _ ?_
  exact hempty

namespace Copying

variable {W : FunctionDecl → FunctionDecl → Prop} {t t' : Interner} {m m' : Store η}

/-- What a text is bound to, by way of its name. -/
def Store.ofText (m : Store η) (t : Interner) (s : String) : Option (Value η) :=
  (t.find? s).bind m

/-- Interning a text and binding its name binds the text, and no other. -/
theorem Store.ofText_insert_intern (ht : t.WellFormed) (m : Store η) (name : String)
    (v : Value η) (s : String) :
    (m.insert (t.intern name).1 v).ofText (t.intern name).2 s =
      if name = s then some v else m.ofText t s := by
  have hname := t.find?_intern_self name
  by_cases hs : name = s
  · subst hs
    simp only [Store.ofText, hname, Option.bind_some, Store.insert, if_true]
  · rw [if_neg hs, Store.ofText, Store.ofText, t.find?_intern_of_ne hs]
    cases hk : t.find? s with
    | none => rfl
    | some k =>
        -- Two texts have two names, so the binding just made is not that of `s`.
        have hne : (t.intern name).1 ≠ k := by
          intro heq
          have hk' := t.extends_intern name s k hk
          rw [← heq] at hk'
          have htext := (((ht.intern name).find?_eq_some_iff _ _).mp hname).2
          exact hs (htext.symm.trans (((ht.intern name).find?_eq_some_iff _ _).mp hk').2)
        simp only [Option.bind_some, Store.insert, if_neg hne]

/-- Binding the same entries under the names of their texts keeps the texts bound alike. -/
theorem bindEntries_ofText {entries : List (String × Value η)}
    (hself : ∀ entry ∈ entries, Corresponds W entry.2 entry.2) (ht : t.WellFormed)
    (ht' : t'.WellFormed)
    (h : ∀ s, Option.Rel (Corresponds W) (m.ofText t s) (m'.ofText t' s)) (s : String) :
    Option.Rel (Corresponds W)
      ((bindEntries t m entries).2.ofText (bindEntries t m entries).1 s)
      ((bindEntries t' m' entries).2.ofText (bindEntries t' m' entries).1 s) := by
  induction entries generalizing t t' m m' with
  | nil => exact h s
  | cons entry rest ih =>
      obtain ⟨name, v⟩ := entry
      have hrest := fun e he => hself e (List.mem_cons_of_mem _ he)
      simp only [bindEntries]
      refine ih hrest (ht.intern name) (ht'.intern name) fun s => ?_
      rw [Store.ofText_insert_intern ht, Store.ofText_insert_intern ht']
      split
      · exact .some (hself _ List.mem_cons_self)
      · exact h s

/-- Runs whose preludes hold the same values start from stores that agree. -/
theorem start_agree {b : Prelude η} (hself : ∀ entry ∈ b.entries, Corresponds W entry.2 entry.2)
    (ht : t.WellFormed) (ht' : t'.WellFormed) :
    Store.Agree (Interner.SameText t t') W (b.environment t).2.lookup?
      (b.environment t').2.lookup? := by
  rintro n n' ⟨hn, hn', htext⟩
  -- The names keep their text while the prelude is interned, so they are found under it.
  have hfind := b.extends_environment t _ n ((ht.find?_eq_some_iff _ n).mpr ⟨hn, rfl⟩)
  have hfind' := b.extends_environment t' _ n' ((ht'.find?_eq_some_iff _ n').mpr ⟨hn', rfl⟩)
  have hempty : ∀ (t : Interner) (s : String), (Store.empty : Store η).ofText t s = none := by
    intro t s
    rw [Store.ofText]
    cases t.find? s <;> rfl
  have hnone : ∀ s, Option.Rel (Corresponds W) ((Store.empty : Store η).ofText t s)
      ((Store.empty : Store η).ofText t' s) := by
    intro s
    rw [hempty, hempty]
    exact .none
  have hstart := bindEntries_ofText hself ht ht' hnone (t.text n)
  rw [Prelude.environment_flat, Prelude.environment_flat] at hstart
  rw [Store.ofText, Store.ofText, hfind, htext, hfind'] at hstart
  exact hstart

theorem interpret_agree [Host η] {b : Prelude η}
    (hself : ∀ entry ∈ b.entries, Corresponds (fun _ _ => False) entry.2 entry.2)
    (ht : t.WellFormed) (ht' : t'.WellFormed) (fuel : Nat) {p p' : Program}
    (h : Program.Alike t t' p p') :
    Outcome.Agree (State.Agree (Interner.SameText t t')) (interpret b t fuel p)
      (interpret b t' fuel p') := by
  have hN := Interner.naming_sameText ht ht' (b.wellFormed_environment ht)
    (b.wellFormed_environment ht') (b.extends_environment t) (b.extends_environment t')
  unfold interpret
  rw [Prelude.environment_flat, Prelude.environment_flat]
  refine execAll_agree hN fuel h ⟨fun _ _ => False, ⟨?_, ?_, ?_⟩, start_agree hself ht ht', .nil⟩
  · rintro _ _ ⟨⟩
  · rintro _ _ _ _ ⟨⟩
  · rintro _ _ ⟨⟩

end Copying

/-! ### Programs -/

section Programs

variable [Host η]

theorem Program.run_agree {t t' : Interner} (ht : t.WellFormed) (ht' : t'.WellFormed)
    (fuel : Nat) {p p' : Program} (h : Program.Alike t t' p p') :
    Outcome.Agree
      (fun i i' : Interpreter η => Copying.State.Agree (Interner.SameText t t') i.flat i'.flat)
      (p.run fuel t) (p'.run fuel t') := by
  refine .of_mapState (f := Interpreter.flat) ?_
  rw [Program.run, Program.run, Interpreter.interpret_flat, Interpreter.interpret_flat]
  exact Copying.interpret_agree (Prelude.standard_corresponds _) ht ht' fuel h

theorem Program.run_fuelMonotone (t : Interner) (p : Program) :
    FuelMonotone (p.run · t : Nat → Outcome (Interpreter η) Unit) :=
  Interpreter.interpret_fuelMonotone _ p

/-- Two runs that cannot be told apart but for the names of `N` standing for each other. Both
go on for ever, or both succeed, or both fail with one error. The printed values correspond
one by one, are displayed alike, and compare alike; functions read the same, and are one
object exactly where those of the other run are. -/
def RunsCorrespond (N : Name → Name → Prop) (run run' : Nat → Outcome (Interpreter η) Unit) :
    Prop :=
  (Diverges run ∧ Diverges run') ∨
    ∃ i i', ((EndsAs run (.done () i) ∧ EndsAs run' (.done () i')) ∨
        ∃ e, EndsAs run (.failed e i) ∧ EndsAs run' (.failed e i')) ∧
      ∃ W, FunctionDecl.Pairing N W ∧ CorrespondAll W i.output i'.output ∧
        i.output.map Value.display = i'.output.map Value.display ∧
        ∀ v v' w w' : Value η, Corresponds W v v' → Corresponds W w w' →
          (v == w) = (v' == w')

/-- **Runs depend on identifiers only through their text.** Take two interners, each reached
by interning any texts in any order, and a program over each, such that the two become one
tree when names are replaced by their texts. Then the runs of the two correspond. -/
theorem Program.run_alike (texts texts' : List String) (p p' : Program)
    (h : Program.Alike (.reached texts) (.reached texts') p p') :
    RunsCorrespond (η := η) (Interner.SameText (.reached texts) (.reached texts'))
      (p.run · (.reached texts)) (p'.run · (.reached texts')) := by
  have ht := Interner.wellFormed_reached texts
  have ht' := Interner.wellFormed_reached texts'
  have hN := Interner.naming_sameText ht ht' ht ht' (.refl _) (.refl _)
  have hmono := Program.run_fuelMonotone (η := η) (.reached texts) p
  have hmono' := Program.run_fuelMonotone (η := η) (.reached texts') p'
  rcases hmono.ends_agree hmono' fun fuel => Program.run_agree ht ht' fuel h with
    hd | ⟨i, i', hends, W, hdecl, -, hout⟩
  · exact Or.inl hd
  · have hW := hdecl.pairing hN
    refine Or.inr ⟨i, i', hends, W, hW, hout, hout.map_display_eq, ?_⟩
    intro v v' w w' hv hw
    exact hv.beq_eq hW.sameObject_eq hw

/-- Declares a function `f` that gives its argument `x` back, prints it and what it gives for
`true`, and fails on `x`, which is not bound outside. -/
def identityProgram (f x : Name) (serial : Nat) : Program :=
  ⟨[.function ⟨f, serial, [x], .identifier x⟩, .print (.identifier f),
    .print (.call f [.bool true]), .print (.identifier x)]⟩

theorem Program.run_alike_identityProgram :
    Program.Alike (.reached ["f", "x"]) (.reached ["x", "y", "f"])
        (identityProgram ⟨1⟩ ⟨2⟩ 1) (identityProgram ⟨3⟩ ⟨1⟩ 2) ∧
      RunsCorrespond (η := Empty)
        (Interner.SameText (.reached ["f", "x"]) (.reached ["x", "y", "f"]))
        ((identityProgram ⟨1⟩ ⟨2⟩ 1).run · (.reached ["f", "x"]))
        ((identityProgram ⟨3⟩ ⟨1⟩ 2).run · (.reached ["x", "y", "f"])) := by
  have hf : Interner.SameText (.reached ["f", "x"]) (.reached ["x", "y", "f"]) ⟨1⟩ ⟨3⟩ := by
    decide
  have hx : Interner.SameText (.reached ["f", "x"]) (.reached ["x", "y", "f"]) ⟨2⟩ ⟨1⟩ := by
    decide
  have halike : Program.Alike (.reached ["f", "x"]) (.reached ["x", "y", "f"])
      (identityProgram ⟨1⟩ ⟨2⟩ 1) (identityProgram ⟨3⟩ ⟨1⟩ 2) :=
    .cons (.function ⟨hf, .cons hx .nil, .identifier hx⟩) <|
      .cons (.print (.identifier hf)) <|
        .cons (.print (.call hf (.cons (.bool true) .nil))) <|
          .cons (.print (.identifier hx)) .nil
  exact ⟨halike, Program.run_alike _ _ _ _ halike⟩

end Programs

end DynScope
