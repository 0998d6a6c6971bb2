import DynScope.Proofs.Occurrence
import DynScope.Proofs.Prelude
import DynScope.Proofs.Printing
import DynScope.Proofs.Refinement
import DynScope.Proofs.TwoRuns

/-!
# DynScope.Proofs.Independence

**Bindings that are not mentioned do not matter, and neither do the frames they are spread
over.** With dynamic scope a callee reads whatever its callers have bound, so the names that
a block mentions are not all that can matter to it: a function that is at hand mentions
names of its own. Take a set `N` of names that holds those of the block and those of every
function that can be reached from a name in `N`. From two environments that agree on `N` the
block then runs alike (`Stmt.execAll_blind_to_unmentioned`).

How it works:

* `Value.Confined N` is what a callable has to satisfy. Nothing that a run does makes a
  callable (`Every.binary`, `Builtin.PassesOn.every`), so whatever a name of `N` comes to
  be bound to is confined again. This is the invariant `Store.AgreeOn`.
* Parameters need not be in `N`. Binding them keeps two stores in agreement all the same,
  since both get the same values.
* The frames are forgotten before anything is compared (`Stmt.execAll_flat`).
-/

namespace DynScope

variable {η : Type} [Host η]

/-- What a callable may do for its calls to depend on the names of `N` alone: the body of a
function mentions no other name, and a host function makes no callable. -/
def Value.Confined (N : Set Name) : Value η → Prop
  | .function d => ∀ n ∈ d.body.names, n ∈ N
  | .builtin b => b.PassesOn
  | .number _ | .bool _ | .array .. => True

namespace Copying

variable {N : Set Name} {texts texts' : Interner}

/-! ### Stores and expressions -/

/-- The names of `N` are bound alike, to values in which every callable is confined. -/
def Store.AgreeOn (N : Set Name) (m m' : Store η) : Prop :=
  ∀ n ∈ N, m n = m' n ∧ ∀ v, m n = some v → v.Every (Value.Confined N)

theorem Store.AgreeOn.insert {m m' : Store η} (h : Store.AgreeOn N m m') (n : Name)
    {v : Value η} (hv : v.Every (Value.Confined N)) :
    Store.AgreeOn N (m.insert n v) (m'.insert n v) := by
  intro k hk
  rw [Store.insert, Store.insert]
  split
  · refine ⟨rfl, fun w hw => ?_⟩
    obtain rfl := Option.some.inj hw
    exact hv
  · exact h k hk

theorem Store.AgreeOn.insertAll (ns : List Name) {vs : List (Value η)}
    (hvs : ∀ v ∈ vs, v.Every (Value.Confined N)) {m m' : Store η} (h : Store.AgreeOn N m m') :
    Store.AgreeOn N (m.insertAll ns vs) (m'.insertAll ns vs) := by
  induction ns generalizing m m' vs with
  | nil => simpa only [Store.insertAll] using h
  | cons n ns ih =>
      cases vs with
      | nil => exact h
      | cons v vs =>
          have hv := hvs v List.mem_cons_self
          exact ih (fun w hw => hvs w (List.mem_cons_of_mem _ hw)) (h.insert n hv)

/-- One value, in which every callable is confined. -/
def Shared (N : Set Name) (v v' : Value η) : Prop := v = v' ∧ v.Every (Value.Confined N)

/-- One list of values, in which every callable is confined. -/
def SharedAll (N : Set Name) (vs vs' : List (Value η)) : Prop :=
  vs = vs' ∧ ∀ v ∈ vs, v.Every (Value.Confined N)

theorem ofExcept_agreeOn {r : Except EvalError (Value η)}
    (h : ∀ v, r = .ok v → v.Every (Value.Confined N)) :
    Result.Agree (Shared N) (.ofExcept r) (.ofExcept r) := by
  cases r with
  | ok v => exact .value ⟨rfl, h v rfl⟩
  | error e => exact .error e

theorem read_agreeOn (htexts : ∀ n ∈ N, texts.text n = texts'.text n) {m m' : Store η}
    (h : Store.AgreeOn N m m') {n : Name} (hn : n ∈ N) :
    Result.Agree (Shared N) (read texts m n) (read texts' m' n) := by
  obtain ⟨heq, hv⟩ := h n hn
  rw [read, read, ← heq, htexts n hn]
  cases hm : m n with
  | some v => exact .value ⟨rfl, hv v hm⟩
  | none => exact .error _

section Expressions

variable {apply apply' : Store η → FunctionDecl → List (Value η) → Result (Value η)}

mutual
theorem evalWith_agreeOn (htexts : ∀ n ∈ N, texts.text n = texts'.text n)
    (happly : ∀ {m m' d vs}, Store.AgreeOn N m m' → (∀ n ∈ d.body.names, n ∈ N) →
      (∀ v ∈ vs, v.Every (Value.Confined N)) →
        Result.Agree (Shared N) (apply m d vs) (apply' m' d vs))
    {m m' : Store η} (hm : Store.AgreeOn N m m') : ∀ e : Expr, (∀ n ∈ e.names, n ∈ N) →
      Result.Agree (Shared N) (evalWith texts apply m e) (evalWith texts' apply' m' e)
  | .numeral x, _ => by
      simp only [evalWith]
      exact .value ⟨rfl, Value.every_number x⟩
  | .bool b, _ => by
      simp only [evalWith]
      exact .value ⟨rfl, Value.every_bool b⟩
  | .identifier n, hN => by
      simp only [evalWith]
      exact read_agreeOn htexts hm (hN n (by simp [Expr.names]))
  | .binary op l r, hN => by
      simp only [Expr.names, List.forall_mem_append] at hN
      have hl := evalWith_agreeOn htexts happly hm l hN.1
      have hr := evalWith_agreeOn htexts happly hm r hN.2
      simp only [evalWith]
      refine hl.bind fun v v' ⟨hvv, hv⟩ => hr.bind fun w w' ⟨hww, hw⟩ => ?_
      rw [← hvv, ← hww]
      exact ofExcept_agreeOn fun u hu => hv.binary hw hu
  | .unary op e, hN => by
      have he := evalWith_agreeOn htexts happly hm e hN
      simp only [evalWith]
      refine he.bind fun v v' ⟨hvv, _⟩ => ?_
      rw [← hvv]
      exact ofExcept_agreeOn fun u hu => Value.every_unary hu
  | .conditional test consequent alternate, hN => by
      simp only [Expr.names, List.forall_mem_append] at hN
      obtain ⟨⟨htest, hconsequent⟩, halternate⟩ := hN
      simp only [evalWith]
      refine (evalWith_agreeOn htexts happly hm test htest).bind fun v v' ⟨hvv, _⟩ => ?_
      rw [← hvv]
      split
      · exact evalWith_agreeOn htexts happly hm consequent hconsequent
      · exact evalWith_agreeOn htexts happly hm alternate halternate
  | .call callee args, hN => by
      simp only [Expr.names, List.forall_mem_cons] at hN
      have hargs := evalAllWith_agreeOn htexts happly hm args hN.2
      have hcallee := htexts callee hN.1
      simp only [evalWith]
      refine (read_agreeOn htexts hm hN.1).bind fun f f' ⟨hff, hf⟩ => ?_
      rw [← hff]
      cases f with
      | builtin b =>
          refine hargs.bind fun vs vs' ⟨hvv, hvs⟩ => ?_
          have hb : b.PassesOn := (Value.every_builtin b).mp hf
          rw [← hvv]
          exact ofExcept_agreeOn fun u hu => hb.every hvs hu
      | function d =>
          have hbody : ∀ n ∈ d.body.names, n ∈ N := (Value.every_function d).mp hf
          dsimp only
          rw [hcallee]
          split
          · refine hargs.bind fun vs vs' ⟨hvv, hvs⟩ => ?_
            rw [← hvv]
            exact happly hm hbody hvs
          · exact .error _
      | number _ | bool _ | array _ _ =>
          dsimp only
          rw [hcallee]
          exact .error _
  | .array es, hN => by
      have hes := evalAllWith_agreeOn htexts happly hm es hN
      simp only [evalWith]
      refine hes.bind fun vs vs' ⟨hvv, hvs⟩ => ?_
      rw [← hvv]
      exact .value ⟨rfl, (Value.every_array none vs).mpr hvs⟩
  | .subscript base index, hN => by
      simp only [Expr.names, List.forall_mem_append] at hN
      have hbase := evalWith_agreeOn htexts happly hm base hN.1
      have hindex := evalWith_agreeOn htexts happly hm index hN.2
      simp only [evalWith]
      refine hbase.bind fun v v' ⟨hvv, hv⟩ => hindex.bind fun w w' ⟨hww, _⟩ => ?_
      rw [← hvv, ← hww]
      exact ofExcept_agreeOn fun u hu => hv.subscript hu
theorem evalAllWith_agreeOn (htexts : ∀ n ∈ N, texts.text n = texts'.text n)
    (happly : ∀ {m m' d vs}, Store.AgreeOn N m m' → (∀ n ∈ d.body.names, n ∈ N) →
      (∀ v ∈ vs, v.Every (Value.Confined N)) →
        Result.Agree (Shared N) (apply m d vs) (apply' m' d vs))
    {m m' : Store η} (hm : Store.AgreeOn N m m') :
    ∀ es : List Expr, (∀ n ∈ Expr.namesAll es, n ∈ N) →
      Result.Agree (SharedAll N) (evalAllWith texts apply m es) (evalAllWith texts' apply' m' es)
  | [], _ => by
      simp only [evalAllWith]
      exact .value ⟨rfl, nofun⟩
  | e :: es, hN => by
      simp only [Expr.namesAll, List.forall_mem_append] at hN
      have he := evalWith_agreeOn htexts happly hm e hN.1
      have hes := evalAllWith_agreeOn htexts happly hm es hN.2
      simp only [evalAllWith]
      refine he.bind fun v v' ⟨hvv, hv⟩ => hes.bind fun vs vs' ⟨hvvs, hvs⟩ => ?_
      rw [← hvv, ← hvvs]
      exact .value ⟨rfl, List.forall_mem_cons.mpr ⟨hv, hvs⟩⟩
end

theorem call_agreeOn (htexts : ∀ n ∈ N, texts.text n = texts'.text n) (fuel : Nat)
    {m m' : Store η} {d : FunctionDecl} {vs : List (Value η)} (hm : Store.AgreeOn N m m')
    (hd : ∀ n ∈ d.body.names, n ∈ N) (hvs : ∀ v ∈ vs, v.Every (Value.Confined N)) :
    Result.Agree (Shared N) (call texts fuel m d vs) (call texts' fuel m' d vs) := by
  induction fuel generalizing m m' d vs with
  | zero => exact .exhausted
  | succ fuel ih => exact evalWith_agreeOn htexts ih (hm.insertAll d.params hvs) d.body hd

theorem eval_agreeOn (htexts : ∀ n ∈ N, texts.text n = texts'.text n) (fuel : Nat)
    {m m' : Store η} (hm : Store.AgreeOn N m m') {e : Expr} (he : ∀ n ∈ e.names, n ∈ N) :
    Result.Agree (Shared N) (eval texts fuel m e) (eval texts' fuel m' e) :=
  evalWith_agreeOn htexts (call_agreeOn htexts fuel) hm e he

end Expressions

/-! ### Statements -/

/-- The bindings agree on `N`, and the same values have been printed. -/
def State.AgreeOn (N : Set Name) (s s' : State η) : Prop :=
  Store.AgreeOn N s.vars s'.vars ∧ s.output = s'.output

theorem State.AgreeOn.insert {s s' : State η} (h : State.AgreeOn N s s') (n : Name)
    {v : Value η} (hv : v.Every (Value.Confined N)) :
    State.AgreeOn N { s with vars := s.vars.insert n v } { s' with vars := s'.vars.insert n v } :=
  ⟨h.1.insert n hv, h.2⟩

/-- Going on from one expression, which comes to one value in both states. -/
theorem proceed_agreeOn (htexts : ∀ n ∈ N, texts.text n = texts'.text n) (fuel : Nat)
    {s s' : State η} (hs : State.AgreeOn N s s') {e : Expr} (he : ∀ n ∈ e.names, n ∈ N)
    {next next' : Value η → Outcome (State η) Unit}
    (hnext : ∀ v, v.Every (Value.Confined N) →
      Outcome.Agree (State.AgreeOn N) (next v) (next' v)) :
    Outcome.Agree (State.AgreeOn N) (s.proceed (eval texts fuel s.vars e) next)
      (s'.proceed (eval texts' fuel s'.vars e) next') := by
  refine proceed_agree hs (eval_agreeOn htexts fuel hs.1 he) fun v v' ⟨hvv, hv⟩ => ?_
  rw [← hvv]
  exact hnext v hv

mutual
theorem exec_agreeOn (htexts : ∀ n ∈ N, texts.text n = texts'.text n) (fuel : Nat) :
    ∀ (st : Stmt), (∀ n ∈ st.names, n ∈ N) → ∀ {s s' : State η}, State.AgreeOn N s s' →
      Outcome.Agree (State.AgreeOn N) (exec texts fuel st s) (exec texts' fuel st s')
  | .block body, hN, s, s', hs => by
      simp only [exec]
      exact execAll_agreeOn htexts fuel body hN hs
  | .declare n e, hN, s, s', hs => by
      simp only [Stmt.names, List.forall_mem_cons] at hN
      simp only [exec, ← (hs.1 n hN.1).1, htexts n hN.1]
      split
      · exact .failed _ hs
      · exact proceed_agreeOn htexts fuel hs hN.2 fun v hv => .done () (hs.insert n hv)
  | .assign n e, hN, s, s', hs => by
      simp only [Stmt.names, List.forall_mem_cons] at hN
      simp only [exec, ← (hs.1 n hN.1).1, htexts n hN.1]
      split
      · exact proceed_agreeOn htexts fuel hs hN.2 fun v hv => .done () (hs.insert n hv)
      · exact .failed _ hs
  | .print e, hN, s, s', hs => by
      simp only [exec]
      refine proceed_agreeOn htexts fuel hs hN fun v _ => ?_
      rw [hs.2]
      exact .done () ⟨hs.1, rfl⟩
  | .loop condition body, hN, s, s', hs => by
      simp only [Stmt.names, List.forall_mem_append] at hN
      simp only [exec]
      refine repeatWhile_agree (fun hs => ?_) (execAll_agreeOn htexts fuel body hN.2) fuel hs
      exact (eval_agreeOn htexts fuel hs.1 hN.1).mono fun _ _ hv => congrArg _ hv.1
  | .function d, hN, s, s', hs => by
      simp only [Stmt.names, List.forall_mem_cons] at hN
      have hd : (Value.function d : Value η).Every (Value.Confined N) :=
        (Value.every_function d).mpr hN.2
      simp only [exec, ← (hs.1 d.name hN.1).1, htexts d.name hN.1]
      split
      · exact .failed _ hs
      · exact .done () (hs.insert d.name hd)
theorem execAll_agreeOn (htexts : ∀ n ∈ N, texts.text n = texts'.text n) (fuel : Nat) :
    ∀ (b : Block), (∀ n ∈ Stmt.namesAll b, n ∈ N) → ∀ {s s' : State η}, State.AgreeOn N s s' →
      Outcome.Agree (State.AgreeOn N) (execAll texts fuel b s) (execAll texts' fuel b s')
  | [], _, s, s', hs => by
      simp only [execAll]
      exact .done () hs
  | st :: rest, hN, s, s', hs => by
      simp only [Stmt.namesAll, List.forall_mem_append] at hN
      have hst := exec_agreeOn htexts fuel st hN.1 hs
      simp only [execAll]
      exact hst.andThen fun _ _ _ => execAll_agreeOn htexts fuel rest hN.2
end

end Copying

/-! ### Executions on frames -/

/-- Executions from `s` and `s'` that ended in `t` and `t'` printed the same values, and left
the names of `N` bound alike. -/
def State.SameCourse (N : Set Name) (s s' t t' : State η) : Prop :=
  (∃ printed : Array (Value η),
    t.output = s.output ++ printed ∧ t'.output = s'.output ++ printed ∧
      t.sink = printed.foldl (fun k v => k.writeLine v.display) s.sink ∧
      t'.sink = printed.foldl (fun k v => k.writeLine v.display) s'.sink) ∧
    ∀ n ∈ N, t.env.lookup? n = t'.env.lookup? n

theorem Stmt.execAll_sameCourse {N : Set Name} {texts texts' : Interner}
    (htexts : ∀ n ∈ N, texts.text n = texts'.text n) (fuel : Nat) {b : Block}
    (hb : ∀ n ∈ Stmt.namesAll b, n ∈ N) {s s' : State η}
    (hs : Copying.Store.AgreeOn N s.env.lookup? s'.env.lookup?) :
    Outcome.Agree (State.SameCourse N s s') (Stmt.execAll texts fuel b s)
      (Stmt.execAll texts' fuel b s') := by
  obtain ⟨env, output, sink⟩ := s
  obtain ⟨env', output', sink'⟩ := s'
  -- What has been printed before is set aside, so that both executions start from no output.
  have hbare : Outcome.Agree (fun t t' : State η => Copying.State.AgreeOn N t.flat t'.flat)
      (Stmt.execAll texts fuel b { env, output := #[], sink := .discard })
      (Stmt.execAll texts' fuel b { env := env', output := #[], sink := .discard }) := by
    apply Outcome.Agree.of_mapState
    rw [Stmt.execAll_flat, Stmt.execAll_flat]
    exact Copying.execAll_agreeOn htexts fuel b hb ⟨hs, rfl⟩
  rw [Stmt.execAll_printedOnto texts fuel b env output sink,
    Stmt.execAll_printedOnto texts' fuel b env' output' sink']
  refine hbare.mapState fun t t' ⟨hvars, hout⟩ => ⟨⟨t.output, ?_⟩, fun n hn => (hvars n hn).1⟩
  have houtput : t.output = t'.output := Array.toList_inj.mp hout
  simp only [State.printedOnto, houtput, and_self]

/-! ### Tables that differ where a program does not look -/

/-- A value of a table that no run can leave its own names by: it holds no function, and its
host functions make none. -/
def Value.Inert : Value η → Prop
  | .builtin b => b.PassesOn
  | .function _ => False
  | .number _ | .bool _ | .array .. => True

theorem Value.Every.confined_of_inert {v : Value η} (h : v.Every Value.Inert) (N : Set Name) :
    v.Every (Value.Confined N) := by
  intro c hc
  have hinert := h c hc
  cases c with
  | function d => exact hinert.elim
  | builtin b => exact hinert
  | number _ | bool _ | array _ _ => trivial

theorem Prelude.standard_inert :
    ∀ entry ∈ (standard : Prelude η).entries, entry.2.Every Value.Inert := by
  have hhost : ∀ (p : Prelude η) (name : String) (f : MathFn),
      (∀ entry ∈ p.entries, entry.2.Every Value.Inert) →
        ∀ entry ∈ (p.insertHost name (.math f)).entries, entry.2.Every Value.Inert := by
    intro p name f h
    refine forall_mem_insert (P := fun v => v.Every Value.Inert) h name ?_
    exact (Value.every_builtin _).mpr (Builtin.passesOn_math name 0 f)
  refine forall_mem_insert (P := fun v => v.Every Value.Inert) ?_ "π" (Value.every_number pi)
  iterate 6 refine hhost _ _ _ ?_
  exact nofun

/-- The interpreters printed the same values and lines, and bind the names alike. -/
def Interpreter.SameResult (names : List Name) (i i' : Interpreter η) : Prop :=
  i.output = i'.output ∧ i.state.sink = i'.state.sink ∧
    ∀ n ∈ names, i.env.lookup? n = i'.env.lookup? n

/-- Interpreters whose preludes have one value for each text of a program run it alike. -/
theorem Interpreter.interpret_sameResult {t : Interner} (ht : t.WellFormed) {c c' : Setup η}
    {p : Program} (hp : ∀ n ∈ p.names, t.Holds n)
    (hsame : Setup.SameOn (p.names.map t.text) c c') (hc : c.prelude.names.Nodup)
    (hc' : c'.prelude.names.Nodup)
    (hinert : ∀ entry ∈ c.prelude.entries, entry.2.Every Value.Inert) (fuel : Nat) :
    Outcome.Agree (SameResult p.names) ((new t c).interpret fuel p) ((new t c').interpret fuel p) := by
  have htexts : ∀ n ∈ {n | n ∈ p.names}, (c.prelude.environment t).1.text n =
      (c'.prelude.environment t).1.text n := by
    intro n hn
    have hleft := (c.prelude.extends_environment t).holds_text ht
      (c.prelude.wellFormed_environment ht) (hp n hn)
    have hright := (c'.prelude.extends_environment t).holds_text ht
      (c'.prelude.wellFormed_environment ht) (hp n hn)
    rw [hleft.2, hright.2]
  have hstart : Copying.Store.AgreeOn {n | n ∈ p.names} (c.prelude.environment t).2.lookup?
      (c'.prelude.environment t).2.lookup? := by
    intro n hn
    rw [Prelude.lookup?_environment hc ht (hp n hn),
      Prelude.lookup?_environment hc' ht (hp n hn)]
    refine ⟨hsame.2 _ (List.mem_map_of_mem hn), fun v hv => ?_⟩
    obtain ⟨before, after, hentries, -⟩ := List.lookup_eq_some_iff.mp hv
    have hmem : (t.text n, v) ∈ c.prelude.entries := by simp [hentries]
    exact (hinert _ hmem).confined_of_inert _
  refine (Stmt.execAll_sameCourse htexts fuel (fun n hn => hn) hstart).mapState ?_
  rintro s s' ⟨⟨printed, hout, hout', hsink, hsink'⟩, hvars⟩
  refine ⟨?_, ?_, hvars⟩
  · show s.output.toList = s'.output.toList
    rw [hout, hout']
  · show s.sink = s'.sink
    rw [hsink, hsink']
    exact congrArg (fun k => printed.foldl (fun k v => k.writeLine v.display) k) hsame.1

/-! ### Independence -/

/-- **Unmentioned bindings and frames cannot influence execution.** Let `N` hold the names of
a block, and let two environments of any number of frames bind the names of `N` alike, to
values whose functions mention names of `N` only and whose host functions make no callables.
Then the block goes on for ever from both, or succeeds from both, or fails from both with one
error; it prints the same values and leaves the names of `N` bound alike.

So where a table holds no functions, further entries under texts that a program does not
mention change nothing about its run. -/
theorem Stmt.execAll_blind_to_unmentioned :
    (∀ (texts : Interner) (N : Set Name) (b : Block) (s s' : State η),
      (∀ n ∈ Stmt.namesAll b, n ∈ N) →
      (∀ n ∈ N, s.env.lookup? n = s'.env.lookup? n) →
      (∀ n ∈ N, ∀ v, s.env.lookup? n = some v → v.Every (Value.Confined N)) →
      EndAlike (State.SameCourse N s s') (Stmt.execAll texts · b s)
        (Stmt.execAll texts · b s')) ∧
    ∀ (texts : List String) (before extra after : List (Setting η)) (p : Program),
      (∀ n ∈ p.names, (Interner.reached texts).Holds n) →
      (∀ st ∈ extra, st.RegistersOutside (p.names.map (Interner.reached texts).text)) →
      (∀ entry ∈ (Setup.ofSettings (before ++ after)).prelude.entries,
        entry.2.Every Value.Inert) →
      EndAlike (Interpreter.SameResult p.names)
        ((Interpreter.new (.reached texts) (.ofSettings (before ++ after))).interpret · p)
        ((Interpreter.new (.reached texts) (.ofSettings (before ++ extra ++ after))).interpret
          · p) := by
  constructor
  · intro texts N b s s' hb hsame hconfined
    have hmono := Stmt.execAll_fuelMonotone texts b s
    have hmono' := Stmt.execAll_fuelMonotone texts b s'
    refine hmono.ends_agree hmono' fun fuel => ?_
    exact Stmt.execAll_sameCourse (fun _ _ => rfl) fuel hb
      fun n hn => ⟨hsame n hn, hconfined n hn⟩
  · intro texts before extra after p hp hextra hinert
    have hmono := Interpreter.interpret_fuelMonotone
      (Interpreter.new (.reached texts) (.ofSettings (before ++ after))) p
    have hmono' := Interpreter.interpret_fuelMonotone
      (Interpreter.new (.reached texts) (.ofSettings (before ++ extra ++ after))) p
    refine hmono.ends_agree hmono' fun fuel => ?_
    exact Interpreter.interpret_sameResult (Interner.wellFormed_reached texts) hp
      (Setup.sameOn_ofSettings before after hextra) (Setup.nodup_names_ofSettings _)
      (Setup.nodup_names_ofSettings _) hinert fuel

/-- Pairs its argument, the name 5, with whatever the name 1 is bound to. -/
def pairing : FunctionDecl :=
  { name := ⟨2⟩, serial := 1, params := [⟨5⟩], body := .array [.identifier ⟨5⟩, .identifier ⟨1⟩] }

/-- Takes a function out of the array 3, names it 4 and calls it. -/
def callFromArray : Block :=
  [.declare ⟨4⟩ (.subscript (.identifier ⟨3⟩) (.numeral 0)), .print (.call ⟨4⟩ [.bool true])]

/-- The names of `callFromArray` and of `pairing`. -/
def pairingNames : Set Name := {n | n ∈ [(⟨1⟩ : Name), ⟨3⟩, ⟨4⟩, ⟨5⟩]}

/-- A state that binds 1 and 3 in the innermost frame of `env`. -/
def State.withPairing (env : Environment Empty) : State Empty where
  env := (env.bind ⟨1⟩ (.bool true)).bind ⟨3⟩ (.array none [.function pairing])
  output := #[]
  sink := .discard

/-- The program calls `sin` with `y`, and neither mentions `z` nor `w`. -/
theorem Stmt.execAll_blind_to_unmentioned_hidden :
    ((∀ n ∈ Stmt.namesAll callFromArray, n ∈ pairingNames) ∧
      EndAlike
        (State.SameCourse pairingNames (.withPairing .empty)
          (.withPairing (Environment.empty.bind ⟨1⟩ (.bool false)).snapshot.2))
        (Stmt.execAll .empty · callFromArray (.withPairing .empty))
        (Stmt.execAll .empty · callFromArray
          (.withPairing (Environment.empty.bind ⟨1⟩ (.bool false)).snapshot.2))) ∧
    (∀ st ∈ [Setting.host "z" (.math .sin), .constant "w" (.function pairing)],
        st.RegistersOutside (η := Empty) ["sin", "y"]) ∧
      EndAlike (Interpreter.SameResult (η := Empty) [⟨1⟩, ⟨2⟩])
        ((Interpreter.new (.reached ["sin", "y"]) (.ofSettings ([.constant "y" (.bool true)] ++
          []))).interpret · ⟨[.print (.call ⟨1⟩ [.identifier ⟨2⟩])]⟩)
        ((Interpreter.new (.reached ["sin", "y"]) (.ofSettings ([.constant "y" (.bool true)] ++
          [.host "z" (.math .sin), .constant "w" (.function pairing)] ++ []))).interpret ·
            ⟨[.print (.call ⟨1⟩ [.identifier ⟨2⟩])]⟩) := by
  have hnames : ∀ n ∈ Stmt.namesAll callFromArray, n ∈ pairingNames := by
    simp [callFromArray, Stmt.namesAll, Stmt.names, Expr.names, pairingNames, Expr.namesAll]
  have hextra : ∀ st ∈ [Setting.host "z" (.math .sin), .constant "w" (.function pairing)],
      st.RegistersOutside (η := Empty) ["sin", "y"] := by
    simp [Setting.RegistersOutside]
  refine ⟨⟨hnames, Stmt.execAll_blind_to_unmentioned.1 _ _ _ _ _ hnames ?_ ?_⟩, hextra,
    Stmt.execAll_blind_to_unmentioned.2 ["sin", "y"] _ _ [] _ ?_ hextra ?_⟩
  · intro n hn
    simp only [pairingNames, List.mem_cons, List.not_mem_nil, or_false, Set.mem_ofPred_eq] at hn
    rcases hn with rfl | rfl | rfl | rfl <;> rfl
  · have hpairing : (Value.array none [.function pairing] : Value Empty).Every
        (Value.Confined pairingNames) := by
      simp [Value.Every, Value.callables, Value.callablesAll, Value.Confined, pairing, Expr.names,
        Expr.namesAll, pairingNames]
    intro n hn v hv
    simp only [pairingNames, List.mem_cons, List.not_mem_nil, or_false, Set.mem_ofPred_eq] at hn
    rcases hn with rfl | rfl | rfl | rfl
    · obtain rfl : Value.bool true = v := Option.some.inj hv
      exact Value.every_bool true
    · obtain rfl : Value.array none [.function pairing] = v := Option.some.inj hv
      exact hpairing
    · cases hv
    · cases hv
  · decide
  · exact Prelude.forall_mem_insert (P := fun v => v.Every Value.Inert) Prelude.standard_inert "y"
      (Value.every_bool true)

end DynScope
