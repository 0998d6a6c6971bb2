import DynScope.Proofs.Tracing
import DynScope.Proofs.Replay

/-!
# DynScope.Proofs.CallChain

**The frames mirror the active calls.** Wherever a run is, the environment consists of the
global frame that the statement at hand started with and of one overlay for each call whose body
is being evaluated, and each overlay holds the arguments of its call under the names of the
parameters. A name therefore means the argument of the innermost active call that has a
parameter of that name, and what it is bound to at top level if there is none
(`Interpreter.trace_mirrors`).

How it works: what a record shows is explained by the part of the record before it. A point
outside of all calls has the environment that the statement started with, and a point inside a
call has the overlay of that call on the environment of an earlier point, at which the call was
made and all its arguments were evaluated (`Point.Placed`). One induction over the evaluator
establishes this (`traceCall_explained`); what the environments look like follows from it by
induction along the record (`Point.Explained.mirrors`).
-/

namespace DynScope

variable {η : Type}

/-! ### What the overlay of a call holds -/

/-- The argument for a parameter of the call. If the parameter name stands more than once, the
last one counts. -/
def Call.argument? (c : Call η) (n : Name) : Option (Value η) :=
  (c.decl.params.zip c.args).reverse.lookup n

/-- The overlay binds the parameter names of the call, each to its argument, and nothing else. -/
structure Call.Fills (c : Call η) (f : Frame η) : Prop where
  /-- There is an argument for every parameter. -/
  length_eq : c.args.length = c.decl.params.length
  /-- The names are those of the parameters. -/
  mem_iff : ∀ n, n ∈ f ↔ n ∈ c.decl.params
  /-- The values are the arguments. -/
  getElem?_eq : ∀ n, f[n]? = c.argument? n

/-- Of names bound in turn, the last binding counts, before what the overlay held. -/
theorem Environment.getElem?_bindAll (ns : List Name) (vs : List (Value η))
    {e : Environment η} {f : Frame η} {rest : List (Frame η)} (h : e.overlays = f :: rest) :
    ∃ f', (e.bindAll ns vs).overlays = f' :: rest ∧
      ∀ n, f'[n]? = ((ns.zip vs).reverse.lookup n).or f[n]? := by
  induction ns generalizing e f vs with
  | nil => exact ⟨f, by simp only [bindAll, h], fun n => by simp⟩
  | cons k ns ih =>
      cases vs with
      | nil => exact ⟨f, h, fun n => by simp⟩
      | cons v vs =>
          obtain ⟨g, o, height, hheight⟩ := e
          obtain rfl : o = f :: rest := h
          obtain ⟨f', hf', hget⟩ := ih vs (e := bind ⟨g, f :: rest, height, hheight⟩ k v) rfl
          refine ⟨f', hf', fun n => ?_⟩
          rw [hget n, List.zip_cons_cons, List.reverse_cons, List.lookup_append,
            Option.or_assoc, Std.TreeMap.getElem?_insert]
          congr 1
          by_cases hn : k = n
          · simp [hn]
          · simp [hn, List.lookup_cons, beq_false_of_ne (Ne.symm hn)]

theorem Call.isSome_argument?_iff {c : Call η} (h : c.args.length = c.decl.params.length)
    (n : Name) : (c.argument? n).isSome ↔ n ∈ c.decl.params := by
  have hnames : n ∈ (c.decl.params.zip c.args).map Prod.fst ↔ n ∈ c.decl.params := by
    rw [List.map_fst_zip (Nat.le_of_eq h.symm)]
  rw [argument?, List.lookup_isSome_iff, ← hnames]
  simp

/-- A call with an argument for every parameter fills the overlay that it pushes. -/
theorem Call.overlays_enter {c : Call η} (h : c.args.length = c.decl.params.length)
    (env : Environment η) :
    ∃ f, (c.enter env).overlays = f :: env.overlays ∧ c.Fills f := by
  obtain ⟨f, hf, hget⟩ :=
    Environment.getElem?_bindAll c.decl.params c.args (Environment.overlays_snapshot env)
  have hargs : ∀ n, f[n]? = c.argument? n := fun n => by
    rw [hget n, argument?, Std.TreeMap.getElem?_emptyc, Option.or_none]
  refine ⟨f, hf, h, fun n => ?_, hargs⟩
  rw [← c.isSome_argument?_iff h n, ← hargs n, Std.TreeMap.mem_iff_isSome_getElem?]

/-- The innermost overlay that has a name is that of the innermost call with such a
parameter. -/
theorem Call.findSome?_overlays {calls : List (Call η)} {overlays : List (Frame η)}
    (h : List.Forall₂ Call.Fills calls overlays) (n : Name) :
    overlays.findSome? (·[n]?) = calls.findSome? (·.argument? n) := by
  induction h with
  | nil => rfl
  | cons hfills _ ih => rw [List.findSome?_cons, List.findSome?_cons, hfills.getElem?_eq, ih]

/-! ### Points that mirror their calls -/

/-- The environment of a point consists of the global frame of `start` and of one overlay for
each active call. -/
structure Point.Mirrors (start : Environment η) (u : Point η) : Prop where
  /-- The global frame is the one of `start`. -/
  globals : u.env.globals = start.globals
  /-- The overlays hold the arguments of the calls, call by call. -/
  overlays : List.Forall₂ Call.Fills u.calls u.env.overlays
  /-- The frames are the global one and one for each call. -/
  depth : u.env.depth = 1 + u.calls.length
  /-- A name means the argument of the innermost call that has a parameter of that name, and
  otherwise what it is bound to at top level. -/
  lookup? : ∀ n, u.env.lookup? n = (u.calls.findSome? (·.argument? n)).or start.globals[n]?

/-- Overlays that hold the arguments of calls determine the rest. -/
theorem Point.Mirrors.of_overlays {start : Environment η} {u : Point η}
    (hglobals : u.env.globals = start.globals)
    (hoverlays : List.Forall₂ Call.Fills u.calls u.env.overlays) : u.Mirrors start where
  globals := hglobals
  overlays := hoverlays
  depth := by rw [Environment.depth_eq, hoverlays.length_eq, Nat.add_comm]
  lookup? n := by
    rw [Environment.lookup?, Call.findSome?_overlays hoverlays, hglobals]
    cases u.calls.findSome? (·.argument? n) <;> rfl

/-! ### Points explained by earlier points -/

section Explained

variable [Host η] (texts : Interner) (start : Environment η)

/-- A place in calls and an environment, explained by the points seen so far. Outside of all
calls the environment is the one that the statement started with. Inside a call it is the overlay
of that call on the caller's environment, where the call was made; there, during the outer calls
alone, all the arguments were evaluated, and they came to the values of the call. -/
inductive Point.Placed (seen : List (Point η)) : List (Call η) → Environment η → Prop
  | outside : Point.Placed seen [] start
  | inside {calls env callee args c} : ⟨calls, env, .call callee args⟩ ∈ seen →
      (∀ arg ∈ args, ⟨calls, env, arg⟩ ∈ seen) → Expr.Invokes texts env (.call callee args) c →
      Point.Placed seen (c :: calls) (c.enter env)

/-- Each of the points is explained by those before it. -/
inductive Point.Explained : List (Point η) → List (Point η) → Prop
  | nil {seen} : Point.Explained seen []
  | cons {seen u rest} : Point.Placed texts start seen u.calls u.env →
      Point.Explained (seen ++ [u]) rest → Point.Explained seen (u :: rest)

variable {texts} {start}

theorem Point.Placed.mono {seen seen' : List (Point η)} {calls : List (Call η)}
    {env : Environment η} (h : Point.Placed texts start seen calls env) (hseen : seen ⊆ seen') :
    Point.Placed texts start seen' calls env := by
  cases h with
  | outside => exact .outside
  | inside hcall hargs hinvokes =>
      exact .inside (hseen hcall) (fun arg harg => hseen (hargs arg harg)) hinvokes

theorem Point.Placed.append {seen more : List (Point η)} {calls : List (Call η)}
    {env : Environment η} (h : Point.Placed texts start seen calls env) :
    Point.Placed texts start (seen ++ more) calls env :=
  h.mono (List.subset_append_left seen more)

/-- A place that is explained mirrors its calls, if the points that explain it do: an explanation
adds one call and one overlay at a time. -/
theorem Point.Placed.mirrors {seen : List (Point η)} {calls : List (Call η)}
    {env : Environment η} (h : Point.Placed texts start seen calls env)
    (hstart : start.overlays = []) (hseen : ∀ u ∈ seen, u.Mirrors start) (e : Expr) :
    Point.Mirrors start ⟨calls, env, e⟩ := by
  cases h with
  | outside => exact .of_overlays rfl (by rw [hstart]; exact .nil)
  | @inside calls env callee args c hcall _ hinvokes =>
      have hcaller := hseen _ hcall
      have hargs : c.args.length = c.decl.params.length := by
        cases hinvokes with
        | call _ harity hvs => exact hvs.length_eq.symm.trans harity
      obtain ⟨f, hf, hfills⟩ := Call.overlays_enter hargs env
      refine .of_overlays ((c.globals_enter env).trans hcaller.globals) ?_
      rw [hf]
      exact .cons hfills hcaller.overlays

namespace Point.Explained

variable {seen us us' : List (Point η)}

theorem append (h : Explained texts start seen us)
    (h' : Explained texts start (seen ++ us) us') : Explained texts start seen (us ++ us') := by
  induction h with
  | nil => rwa [List.append_nil] at h'
  | cons hplaced _ ih =>
      refine .cons hplaced (ih ?_)
      rwa [List.append_assoc, List.singleton_append]

/-- Any point of the record is explained by what stands before it. -/
theorem placed_of_split {before after : List (Point η)} {u : Point η}
    (h : Explained texts start seen us) (hus : us = before ++ u :: after) :
    Placed texts start (seen ++ before) u.calls u.env := by
  induction before generalizing seen us with
  | nil =>
      obtain rfl : us = u :: after := hus
      cases h with
      | cons hplaced _ => rwa [List.append_nil]
  | cons v before ih =>
      obtain rfl : us = v :: (before ++ u :: after) := hus
      cases h with
      | cons _ hrest =>
          have hplaced := ih hrest rfl
          rwa [List.append_assoc, List.singleton_append] at hplaced

/-- All points of a record that is explained mirror their calls. -/
theorem mirrors (hstart : start.overlays = []) (h : Explained texts start seen us)
    (hseen : ∀ u ∈ seen, u.Mirrors start) : ∀ u ∈ us, u.Mirrors start := by
  induction h with
  | nil => exact fun u hu => absurd hu List.not_mem_nil
  | @cons seen u rest hplaced _ ih =>
      have hu : u.Mirrors start := hplaced.mirrors hstart hseen u.expr
      refine List.forall_mem_cons.mpr ⟨hu, ih ?_⟩
      exact List.forall_mem_append.mpr ⟨hseen, List.forall_mem_singleton.mpr hu⟩

theorem bind {α β : Type} {m : Traced (Point η) η α} {f : α → Traced (Point η) η β}
    {s : State η} (hm : Explained texts start seen (m s).1)
    (hf : ∀ a s', (m s).2 = .done a s' →
      Explained texts start (seen ++ (m s).1) (f a s').1) :
    Explained texts start seen ((m >>= f) s).1 := by
  rcases Traced.records_bind m f s with h | ⟨a, s', hdone, h⟩
  · rwa [h]
  · rw [h]
    exact hm.append (hf a s' hdone)

end Point.Explained

end Explained

/-! ### Every evaluation explains its points -/

section Evaluation

open Traced

variable [Host η] {texts : Interner} {fuel : Nat} {start : Environment η}
  {seen : List (Point η)} {calls : List (Call η)} {s : State η}

omit [Host η] in
theorem Evaluation.lookup_eq_done {n : Name} {v : Value η} {s' : State η}
    (h : Evaluation.lookup texts n s = .done v s') : s' = s ∧ s.env.lookup? n = some v := by
  unfold Evaluation.lookup at h
  cases hv : s.env.lookup? n with
  | none =>
      rw [hv] at h
      cases h
  | some v' =>
      rw [hv] at h
      cases h
      exact ⟨rfl, rfl⟩

theorem Expr.outcome_traceWith (texts : Interner) (fuel : Nat) (calls : List (Call η)) (e : Expr)
    (s : State η) :
    (e.traceWith texts (traceCall texts fuel) calls s).2 = e.eval texts fuel s :=
  congrFun (Expr.erase_traceWith_traceCall texts fuel calls e) s

theorem Expr.traceWith_cases (texts : Interner) (fuel : Nat) (calls : List (Call η)) (e : Expr)
    (s : State η) :
    (e.traceWith texts (traceCall texts fuel) calls s).2 = .outOfFuel ∨
      (∃ v, Expr.ComesTo texts s.env e v ∧
        (e.traceWith texts (traceCall texts fuel) calls s).2 = .done v s) ∨
      ∃ err, (e.traceWith texts (traceCall texts fuel) calls s).2 = .failed err s := by
  rw [Expr.outcome_traceWith]
  rcases Expr.eval_cases texts fuel e s with h | h | ⟨err, -, h⟩
  · exact Or.inl h
  · exact Or.inr (Or.inl h)
  · exact Or.inr (Or.inr ⟨err, h⟩)

theorem Expr.state_eq_of_traceWith {e : Expr} {s' : State η}
    (h : (e.traceWith texts (traceCall texts fuel) calls s).2.state? = some s') : s' = s := by
  rw [Expr.outcome_traceWith] at h
  exact Expr.state_eq_of_eval h

/-- The record of an evaluation begins at its expression. -/
theorem Expr.mem_traceWith (apply : TracedApplication η) (e : Expr) :
    ⟨calls, s.env, e⟩ ∈ (e.traceWith texts apply calls s).1 := by
  cases e <;> exact List.mem_cons_self

/-- After an evaluation that came to a value, the state is the one before it. -/
theorem Point.Explained.bind_traceWith {β : Type} {e : Expr}
    {f : Value η → Traced (Point η) η β}
    (he : Explained texts start seen (e.traceWith texts (traceCall texts fuel) calls s).1)
    (hf : ∀ v, Explained texts start
      (seen ++ (e.traceWith texts (traceCall texts fuel) calls s).1) (f v s).1) :
    Explained texts start seen ((e.traceWith texts (traceCall texts fuel) calls >>= f) s).1 := by
  refine he.bind fun v s' hdone => ?_
  obtain rfl : s' = s := Expr.state_eq_of_traceWith (by rw [hdone]; rfl)
  exact hf v

/-- Arguments that have all come to values did so in the environment at hand, and the record
has all of them. -/
theorem Expr.traceAllWith_eq_done {es : List Expr} {vs : List (Value η)} {s' : State η}
    (h : (Expr.traceAllWith texts (traceCall texts fuel) calls es s).2 = .done vs s') :
    s' = s ∧ Expr.AllComeTo texts s.env es vs ∧ ∀ e ∈ es,
      ⟨calls, s.env, e⟩ ∈ (Expr.traceAllWith texts (traceCall texts fuel) calls es s).1 := by
  induction es generalizing vs s' with
  | nil =>
      simp only [Expr.traceAllWith] at h ⊢
      cases h
      exact ⟨rfl, .nil, fun e he => absurd he List.not_mem_nil⟩
  | cons e es ih =>
      simp only [Expr.traceAllWith] at h ⊢
      obtain ⟨v, s₁, hv, hrest, hrecords⟩ := Traced.bind_eq_done h
      obtain ⟨vs', s₂, hvs, hpure, hrecords'⟩ := Traced.bind_eq_done hrest
      rcases Expr.traceWith_cases texts fuel calls e s with he | ⟨v', hcomes, he⟩ | ⟨err, he⟩
      all_goals rw [he] at hv; cases hv
      obtain ⟨rfl, hall, hmem⟩ := ih hvs
      cases hpure
      refine ⟨rfl, .cons hcomes hall, fun e' he' => ?_⟩
      rw [hrecords, hrecords']
      rcases List.mem_cons.mp he' with rfl | he'
      · exact List.mem_append_left _ (Expr.mem_traceWith _ _)
      · exact List.mem_append_right _ (List.mem_append_left _ (hmem e' he'))

/-- The points at which an evaluation begins and ends are explained by what explains its
place, since it leaves the environment as it was. -/
theorem Point.Explained.of_passing {e : Expr} {m : Traced (Point η) η (Value η)}
    (hm : e.traceWith texts (traceCall texts fuel) calls = passing calls e m)
    (hplaced : Placed texts start seen calls s.env)
    (hinner : ∀ seen, ⟨calls, s.env, e⟩ ∈ seen → Placed texts start seen calls s.env →
      Explained texts start seen (m s).1) :
    Explained texts start seen (e.traceWith texts (traceCall texts fuel) calls s).1 := by
  have hstate : ∀ s', (e.traceWith texts (traceCall texts fuel) calls s).2.state? = some s' →
      s' = s := fun _ h => Expr.state_eq_of_traceWith h
  rw [hm] at hstate ⊢
  refine .cons hplaced (append (hinner _ (by simp) hplaced.append) ?_)
  cases hend : (m s).2.state? with
  | none => exact .nil
  | some s' =>
      obtain rfl := hstate s' hend
      exact .cons hplaced.append.append .nil

/-- With so much fuel for them, calls explain the points of their bodies by their own. -/
def CallsExplained (texts : Interner) (start : Environment η) (fuel : Nat) : Prop :=
  ∀ (calls : List (Call η)) (d : FunctionDecl) (vs : List (Value η)) (s : State η)
    (seen : List (Point η)),
    Point.Placed texts start seen (⟨d, vs⟩ :: calls) ((⟨d, vs⟩ : Call η).enter s.env) →
    Point.Explained texts start seen (traceCall texts fuel calls d vs s).1

mutual
theorem Expr.traceWith_explained (hcalls : CallsExplained texts start fuel)
    {calls : List (Call η)} {s : State η} : ∀ (e : Expr) {seen : List (Point η)},
    Point.Placed texts start seen calls s.env →
      Point.Explained texts start seen (e.traceWith texts (traceCall texts fuel) calls s).1
  | .numeral x, _, h => .of_passing rfl h fun _ _ _ => .nil
  | .bool b, _, h => .of_passing rfl h fun _ _ _ => .nil
  | .identifier n, _, h => .of_passing rfl h fun _ _ _ => .nil
  | .binary op l r, _, h => by
      refine .of_passing rfl h fun seen _ h => ?_
      refine (Expr.traceWith_explained hcalls l h).bind_traceWith fun v => ?_
      exact (Expr.traceWith_explained hcalls r h.append).bind_traceWith fun _ => .nil
  | .unary op e, _, h => by
      refine .of_passing rfl h fun seen _ h => ?_
      exact (Expr.traceWith_explained hcalls e h).bind_traceWith fun _ => .nil
  | .conditional test consequent alternate, _, h => by
      refine .of_passing rfl h fun seen _ h => ?_
      refine (Expr.traceWith_explained hcalls test h).bind_traceWith fun v => ?_
      split
      · exact Expr.traceWith_explained hcalls consequent h.append
      · exact Expr.traceWith_explained hcalls alternate h.append
  | .call callee args, _, h => by
      refine .of_passing rfl h fun seen hmem h => ?_
      refine .bind .nil fun v s' hlookup => ?_
      obtain ⟨rfl, hcallee⟩ := Evaluation.lookup_eq_done hlookup
      rw [records_silent, List.append_nil]
      cases v with
      | builtin b => exact .bind (Expr.traceAllWith_explained hcalls args h) fun _ _ _ => .nil
      | function d =>
          dsimp only
          split
          · next harity =>
              refine .bind (Expr.traceAllWith_explained hcalls args h) fun vs s' hvs => ?_
              obtain ⟨rfl, hall, hargs⟩ := Expr.traceAllWith_eq_done hvs
              refine hcalls _ _ _ _ _ (.inside (List.mem_append_left _ hmem) ?_
                (.call hcallee harity hall))
              exact fun arg harg => List.mem_append_right _ (hargs arg harg)
          · exact .nil
      | number x => exact .nil
      | bool b => exact .nil
      | array l es => exact .nil
  | .array es, _, h => by
      refine .of_passing rfl h fun seen _ h => ?_
      exact .bind (Expr.traceAllWith_explained hcalls es h) fun _ _ _ => .nil
  | .subscript base index, _, h => by
      refine .of_passing rfl h fun seen _ h => ?_
      refine (Expr.traceWith_explained hcalls base h).bind_traceWith fun v => ?_
      exact (Expr.traceWith_explained hcalls index h.append).bind_traceWith fun _ => .nil
theorem Expr.traceAllWith_explained (hcalls : CallsExplained texts start fuel)
    {calls : List (Call η)} {s : State η} : ∀ (es : List Expr) {seen : List (Point η)},
    Point.Placed texts start seen calls s.env →
      Point.Explained texts start seen
        (Expr.traceAllWith texts (traceCall texts fuel) calls es s).1
  | [], _, _ => .nil
  | e :: es, _, h => by
      simp only [Expr.traceAllWith]
      refine (Expr.traceWith_explained hcalls e h).bind_traceWith fun v => ?_
      exact .bind (Expr.traceAllWith_explained hcalls es h.append) fun _ _ _ => .nil
end

/-- **Calls explain the points of their bodies**, however deep they are nested. -/
theorem traceCall_explained (texts : Interner) (start : Environment η) (fuel : Nat) :
    CallsExplained texts start fuel := by
  induction fuel with
  | zero => exact fun _ _ _ _ _ _ => .nil
  | succ fuel ih =>
      intro calls d vs s seen h
      exact Expr.traceWith_explained ih d.body (s := { s with env := Call.enter ⟨d, vs⟩ s.env }) h

/-- The points of an expression outside of all calls are explained, one by the others. -/
theorem Expr.trace_explained (texts : Interner) (fuel : Nat) (e : Expr) (s : State η) :
    Point.Explained texts s.env [] (e.trace texts fuel s).1 :=
  Expr.traceWith_explained (traceCall_explained texts s.env fuel) e .outside

end Evaluation

/-! ### Every statement starts at top level -/

section Statements

open Evaluation Traced

variable {ρ α β : Type} {P : ρ → Prop}

/-- From the top level all records have the property, and the run stays at top level. -/
def Traced.Records (P : ρ → Prop) (m : Traced ρ η α) : Prop :=
  ∀ s, s.env.overlays = [] →
    (∀ r ∈ (m s).1, P r) ∧ ∀ s', (m s).2.state? = some s' → s'.env.overlays = []

theorem Traced.Records.pure (a : α) : Records P (Pure.pure a : Traced ρ η α) := by
  intro s hs
  refine ⟨fun r hr => absurd hr List.not_mem_nil, fun s' hs' => ?_⟩
  obtain rfl : s = s' := Option.some.inj hs'
  exact hs

theorem Traced.Records.bind {m : Traced ρ η α} {f : α → Traced ρ η β} (hm : Records P m)
    (hf : ∀ a, Records P (f a)) : Records P (m >>= f) := by
  intro s hs
  obtain ⟨hrecords, hstays⟩ := hm s hs
  change (∀ r ∈ (Traced.bind m f s).1, P r) ∧ ∀ s', (Traced.bind m f s).2.state? = some s' → _
  unfold Traced.bind
  generalize m s = end₁ at hrecords hstays ⊢
  rcases end₁ with ⟨rs, a | _ | _⟩
  · obtain ⟨hrecords', hstays'⟩ := hf a _ (hstays _ rfl)
    exact ⟨List.forall_mem_append.mpr ⟨hrecords, hrecords'⟩, hstays'⟩
  · exact ⟨hrecords, hstays⟩
  · exact ⟨hrecords, hstays⟩

theorem Traced.Records.repeatWhile {condition : Traced ρ η Bool} {body : Traced ρ η Unit}
    (hcondition : Records P condition) (hbody : Records P body) (turns : Nat) :
    Records P (repeatWhile condition body turns) := by
  induction turns with
  | zero =>
      intro s _
      refine ⟨fun r hr => absurd hr List.not_mem_nil, fun s' hs' => ?_⟩
      cases hs'
  | succ turns ih =>
      refine hcondition.bind fun v => ?_
      cases v with
      | true => exact hbody.bind fun _ => ih
      | false => exact .pure ()

theorem Traced.Records.within {P : Episode η → Prop} {st : Stmt} {m : Traced (Point η) η α}
    (hepisode : ∀ s : State η, s.env.overlays = [] → P ⟨st, s.env, (m s).1⟩)
    (hstays : StaysIn (fun s s' => s.env.overlays = [] → s'.env.overlays = []) m.erase) :
    Records P (within st m) :=
  fun s hs => ⟨List.forall_mem_singleton.mpr (hepisode s hs), fun s' hs' => hstays s s' hs' hs⟩

variable [Host η] {texts : Interner} {fuel : Nat}

/-- The episode belongs to one of the statements, starts at top level, and its points are
explained one by the others. -/
structure Episode.Sound (texts : Interner) (parts : List Stmt) (ep : Episode η) : Prop where
  stmt_mem : ep.stmt ∈ parts
  start_overlays : ep.start.overlays = []
  explained : Point.Explained texts ep.start [] ep.points

omit [Host η] in
theorem Evaluation.expectBound_eq_done {n : Name} {expected : Bool} {s s' : State η}
    (h : expectBound texts n expected s = .done () s') : s' = s := by
  rw [expectBound_eq_reading, reading_apply] at h
  cases expected <;> cases hb : (s.env.lookup? n).isSome <;> simp only [hb] at h
  all_goals cases h
  all_goals rfl

/-- A statement that is an episode of its own is sound if its points are explained. -/
theorem Stmt.records_of_within {parts : List Stmt} {st : Stmt} {m : Traced (Point η) η Unit}
    (hm : st.trace texts fuel = within st m) (hst : st ∈ parts)
    (hpoints : ∀ s : State η, Point.Explained texts s.env [] (m s).1) :
    Records (η := η) (Episode.Sound texts parts) (st.trace texts fuel) := by
  have hstays := Stmt.exec_of_compositional (compositional_staysIn (η := η) transition_overlays_nil)
    texts fuel st
  rw [← Stmt.erase_trace, hm, erase_within] at hstays
  rw [hm]
  exact .within (fun s hs => ⟨hst, hs, hpoints s⟩) hstays

variable (texts fuel)

/-- A loop that looks at its condition is a sound episode. -/
theorem Stmt.condition_records {parts : List Stmt} {c : Expr} {b : Block}
    (hst : Stmt.loop c b ∈ parts) : Records (η := η) (Episode.Sound texts parts)
      (within (.loop c b) do return (← c.trace texts fuel).isTruthy) := by
  have htop := compositional_staysIn (η := η) transition_overlays_nil
  refine .within (fun s hs => ⟨hst, hs, ?_⟩) ?_
  · exact (Expr.trace_explained texts fuel c s).bind_traceWith fun _ => .nil
  · rw [erase_bind, Expr.trace, Expr.erase_traceWith_traceCall]
    exact htop.bind (Expr.eval_of_compositional htop texts fuel c) fun v => htop.pure v.isTruthy

mutual
theorem Stmt.trace_records {parts : List Stmt} : ∀ st : Stmt, (∀ part ∈ st.parts, part ∈ parts) →
    Records (η := η) (Episode.Sound texts parts) (st.trace texts fuel)
  | .block b, hparts => by
      simp only [Stmt.trace]
      exact Stmt.traceAll_records b fun part h => hparts part (Stmt.mem_parts_block h)
  | .declare n e, hparts => by
      refine Stmt.records_of_within rfl (hparts _ (Stmt.mem_parts_self _)) fun s => ?_
      refine .bind .nil fun _ s' h => ?_
      obtain rfl := Evaluation.expectBound_eq_done h
      exact (Expr.trace_explained texts fuel e s').bind_traceWith fun _ => .nil
  | .assign n e, hparts => by
      refine Stmt.records_of_within rfl (hparts _ (Stmt.mem_parts_self _)) fun s => ?_
      refine .bind .nil fun _ s' h => ?_
      obtain rfl := Evaluation.expectBound_eq_done h
      exact (Expr.trace_explained texts fuel e s').bind_traceWith fun _ => .nil
  | .print e, hparts => by
      refine Stmt.records_of_within rfl (hparts _ (Stmt.mem_parts_self _)) fun s => ?_
      exact (Expr.trace_explained texts fuel e s).bind_traceWith fun _ => .nil
  | .loop c b, hparts => by
      have hbody := Stmt.traceAll_records b fun part h => hparts part (Stmt.mem_parts_loop h)
      simp only [Stmt.trace]
      exact .repeatWhile (Stmt.condition_records texts fuel (hparts _ (Stmt.mem_parts_self _)))
        hbody fuel
  | .function d, hparts =>
      Stmt.records_of_within rfl (hparts _ (Stmt.mem_parts_self _)) fun _ => .nil
theorem Stmt.traceAll_records {parts : List Stmt} : ∀ b : Block,
    (∀ part ∈ Stmt.partsAll b, part ∈ parts) →
    Records (η := η) (Episode.Sound texts parts) (Stmt.traceAll texts fuel b)
  | [], _ => .pure ()
  | st :: rest, hparts => by
      simp only [Stmt.traceAll]
      refine (Stmt.trace_records st fun part h => hparts part (Stmt.mem_partsAll_head h)).bind
        fun _ => ?_
      exact Stmt.traceAll_records rest fun part h => hparts part (Stmt.mem_partsAll_tail h)
end

/-- **The frames mirror the active calls.** A run has the outcome that it has without its record,
and the record of every run, of a failing or an unending one as well, consists of episodes of
statements of the program, each of which starts at top level. At every point of an episode the
environment is the global frame that the statement started with (a loop starts again with every
turn) and one overlay for each call whose body is being evaluated; each overlay binds the
parameters of its call, each to its argument, and nothing else; and so a name means what the
innermost call with such a parameter was given, and otherwise what it is bound to at top level.
Inside of a call, the arguments of the call have been evaluated before, during the outer calls
alone and without the overlay. -/
theorem Interpreter.trace_mirrors (i : Interpreter η) (p : Program) (fuel : Nat) :
    (i.trace fuel p).2 = i.interpret fuel p ∧
    ∀ ep ∈ (i.trace fuel p).1,
      ep.stmt ∈ Stmt.partsAll p.body ∧ ep.start.overlays = [] ∧
      ∀ before u after, ep.points = before ++ u :: after →
        u.Mirrors ep.start ∧
        Point.Placed (i.prelude.environment i.interner).1 ep.start before u.calls u.env := by
  refine ⟨i.erase_trace fuel p, fun ep hep => ?_⟩
  have hrecords : Records (η := η)
      (Episode.Sound (i.prelude.environment i.interner).1 (Stmt.partsAll p.body))
      (Stmt.traceAll _ fuel p.body) := Stmt.traceAll_records _ fuel p.body fun _ h => h
  have hstart := i.prelude.overlays_environment i.interner
  obtain ⟨hstmt, hstart, hpoints⟩ := (hrecords ⟨_, #[], i.state.sink⟩ hstart).1 ep hep
  refine ⟨hstmt, hstart, fun before u after hsplit => ?_⟩
  have hu : u ∈ ep.points := by
    rw [hsplit]
    exact List.mem_append_right _ List.mem_cons_self
  refine ⟨hpoints.mirrors hstart (fun _ h => absurd h List.not_mem_nil) u hu, ?_⟩
  exact hpoints.placed_of_split hsplit

/-- `f` with a parameter `a` calls itself once: it is given `true`, and then `false`. The points of
the statement that prints `f(true)` show how the calls nest. -/
example :
    let body : Expr := .conditional (.identifier ⟨2⟩) (.call ⟨1⟩ [.bool false]) (.identifier ⟨2⟩)
    let p : Program := ⟨[.function ⟨⟨1⟩, 1, [⟨2⟩], body⟩, .print (.call ⟨1⟩ [.bool true])]⟩
    let i : Interpreter Empty := .new (.reached ["f", "a"]) ⟨.empty, .discard⟩
    (i.trace 2 p).1.map (fun ep => ep.points.map (·.calls.length)) =
      [[], [0, 0, 0, 1, 1, 1, 1, 1, 1, 2, 2, 2, 2, 2, 2, 1, 1, 0]] := by
  decide +kernel

end Statements

end DynScope
