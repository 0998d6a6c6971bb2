import DynScope.Proofs.Accounting

/-!
# DynScope.Proofs.Aliasing

**Which values on a workbench are one object.** An operation that creates an array makes an object
that there was not before; one that selects or passes on a value yields the object that there is;
and either way what it answers is in the register that it names. So arrays that are one object have
one content, wherever they stand, and two functions are one object exactly if they were made of
one declaration (`Workbench.run_keeps_identities`).

How it works: identities on the workbench are accounted for (`Workbench.Accounted`), so that an
object that lies beyond them is new, and objects that share one are the same. What an operation
leaves behind is read off `Accounted.step_cases`.
-/

namespace DynScope

variable {η : Type}

namespace Workbench

variable {w : Workbench η}

/-! ### Identities on a workbench -/

/-- The next operation makes new objects. -/
structure MakesNew [Host η] (w : Workbench η) : Prop where
  /-- An array in what an operation puts into a register stood on the workbench or is new. -/
  old_or_new : ∀ op r v, (w.step op).1 = .made r v → ∀ a ∈ v.arrays, w.Holds a ∨ w.New a
  /-- New arrays in one result are different objects. -/
  distinct : ∀ op r v, (w.step op).1 = .made r v →
    v.arrays.Pairwise fun a a' => a.sameObject? a' = some true → ¬ w.New a
  /-- A value made of a literal is what the literal describes. All arrays and functions in it are
  new, and its objects differ from each other. -/
  literal : ∀ l, ∃ v, (w.step (.literal l)).1 = .made w.registers.size v ∧ v.describe = l ∧
    (∀ a ∈ v.arrays, w.New a) ∧ (∀ d, .function d ∈ v.parts → w.New (.function d)) ∧
    v.parts.Pairwise fun u u' => u.sameObject? u' ≠ some true
  /-- An array of existing values is new. -/
  array : ∀ rs vs, rs.mapM w.register? = some vs →
    ∃ label, (w.step (.array rs)).1 = .made w.registers.size (.array label vs) ∧
      w.New (.array label vs)
  /-- An operator that does not select an operand comes to what is no object. -/
  binary : ∀ op l r u u' v, w.register? l = some u → w.register? r = some u' →
    op ≠ .and → op ≠ .or → Value.binary op u u' = .ok v →
      (w.step (.binary op l r)).1 = .made w.registers.size v ∧ v.isObject = false
  /-- So does every unary operator. -/
  unary : ∀ op r u v, w.register? r = some u → Value.unary op u = .ok v →
    (w.step (.unary op r)).1 = .made w.registers.size v ∧ v.isObject = false
  /-- What a built-in comes to is passed on with a label for each array of its making. These
  arrays are new, and the others stand in an argument. -/
  call : ∀ f rs b vs v, w.register? f = some (.builtin b) → rs.mapM w.register? = some vs →
    b.call vs = .ok v →
      ∃ v', (w.step (.call f rs)).1 = .made w.registers.size v' ∧ v.Completed w.New v' ∧
        ∀ a ∈ v'.arrays, a ∈ Value.partsAll vs ∨ w.New a

/-- The next operation keeps what there is, files what it answers, and passes on the objects that
it selects. -/
structure KeepsOld [Host η] (w : Workbench η) : Prop where
  /-- An object on the workbench is one object with itself. -/
  itself : ∀ v, w.Holds v → v.sameObject? v = if v.isObject then some true else none
  /-- What an operation answers to have made is in the register that it names. -/
  made : ∀ op r v, (w.step op).1 = .made r v → (w.step op).2.register? r = some v
  /-- A declaration that it answers is in the slot that it names. -/
  declared : ∀ op k d, (w.step op).1 = .declared k d → (w.step op).2.decls[k]? = some d
  /-- Registers keep their values. -/
  registers : ∀ op r v, w.register? r = some v → (w.step op).2.register? r = some v
  /-- Slots keep their declarations. -/
  slots : ∀ (op : Op η) (k : Nat) (d : FunctionDecl), w.decls[k]? = some d →
    (w.step op).2.decls[k]? = some d
  /-- A register holds nothing but what it held or what was made. -/
  only : ∀ op r v, (w.step op).2.register? r = some v →
    w.register? r = some v ∨ (w.step op).1 = .made r v
  /-- A clone is the value of the register. -/
  clone : ∀ r v, w.register? r = some v → (w.step (.clone r)).1 = .made w.registers.size v
  /-- Reading an array yields the very element. -/
  get : ∀ r i label es v, w.register? r = some (.array label es) → es[i]? = some v →
    (w.step (.get r i)).1 = .made w.registers.size v
  /-- A conjunction is one of its operands. -/
  conjunction : ∀ l r u v, w.register? l = some u → w.register? r = some v →
    (w.step (.binary .and l r)).1 = .made w.registers.size (if u.isTruthy then v else u)
  /-- A disjunction is one of its operands. -/
  disjunction : ∀ l r u v, w.register? l = some u → w.register? r = some v →
    (w.step (.binary .or l r)).1 = .made w.registers.size (if u.isTruthy then u else v)
  /-- If a built-in comes to what stands in an argument, then that is what the call yields. -/
  call : ∀ f rs b vs v, w.register? f = some (.builtin b) → rs.mapM w.register? = some vs →
    b.call vs = .ok v → v ∈ Value.partsAll vs → (w.step (.call f rs)).1 = .made w.registers.size v

/-- Objects on the workbench that are one are the same. -/
structure Coherent (w : Workbench η) : Prop where
  /-- Arrays that are one object have the same elements, in number and in order. -/
  elements : ∀ label es label' es', w.Holds (.array label es) → w.Holds (.array label' es') →
    (Value.array label es).sameObject? (.array label' es') = some true → es = es'
  /-- So they are equal exactly if they are without NaN. -/
  equality : ∀ label es label' es', w.Holds (.array label es) → w.Holds (.array label' es') →
    (Value.array label es).sameObject? (.array label' es') = some true →
      ((Value.array label es == Value.array label' es') = true ↔ (Value.array label es).NaNFree)
  /-- Built-ins are equal exactly if they are one object. -/
  builtins : ∀ b b', w.Holds (.builtin b) → w.Holds (.builtin b') →
    (Value.builtin b).sameObject? (.builtin b') = some (Value.builtin b == Value.builtin b')
  /-- So are functions. -/
  functions : ∀ d d', w.Holds (.function d) → w.Holds (.function d') →
    (Value.function d : Value η).sameObject? (.function d') =
      some ((Value.function d : Value η) == .function d')

/-- Which functions are one object is decided by the declarations that were made. -/
structure OfDeclarations [Host η] (w : Workbench η) (made : List FunctionDecl) : Prop where
  /-- Declarations that were made one after the other are different objects. -/
  distinct : made.Pairwise fun d d' => d.sameObject d' = false
  /-- A slot holds one of them. -/
  slots : ∀ (k : Nat) (d : FunctionDecl), w.decls[k]? = some d → d ∈ made
  /-- A declaration reads as it was asked for, and is a new object. -/
  declare : ∀ name params body, ∃ d, (w.step (.declare name params body)).1 =
      .declared w.decls.size d ∧
    d.name = name ∧ d.params = params ∧ d.body = body ∧ ∀ d' ∈ made, d'.sameObject d = false
  /-- A new function value is of the declaration in the slot. -/
  function : ∀ (k : Nat) (d : FunctionDecl), w.decls[k]? = some d →
    (w.step (.function k)).1 = .made w.registers.size (.function d)
  /-- Two functions are one object exactly if they are of one declaration. -/
  same_iff : ∀ d d' : FunctionDecl, w.Holds (.function d) → w.Holds (.function d') →
    ((Value.function d : Value η).sameObject? (.function d') = some true ↔
      ∃ i : Nat, made[i]? = some d ∧ made[i]? = some d')
  /-- Function values of two slots are one object exactly if the slots are one. -/
  slot_iff : ∀ (k k' : Nat) (d d' : FunctionDecl), w.decls[k]? = some d → w.decls[k']? = some d' →
    ((Value.function d : Value η).sameObject? (.function d') = some true ↔ k = k')

section Objects

variable {made : List FunctionDecl}

theorem Accounted.new_of_le (h : w.Accounted made) {l : Nat} {es : List (Value η)}
    (hle : w.next ≤ l) : w.New (.array (some l) es) := by
  intro u hu hsame
  cases u with
  | array label es' =>
      obtain ⟨l', rfl, hl'⟩ := Value.sameObject?_array_iff.mp hsame
      obtain rfl := Option.some.inj hl'
      exact absurd (h.lt_of_holds hu) (Nat.not_lt.mpr hle)
  | _ => cases hsame

theorem Accounted.new_of_serial_le (h : w.Accounted made) {d : FunctionDecl}
    (hle : w.next ≤ d.serial) : w.New (.function d) := by
  intro u hu hsame
  cases u with
  | function d' =>
      have hserial := ((Value.sameObject_function_iff d' d).mp (Option.some.inj hsame)).2
      have hlt := h.serial_lt d' (h.functions d' hu)
      omega
  | _ => cases hsame

theorem Accounted.le_of_new (h : w.Accounted made) {v : Value η} {ds : List FunctionDecl}
    {next : Nat} (hv : w.Fits made v ds next) {label : Option Nat} {es : List (Value η)}
    (hes : .array label es ∈ v.parts) (hnew : w.New (.array label es)) :
    ∃ l, label = some l ∧ w.next ≤ l := by
  rcases hv.arrays label es hes with hheld | ⟨l, rfl, hle, -⟩
  · obtain ⟨l, rfl, -⟩ := h.labelled label es hheld
    exact absurd (Value.sameObject?_array_iff.mpr ⟨l, rfl, rfl⟩) (hnew _ hheld)
  · exact ⟨l, rfl, hle⟩

variable [Host η]

theorem Accounted.makesNew (h : w.Accounted made)
    (hhost : ∀ code : η, (HostFn.custom code).ForgesNothing) : w.MakesNew where
  old_or_new op r v hmade a ha := by
    obtain ⟨-, next, hfits, -⟩ := h.step_of_made hhost hmade
    obtain ⟨label, es, rfl, hes⟩ := Value.mem_arrays_iff.mp ha
    rcases hfits.arrays label es hes with hheld | ⟨l, rfl, hle, -⟩
    · exact Or.inl hheld
    · exact Or.inr (h.new_of_le hle)
  distinct op r v hmade := by
    obtain ⟨-, next, hfits, -⟩ := h.step_of_made hhost hmade
    refine (hfits.pairwise.filter _).imp_of_mem fun {a a'} ha _ hdistinct hsame hnew => ?_
    obtain ⟨label, es, rfl, hes⟩ := Value.mem_arrays_iff.mp ha
    obtain ⟨l, rfl, hle⟩ := h.le_of_new hfits hes hnew
    cases a' with
    | array label' es' =>
        obtain ⟨l', hl, rfl⟩ := Value.sameObject?_array_iff.mp hsame
        obtain rfl := Option.some.inj hl
        exact hdistinct l hle rfl rfl
    | _ => cases hsame
  literal l := by
    refine ⟨(l.make w.next).1, rfl, l.describe_make w.next, ?arrays, ?functions, ?distinct⟩
    case arrays =>
      intro a ha
      obtain ⟨label, es, rfl, hes⟩ := Value.mem_arrays_iff.mp ha
      obtain ⟨i, rfl, hle, -⟩ := label_of_literal hes
      exact h.new_of_le hle
    case functions =>
      intro d hd
      exact h.new_of_serial_le (identity_of_literal hd rfl).1
    case distinct => exact l.pairwise_make w.next
  array rs vs hvs := by
    refine ⟨some w.next, ?_, h.new_of_le (Nat.le_refl _)⟩
    rw [step, hvs]
    rfl
  binary op l r u u' v hl hr hand hor hv := by
    refine ⟨?_, Value.isObject_binary hand hor hv⟩
    rw [step, hl, hr]
    dsimp only
    rw [hv]
    rfl
  unary op r u v hr hv := by
    refine ⟨?_, Value.isObject_unary hv⟩
    rw [step, hr]
    dsimp only
    rw [hv]
    rfl
  call f rs b vs v hf hvs hcall := by
    have hforges := HostFn.ForgesNothing.of_custom hhost b.fn
    have hheld := mem_of_mapM hvs
    have hbelow := h.labelledBelow hforges hheld hcall
    refine ⟨(v.withLabels w.next).1, ?answer, ?completed, ?source⟩
    case answer =>
      rw [step, hf, hvs]
      dsimp only
      rw [hcall]
      rfl
    case completed =>
      exact v.completed_withLabels (fun _ _ => h.new_of_le) w.next (Nat.le_refl _) hbelow
    case source =>
      intro a ha
      obtain ⟨label, es, rfl, hes⟩ := Value.mem_arrays_iff.mp ha
      rcases (h.fits_call hforges hheld hcall).2 label es hes with hold | ⟨l, rfl, hle⟩
      · exact Or.inl hold
      · exact Or.inr (h.new_of_le hle)

theorem Accounted.keepsOld (h : w.Accounted made)
    (hhost : ∀ code : η, (HostFn.custom code).ForgesNothing) : w.KeepsOld where
  itself v hv := by
    cases v with
    | array label es =>
        obtain ⟨l, rfl, -⟩ := h.labelled label es hv
        simp [Value.sameObject?, Value.isObject]
    | builtin b => simp [Value.sameObject?, Value.isObject, Builtin.sameObject]
    | function d => simp [Value.sameObject?, Value.isObject, FunctionDecl.sameObject]
    | _ => rfl
  made op r v hmade := by
    obtain ⟨rfl, next, -, hw⟩ := h.step_of_made hhost hmade
    rw [hw]
    exact Array.getElem?_push_size
  declared op k d hdeclared := by
    rcases h.step_cases hhost op with ⟨-, hnone, -⟩ | ⟨u, next, -, hw⟩ | ⟨d, -, -, hw⟩
    · rw [hdeclared] at hnone
      cases hnone
    · rw [hw] at hdeclared
      cases hdeclared
    · rw [hw] at hdeclared ⊢
      obtain ⟨rfl, rfl⟩ := Reply.declared.inj hdeclared
      exact Array.getElem?_push_size
  registers op r v hv := by
    rcases h.step_cases hhost op with ⟨-, -, hw⟩ | ⟨u, next, -, hw⟩ | ⟨d, -, -, hw⟩
    · rwa [hw]
    · rw [hw]
      exact getElem?_push_of_eq_some hv
    · rwa [hw]
  slots op k d hd := by
    rcases h.step_cases hhost op with ⟨-, -, hw⟩ | ⟨u, next, -, hw⟩ | ⟨d', -, -, hw⟩
    · rwa [hw]
    · rwa [hw]
    · rw [hw]
      exact getElem?_push_of_eq_some hd
  only op r v hv := by
    rcases h.step_cases hhost op with ⟨-, -, hw⟩ | ⟨u, next, -, hw⟩ | ⟨d, -, -, hw⟩
    · rw [hw] at hv
      exact Or.inl hv
    · rw [hw] at hv ⊢
      replace hv : (w.registers.push u)[r]? = some v := hv
      rw [Array.getElem?_push] at hv
      by_cases hr : r = w.registers.size
      · rw [if_pos hr] at hv
        exact Or.inr (by rw [hr, Option.some.inj hv])
      · rw [if_neg hr] at hv
        exact Or.inl hv
    · rw [hw] at hv
      exact Or.inl hv
  clone r v hv := by
    rw [Workbench.step, hv]
    rfl
  get r i label es v hr hv := by
    have helement : (do (← (← w.register? r).elements?)[i]?) = some v := by
      rw [hr]
      exact hv
    rw [Workbench.step, helement]
    rfl
  conjunction l r u v hl hr := by
    rw [Workbench.step, hl, hr]
    rfl
  disjunction l r u v hl hr := by
    rw [Workbench.step, hl, hr]
    rfl
  call f rs b vs v hf hvs hcall hmem := by
    have hheld := holds_of_mem_partsAll (mem_of_mapM hvs) hmem
    have hlabelled : v.Labelled := by
      intro es hes
      obtain ⟨l, hl, -⟩ := h.labelled none es (hheld.part hes)
      cases hl
    rw [Workbench.step, hf, hvs]
    dsimp only
    rw [hcall]
    dsimp only
    rw [draw, Value.withLabels_of_labelled hlabelled]
    rfl

omit [Host η] in
theorem Accounted.identified (h : w.Accounted made) : w.Coherent where
  elements label es label' es' hes hes' hsame := by
    obtain ⟨l, rfl, rfl⟩ := Value.sameObject?_array_iff.mp hsame
    exact h.coherent l es es' hes hes'
  equality label es label' es' hes hes' hsame := by
    obtain ⟨l, rfl, rfl⟩ := Value.sameObject?_array_iff.mp hsame
    obtain rfl := h.coherent l es es' hes hes'
    show (Value.array (some l) es).beq (.array (some l) es) = true ↔ _
    rw [Value.beq_iff_content]
    simp
  builtins _ _ _ _ := rfl
  functions _ _ _ _ := rfl

theorem Accounted.ofDeclarations (h : w.Accounted made) : w.OfDeclarations made where
  distinct := by
    refine (List.pairwise_map.mp h.nodup).imp fun hserial => ?_
    simp [FunctionDecl.sameObject, hserial]
  slots k d hd := h.mem_made (Array.mem_of_getElem? hd)
  declare name params body := by
    refine ⟨⟨name, w.next, params, body⟩, rfl, rfl, rfl, rfl, fun d' hd' => ?_⟩
    have hne : d'.serial ≠ w.next := Nat.ne_of_lt (h.serial_lt d' hd')
    simp [FunctionDecl.sameObject, hne]
  function k d hd := by
    rw [Workbench.step, hd]
    rfl
  same_iff d d' hd hd' := by
    obtain ⟨i, hi⟩ := List.mem_iff_getElem?.mp (h.functions d hd)
    constructor
    · intro hsame
      have hserial := (Value.sameObject_function_iff d d').mp (Option.some.inj hsame)
      obtain rfl :=
        List.inj_on_of_nodup_map h.nodup (h.functions d hd) (h.functions d' hd') hserial.2
      exact ⟨i, hi, hi⟩
    · rintro ⟨j, hj, hj'⟩
      obtain rfl := Option.some.inj (hj.symm.trans hj')
      simp [Value.sameObject?, FunctionDecl.sameObject]
  slot_iff k k' d d' hd hd' := by
    have hserials : (w.decls.toList.map (·.serial)).Nodup := (h.slots.map _).nodup h.nodup
    constructor
    · intro hsame
      have hserial := ((Value.sameObject_function_iff d d').mp (Option.some.inj hsame)).2
      have hk : (w.decls.toList.map (·.serial))[k]? = some d.serial := by simp [hd]
      have hk' : (w.decls.toList.map (·.serial))[k']? = some d'.serial := by simp [hd']
      have hlt := (List.getElem?_eq_some_iff.mp hk).1
      exact (List.getElem?_inj hlt hserials).mp (by rw [hk, hk', hserial])
    · rintro rfl
      obtain rfl := Option.some.inj (hd.symm.trans hd')
      simp [Value.sameObject?, FunctionDecl.sameObject]

/-- **Identities.** After any operations, the next one makes new objects where it creates one and
passes on those that there are where it selects one, and what it answers stays in the register that
it names. Arrays that are one object have one content, and functions are one object exactly if they
are of one declaration. -/
theorem run_keeps_identities (hhost : ∀ code : η, (HostFn.custom code).ForgesNothing)
    (ops : List (Op η)) :
    let w := (empty : Workbench η).run ops
    w.MakesNew ∧ w.KeepsOld ∧ w.Coherent ∧ w.OfDeclarations (empty.declared ops) := by
  have h := run_accounted accounted_empty hhost ops
  exact ⟨h.makesNew hhost, h.keepsOld hhost, h.identified, h.ofDeclarations⟩

end Objects

/-- Host functions that collect their arguments. -/
inductive Collector where
  /-- A new array of the arguments. -/
  | pack
  /-- The last argument. -/
  | last

/-- The values that the collectors come to. -/
def Collector.call : Collector → List (Value Collector) → Except EvalError (Value Collector)
  | .pack, args => .ok (.array none args)
  | .last, args =>
    match args.getLast? with
    | some v => .ok v
    | none => .error (.arityMismatch "last" 1 0)

instance : Host Collector := ⟨Collector.call⟩

/-- Neither of them forges an identity. -/
theorem Collector.forgesNothing (code : Collector) : (HostFn.custom code).ForgesNothing := by
  intro args v h
  cases code with
  | pack =>
      obtain rfl : Value.array none args = v := Except.ok.inj h
      simp [Value.parts]
  | last =>
      simp only [HostFn.call, Host.call, call] at h
      split at h
      case h_1 u hlast =>
          obtain rfl := Except.ok.inj h
          have hinside : ∀ p ∈ u.parts, p ∈ Value.partsAll args := fun p hp =>
            Value.mem_partsAll.mpr ⟨u, List.mem_of_getLast? hlast, hp⟩
          exact ⟨fun l es => hinside _, fun d => hinside _⟩
      case h_2 => cases h

/-- An array that holds an empty one, the two collectors, an array that `pack` makes of two
aliases of the first one, and the first one again: read from there, come to by `last`, and as the
result of a conjunction with a function on the left. -/
def Collector.ops : List (Op Collector) :=
  [.literal (.array [.array []]), .literal (.builtin "pack" (.custom .pack)),
    .literal (.builtin "last" (.custom .last)), .call 1 [0, 0], .get 3 1, .call 2 [3, 0],
    .declare .empty [] (.bool true), .function 0, .binary .and 6 5]

/-- The identities that come of these operations: three registers hold the very array of the
first one, and the array that was packed holds it twice. -/
theorem run_collector_keeps_identities : (∀ code : Collector, (HostFn.custom code).ForgesNothing) ∧
    let w := (empty : Workbench Collector).run Collector.ops
    (w.MakesNew ∧ w.KeepsOld ∧ w.Coherent ∧ w.OfDeclarations (empty.declared Collector.ops)) ∧
      ∃ a, w.register? 0 = some a ∧ w.register? 3 = some (.array (some 5) [a, a]) ∧
        w.register? 4 = some a ∧ w.register? 5 = some a ∧ w.register? 7 = some a :=
  ⟨Collector.forgesNothing, run_keeps_identities Collector.forgesNothing Collector.ops,
    .array (some 1) [.array (some 2) []], rfl, rfl, rfl, rfl, rfl⟩

end Workbench

end DynScope
