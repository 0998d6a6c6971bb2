import DynScope.Proofs.Objects

/-!
# DynScope.Proofs.Accounting

**Identities on a workbench are accounted for.** After any operations, all arrays in the registers
are labelled, a label stands for one array, functions are of declarations that were made, and no
number is in use that was not handed out (`Workbench.run_accounted`).

How it works: `Workbench.Fits` says what may be put on a workbench that is accounted for: a value
whose objects are there already, or lie beyond everything that is there and differ from each
other. There is one lemma for each way in which a value is come by, and `Accounted.step_cases` says
once what an operation can do: nothing, or put a value that fits into the next register, or put a
declaration of its own into the next slot.
-/

namespace DynScope

variable {η : Type}

/-- Of two partial functions, let the second extend the first. Then what the first one finds in a
list is among what the second one finds, in the same order. -/
theorem filterMap_sublist_of_imp {α β : Type} {f g : α → Option β}
    (h : ∀ a b, f a = some b → g a = some b) (as : List α) :
    (as.filterMap f).Sublist (as.filterMap g) := by
  induction as with
  | nil => exact .slnil
  | cons a as ih =>
      cases hf : f a with
      | some b =>
          rw [List.filterMap_cons_some hf, List.filterMap_cons_some (h a b hf)]
          exact ih.cons_cons b
      | none =>
          rw [List.filterMap_cons_none hf]
          cases hg : g a with
          | some b =>
              rw [List.filterMap_cons_some hg]
              exact ih.cons b
          | none => rwa [List.filterMap_cons_none hg]

/-! ### Workbenches that can arise -/

/-- The host function forges no identity: each array with a label and each function in what it
comes to stands in its arguments. Arrays of its own making are without a label. -/
def HostFn.ForgesNothing [Host η] (fn : HostFn η) : Prop :=
  ∀ (args : List (Value η)) (v : Value η), fn.call args = .ok v →
    (∀ l es, .array (some l) es ∈ v.parts → .array (some l) es ∈ Value.partsAll args) ∧
      ∀ d, .function d ∈ v.parts → .function d ∈ Value.partsAll args

/-- The numeric functions come to numbers only. -/
theorem HostFn.ForgesNothing.math [Host η] (f : MathFn) :
    (HostFn.math f : HostFn η).ForgesNothing := by
  intro args v h
  obtain ⟨x, rfl⟩ := MathFn.call_eq_ok h
  simp [Value.parts]

theorem HostFn.ForgesNothing.of_custom [Host η]
    (hhost : ∀ code : η, (HostFn.custom code).ForgesNothing) : ∀ fn : HostFn η, fn.ForgesNothing
  | .math f => .math f
  | .custom code => hhost code

namespace Workbench

/-- The value stands in a register, at some depth. -/
def Holds (w : Workbench η) (v : Value η) : Prop := ∃ r u, w.register? r = some u ∧ v ∈ u.parts

/-- The object stands nowhere on the workbench. -/
def New (w : Workbench η) (a : Value η) : Prop := ∀ u, w.Holds u → u.sameObject? a ≠ some true

variable {w : Workbench η}

theorem Holds.part {u p : Value η} (h : w.Holds u) (hp : p ∈ u.parts) : w.Holds p := by
  obtain ⟨r, v, hr, hu⟩ := h
  exact ⟨r, v, hr, Value.mem_parts_trans hu hp⟩

theorem holds_of_register? {r : Nat} {v : Value η} (h : w.register? r = some v) : w.Holds v :=
  ⟨r, v, h, Value.mem_parts_self v⟩

theorem holds_of_mem_partsAll {vs : List (Value η)} (hvs : ∀ v ∈ vs, w.Holds v) {u : Value η}
    (hu : u ∈ Value.partsAll vs) : w.Holds u := by
  obtain ⟨v, hv, huv⟩ := Value.mem_partsAll.mp hu
  exact (hvs v hv).part huv

/-- The declarations that an operation makes, whose functions are new objects. -/
def newDecls (w : Workbench η) : Op η → List FunctionDecl
  | .literal l => (l.make w.next).1.decls
  | .declare name params body => [(FunctionDecl.fresh name params body w.next).1]
  | _ => []

/-- The declarations on the workbench and inside its values are accounted for by those that were
made, no two arrays share a label but those that are the same, and identities that are not handed
out yet are unused. -/
structure Accounted (w : Workbench η) (made : List FunctionDecl) : Prop where
  /-- All arrays are labelled. -/
  labelled : ∀ label es, w.Holds (.array label es) → ∃ l, label = some l ∧ l < w.next
  /-- A label stands for one array. -/
  coherent : ∀ l es es', w.Holds (.array (some l) es) → w.Holds (.array (some l) es') → es = es'
  /-- Functions are of declarations that were made. -/
  functions : ∀ d, w.Holds (.function d) → d ∈ made
  /-- The declarations in the slots are among them, in order. -/
  slots : w.decls.toList.Sublist made
  /-- Their identities have been handed out. -/
  serial_lt : ∀ d ∈ made, d.serial < w.next
  /-- No two of them share one. -/
  nodup : (made.map (·.serial)).Nodup

/-- The value `v` may be put on the workbench, along with the declarations `ds`, which are made
for it: its objects are there, or are new and distinct, with identities below `next`. -/
structure Fits (w : Workbench η) (made : List FunctionDecl) (v : Value η) (ds : List FunctionDecl)
    (next : Nat) : Prop where
  /-- Identities that were handed out stay so. -/
  next_le : w.next ≤ next
  /-- An array stands on the workbench or is new. -/
  arrays : ∀ label es, .array label es ∈ v.parts →
    w.Holds (.array label es) ∨ ∃ l, label = some l ∧ w.next ≤ l ∧ l < next
  /-- A function is of a declaration that was made. -/
  functions : ∀ d, .function d ∈ v.parts → d ∈ made ++ ds
  /-- Two new arrays are two objects. -/
  labels : (v.labels.filter (w.next ≤ ·)).Nodup
  /-- The declarations are new. -/
  serials : ∀ d ∈ ds, w.next ≤ d.serial ∧ d.serial < next
  /-- Two new declarations are two objects. -/
  nodup : (ds.map (·.serial)).Nodup

section Accounted

variable {made : List FunctionDecl}

theorem accounted_empty : (empty : Workbench η).Accounted [] := by
  have hnothing : ∀ v, ¬ (empty : Workbench η).Holds v := by
    rintro v ⟨r, u, hr, -⟩
    simp [register?, empty] at hr
  exact
    { labelled := fun _ _ h => absurd h (hnothing _)
      coherent := fun _ _ _ h => absurd h (hnothing _)
      functions := fun _ h => absurd h (hnothing _)
      slots := by simp [empty]
      serial_lt := by simp
      nodup := List.nodup_nil }

/-- What is there stays there when something is put behind it. -/
theorem getElem?_push_of_eq_some {α : Type} {xs : Array α} {i : Nat} {a b : α}
    (h : xs[i]? = some a) : (xs.push b)[i]? = some a := by
  have hlt := (Array.getElem?_eq_some_iff.mp h).1
  rw [Array.getElem?_push, if_neg (Nat.ne_of_lt hlt), h]

theorem holds_push {v u : Value η} {ds : Array FunctionDecl} {next : Nat} :
    Holds ⟨w.registers.push v, ds, next⟩ u ↔ w.Holds u ∨ u ∈ v.parts := by
  simp only [Holds, register?]
  constructor
  · rintro ⟨r, v', hr, hu⟩
    rw [Array.getElem?_push] at hr
    split at hr
    · obtain rfl := Option.some.inj hr
      exact Or.inr hu
    · exact Or.inl ⟨r, v', hr, hu⟩
  · rintro (⟨r, v', hr, hu⟩ | hu)
    · exact ⟨r, v', getElem?_push_of_eq_some hr, hu⟩
    · exact ⟨w.registers.size, v, Array.getElem?_push_size, hu⟩

/-- No two arrays in a value that fits share a new label. -/
theorem Fits.pairwise {v : Value η} {ds : List FunctionDecl} {next : Nat}
    (h : w.Fits made v ds next) : v.parts.Pairwise fun u u' =>
      ∀ l, w.next ≤ l → u.label? = some l → u'.label? ≠ some l := by
  have hlabels := h.labels
  rw [Value.labels, List.filter_filterMap, List.Nodup, List.pairwise_filterMap] at hlabels
  refine hlabels.imp fun hdistinct l hle hu hu' => ?_
  exact hdistinct l (by simp [hu, hle]) l (by simp [hu', hle]) rfl

/-- Two arrays of one label that were made by one operation are the same. -/
theorem Fits.coherent {v : Value η} {ds : List FunctionDecl} {next : Nat}
    (h : w.Fits made v ds next) {l : Nat} {es es' : List (Value η)} (hl : w.next ≤ l)
    (hes : .array (some l) es ∈ v.parts) (hes' : .array (some l) es' ∈ v.parts) : es = es' := by
  by_contra hne
  have hsymm : Std.Symm fun u u' : Value η =>
      ∀ l, w.next ≤ l → u.label? = some l → u'.label? ≠ some l :=
    ⟨fun _ _ h l hle hu hu' => h l hle hu' hu⟩
  exact h.pairwise.forall hes hes' (by simpa using hne) l hl rfl rfl

theorem Accounted.mem_made (h : w.Accounted made) {d : FunctionDecl} (hd : d ∈ w.decls) :
    d ∈ made :=
  h.slots.subset (Array.mem_toList_iff.mpr hd)

theorem Accounted.lt_of_holds (h : w.Accounted made) {l : Nat} {es : List (Value η)}
    (hes : w.Holds (.array (some l) es)) : l < w.next := by
  obtain ⟨l', hl', hlt⟩ := h.labelled _ _ hes
  obtain rfl := Option.some.inj hl'
  exact hlt

/-- What fits keeps everything accounted for. -/
theorem Accounted.push (h : w.Accounted made) {v : Value η} {ds : List FunctionDecl} {next : Nat}
    (hv : w.Fits made v ds next) : Accounted ⟨w.registers.push v, w.decls, next⟩ (made ++ ds) where
  labelled label es hes := by
    have hheld : w.Holds (.array label es) → ∃ l, label = some l ∧ l < next := fun hes => by
      obtain ⟨l, rfl, hlt⟩ := h.labelled _ _ hes
      exact ⟨l, rfl, Nat.lt_of_lt_of_le hlt hv.next_le⟩
    rcases holds_push.mp hes with hes | hes
    · exact hheld hes
    · rcases hv.arrays _ _ hes with hes | ⟨l, rfl, -, hlt⟩
      · exact hheld hes
      · exact ⟨l, rfl, hlt⟩
  coherent l es es' hes hes' := by
    -- an array with this label that is there already excludes a new one, and the other way round
    have hsplit : ∀ es, Holds ⟨w.registers.push v, w.decls, next⟩ (.array (some l) es) →
        w.Holds (.array (some l) es) ∨ w.next ≤ l ∧ .array (some l) es ∈ v.parts := by
      intro es hes
      rcases holds_push.mp hes with hes | hes
      · exact Or.inl hes
      · rcases hv.arrays _ _ hes with hold | ⟨l', hl', hle, -⟩
        · exact Or.inl hold
        · obtain rfl := Option.some.inj hl'
          exact Or.inr ⟨hle, hes⟩
    rcases hsplit es hes with hes | ⟨hle, hes⟩
    · rcases hsplit es' hes' with hes' | ⟨hle, -⟩
      · exact h.coherent l es es' hes hes'
      · exact absurd (h.lt_of_holds hes) (Nat.not_lt.mpr hle)
    · rcases hsplit es' hes' with hes' | ⟨-, hes'⟩
      · exact absurd (h.lt_of_holds hes') (Nat.not_lt.mpr hle)
      · exact hv.coherent hle hes hes'
  functions d hd := by
    rcases holds_push.mp hd with hd | hd
    · exact List.mem_append_left _ (h.functions d hd)
    · exact hv.functions d hd
  slots := h.slots.trans (List.sublist_append_left _ _)
  serial_lt d hd := by
    rcases List.mem_append.mp hd with hd | hd
    · exact Nat.lt_of_lt_of_le (h.serial_lt d hd) hv.next_le
    · exact (hv.serials d hd).2
  nodup := by
    rw [List.map_append, List.nodup_append]
    refine ⟨h.nodup, hv.nodup, ?_⟩
    simp only [List.mem_map]
    rintro _ ⟨d, hd, rfl⟩ _ ⟨d', hd', rfl⟩
    have hlt := h.serial_lt d hd
    have hle := (hv.serials d' hd').1
    omega

/-- A value that stands on the workbench may be put into another register. -/
theorem Accounted.fits_held (h : w.Accounted made) {v : Value η} (hv : w.Holds v) :
    w.Fits made v [] w.next where
  next_le := Nat.le_refl _
  arrays _ _ hes := Or.inl (hv.part hes)
  functions _ hd := List.mem_append_left _ (h.functions _ (hv.part hd))
  labels := by
    have hnone : v.labels.filter (w.next ≤ ·) = [] := by
      rw [List.filter_eq_nil_iff]
      intro l hl
      obtain ⟨es, hes⟩ := Value.mem_labels_iff.mp hl
      simpa using h.lt_of_holds (hv.part hes)
    rw [hnone]
    exact List.nodup_nil
  serials _ hd := absurd hd List.not_mem_nil
  nodup := List.nodup_nil

/-- Numbers and booleans are no objects. -/
theorem fits_scalar {v : Value η} (hv : (∃ x, v = .number x) ∨ ∃ b, v = .bool b) :
    w.Fits made v [] w.next := by
  rcases hv with ⟨x, rfl⟩ | ⟨b, rfl⟩
  all_goals
    constructor
    case labels => exact List.nodup_nil
    all_goals simp [Value.parts]

/-- A function may be made of a declaration that is there. -/
theorem Accounted.fits_function (h : w.Accounted made) {d : FunctionDecl} (hd : d ∈ w.decls) :
    w.Fits made (.function d) [] w.next := by
  have hmade := h.mem_made hd
  constructor
  case labels => exact List.nodup_nil
  all_goals simp [Value.parts, hmade]

/-- The identities in a value made of a literal are new. -/
theorem identity_of_literal {l : Literal η} {u : Value η} (hu : u ∈ (l.make w.next).1.parts)
    {i : Nat} (hi : u.identity? = some i) : w.next ≤ i ∧ i < (l.make w.next).2 := by
  obtain ⟨k, hnext, hidentities, -⟩ := l.identities_make w.next
  have hmem : i ∈ List.range' w.next k := by
    rw [← hidentities]
    exact List.mem_filterMap.mpr ⟨u, hu, hi⟩
  rw [hnext]
  exact List.mem_range'_1.mp hmem

theorem label_of_literal {l : Literal η} {label : Option Nat} {es : List (Value η)}
    (hes : .array label es ∈ (l.make w.next).1.parts) :
    ∃ i, label = some i ∧ w.next ≤ i ∧ i < (l.make w.next).2 := by
  obtain ⟨-, -, -, hlabelled⟩ := l.identities_make w.next
  cases label with
  | none => exact absurd hes (hlabelled es)
  | some i => exact ⟨i, rfl, identity_of_literal hes rfl⟩

/-- All objects in a value made of a literal are new. -/
theorem fits_literal (l : Literal η) :
    w.Fits made (l.make w.next).1 (l.make w.next).1.decls (l.make w.next).2 := by
  obtain ⟨k, hnext, -, -⟩ := l.identities_make w.next
  have hnodup := l.nodup_identities_make w.next
  exact
    { next_le := by omega
      arrays := fun label es hes => Or.inr (label_of_literal hes)
      functions := fun d hd => List.mem_append_right _ (Value.mem_decls_iff.mpr hd)
      labels := by
        refine ((filterMap_sublist_of_imp ?_ _).nodup hnodup).filter _
        intro u i hi
        cases u with
        | array label es => exact hi
        | _ => cases hi
      serials := fun d hd => identity_of_literal (Value.mem_decls_iff.mp hd) rfl
      nodup := by
        rw [Value.decls, List.map_filterMap]
        refine (filterMap_sublist_of_imp ?_ _).nodup hnodup
        intro u i hi
        cases u with
        | function d => exact hi
        | _ => cases hi }

/-- An array of values that stand on the workbench is a new object. -/
theorem Accounted.fits_array (h : w.Accounted made) {vs : List (Value η)}
    (hvs : ∀ v ∈ vs, w.Holds v) : w.Fits made (.array (some w.next) vs) [] (w.next + 1) where
  next_le := Nat.le_succ _
  arrays label es hes := by
    rcases List.mem_cons.mp hes with heq | hes
    · obtain ⟨rfl, -⟩ := Value.array.inj heq
      exact Or.inr ⟨w.next, rfl, Nat.le_refl _, Nat.lt_succ_self _⟩
    · exact Or.inl (holds_of_mem_partsAll hvs hes)
  functions d hd := by
    rcases List.mem_cons.mp hd with heq | hd
    · cases heq
    · exact List.mem_append_left _ (h.functions d (holds_of_mem_partsAll hvs hd))
  labels := by
    have hnone : ((Value.partsAll vs).filterMap Value.label?).filter (w.next ≤ ·) = [] := by
      rw [List.filter_eq_nil_iff]
      intro l hl
      obtain ⟨u, hu, hlabel⟩ := List.mem_filterMap.mp hl
      cases u with
      | array label es =>
          obtain rfl : label = some l := hlabel
          simpa using h.lt_of_holds (holds_of_mem_partsAll hvs hu)
      | _ => cases hlabel
    show ((w.next :: (Value.partsAll vs).filterMap Value.label?).filter (w.next ≤ ·)).Nodup
    rw [List.filter_cons_of_pos (by simp), hnone]
    exact List.nodup_singleton _
  serials _ hd := absurd hd List.not_mem_nil
  nodup := List.nodup_nil

/-- The labelled arrays in what a host function comes to stand on the workbench. -/
theorem Accounted.labelledBelow [Host η] (h : w.Accounted made) {fn : HostFn η}
    {args : List (Value η)} {v : Value η} (hfn : fn.ForgesNothing) (hargs : ∀ a ∈ args, w.Holds a)
    (hcall : fn.call args = .ok v) : v.LabelledBelow w.next := by
  intro l es hes
  have hheld := holds_of_mem_partsAll hargs ((hfn args v hcall).1 l es hes)
  refine ⟨h.lt_of_holds hheld, fun es' hes' => ?_⟩
  obtain ⟨l', hl', -⟩ := h.labelled _ _ (hheld.part hes')
  cases hl'

/-- What a host function comes to holds what stands in its arguments and new arrays. -/
theorem Accounted.fits_call [Host η] (h : w.Accounted made) {fn : HostFn η} {args : List (Value η)}
    {v : Value η} (hfn : fn.ForgesNothing) (hargs : ∀ a ∈ args, w.Holds a)
    (hcall : fn.call args = .ok v) :
    w.Fits made (v.withLabels w.next).1 [] (v.withLabels w.next).2 ∧
      ∀ label es, .array label es ∈ (v.withLabels w.next).1.parts →
        .array label es ∈ Value.partsAll args ∨ ∃ l, label = some l ∧ w.next ≤ l := by
  obtain ⟨harrays, hfunctions⟩ := hfn args v hcall
  have hbelow := h.labelledBelow hfn hargs hcall
  obtain ⟨k, hnext, hlabels, hlabelled, hparts⟩ := v.labels_withLabels w.next (Nat.le_refl _) hbelow
  have hsource : ∀ label es, .array label es ∈ (v.withLabels w.next).1.parts →
      .array label es ∈ Value.partsAll args ∨ ∃ l, label = some l ∧ w.next ≤ l := by
    intro label es hes
    cases label with
    | none => exact absurd hes (hlabelled es)
    | some l =>
        rcases hparts _ hes with hold | ⟨l', es', heq, hle⟩
        · exact Or.inl (harrays l es hold)
        · obtain ⟨hl', -⟩ := Value.array.inj heq
          obtain rfl := Option.some.inj hl'
          exact Or.inr ⟨l, rfl, hle⟩
  refine ⟨?_, hsource⟩
  exact
    { next_le := by omega
      arrays := by
        intro label es hes
        rcases hsource label es hes with hold | ⟨l, rfl, hle⟩
        · exact Or.inl (holds_of_mem_partsAll hargs hold)
        · have hmem : l ∈ List.range' w.next k := by
            rw [← hlabels, List.mem_filter]
            exact ⟨Value.mem_labels_iff.mpr ⟨es, hes⟩, by simpa using hle⟩
          rw [hnext]
          exact Or.inr ⟨l, rfl, List.mem_range'_1.mp hmem⟩
      functions := by
        intro d hd
        rcases hparts _ hd with hold | ⟨_, _, heq, -⟩
        · have hheld := holds_of_mem_partsAll hargs (hfunctions d hold)
          exact List.mem_append_left _ (h.functions d hheld)
        · cases heq
      labels := by
        rw [hlabels]
        exact List.nodup_range'
      serials := fun _ hd => absurd hd List.not_mem_nil
      nodup := List.nodup_nil }

/-! ### One operation -/

theorem mem_of_mapM {rs : List Nat} {vs : List (Value η)} (h : rs.mapM w.register? = some vs) :
    ∀ v ∈ vs, w.Holds v := by
  induction rs generalizing vs with
  | nil =>
      obtain rfl := Option.some.inj h
      simp
  | cons r rs ih =>
      simp only [List.mapM_cons, Option.bind_eq_bind, Option.pure_def, Option.bind_eq_some_iff,
        Option.some.injEq] at h
      obtain ⟨v, hv, vs, hvs, rfl⟩ := h
      exact List.forall_mem_cons.mpr ⟨holds_of_register? hv, ih hvs⟩

theorem holds_of_get {r i : Nat} {v : Value η}
    (h : (do (← (← w.register? r).elements?)[i]?) = some v) : w.Holds v := by
  simp only [Option.bind_eq_bind, Option.bind_eq_some_iff] at h
  obtain ⟨u, hu, es, hes, hv⟩ := h
  cases u with
  | array label es' =>
      obtain rfl := Option.some.inj hes
      have hmem : v ∈ Value.partsAll es' :=
        Value.mem_partsAll.mpr ⟨v, List.mem_of_getElem? hv, Value.mem_parts_self v⟩
      exact (holds_of_register? hu).part (List.mem_cons_of_mem _ hmem)
  | _ => cases hes

/-- Whether an operation put something on the workbench. -/
def Reply.adds : Reply η → Bool
  | .made .. | .declared .. => true
  | .failed _ | .nothing => false

/-- An operation leaves registers and slots as they are, or fills one register with a value that
fits, or one slot with a declaration of its own. -/
theorem Accounted.step_cases [Host η] (h : w.Accounted made)
    (hhost : ∀ code : η, (HostFn.custom code).ForgesNothing) (op : Op η) :
    (w.newDecls op = [] ∧ (w.step op).1.adds = false ∧ (w.step op).2 = w) ∨
    (∃ v next, w.Fits made v (w.newDecls op) next ∧
      w.step op = (.made w.registers.size v, ⟨w.registers.push v, w.decls, next⟩)) ∨
    ∃ d, w.newDecls op = [d] ∧ d.serial = w.next ∧
      w.step op = (.declared w.decls.size d, ⟨w.registers, w.decls.push d, w.next + 1⟩) := by
  cases op with
  | literal l => exact Or.inr (Or.inl ⟨_, _, fits_literal l, rfl⟩)
  | array rs =>
      rw [step]
      cases hvs : rs.mapM w.register? with
      | none => exact Or.inl ⟨rfl, rfl, rfl⟩
      | some vs => exact Or.inr (Or.inl ⟨_, _, h.fits_array (mem_of_mapM hvs), rfl⟩)
  | clone r =>
      rw [step]
      cases hv : w.register? r with
      | none => exact Or.inl ⟨rfl, rfl, rfl⟩
      | some v => exact Or.inr (Or.inl ⟨_, _, h.fits_held (holds_of_register? hv), rfl⟩)
  | function k =>
      rw [step]
      cases hd : w.decls[k]? with
      | none => exact Or.inl ⟨rfl, rfl, rfl⟩
      | some d => exact Or.inr (Or.inl ⟨_, _, h.fits_function (Array.mem_of_getElem? hd), rfl⟩)
  | binary op l r =>
      rw [step]
      cases hl : w.register? l with
      | none => exact Or.inl ⟨rfl, rfl, rfl⟩
      | some u =>
          cases hr : w.register? r with
          | none => exact Or.inl ⟨rfl, rfl, rfl⟩
          | some u' =>
              dsimp only
              cases hv : Value.binary op u u' with
              | error e => exact Or.inl ⟨rfl, rfl, rfl⟩
              | ok v =>
                  refine Or.inr (Or.inl ⟨v, w.next, ?_, rfl⟩)
                  rcases Value.binary_eq_ok hv with hx | hb | rfl | rfl
                  · exact fits_scalar (Or.inl hx)
                  · exact fits_scalar (Or.inr hb)
                  · exact h.fits_held (holds_of_register? hl)
                  · exact h.fits_held (holds_of_register? hr)
  | unary op r =>
      rw [step]
      cases hr : w.register? r with
      | none => exact Or.inl ⟨rfl, rfl, rfl⟩
      | some u =>
          dsimp only
          cases hv : Value.unary op u with
          | error e => exact Or.inl ⟨rfl, rfl, rfl⟩
          | ok v => exact Or.inr (Or.inl ⟨v, w.next, fits_scalar (Value.unary_eq_ok hv), rfl⟩)
  | call f rs =>
      rw [step]
      cases hf : w.register? f with
      | none => exact Or.inl ⟨rfl, rfl, rfl⟩
      | some u =>
          cases u with
          | builtin b =>
              cases hvs : rs.mapM w.register? with
              | none => exact Or.inl ⟨rfl, rfl, rfl⟩
              | some vs =>
                  dsimp only
                  cases hv : b.call vs with
                  | error e => exact Or.inl ⟨rfl, rfl, rfl⟩
                  | ok v =>
                      have hfits := h.fits_call (.of_custom hhost b.fn) (mem_of_mapM hvs) hv
                      exact Or.inr (Or.inl ⟨_, _, hfits.1, rfl⟩)
          | _ => exact Or.inl ⟨rfl, rfl, rfl⟩
  | get r i =>
      rw [step]
      cases hv : (do (← (← w.register? r).elements?)[i]?) with
      | none => exact Or.inl ⟨rfl, rfl, rfl⟩
      | some v => exact Or.inr (Or.inl ⟨v, w.next, h.fits_held (holds_of_get hv), rfl⟩)
  | declare name params body => exact Or.inr (Or.inr ⟨_, rfl, rfl, rfl⟩)

/-- If an operation answers a value, then the value fits, and all that the operation does is to put
it into the next register. -/
theorem Accounted.step_of_made [Host η] (h : w.Accounted made)
    (hhost : ∀ code : η, (HostFn.custom code).ForgesNothing) {op : Op η} {r : Nat} {v : Value η}
    (hmade : (w.step op).1 = .made r v) : r = w.registers.size ∧
      ∃ next, w.Fits made v (w.newDecls op) next ∧
        (w.step op).2 = ⟨w.registers.push v, w.decls, next⟩ := by
  rcases h.step_cases hhost op with ⟨-, hnone, -⟩ | ⟨u, next, hfits, hw⟩ | ⟨d, -, -, hw⟩
  · rw [hmade] at hnone
    cases hnone
  · rw [hw] at hmade
    obtain ⟨rfl, rfl⟩ := Reply.made.inj hmade
    exact ⟨rfl, next, hfits, by rw [hw]⟩
  · rw [hw] at hmade
    cases hmade

/-- A declaration of its own takes the next identity. -/
theorem Accounted.declare (h : w.Accounted made) {d : FunctionDecl} (hd : d.serial = w.next) :
    Accounted ⟨w.registers, w.decls.push d, w.next + 1⟩ (made ++ [d]) where
  labelled label es hes := by
    obtain ⟨l, rfl, hlt⟩ := h.labelled label es hes
    exact ⟨l, rfl, Nat.lt_succ_of_lt hlt⟩
  coherent := h.coherent
  functions d' hd' := List.mem_append_left _ (h.functions d' hd')
  slots := by
    rw [Array.toList_push]
    exact h.slots.append_right [d]
  serial_lt d' hd' := by
    rcases List.mem_append.mp hd' with hd' | hd'
    · exact Nat.lt_succ_of_lt (h.serial_lt d' hd')
    · obtain rfl := List.mem_singleton.mp hd'
      exact hd ▸ Nat.lt_succ_self _
  nodup := by
    rw [List.map_append, List.map_singleton, ← List.concat_eq_append, List.nodup_concat]
    refine ⟨fun hmem => ?_, h.nodup⟩
    obtain ⟨d', hd', heq⟩ := List.mem_map.mp hmem
    have hlt := h.serial_lt d' hd'
    omega

variable [Host η]

/-- **Step.** Identities stay accounted for. -/
theorem step_accounted (h : w.Accounted made)
    (hhost : ∀ code : η, (HostFn.custom code).ForgesNothing) (op : Op η) :
    (w.step op).2.Accounted (made ++ w.newDecls op) := by
  rcases h.step_cases hhost op with ⟨hnone, -, hw⟩ | ⟨v, next, hfits, hw⟩ | ⟨d, hd, hserial, hw⟩
  · rwa [hnone, List.append_nil, hw]
  · rw [hw]
    exact h.push hfits
  · rw [hd, hw]
    exact h.declare hserial

/-- The workbench after some operations. -/
def run (w : Workbench η) (ops : List (Op η)) : Workbench η :=
  ops.foldl (fun w op => (w.step op).2) w

/-- The declarations that are made by some operations, in order. -/
def declared (w : Workbench η) : List (Op η) → List FunctionDecl
  | [] => []
  | op :: ops => w.newDecls op ++ (w.step op).2.declared ops

/-- **Run.** Identities are accounted for after any operations. -/
theorem run_accounted (h : w.Accounted made)
    (hhost : ∀ code : η, (HostFn.custom code).ForgesNothing) (ops : List (Op η)) :
    (w.run ops).Accounted (made ++ w.declared ops) := by
  induction ops generalizing w made with
  | nil => rwa [declared, List.append_nil]
  | cons op ops ih =>
      rw [declared, ← List.append_assoc]
      exact ih (step_accounted h hhost op)

end Accounted

end Workbench

end DynScope
