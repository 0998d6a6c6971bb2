import DynScope.Proofs.Equality
import DynScope.Proofs.Occurrence
import DynScope.Workbench

/-!
# DynScope.Proofs.Objects

**The objects in a value and where their identities come from.** A value is a tree of parts, and
the parts that are arrays or functions of either sort are objects, told from each other by a
number. There are two ways for new ones to arise. What is made of a literal takes the next numbers
of a supply, in the order in which it stands there (`Literal.identities_make`), and reads as the
literal does (`Literal.describe_make`). The arrays that a host function leaves without a label
take the next numbers likewise (`Value.labels_withLabels`), and all else in its result is passed on
as it is (`Value.completed_withLabels`).

How it works: all of it is shown by recursion on the tree, with the first number as a parameter,
since each element of an array begins where the one before it has ended.
-/

namespace DynScope

variable {η : Type}

/-! ### What stands in a value -/

namespace Value

mutual
/-- The value and what stands in it, at any depth of its arrays, from the outside to the inside
and from left to right. -/
def parts : Value η → List (Value η)
  | .array label es => .array label es :: partsAll es
  | .number x => [.number x]
  | .bool b => [.bool b]
  | .builtin b => [.builtin b]
  | .function d => [.function d]
/-- The values of a sequence and what stands in them. -/
def partsAll : List (Value η) → List (Value η)
  | [] => []
  | v :: vs => v.parts ++ partsAll vs
end

theorem mem_partsAll {u : Value η} {vs : List (Value η)} :
    u ∈ partsAll vs ↔ ∃ v ∈ vs, u ∈ v.parts := by
  induction vs with
  | nil => simp [partsAll]
  | cons v vs ih => simp [partsAll, ih]

theorem mem_parts_self (v : Value η) : v ∈ v.parts := by
  cases v <;> simp [parts]

mutual
/-- What stands in a part of a value stands in the value. -/
theorem mem_parts_trans {u p : Value η} : ∀ {v : Value η}, u ∈ v.parts → p ∈ u.parts → p ∈ v.parts
  | .array label es, hu, hp => by
      rw [parts] at hu ⊢
      rcases List.mem_cons.mp hu with rfl | hu
      · exact hp
      · exact List.mem_cons_of_mem _ (mem_partsAll_trans hu hp)
  | .number _, hu, hp | .bool _, hu, hp | .builtin _, hu, hp | .function _, hu, hp => by
      simp only [parts, List.mem_singleton] at hu
      subst hu
      exact hp
theorem mem_partsAll_trans {u p : Value η} :
    ∀ {vs : List (Value η)}, u ∈ partsAll vs → p ∈ u.parts → p ∈ partsAll vs
  | [], hu, _ => by simp [partsAll] at hu
  | v :: vs, hu, hp => by
      rw [partsAll] at hu ⊢
      rcases List.mem_append.mp hu with hu | hu
      · exact List.mem_append_left _ (mem_parts_trans hu hp)
      · exact List.mem_append_right _ (mem_partsAll_trans hu hp)
end

/-- The label of an array that has one. -/
def label? : Value η → Option Nat
  | .array label _ => label
  | _ => none

/-- The number that tells an object from others of its sort. -/
def identity? : Value η → Option Nat
  | .array label _ => label
  | .builtin b => some b.serial
  | .function d => some d.serial
  | .number _ | .bool _ => none

/-- The value is an object: an array or a function of either sort. -/
def isObject : Value η → Bool
  | .number _ | .bool _ => false
  | .array .. | .builtin _ | .function _ => true

/-- Only the logical operators, which select an operand, can come to an object. -/
theorem isObject_binary {op : BinaryOp} {l r v : Value η} (hand : op ≠ .and) (hor : op ≠ .or)
    (h : binary op l r = .ok v) : v.isObject = false := by
  cases op with
  | and => exact absurd rfl hand
  | or => exact absurd rfl hor
  | eq | ne =>
      obtain rfl := Except.ok.inj h
      rfl
  | lt | le | ge | gt =>
      obtain ⟨b, rfl⟩ := ordering_eq_ok h
      rfl
  | add | sub | mul | div | rem | pow =>
      obtain ⟨x, rfl⟩ := arithmetic_eq_ok h
      rfl

theorem isObject_unary {op : UnaryOp} {u v : Value η} (h : unary op u = .ok v) :
    v.isObject = false := by
  rcases unary_eq_ok h with ⟨x, rfl⟩ | ⟨b, rfl⟩
  · rfl
  · rfl

/-- The labels of the arrays in a value. -/
def labels (v : Value η) : List Nat := v.parts.filterMap label?

/-- The declarations of the functions in a value. -/
def decls (v : Value η) : List FunctionDecl := v.parts.filterMap decl?

theorem mem_labels_iff {v : Value η} {l : Nat} :
    l ∈ v.labels ↔ ∃ es, .array (some l) es ∈ v.parts := by
  rw [labels, List.mem_filterMap]
  constructor
  · rintro ⟨u, hu, hl⟩
    cases u with
    | array label es =>
        obtain rfl : label = some l := hl
        exact ⟨es, hu⟩
    | _ => cases hl
  · rintro ⟨es, h⟩
    exact ⟨_, h, rfl⟩

theorem mem_decls_iff {v : Value η} {d : FunctionDecl} : d ∈ v.decls ↔ .function d ∈ v.parts := by
  rw [decls, List.mem_filterMap]
  constructor
  · rintro ⟨u, hu, hd⟩
    cases u with
    | function d' =>
        obtain rfl := Option.some.inj hd
        exact hu
    | _ => cases hd
  · intro h
    exact ⟨_, h, rfl⟩

/-- The arrays in a value. -/
def arrays (v : Value η) : List (Value η) := v.parts.filter (·.elements?.isSome)

theorem mem_arrays_iff {u v : Value η} :
    u ∈ v.arrays ↔ ∃ label es, u = .array label es ∧ .array label es ∈ v.parts := by
  rw [arrays, List.mem_filter]
  constructor
  · rintro ⟨hu, harray⟩
    cases u with
    | array label es => exact ⟨label, es, rfl, hu⟩
    | _ => cases harray
  · rintro ⟨label, es, rfl, hu⟩
    exact ⟨hu, rfl⟩

/-- The value holds no array without a label. -/
def Labelled (v : Value η) : Prop := ∀ es, .array none es ∉ v.parts

theorem labelled_number (x : Float) : (number x : Value η).Labelled := by
  simp [Labelled, parts]

theorem labelled_bool (b : Bool) : (bool b : Value η).Labelled := by
  simp [Labelled, parts]

theorem labelled_builtin (b : Builtin η) : (builtin b).Labelled := by
  simp [Labelled, parts]

theorem labelled_function (d : FunctionDecl) : (function d : Value η).Labelled := by
  simp [Labelled, parts]

theorem labelled_array {l : Nat} {es : List (Value η)} :
    (array (some l) es).Labelled ↔ ∀ e ∈ es, e.Labelled := by
  simp only [Labelled, parts, List.mem_cons, reduceCtorEq, array.injEq, false_and, false_or,
    mem_partsAll, not_exists, not_and]
  exact ⟨fun h e he es' => h es' e he, fun h es' e he => h e he es'⟩

theorem sameObject?_array_iff {label label' : Option Nat} {es es' : List (Value η)} :
    (array label es).sameObject? (array label' es') = some true ↔
      ∃ l, label = some l ∧ label' = some l := by
  simp only [sameObject?, Option.some.injEq, Bool.and_eq_true, beq_iff_eq, Option.isSome_iff_exists]
  constructor
  · rintro ⟨⟨l, rfl⟩, rfl⟩
    exact ⟨l, rfl, rfl⟩
  · rintro ⟨l, rfl, rfl⟩
    exact ⟨⟨l, rfl⟩, rfl⟩

/-- One object has one identity. -/
theorem identity?_of_sameObject? {u v : Value η} (h : u.sameObject? v = some true) :
    ∃ i, u.identity? = some i ∧ v.identity? = some i := by
  cases u with
  | number x => cases h
  | bool b => cases h
  | array label es =>
      cases v with
      | array label' es' =>
          obtain ⟨l, rfl, rfl⟩ := sameObject?_array_iff.mp h
          exact ⟨l, rfl, rfl⟩
      | _ => cases h
  | builtin b =>
      cases v with
      | builtin b' =>
          have hserial := ((sameObject_builtin_iff b b').mp (Option.some.inj h)).2
          exact ⟨b.serial, rfl, congrArg some hserial.symm⟩
      | _ => cases h
  | function d =>
      cases v with
      | function d' =>
          have hserial := ((sameObject_function_iff d d').mp (Option.some.inj h)).2
          exact ⟨d.serial, rfl, congrArg some hserial.symm⟩
      | _ => cases h

end Value

/-! ### What is made -/

mutual
/-- The description of a value, which says nothing of identities. -/
def Value.describe : Value η → Literal η
  | .number x => .number x
  | .bool b => .bool b
  | .array _ es => .array (Value.describeAll es)
  | .builtin b => .builtin b.name b.fn
  | .function d => .function d.name d.params d.body
/-- The descriptions of the values of a sequence. -/
def Value.describeAll : List (Value η) → List (Literal η)
  | [] => []
  | v :: vs => v.describe :: Value.describeAll vs
end

mutual
/-- What is made of a literal is what the literal describes. -/
theorem Literal.describe_make : ∀ (l : Literal η) (n : Nat), (l.make n).1.describe = l
  | .number _, _ | .bool _, _ | .builtin _ _, _ | .function _ _ _, _ => rfl
  | .array ls, n => by
      show Literal.array (Value.describeAll (Literal.makeAll ls (n + 1)).1) = _
      rw [Literal.describeAll_makeAll ls]
theorem Literal.describeAll_makeAll : ∀ (ls : List (Literal η)) (n : Nat),
    Value.describeAll (Literal.makeAll ls n).1 = ls
  | [], _ => rfl
  | l :: ls, n => by
      show (l.make n).1.describe :: Value.describeAll (Literal.makeAll ls (l.make n).2).1 = _
      rw [Literal.describe_make l, Literal.describeAll_makeAll ls]
end

mutual
/-- The objects in a value made of a literal take the next identities in order, and all of its
arrays are labelled. -/
theorem Literal.identities_make : ∀ (l : Literal η) (n : Nat), ∃ k, (l.make n).2 = n + k ∧
    (l.make n).1.parts.filterMap Value.identity? = List.range' n k ∧ (l.make n).1.Labelled
  | .number x, n => ⟨0, rfl, rfl, Value.labelled_number x⟩
  | .bool b, n => ⟨0, rfl, rfl, Value.labelled_bool b⟩
  | .builtin _ _, n => ⟨1, rfl, rfl, Value.labelled_builtin _⟩
  | .function _ _ _, n => ⟨1, rfl, rfl, Value.labelled_function _⟩
  | .array ls, n => by
      obtain ⟨k, hnext, hparts, hlabelled⟩ := Literal.identities_makeAll ls (n + 1)
      refine ⟨k + 1, ?_, ?_, Value.labelled_array.mpr hlabelled⟩
      · show (Literal.makeAll ls (n + 1)).2 = _
        omega
      · show n :: (Value.partsAll (Literal.makeAll ls (n + 1)).1).filterMap _ = _
        rw [hparts, List.range'_succ]
theorem Literal.identities_makeAll : ∀ (ls : List (Literal η)) (n : Nat), ∃ k,
    (Literal.makeAll ls n).2 = n + k ∧
      (Value.partsAll (Literal.makeAll ls n).1).filterMap Value.identity? = List.range' n k ∧
      ∀ v ∈ (Literal.makeAll ls n).1, v.Labelled
  | [], n => ⟨0, rfl, rfl, fun _ hv => absurd hv List.not_mem_nil⟩
  | l :: ls, n => by
      obtain ⟨k, hnext, hparts, hlabelled⟩ := Literal.identities_make l n
      obtain ⟨k', hnext', hparts', hlabelled'⟩ := Literal.identities_makeAll ls (l.make n).2
      refine ⟨k + k', ?_, ?_, ?_⟩
      · show (Literal.makeAll ls (l.make n).2).2 = _
        omega
      · show ((l.make n).1.parts ++
          Value.partsAll (Literal.makeAll ls (l.make n).2).1).filterMap _ = _
        rw [List.filterMap_append, hparts, hparts', hnext, List.range'_append_1]
      · show ∀ v ∈ (l.make n).1 :: (Literal.makeAll ls (l.make n).2).1, v.Labelled
        exact List.forall_mem_cons.mpr ⟨hlabelled, hlabelled'⟩
end

theorem Literal.nodup_identities_make (l : Literal η) (n : Nat) :
    ((l.make n).1.parts.filterMap Value.identity?).Nodup := by
  obtain ⟨k, -, hidentities, -⟩ := l.identities_make n
  rw [hidentities]
  exact List.nodup_range'

/-- No two objects in a value made of a literal are one. -/
theorem Literal.pairwise_make (l : Literal η) (n : Nat) :
    (l.make n).1.parts.Pairwise fun u u' => u.sameObject? u' ≠ some true := by
  have hnodup := l.nodup_identities_make n
  rw [List.Nodup, List.pairwise_filterMap] at hnodup
  refine hnodup.imp fun hdistinct hsame => ?_
  obtain ⟨i, hi, hi'⟩ := Value.identity?_of_sameObject? hsame
  exact hdistinct i hi i hi' rfl

namespace Value

/-- The arrays in the value that have a label have one below `b`, and so have all arrays in
them. -/
def LabelledBelow (b : Nat) (v : Value η) : Prop :=
  ∀ l es, array (some l) es ∈ v.parts → l < b ∧ (array (some l) es).Labelled

/-- The same of all values of a sequence. -/
def LabelledBelowAll (b : Nat) (vs : List (Value η)) : Prop :=
  ∀ l es, array (some l) es ∈ partsAll vs → l < b ∧ (array (some l) es).Labelled

theorem LabelledBelow.elements {b : Nat} {label : Option Nat} {es : List (Value η)}
    (h : (array label es).LabelledBelow b) : LabelledBelowAll b es :=
  fun l es' hes => h l es' (List.mem_cons_of_mem _ hes)

theorem LabelledBelowAll.head {b : Nat} {v : Value η} {vs : List (Value η)}
    (h : LabelledBelowAll b (v :: vs)) : v.LabelledBelow b :=
  fun l es hes => h l es (List.mem_append_left _ hes)

theorem LabelledBelowAll.tail {b : Nat} {v : Value η} {vs : List (Value η)}
    (h : LabelledBelowAll b (v :: vs)) : LabelledBelowAll b vs :=
  fun l es hes => h l es (List.mem_append_right _ hes)

mutual
/-- The arrays of a value that are without a label take the next labels in order, and then all
arrays are labelled. What else stands in the value stays as it is. -/
theorem labels_withLabels {b : Nat} : ∀ (v : Value η) (n : Nat), b ≤ n → v.LabelledBelow b →
    ∃ k, (v.withLabels n).2 = n + k ∧
      (v.withLabels n).1.labels.filter (b ≤ ·) = List.range' n k ∧
      (v.withLabels n).1.Labelled ∧
      ∀ p ∈ (v.withLabels n).1.parts, p ∈ v.parts ∨ ∃ l es, p = array (some l) es ∧ n ≤ l
  | .array none es, n, hn, hb => by
      obtain ⟨k, hnext, hlabels, hlabelled, hparts⟩ :=
        labels_withLabelsAll es (n + 1) (Nat.le_succ_of_le hn) hb.elements
      refine ⟨k + 1, ?_, ?_, labelled_array.mpr hlabelled, ?_⟩
      · show (withLabelsAll es (n + 1)).2 = _
        omega
      · show (n :: (partsAll (withLabelsAll es (n + 1)).1).filterMap label?).filter _ = _
        rw [List.filter_cons_of_pos (by simpa using hn), hlabels, List.range'_succ]
      · show ∀ p ∈ array (some n) _ :: partsAll (withLabelsAll es (n + 1)).1, _
        intro p hp
        rcases List.mem_cons.mp hp with rfl | hp
        · exact Or.inr ⟨n, _, rfl, Nat.le_refl n⟩
        · rcases hparts p hp with h | ⟨l, es', rfl, hl⟩
          · exact Or.inl (List.mem_cons_of_mem _ h)
          · exact Or.inr ⟨l, es', rfl, Nat.le_of_succ_le hl⟩
  | .array (some l) es, n, _, hb => by
      refine ⟨0, rfl, ?_, (hb l es (mem_parts_self _)).2, fun p hp => Or.inl hp⟩
      show (labels (array (some l) es)).filter _ = []
      rw [List.filter_eq_nil_iff]
      intro l' hl'
      obtain ⟨es', hmem⟩ := mem_labels_iff.mp hl'
      simpa using (hb l' es' hmem).1
  | .number x, n, _, _ => ⟨0, rfl, rfl, labelled_number x, fun _ hp => Or.inl hp⟩
  | .bool b, n, _, _ => ⟨0, rfl, rfl, labelled_bool b, fun _ hp => Or.inl hp⟩
  | .builtin b, n, _, _ => ⟨0, rfl, rfl, labelled_builtin b, fun _ hp => Or.inl hp⟩
  | .function d, n, _, _ => ⟨0, rfl, rfl, labelled_function d, fun _ hp => Or.inl hp⟩
theorem labels_withLabelsAll {b : Nat} : ∀ (vs : List (Value η)) (n : Nat), b ≤ n →
    LabelledBelowAll b vs →
    ∃ k, (withLabelsAll vs n).2 = n + k ∧
      ((partsAll (withLabelsAll vs n).1).filterMap label?).filter (b ≤ ·) = List.range' n k ∧
      (∀ v ∈ (withLabelsAll vs n).1, v.Labelled) ∧
      ∀ p ∈ partsAll (withLabelsAll vs n).1,
        p ∈ partsAll vs ∨ ∃ l es, p = array (some l) es ∧ n ≤ l
  | [], n, _, _ => ⟨0, rfl, rfl, fun _ hv => absurd hv List.not_mem_nil, fun _ hp => Or.inl hp⟩
  | v :: vs, n, hn, hb => by
      obtain ⟨k, hnext, hlabels, hlabelled, hparts⟩ := labels_withLabels v n hn hb.head
      obtain ⟨k', hnext', hlabels', hlabelled', hparts'⟩ :=
        labels_withLabelsAll vs (v.withLabels n).2 (by omega) hb.tail
      refine ⟨k + k', ?_, ?_, ?_, ?_⟩
      · show (withLabelsAll vs (v.withLabels n).2).2 = _
        omega
      · show (((v.withLabels n).1.parts ++
          partsAll (withLabelsAll vs (v.withLabels n).2).1).filterMap label?).filter _ = _
        rw [List.filterMap_append, List.filter_append, hlabels', hnext, ← List.range'_append_1,
          ← hlabels]
        rfl
      · show ∀ u ∈ (v.withLabels n).1 :: (withLabelsAll vs (v.withLabels n).2).1, u.Labelled
        exact List.forall_mem_cons.mpr ⟨hlabelled, hlabelled'⟩
      · show ∀ p ∈ (v.withLabels n).1.parts ++ partsAll (withLabelsAll vs (v.withLabels n).2).1, _
        intro p hp
        rcases List.mem_append.mp hp with hp | hp
        · rcases hparts p hp with h | h
          · exact Or.inl (List.mem_append_left _ h)
          · exact Or.inr h
        · rcases hparts' p hp with h | ⟨l, es, rfl, hl⟩
          · exact Or.inl (List.mem_append_right _ h)
          · exact Or.inr ⟨l, es, rfl, by omega⟩
end

mutual
/-- The second value is the first one with a label for every array that has none. The arrays that
got one satisfy `P`, and what is labelled throughout is passed on as it is. -/
inductive Completed (P : Value η → Prop) : Value η → Value η → Prop
  | keep {v : Value η} : v.Labelled → Completed P v v
  | label {l : Nat} {es es' : List (Value η)} : CompletedAll P es es' → P (.array (some l) es') →
      Completed P (.array none es) (.array (some l) es')
/-- Equally many values, completed one by one. -/
inductive CompletedAll (P : Value η → Prop) : List (Value η) → List (Value η) → Prop
  | nil : CompletedAll P [] []
  | cons {v v' : Value η} {vs vs' : List (Value η)} : Completed P v v' → CompletedAll P vs vs' →
      CompletedAll P (v :: vs) (v' :: vs')
end

mutual
/-- Labelling completes a value, with labels from `b` on. -/
theorem completed_withLabels {b : Nat} {P : Value η → Prop}
    (hP : ∀ l es, b ≤ l → P (.array (some l) es)) : ∀ (v : Value η) (n : Nat), b ≤ n →
    v.LabelledBelow b → Completed P v (v.withLabels n).1
  | .array none es, n, hn, hb => by
      have helements := completedAll_withLabelsAll hP es (n + 1) (Nat.le_succ_of_le hn) hb.elements
      exact .label helements (hP n _ hn)
  | .array (some l) es, _, _, hb => .keep (hb l es (mem_parts_self _)).2
  | .number x, _, _, _ => .keep (labelled_number x)
  | .bool b, _, _, _ => .keep (labelled_bool b)
  | .builtin b, _, _, _ => .keep (labelled_builtin b)
  | .function d, _, _, _ => .keep (labelled_function d)
theorem completedAll_withLabelsAll {b : Nat} {P : Value η → Prop}
    (hP : ∀ l es, b ≤ l → P (.array (some l) es)) : ∀ (vs : List (Value η)) (n : Nat), b ≤ n →
    LabelledBelowAll b vs → CompletedAll P vs (withLabelsAll vs n).1
  | [], _, _, _ => .nil
  | v :: vs, n, hn, hb => by
      obtain ⟨k, hnext, -⟩ := labels_withLabels v n hn hb.head
      exact .cons (completed_withLabels hP v n hn hb.head)
        (completedAll_withLabelsAll hP vs (v.withLabels n).2 (by omega) hb.tail)
end

/-- A labelled value stays as it is. -/
theorem withLabels_of_labelled {v : Value η} (h : v.Labelled) (n : Nat) :
    v.withLabels n = (v, n) := by
  cases v with
  | array label es =>
      cases label with
      | none => exact absurd (mem_parts_self _) (h es)
      | some l => rfl
  | _ => rfl

end Value

end DynScope
