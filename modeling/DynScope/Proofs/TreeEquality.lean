import DynScope.Proofs.Contents
import DynScope.Proofs.Equality

/-!
# DynScope.Proofs.TreeEquality

**What equality of trees looks at.** Two trees are equal exactly if no numeral in either of them
is NaN and their contents are the same tree (`Expr.beq_iff_content`, `Stmt.beq_iff_content`,
`Program.beq_iff_content`). The content of a tree is what is left of it when a negative zero is
read as zero and a function declaration is no object of its own, but its name, its parameters
and its body.

How it works: the comparison walks down two trees together, so the induction is on the left tree,
and at each node there is one node that the right tree may have there. All else follows for trees
of any sort (`ComparesContent`): equality is symmetric and transitive, and the trees that are
equal to themselves are those without NaN. They are equal to their copies as well, since neither
the content of a tree nor a NaN in it depends on which objects its declarations are
(`Stmt.content_asWritten`, `Stmt.nanFree_asWritten`).
-/

namespace DynScope

/-! ### Trees without NaN -/

namespace Expr

/-- No numeral in the expression is NaN, at any depth. -/
def NaNFree (e : Expr) : Prop := ∀ x, .numeral x ∈ e.parts → x.isNaN = false

/-- No numeral in any of the expressions is NaN. -/
def NaNFreeAll (es : List Expr) : Prop := ∀ x, .numeral x ∈ partsAll es → x.isNaN = false

@[simp] theorem nanFree_numeral (x : Float) : (numeral x).NaNFree ↔ x.isNaN = false := by
  simp [NaNFree, parts]

@[simp] theorem nanFree_bool (b : Bool) : (bool b).NaNFree := by
  simp [NaNFree, parts]

@[simp] theorem nanFree_identifier (n : Name) : (identifier n).NaNFree := by
  simp [NaNFree, parts]

@[simp] theorem nanFree_binary (op : BinaryOp) (l r : Expr) :
    (binary op l r).NaNFree ↔ l.NaNFree ∧ r.NaNFree := by
  simp [NaNFree, parts, or_imp, forall_and]

@[simp] theorem nanFree_unary (op : UnaryOp) (e : Expr) :
    (unary op e).NaNFree ↔ e.NaNFree := by
  simp [NaNFree, parts]

@[simp] theorem nanFree_conditional (t c a : Expr) :
    (conditional t c a).NaNFree ↔ t.NaNFree ∧ c.NaNFree ∧ a.NaNFree := by
  simp [NaNFree, parts, or_imp, forall_and]

@[simp] theorem nanFree_call (callee : Name) (args : List Expr) :
    (call callee args).NaNFree ↔ NaNFreeAll args := by
  simp [NaNFree, NaNFreeAll, parts]

@[simp] theorem nanFree_array (es : List Expr) : (array es).NaNFree ↔ NaNFreeAll es := by
  simp [NaNFree, NaNFreeAll, parts]

@[simp] theorem nanFree_subscript (b i : Expr) :
    (subscript b i).NaNFree ↔ b.NaNFree ∧ i.NaNFree := by
  simp [NaNFree, parts, or_imp, forall_and]

@[simp] theorem nanFreeAll_nil : NaNFreeAll [] := by
  simp [NaNFreeAll, partsAll]

@[simp] theorem nanFreeAll_cons (e : Expr) (es : List Expr) :
    NaNFreeAll (e :: es) ↔ e.NaNFree ∧ NaNFreeAll es := by
  simp [NaNFree, NaNFreeAll, partsAll, or_imp, forall_and]

end Expr

namespace Stmt

/-- No numeral in the statement is NaN, in nested blocks, bodies of loops and bodies of
functions as well. -/
def NaNFree (st : Stmt) : Prop := ∀ part ∈ st.parts, ∀ e, part.expr? = some e → e.NaNFree

/-- No numeral in any statement of the block is NaN. -/
def NaNFreeAll (b : Block) : Prop := ∀ part ∈ partsAll b, ∀ e, part.expr? = some e → e.NaNFree

@[simp] theorem nanFree_block (b : Block) : (block b).NaNFree ↔ NaNFreeAll b := by
  simp [NaNFree, NaNFreeAll, parts, expr?]

@[simp] theorem nanFree_declare (n : Name) (e : Expr) : (declare n e).NaNFree ↔ e.NaNFree := by
  simp [NaNFree, parts, expr?]

@[simp] theorem nanFree_assign (n : Name) (e : Expr) : (assign n e).NaNFree ↔ e.NaNFree := by
  simp [NaNFree, parts, expr?]

@[simp] theorem nanFree_print (e : Expr) : (print e).NaNFree ↔ e.NaNFree := by
  simp [NaNFree, parts, expr?]

@[simp] theorem nanFree_loop (c : Expr) (b : Block) :
    (loop c b).NaNFree ↔ c.NaNFree ∧ NaNFreeAll b := by
  simp [NaNFree, NaNFreeAll, parts, expr?]

@[simp] theorem nanFree_function (d : FunctionDecl) :
    (function d).NaNFree ↔ d.body.NaNFree := by
  simp [NaNFree, parts, expr?]

@[simp] theorem nanFreeAll_nil : NaNFreeAll [] := by
  simp [NaNFreeAll, partsAll]

@[simp] theorem nanFreeAll_cons (st : Stmt) (b : Block) :
    NaNFreeAll (st :: b) ↔ st.NaNFree ∧ NaNFreeAll b := by
  simp [NaNFree, NaNFreeAll, partsAll, or_imp, forall_and]

end Stmt

/-- No numeral in the program is NaN, wherever it stands. -/
def Program.NaNFree (p : Program) : Prop := ∀ x, p.Contains (.numeral x) → x.isNaN = false

theorem Program.nanFree_iff (p : Program) : p.NaNFree ↔ Stmt.NaNFreeAll p.body := by
  constructor
  · intro h part hpart e he x hx
    exact h x ⟨part, hpart, e, he, hx⟩
  · rintro h x ⟨part, hpart, e, he, hx⟩
    exact h part hpart e he x hx

/-! ### Contents -/

mutual
/-- The expression with every negative zero read as zero. -/
def Expr.content : Expr → Expr
  | .numeral x => .numeral (Number.unsignedZero x)
  | .bool b => .bool b
  | .identifier n => .identifier n
  | .binary op l r => .binary op l.content r.content
  | .unary op e => .unary op e.content
  | .conditional t c a => .conditional t.content c.content a.content
  | .call callee args => .call callee (Expr.contentAll args)
  | .array es => .array (Expr.contentAll es)
  | .subscript b i => .subscript b.content i.content
/-- The expressions with every negative zero read as zero. -/
def Expr.contentAll : List Expr → List Expr
  | [] => []
  | e :: es => e.content :: Expr.contentAll es
end

/-- The declaration as it is written, without what tells it from others that are written so. -/
def FunctionDecl.asWritten (d : FunctionDecl) : FunctionDecl := { d with serial := 0 }

/-- The declaration as it is written, with every negative zero in its body read as zero. -/
def FunctionDecl.content (d : FunctionDecl) : FunctionDecl :=
  { d.asWritten with body := d.body.content }

mutual
/-- The statement with every declaration as it is written. -/
def Stmt.asWritten : Stmt → Stmt
  | .block b => .block (Stmt.asWrittenAll b)
  | .declare n e => .declare n e
  | .assign n e => .assign n e
  | .print e => .print e
  | .loop c b => .loop c (Stmt.asWrittenAll b)
  | .function d => .function d.asWritten
/-- The statements of a block, with every declaration as it is written. -/
def Stmt.asWrittenAll : Block → Block
  | [] => []
  | st :: rest => st.asWritten :: Stmt.asWrittenAll rest
end

mutual
/-- The statement with every declaration as it is written and every negative zero read as
zero. -/
def Stmt.content : Stmt → Stmt
  | .block b => .block (Stmt.contentAll b)
  | .declare n e => .declare n e.content
  | .assign n e => .assign n e.content
  | .print e => .print e.content
  | .loop c b => .loop c.content (Stmt.contentAll b)
  | .function d => .function d.content
/-- The contents of the statements of a block. -/
def Stmt.contentAll : Block → Block
  | [] => []
  | st :: rest => st.content :: Stmt.contentAll rest
end

namespace Program

/-- The program with every declaration as it is written. -/
def asWritten (p : Program) : Program := ⟨Stmt.asWrittenAll p.body⟩

/-- The program with every declaration as it is written and every negative zero read as zero. -/
def content (p : Program) : Program := ⟨Stmt.contentAll p.body⟩

end Program

/-! ### Trees that are written the same -/

mutual
/-- The identity of declarations is no part of the content. -/
theorem Stmt.content_asWritten : (st : Stmt) → st.asWritten.content = st.content
  | .block b => by rw [asWritten, content, content, contentAll_asWrittenAll b]
  | .declare n e => rfl
  | .assign n e => rfl
  | .print e => rfl
  | .loop c b => by rw [asWritten, content, content, contentAll_asWrittenAll b]
  | .function d => rfl
theorem Stmt.contentAll_asWrittenAll : (b : Block) →
    contentAll (asWrittenAll b) = contentAll b
  | [] => rfl
  | st :: rest => by
      rw [asWrittenAll, contentAll, contentAll, content_asWritten st,
        contentAll_asWrittenAll rest]
end

mutual
/-- The identity of declarations does not matter to the numerals. -/
theorem Stmt.nanFree_asWritten : (st : Stmt) → (st.asWritten.NaNFree ↔ st.NaNFree)
  | .block b => by rw [asWritten, nanFree_block, nanFree_block, nanFreeAll_asWrittenAll b]
  | .declare n e => by rw [asWritten]
  | .assign n e => by rw [asWritten]
  | .print e => by rw [asWritten]
  | .loop c b => by rw [asWritten, nanFree_loop, nanFree_loop, nanFreeAll_asWrittenAll b]
  | .function d => by
      rw [asWritten, nanFree_function, nanFree_function]
      rfl
theorem Stmt.nanFreeAll_asWrittenAll : (b : Block) →
    (NaNFreeAll (asWrittenAll b) ↔ NaNFreeAll b)
  | [] => Iff.rfl
  | st :: rest => by
      rw [asWrittenAll, nanFreeAll_cons, nanFreeAll_cons, nanFree_asWritten st,
        nanFreeAll_asWrittenAll rest]
end

/-! ### Equality by content -/

mutual
/-- Expressions are equal exactly if they are without NaN and have the same content. -/
theorem Expr.beq_iff_content : (a b : Expr) →
    (a.beq b = true ↔ a.NaNFree ∧ b.NaNFree ∧ a.content = b.content)
  | .numeral x, b => by
      cases b with
      | numeral y => simp [beq, content, Number.beq_iff]
      | _ => simp [beq, content]
  | .bool x, b => by cases b <;> simp [beq, content]
  | .identifier n, b => by cases b <;> simp [beq, content]
  | .binary op l r, b => by
      cases b with
      | binary op' l' r' =>
          simp only [beq, Bool.and_eq_true, beq_iff_eq, beq_iff_content l l',
            beq_iff_content r r', nanFree_binary, content, binary.injEq]
          -- The parts speak of both sides in turn; the whole speaks of one side after the other.
          tauto
      | _ => simp [beq, content]
  | .unary op e, b => by
      cases b with
      | unary op' e' =>
          simp only [beq, Bool.and_eq_true, beq_iff_eq, beq_iff_content e e', nanFree_unary,
            content, unary.injEq]
          tauto
      | _ => simp [beq, content]
  | .conditional t c a, b => by
      cases b with
      | conditional t' c' a' =>
          simp only [beq, Bool.and_eq_true, beq_iff_content t t', beq_iff_content c c',
            beq_iff_content a a', nanFree_conditional, content, conditional.injEq]
          tauto
      | _ => simp [beq, content]
  | .call f es, b => by
      cases b with
      | call f' es' =>
          simp only [beq, Bool.and_eq_true, beq_iff_eq, beqAll_iff_content es es', nanFree_call,
            content, call.injEq]
          tauto
      | _ => simp [beq, content]
  | .array es, b => by
      cases b with
      | array es' => simp [beq, content, beqAll_iff_content es es']
      | _ => simp [beq, content]
  | .subscript base i, b => by
      cases b with
      | subscript base' i' =>
          simp only [beq, Bool.and_eq_true, beq_iff_content base base', beq_iff_content i i',
            nanFree_subscript, content, subscript.injEq]
          tauto
      | _ => simp [beq, content]
/-- Lists of expressions are equal exactly if they are without NaN and have the same contents,
in order and in number. -/
theorem Expr.beqAll_iff_content : (es es' : List Expr) →
    (beqAll es es' = true ↔ NaNFreeAll es ∧ NaNFreeAll es' ∧ contentAll es = contentAll es')
  | [], [] => by simp [beqAll]
  | [], _ :: _ => by simp [beqAll, contentAll]
  | _ :: _, [] => by simp [beqAll, contentAll]
  | e :: es, e' :: es' => by
      simp only [beqAll, Bool.and_eq_true, beq_iff_content e e', beqAll_iff_content es es',
        nanFreeAll_cons, contentAll, List.cons.injEq]
      tauto
end

theorem Expr.beq_eq (a b : Expr) : (a == b) = a.beq b := rfl

/-- Declarations are equal exactly if their bodies are without NaN and they are written the
same, whichever objects they are. -/
theorem FunctionDecl.beq_iff_content (d d' : FunctionDecl) :
    d.beq d' = true ↔ d.body.NaNFree ∧ d'.body.NaNFree ∧ d.content = d'.content := by
  simp only [beq, Bool.and_eq_true, beq_iff_eq, Expr.beq_eq,
    Expr.beq_iff_content d.body d'.body, content, asWritten, mk.injEq]
  tauto

theorem FunctionDecl.beq_eq (d d' : FunctionDecl) : (d == d') = d.beq d' := rfl

mutual
/-- Statements are equal exactly if they are without NaN and have the same content. -/
theorem Stmt.beq_iff_content : (a b : Stmt) →
    (a.beq b = true ↔ a.NaNFree ∧ b.NaNFree ∧ a.content = b.content)
  | .block b, st => by
      cases st with
      | block b' => simp [beq, content, beqAll_iff_content b b']
      | _ => simp [beq, content]
  | .declare n e, st => by
      cases st with
      | declare n' e' =>
          simp only [beq, Bool.and_eq_true, beq_iff_eq, Expr.beq_eq,
            Expr.beq_iff_content e e', nanFree_declare, content, declare.injEq]
          tauto
      | _ => simp [beq, content]
  | .assign n e, st => by
      cases st with
      | assign n' e' =>
          simp only [beq, Bool.and_eq_true, beq_iff_eq, Expr.beq_eq,
            Expr.beq_iff_content e e', nanFree_assign, content, assign.injEq]
          tauto
      | _ => simp [beq, content]
  | .print e, st => by
      cases st with
      | print e' => simp [beq, content, Expr.beq_eq, Expr.beq_iff_content e e']
      | _ => simp [beq, content]
  | .loop c b, st => by
      cases st with
      | loop c' b' =>
          simp only [beq, Bool.and_eq_true, Expr.beq_eq, Expr.beq_iff_content c c',
            beqAll_iff_content b b', nanFree_loop, content, loop.injEq]
          tauto
      | _ => simp [beq, content]
  | .function d, st => by
      cases st with
      | function d' => simp [beq, content, FunctionDecl.beq_eq, FunctionDecl.beq_iff_content d d']
      | _ => simp [beq, content]
/-- Blocks are equal exactly if they are without NaN and have the same contents, in order and
in number. -/
theorem Stmt.beqAll_iff_content : (b b' : Block) →
    (beqAll b b' = true ↔ NaNFreeAll b ∧ NaNFreeAll b' ∧ contentAll b = contentAll b')
  | [], [] => by simp [beqAll]
  | [], _ :: _ => by simp [beqAll, contentAll]
  | _ :: _, [] => by simp [beqAll, contentAll]
  | st :: b, st' :: b' => by
      simp only [beqAll, Bool.and_eq_true, beq_iff_content st st', beqAll_iff_content b b',
        nanFreeAll_cons, contentAll, List.cons.injEq]
      tauto
end

theorem Program.beq_iff_content (p q : Program) :
    p.beq q = true ↔ p.NaNFree ∧ q.NaNFree ∧ p.content = q.content := by
  simp only [beq, Stmt.beqAll_iff_content, nanFree_iff, content, mk.injEq]

/-! ### What follows for the trees of one sort -/

/-- On trees of one sort equality compares contents, and it finds no tree with a NaN equal to
any. -/
structure ComparesContent {α : Type} [BEq α] (NaNFree : α → Prop) (content asWritten : α → α) :
    Prop where
  /-- Equal are trees without NaN that have the same content. -/
  iff_content : ∀ a b : α, (a == b) = true ↔ NaNFree a ∧ NaNFree b ∧ content a = content b
  /-- Neither side is preferred. -/
  symmetric : ∀ a b : α, (a == b) = (b == a)
  /-- Equality may be chained. -/
  transitive : ∀ a b c : α, (a == b) = true → (b == c) = true → (a == c) = true
  /-- Equal to itself is a tree without NaN. -/
  reflexive : ∀ a : α, (a == a) = true ↔ NaNFree a
  /-- So it is to a copy, whether that shares the declarations or has its own. -/
  copy : ∀ a a', asWritten a = asWritten a' → ((a == a') = true ↔ NaNFree a)

/-- All of it follows from how equality compares two trees, as long as content and NaN can be
told from what is written. -/
theorem ComparesContent.of_iff {α : Type} [BEq α] {NaNFree : α → Prop} {content asWritten : α → α}
    (hiff : ∀ a b : α, (a == b) = true ↔ NaNFree a ∧ NaNFree b ∧ content a = content b)
    (hcontent : ∀ a, content (asWritten a) = content a)
    (hfree : ∀ a, NaNFree (asWritten a) ↔ NaNFree a) :
    ComparesContent NaNFree content asWritten where
  iff_content := hiff
  symmetric := by
    intro a b
    rw [Bool.eq_iff_iff, hiff, hiff]
    exact ⟨fun ⟨ha, hb, h⟩ => ⟨hb, ha, h.symm⟩, fun ⟨hb, ha, h⟩ => ⟨ha, hb, h.symm⟩⟩
  transitive := by
    intro a b c hab hbc
    obtain ⟨ha, -, hab⟩ := (hiff a b).mp hab
    obtain ⟨-, hc, hbc⟩ := (hiff b c).mp hbc
    exact (hiff a c).mpr ⟨ha, hc, hab.trans hbc⟩
  reflexive := by
    intro a
    rw [hiff]
    exact ⟨fun ⟨ha, _⟩ => ha, fun ha => ⟨ha, ha, rfl⟩⟩
  copy := by
    intro a a' hcopy
    have hsame : content a = content a' := by rw [← hcontent a, hcopy, hcontent]
    have hboth : NaNFree a ↔ NaNFree a' := by rw [← hfree a, hcopy, hfree]
    rw [hiff]
    exact ⟨fun ⟨ha, _⟩ => ha, fun ha => ⟨ha, hboth.mp ha, hsame⟩⟩

/-- **Equality of trees is equality of contents on the trees without NaN.** Two programs, two
statements or two expressions are equal exactly if no numeral in either of them is NaN, in
bodies of functions and of loops and in nested blocks as well, and they are the same tree when
every negative zero is read as zero and declarations are taken for what is written, which is
their name, their parameters and their body. So equality is symmetric and transitive, and a tree
is equal to itself, and to any copy of it, exactly if it holds no NaN. -/
theorem Program.equality_of_trees :
    ComparesContent Program.NaNFree Program.content Program.asWritten ∧
      ComparesContent Stmt.NaNFree Stmt.content Stmt.asWritten ∧
      ComparesContent Expr.NaNFree Expr.content id := by
  refine ⟨?program, ?statement, ?expression⟩
  case program =>
    refine .of_iff Program.beq_iff_content (fun p => ?_) (fun p => ?_)
    · rw [content, asWritten, Stmt.contentAll_asWrittenAll, content]
    · rw [nanFree_iff, nanFree_iff, asWritten, Stmt.nanFreeAll_asWrittenAll]
  case statement =>
    exact .of_iff Stmt.beq_iff_content Stmt.content_asWritten Stmt.nanFree_asWritten
  case expression =>
    exact .of_iff Expr.beq_iff_content (fun _ => rfl) (fun _ => Iff.rfl)

/-- A declaration whose body holds a NaN differs from itself, although it is one object. -/
example : (Stmt.function ⟨⟨1⟩, 1, [], .numeral Number.nan⟩ ==
    Stmt.function ⟨⟨1⟩, 1, [], .numeral Number.nan⟩) = false := rfl

end DynScope
