import DynScope.Proofs.Occurrence
import DynScope.Proofs.Replay

/-!
# DynScope.Proofs.Contents

**What a program contains.** Its statements stand in it at any depth of blocks and loops
(`Program.Executes`), and its expressions are those that the statements hold, the bodies of
functions included, with all the expressions inside them (`Program.Contains`). What can be said
of the names in them is said in these terms: which are called and with what arguments, which
are used and which are declared. All of them are among `Program.names`.
-/

namespace DynScope

/-! ### Parts -/

mutual
/-- An expression with all the expressions inside it. -/
def Expr.parts : Expr → List Expr
  | .numeral x => [.numeral x]
  | .bool b => [.bool b]
  | .identifier n => [.identifier n]
  | .binary op l r => .binary op l r :: (l.parts ++ r.parts)
  | .unary op e => .unary op e :: e.parts
  | .conditional t c a => .conditional t c a :: (t.parts ++ c.parts ++ a.parts)
  | .call callee args => .call callee args :: Expr.partsAll args
  | .array es => .array es :: Expr.partsAll es
  | .subscript b i => .subscript b i :: (b.parts ++ i.parts)
/-- Several expressions with all the expressions inside them. -/
def Expr.partsAll : List Expr → List Expr
  | [] => []
  | e :: es => e.parts ++ Expr.partsAll es
end

/-- The expression that a statement holds itself, outside the statements inside it. -/
def Stmt.expr? : Stmt → Option Expr
  | .block _ => none
  | .declare _ e | .assign _ e | .print e | .loop e _ => some e
  | .function d => some d.body

namespace Program

variable (p : Program)

/-- The statement stands in the program, at any depth. -/
def Executes (st : Stmt) : Prop := st ∈ Stmt.partsAll p.body

/-- The expression stands in the program, at any depth and in bodies of functions as well. -/
def Contains (e : Expr) : Prop := ∃ st, p.Executes st ∧ ∃ root, st.expr? = some root ∧ e ∈ root.parts

/-- The program calls something by the name, with arguments. -/
def Calls (callee : Name) (args : List Expr) : Prop := p.Contains (.call callee args)

/-- The name is an identifier, a callee or the target of an assignment. -/
def Uses (n : Name) : Prop :=
  p.Contains (.identifier n) ∨ (∃ args, p.Calls n args) ∨ ∃ e, p.Executes (.assign n e)

/-- The name is declared, as a variable or as a function. -/
def Declares (n : Name) : Prop :=
  (∃ e, p.Executes (.declare n e)) ∨ ∃ d, p.Executes (.function d) ∧ d.name = n

end Program

theorem Expr.mem_parts_self (e : Expr) : e ∈ e.parts := by
  cases e <;> simp [parts]

theorem Program.Executes.contains {p : Program} {st : Stmt} (h : p.Executes st) {root : Expr}
    (hroot : st.expr? = some root) : ∀ e ∈ root.parts, p.Contains e :=
  fun _ he => ⟨st, h, root, hroot, he⟩

/-! ### The names of parts -/

mutual
theorem Expr.mem_names_of_part {n : Name} : ∀ {e part : Expr}, part ∈ e.parts →
    n ∈ part.names → n ∈ e.names
  | .numeral _, _, h, hn | .bool _, _, h, hn | .identifier _, _, h, hn => by
      rw [Expr.parts, List.mem_singleton] at h
      exact h ▸ hn
  | .binary _ l r, _, h, hn => by
      simp only [Expr.parts, List.mem_cons, List.mem_append] at h
      rcases h with rfl | h | h
      · exact hn
      · exact List.mem_append_left _ (Expr.mem_names_of_part h hn)
      · exact List.mem_append_right _ (Expr.mem_names_of_part h hn)
  | .unary _ e, _, h, hn => by
      simp only [Expr.parts, List.mem_cons] at h
      rcases h with rfl | h
      · exact hn
      · exact Expr.mem_names_of_part (e := e) h hn
  | .conditional t c a, _, h, hn => by
      simp only [Expr.parts, List.mem_cons, List.mem_append] at h
      rcases h with rfl | (h | h) | h
      · exact hn
      · exact List.mem_append_left _ (List.mem_append_left _ (Expr.mem_names_of_part h hn))
      · exact List.mem_append_left _ (List.mem_append_right _ (Expr.mem_names_of_part h hn))
      · exact List.mem_append_right _ (Expr.mem_names_of_part h hn)
  | .call _ args, _, h, hn => by
      simp only [Expr.parts, List.mem_cons] at h
      rcases h with rfl | h
      · exact hn
      · exact List.mem_cons_of_mem _ (Expr.mem_namesAll_of_part h hn)
  | .array es, _, h, hn => by
      simp only [Expr.parts, List.mem_cons] at h
      rcases h with rfl | h
      · exact hn
      · rw [Expr.names]
        exact Expr.mem_namesAll_of_part h hn
  | .subscript b i, _, h, hn => by
      simp only [Expr.parts, List.mem_cons, List.mem_append] at h
      rcases h with rfl | h | h
      · exact hn
      · exact List.mem_append_left _ (Expr.mem_names_of_part h hn)
      · exact List.mem_append_right _ (Expr.mem_names_of_part h hn)
theorem Expr.mem_namesAll_of_part {n : Name} : ∀ {es : List Expr} {part : Expr},
    part ∈ Expr.partsAll es → n ∈ part.names → n ∈ Expr.namesAll es
  | [], _, h, _ => by
      rw [Expr.partsAll] at h
      cases h
  | _ :: _, _, h, hn => by
      rw [Expr.partsAll, List.mem_append] at h
      rcases h with h | h
      · exact List.mem_append_left _ (Expr.mem_names_of_part h hn)
      · exact List.mem_append_right _ (Expr.mem_namesAll_of_part h hn)
end

mutual
theorem Stmt.mem_names_of_part {n : Name} : ∀ {st part : Stmt}, part ∈ st.parts →
    n ∈ part.names → n ∈ st.names
  | .declare .., _, h, hn | .assign .., _, h, hn | .print _, _, h, hn | .function _, _, h, hn => by
      rw [Stmt.parts, List.mem_singleton] at h
      exact h ▸ hn
  | .block b, _, h, hn => by
      rw [Stmt.parts, List.mem_cons] at h
      rcases h with rfl | h
      · exact hn
      · exact Stmt.mem_namesAll_of_part (b := b) h hn
  | .loop c b, _, h, hn => by
      rw [Stmt.parts, List.mem_cons] at h
      rcases h with rfl | h
      · exact hn
      · exact List.mem_append_right _ (Stmt.mem_namesAll_of_part h hn)
/-- The names of the statements inside a block are among those of the block. -/
theorem Stmt.mem_namesAll_of_part {n : Name} : ∀ {b : Block} {part : Stmt},
    part ∈ Stmt.partsAll b → n ∈ part.names → n ∈ Stmt.namesAll b
  | [], _, h, _ => by
      rw [Stmt.partsAll] at h
      cases h
  | _ :: _, _, h, hn => by
      rw [Stmt.partsAll, List.mem_append] at h
      rcases h with h | h
      · exact List.mem_append_left _ (Stmt.mem_names_of_part h hn)
      · exact List.mem_append_right _ (Stmt.mem_namesAll_of_part h hn)
end

namespace Program

variable {p : Program} {n : Name}

theorem Contains.mem_names {e : Expr} (h : p.Contains e) (hn : n ∈ e.names) : n ∈ p.names := by
  obtain ⟨st, hst, root, hroot, he⟩ := h
  have hnroot := Expr.mem_names_of_part he hn
  refine Stmt.mem_namesAll_of_part hst ?_
  cases st with
  | block b => cases hroot
  | declare k e | assign k e =>
      obtain rfl := Option.some.inj hroot
      exact List.mem_cons_of_mem _ hnroot
  | print e =>
      obtain rfl := Option.some.inj hroot
      exact hnroot
  | loop c b =>
      obtain rfl := Option.some.inj hroot
      exact List.mem_append_left _ hnroot
  | function d =>
      obtain rfl := Option.some.inj hroot
      exact List.mem_cons_of_mem _ hnroot

theorem Uses.mem_names (h : p.Uses n) : n ∈ p.names := by
  rcases h with h | ⟨args, h⟩ | ⟨e, h⟩
  · exact h.mem_names (by simp [Expr.names])
  · exact Contains.mem_names h (by simp [Expr.names])
  · exact Stmt.mem_namesAll_of_part h (by simp [Stmt.names])

theorem Declares.mem_names (h : p.Declares n) : n ∈ p.names := by
  rcases h with ⟨e, h⟩ | ⟨d, h, rfl⟩
  · exact Stmt.mem_namesAll_of_part h (by simp [Stmt.names])
  · exact Stmt.mem_namesAll_of_part h (by simp [Stmt.names])

end Program

end DynScope
