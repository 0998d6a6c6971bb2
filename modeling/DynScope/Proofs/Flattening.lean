import DynScope.Proofs.Replay
import DynScope.Proofs.TwoRuns
import Mathlib.Logic.Unique

/-!
# DynScope.Proofs.Flattening

**Blocks are transparent.** A block opens no frame and ends no sequence, so a nested block can
be replaced by its statements: `Stmt.flatten` does so throughout a statement, in the bodies of
loops as well, and leaves no block behind (`Stmt.block_not_mem_flatten`). The program that
results runs as the one that was written (`Program.flatten_transparent`).

How it works: a sequence of blocks runs one after the other (`Stmt.execAll_append`). From
there on flattening is a matter of the tree: the parts of a statement flatten to the same
steps, so the statement does, and a loop with the same steps for a body is the same loop.
-/

namespace DynScope

variable {η : Type}

/-! ### Flattening -/

mutual
/-- The statements that a statement comes to when the blocks in it give way to their
statements, also where they stand in the body of a loop. -/
def Stmt.flatten : Stmt → Block
  | .block b => Stmt.flattenAll b
  | .declare n e => [.declare n e]
  | .assign n e => [.assign n e]
  | .print e => [.print e]
  | .loop c b => [.loop c (Stmt.flattenAll b)]
  | .function d => [.function d]
/-- The statements of a block, each flattened, in order. -/
def Stmt.flattenAll : Block → Block
  | [] => []
  | st :: rest => st.flatten ++ Stmt.flattenAll rest
end

/-- The program without nested blocks. -/
def Program.flatten (p : Program) : Program := ⟨Stmt.flattenAll p.body⟩

namespace Stmt

theorem partsAll_append (b b' : Block) : partsAll (b ++ b') = partsAll b ++ partsAll b' := by
  induction b with
  | nil => simp [partsAll]
  | cons st rest ih => simp [partsAll, ih]

mutual
/-- No statement is a block where the blocks have given way. -/
theorem block_not_mem_flatten (body : Block) : ∀ st : Stmt, .block body ∉ partsAll st.flatten
  | .block b => by
      simp only [flatten]
      exact block_not_mem_flattenAll body b
  | .declare n e => by simp [flatten, partsAll, parts]
  | .assign n e => by simp [flatten, partsAll, parts]
  | .print e => by simp [flatten, partsAll, parts]
  | .loop c b => by
      have hbody := block_not_mem_flattenAll body b
      simpa [flatten, partsAll, parts] using hbody
  | .function d => by simp [flatten, partsAll, parts]
theorem block_not_mem_flattenAll (body : Block) : ∀ b : Block,
    .block body ∉ partsAll (flattenAll b)
  | [] => by simp [flattenAll, partsAll]
  | st :: rest => by
      have hst := block_not_mem_flatten body st
      have hrest := block_not_mem_flattenAll body rest
      simp [flattenAll, partsAll_append, hst, hrest]
end

/-! ### The steps of a flattened statement -/

section Steps

variable [Host η] (texts : Interner) (fuel : Nat)

mutual
/-- A flattened statement takes the steps of the statement. -/
theorem execAll_flatten : ∀ st : Stmt,
    (execAll texts fuel st.flatten : Evaluation η Unit) = st.exec texts fuel
  | .block b => by
      simp only [flatten, exec]
      exact execAll_flattenAll b
  | .declare n e => by simp [flatten, execAll_cons]
  | .assign n e => by simp [flatten, execAll_cons]
  | .print e => by simp [flatten, execAll_cons]
  | .loop c b => by
      have hbody := execAll_flattenAll b
      simp only [flatten, execAll_cons, execAll_nil, bind_pure_unit, exec, hbody]
  | .function d => by simp [flatten, execAll_cons]
theorem execAll_flattenAll : ∀ b : Block,
    (execAll texts fuel (flattenAll b) : Evaluation η Unit) = execAll texts fuel b
  | [] => by simp only [flattenAll]
  | st :: rest => by
      simp only [flattenAll, execAll_append, execAll_cons, execAll_flatten st,
        execAll_flattenAll rest]
end

end Steps

end Stmt

/-! ### Flattened programs -/

section Programs

variable [Host η]

theorem EndAlike.refl {σ : Type} {run : Nat → Outcome σ Unit} (h : FuelMonotone run) :
    EndAlike (· = ·) run run := by
  refine h.ends_agree h fun fuel => ?_
  cases run fuel with
  | done a s => exact .done a rfl
  | failed e s => exact .failed e rfl
  | outOfFuel => exact .outOfFuel

theorem Interpreter.interpret_flatten (i : Interpreter η) (fuel : Nat) (p : Program) :
    i.interpret fuel p.flatten = i.interpret fuel p := by
  simp only [interpret, Program.flatten, Stmt.execAll_flattenAll]

/-- **Blocks are transparent.** With its nested blocks dissolved, a program has no block left,
and from every state of a run, and on every interpreter, it ends as it did before: both go on
for ever, or both succeed or fail with one error, in the same state, which holds the bindings,
the output and the text of the sink. And a sequence of statements runs as its first part and
then, if that has succeeded, as its second part from the state that the first has left; where
the first part fails, that is the end. -/
theorem Program.flatten_transparent (texts : Interner) (p : Program) (s : State η)
    (i : Interpreter η) (xs ys : Block) :
    (∀ body, .block body ∉ Stmt.partsAll p.flatten.body) ∧
    EndAlike (· = ·) (Stmt.execAll texts · p.flatten.body s) (Stmt.execAll texts · p.body s) ∧
    EndAlike (· = ·) (i.interpret · p.flatten) (i.interpret · p) ∧
    (∀ o, EndsAs (Stmt.execAll texts · (xs ++ ys) s) o ↔
      (∃ s', EndsAs (Stmt.execAll texts · xs s) (.done () s') ∧
        EndsAs (Stmt.execAll texts · ys s') o) ∨
      ∃ err s', EndsAs (Stmt.execAll texts · xs s) (.failed err s') ∧ o = .failed err s') ∧
    (Diverges (Stmt.execAll texts · (xs ++ ys) s) ↔
      Diverges (Stmt.execAll texts · xs s) ∨
      ∃ s', EndsAs (Stmt.execAll texts · xs s) (.done () s') ∧
        Diverges (Stmt.execAll texts · ys s')) := by
  have hxs := Stmt.execAll_fuelMonotone texts xs s
  have hys : ∀ (_ : Unit) (s' : State η), FuelMonotone (Stmt.execAll texts · ys s') :=
    fun _ => Stmt.execAll_fuelMonotone texts ys
  refine ⟨fun body => Stmt.block_not_mem_flattenAll body p.body, ?_, ?_, fun o => ?_, ?_⟩
  · simp only [Program.flatten, Stmt.execAll_flattenAll]
    exact .refl (Stmt.execAll_fuelMonotone texts p.body s)
  · simp only [Interpreter.interpret_flatten]
    exact .refl (Interpreter.interpret_fuelMonotone i p)
  · simp only [Stmt.execAll_append]
    rw [endsAs_bind_iff hxs hys, Unique.exists_iff]
  · simp only [Stmt.execAll_append]
    rw [diverges_bind_iff hxs hys, Unique.exists_iff]

end Programs

end DynScope
