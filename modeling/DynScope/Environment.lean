import DynScope.Value
import Std.Data.TreeMap

/-!
# DynScope.Environment

**Bindings during a run.** An environment is a global frame with overlay frames stacked on
top, one for each call that is being executed.

Design points:

* Reading falls through the overlays from the innermost outward and ends at the global
  frame, so that a callee sees every binding of its callers.
* Writing goes to the innermost frame alone. An assignment inside a call therefore shadows
  the outer binding and is gone with the frame.
* A `Snapshot` records how many overlays there were. Restoring it drops the overlays above
  that count, and does nothing if there are none, however late or often it is restored.
* The number of overlays is kept beside them, so that pushing and dropping a frame costs
  the same however many calls are being executed.
-/

namespace DynScope

/-- One frame: names with the values they are bound to. -/
abbrev Frame (η : Type) := Std.TreeMap Name (Value η)

/-- Why a name could not be bound. -/
inductive BindingError where
  /-- A declaration of a name that is bound already. -/
  | duplicate
  /-- An assignment to a name that is not bound. -/
  | unbound
deriving DecidableEq, Repr

/-- How many overlays an environment had at some moment. -/
structure Snapshot where
  /-- The number of overlays. -/
  overlays : Nat
deriving DecidableEq, Repr

/-- A global frame below a stack of overlays. -/
structure Environment (η : Type) where
  /-- The bindings at top level. -/
  globals : Frame η
  /-- The frames of the calls being executed, innermost first. -/
  overlays : List (Frame η)
  /-- The number of overlays. -/
  height : Nat
  /-- The number is that of the overlays there are. -/
  height_eq : height = overlays.length

namespace Environment

variable {η : Type}

/-- Environments are equal if their frames are. -/
@[ext] theorem ext {e e' : Environment η} (hg : e.globals = e'.globals)
    (ho : e.overlays = e'.overlays) : e = e' := by
  obtain ⟨g, o, k, hk⟩ := e
  obtain ⟨g', o', k', hk'⟩ := e'
  obtain rfl : g = g' := hg
  obtain rfl : o = o' := ho
  obtain rfl : k = k' := hk.trans hk'.symm
  rfl

/-- The environment without bindings and without overlays. -/
def empty : Environment η := ⟨∅, [], 0, rfl⟩

/-- How many frames there are, the global one included. -/
def depth (e : Environment η) : Nat := e.height + 1

/-! ### Reading -/

/-- The value of a name: the innermost binding there is. -/
def lookup? (e : Environment η) (n : Name) : Option (Value η) :=
  match e.overlays.findSome? (·[n]?) with
  | some v => some v
  | none => e.globals[n]?

/-- Whether a name is bound in any frame. -/
def isBound (e : Environment η) (n : Name) : Bool := (e.lookup? n).isSome

/-! ### Writing -/

/-- Bind a name in the innermost frame, whatever it is bound to. This is how a call binds
its parameters, which hide any outer binding. -/
def bind (e : Environment η) (n : Name) (v : Value η) : Environment η :=
  match e with
  | ⟨g, [], k, hk⟩ => ⟨g.insert n v, [], k, hk⟩
  | ⟨g, f :: rest, k, hk⟩ => ⟨g, f.insert n v :: rest, k, hk⟩

/-- Bind a name that is not bound yet in any frame. -/
def declare (e : Environment η) (n : Name) (v : Value η) :
    Except BindingError (Environment η) :=
  if e.isBound n then .error .duplicate else .ok (e.bind n v)

/-- Bind a name that is bound in some frame, anew in the innermost one. -/
def assign (e : Environment η) (n : Name) (v : Value η) :
    Except BindingError (Environment η) :=
  if e.isBound n then .ok (e.bind n v) else .error .unbound

/-- Bind names to values from left to right, so that the last of several bindings of one
name counts. -/
def bindAll (e : Environment η) : List Name → List (Value η) → Environment η
  | n :: ns, v :: vs => (e.bind n v).bindAll ns vs
  | _, _ => e

/-- Bind a name in the global frame, whatever overlays there are. -/
def bindGlobal (e : Environment η) (n : Name) (v : Value η) : Environment η :=
  { e with globals := e.globals.insert n v }

/-! ### Frames -/

/-- Push an empty overlay. The snapshot is the way back. -/
def snapshot (e : Environment η) : Snapshot × Environment η :=
  (⟨e.height⟩, ⟨e.globals, ∅ :: e.overlays, e.height + 1, by simp [e.height_eq]⟩)

/-- Drop the overlays that were pushed since the snapshot. -/
def restore (e : Environment η) (s : Snapshot) : Environment η :=
  let surplus := e.height - s.overlays
  ⟨e.globals, e.overlays.drop surplus, e.height - surplus, by simp [e.height_eq]⟩

/-! ### What the operations do to look-ups and frames -/

theorem depth_eq (e : Environment η) : e.depth = e.overlays.length + 1 := by
  rw [depth, e.height_eq]

@[simp] theorem lookup?_empty (n : Name) : (empty : Environment η).lookup? n = none := by
  simp [lookup?, empty]

theorem lookup?_bind (e : Environment η) (n m : Name) (v : Value η) :
    (e.bind n v).lookup? m = if n = m then some v else e.lookup? m := by
  obtain ⟨g, o, k, hk⟩ := e
  cases o with
  | nil => by_cases h : n = m <;> simp [bind, lookup?, Std.TreeMap.getElem?_insert, h]
  | cons f rest =>
    by_cases h : n = m <;>
      simp [bind, lookup?, List.findSome?_cons, Std.TreeMap.getElem?_insert, h]

theorem declare_of_unbound {e : Environment η} {n : Name} (h : e.isBound n = false)
    (v : Value η) : e.declare n v = .ok (e.bind n v) := by
  simp [declare, h]

theorem assign_of_bound {e : Environment η} {n : Name} (h : e.isBound n = true)
    (v : Value η) : e.assign n v = .ok (e.bind n v) := by
  simp [assign, h]

@[simp] theorem height_bind (e : Environment η) (n : Name) (v : Value η) :
    (e.bind n v).height = e.height := by
  obtain ⟨g, o, k, hk⟩ := e
  cases o <;> rfl

@[simp] theorem depth_bind (e : Environment η) (n : Name) (v : Value η) :
    (e.bind n v).depth = e.depth := by simp [depth]

@[simp] theorem overlays_snapshot (e : Environment η) :
    e.snapshot.2.overlays = ∅ :: e.overlays := rfl

@[simp] theorem overlays_restore (e : Environment η) (s : Snapshot) :
    (e.restore s).overlays = e.overlays.drop (e.overlays.length - s.overlays) := by
  simp [restore, e.height_eq]

/-- Restoring a snapshot at once undoes it. -/
@[simp] theorem restore_snapshot (e : Environment η) :
    e.snapshot.2.restore e.snapshot.1 = e := by
  ext1
  · rfl
  · simp [snapshot, restore]

end Environment

end DynScope
