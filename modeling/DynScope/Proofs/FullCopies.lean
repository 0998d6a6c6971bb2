import DynScope.Environment.Script
import DynScope.Proofs.Purity

/-!
# DynScope.Proofs.FullCopies

**An environment is observably a stack of full copies.** `FullCopies` is a second store for
bindings, over complete maps in place of overlays: a snapshot pushes a copy of all bindings
there are, reading and writing see the copy on top and nothing else, and restoring throws
copies away. No script of operations can tell the two apart (`Environment.run_fullCopies`),
however its snapshots are nested, and whether they are restored in order, repeatedly or long
after their overlays are gone.

How it works: `Environment.copies` is the view of an environment at every level of its
stack at once: the bindings as they were visible below each overlay. Every operation on the
environment is the operation of the same name on its view. The levels below the top have to
be part of the view, since a restore makes one of them visible again.
-/

namespace DynScope

variable {η : Type}

open Copying (Store)

/-- Complete maps: one at the bottom, and those pushed on it, innermost first. -/
structure FullCopies (η : Type) where
  /-- The map at the bottom. -/
  base : Store η
  /-- The maps on top of it. -/
  pushed : List (Store η)

namespace FullCopies

/-- One map, without bindings. -/
def empty : FullCopies η := ⟨Store.empty, []⟩

/-- How many maps there are. -/
def depth (c : FullCopies η) : Nat := c.pushed.length + 1

/-- The map on top. -/
def top (c : FullCopies η) : Store η := c.pushed.headD c.base

/-- Bind a name in the map on top. -/
def bind (c : FullCopies η) (n : Name) (v : Value η) : FullCopies η :=
  match c.pushed with
  | [] => ⟨c.base.insert n v, []⟩
  | m :: rest => ⟨c.base, m.insert n v :: rest⟩

/-- Bind a name that the map on top does not have. -/
def declare (c : FullCopies η) (n : Name) (v : Value η) : Except BindingError (FullCopies η) :=
  if (c.top n).isSome then .error .duplicate else .ok (c.bind n v)

/-- Bind a name anew that the map on top has. -/
def assign (c : FullCopies η) (n : Name) (v : Value η) : Except BindingError (FullCopies η) :=
  if (c.top n).isSome then .ok (c.bind n v) else .error .unbound

/-- Bind a name in the map at the bottom. -/
def bindGlobal (c : FullCopies η) (n : Name) (v : Value η) : FullCopies η :=
  { c with base := c.base.insert n v }

/-- Push a copy of the map on top. The snapshot is the number of maps pushed before. -/
def snapshot (c : FullCopies η) : Snapshot × FullCopies η :=
  (⟨c.pushed.length⟩, { c with pushed := c.top :: c.pushed })

/-- Drop pushed maps, until no more are left than the snapshot counts. -/
def restore (c : FullCopies η) (s : Snapshot) : FullCopies η :=
  { c with pushed := c.pushed.drop (c.pushed.length - s.overlays) }

/-! ### Scripts -/

/-- Complete maps with the snapshots taken so far. -/
structure Scripted (η : Type) where
  /-- The maps. -/
  copies : FullCopies η
  /-- The snapshots in the order in which they were taken. -/
  taken : Array Snapshot

/-- The start of every script. -/
def Scripted.start : Scripted η := ⟨FullCopies.empty, #[]⟩

open Environment (Op Answer)

/-- The outcome of a binding operation. -/
def settle (s : Scripted η) : Except BindingError (FullCopies η) → Answer η × Scripted η
  | .ok copies => (.ok, { s with copies })
  | .error e => (.refused e, s)

/-- Carry out one operation on complete maps. -/
def step (s : Scripted η) : Op η → Answer η × Scripted η
  | .declare n v => settle s (s.copies.declare n v)
  | .assign n v => settle s (s.copies.assign n v)
  | .bind n v => (.ok, { s with copies := s.copies.bind n v })
  | .bindGlobal n v => (.ok, { s with copies := s.copies.bindGlobal n v })
  | .lookup n => (.value (s.copies.top n), s)
  | .isBound n => (.bound (s.copies.top n).isSome, s)
  | .snapshot =>
    let (token, copies) := s.copies.snapshot
    (.taken s.taken.size, { copies, taken := s.taken.push token })
  | .restore k =>
    match s.taken[k]? with
    | some token => (.ok, { s with copies := s.copies.restore token })
    | none => (.ok, s)

/-- Carry out a script on complete maps. -/
def run (s : Scripted η) : List (Op η) → List (Answer η) × Scripted η
  | [] => ([], s)
  | op :: rest =>
    let (a, s) := step s op
    let (as, s) := run s rest
    (a :: as, s)

end FullCopies

namespace Environment

/-! ### The view at every level -/

/-- What is visible through some overlays, with the global frame below them. -/
def viewThrough (globals : Frame η) (overlays : List (Frame η)) : Store η := fun n =>
  match overlays.findSome? (·[n]?) with
  | some v => some v
  | none => globals[n]?

/-- What is visible at each overlay, innermost first. -/
def views (globals : Frame η) : List (Frame η) → List (Store η)
  | [] => []
  | f :: rest => viewThrough globals (f :: rest) :: views globals rest

/-- What is visible at each level of an environment. -/
def copies (e : Environment η) : FullCopies η :=
  ⟨viewThrough e.globals [], views e.globals e.overlays⟩

theorem length_views (g : Frame η) (os : List (Frame η)) : (views g os).length = os.length := by
  induction os with
  | nil => rfl
  | cons f rest ih => rw [views, List.length_cons, List.length_cons, ih]

theorem drop_views (g : Frame η) (os : List (Frame η)) (k : Nat) :
    (views g os).drop k = views g (os.drop k) := by
  induction os generalizing k with
  | nil => simp only [views, List.drop_nil]
  | cons f rest ih =>
      cases k with
      | zero => rfl
      | succ k => rw [views, List.drop_succ_cons, List.drop_succ_cons, ih]

/-- Reading an environment is reading its view on top. -/
theorem top_copies (e : Environment η) : e.copies.top = e.lookup? := by
  obtain ⟨g, o, k, hk⟩ := e
  cases o <;> rfl

theorem isSome_top_copies (e : Environment η) (n : Name) :
    (e.copies.top n).isSome = e.isBound n := by
  rw [top_copies, isBound]

theorem depth_copies (e : Environment η) : e.copies.depth = e.depth := by
  rw [FullCopies.depth, copies, length_views, depth_eq]

theorem copies_empty : (empty : Environment η).copies = FullCopies.empty := by
  have hbase : viewThrough (∅ : Frame η) [] = Store.empty := by
    funext n
    exact lookup?_empty n
  rw [copies, FullCopies.empty, ← hbase]
  rfl

/-! ### Operations, seen at every level -/

theorem copies_bind (e : Environment η) (n : Name) (v : Value η) :
    (e.bind n v).copies = e.copies.bind n v := by
  have htop := lookup?_bind_eq_insert e n v
  obtain ⟨g, o, k, hk⟩ := e
  cases o with
  | nil =>
      -- The global frame is on top, and it is the only level.
      have hbase : viewThrough (g.insert n v) [] = (viewThrough g []).insert n v := htop
      simp only [bind, copies, views, FullCopies.bind, hbase]
  | cons f rest =>
      -- Writing to an overlay changes what is visible there, and at no level below.
      have hlevel : viewThrough g (f.insert n v :: rest) =
          (viewThrough g (f :: rest)).insert n v := htop
      simp only [bind, copies, views, FullCopies.bind, hlevel]

theorem copies_bindGlobal {e : Environment η} (h : e.overlays = []) (n : Name) (v : Value η) :
    (e.bindGlobal n v).copies = e.copies.bindGlobal n v := by
  obtain ⟨g, o, k, hk⟩ := e
  obtain rfl : o = [] := h
  exact copies_bind ⟨g, [], k, hk⟩ n v

theorem copies_snapshot (e : Environment η) :
    (e.snapshot.1, e.snapshot.2.copies) = e.copies.snapshot := by
  have htop := lookup?_snapshot e
  rw [← top_copies e] at htop
  rw [FullCopies.snapshot, ← htop]
  simp only [snapshot, copies, length_views, e.height_eq, views]
  rfl

theorem copies_restore (e : Environment η) (s : Snapshot) :
    (e.restore s).copies = e.copies.restore s := by
  simp only [copies, FullCopies.restore, overlays_restore, length_views, drop_views]
  rfl

theorem map_copies_declare (e : Environment η) (n : Name) (v : Value η) :
    (e.declare n v).map copies = e.copies.declare n v := by
  rw [declare, FullCopies.declare, isSome_top_copies]
  split
  · rfl
  · rw [← copies_bind]
    rfl

theorem map_copies_assign (e : Environment η) (n : Name) (v : Value η) :
    (e.assign n v).map copies = e.copies.assign n v := by
  rw [assign, FullCopies.assign, isSome_top_copies]
  split
  · rw [← copies_bind]
    rfl
  · rfl

/-! ### Scripts -/

/-- The view of an environment, with the snapshots taken so far. -/
def Scripted.copies (s : Scripted η) : FullCopies.Scripted η := ⟨s.env.copies, s.taken⟩

namespace Op

/-- The operation binds no global name while there are overlays. -/
def GlobalAtTop (e : Environment η) : Op η → Prop
  | .bindGlobal .. => e.depth = 1
  | .declare .. | .assign .. | .bind .. | .lookup _ | .isBound _ | .snapshot | .restore _ => True

/-- No operation of the script does. -/
def GlobalsAtTop (s : Scripted η) : List (Op η) → Prop
  | [] => True
  | op :: rest => op.GlobalAtTop s.env ∧ GlobalsAtTop (op.step s).2 rest

theorem settle_copies (s : Scripted η) (r : Except BindingError (Environment η)) :
    FullCopies.settle s.copies (r.map Environment.copies) =
      ((settle s r).1, (settle s r).2.copies) := by
  cases r <;> rfl

/-- **One operation.** It answers alike on an environment and on its view, and leaves an
environment and its view. -/
theorem step_copies (op : Op η) (s : Scripted η) (h : op.GlobalAtTop s.env) :
    FullCopies.step s.copies op = ((op.step s).1, (op.step s).2.copies) := by
  cases op with
  | declare n v =>
      have hdeclare : s.copies.copies.declare n v = _ := (map_copies_declare s.env n v).symm
      rw [FullCopies.step, hdeclare, settle_copies, step]
  | assign n v =>
      have hassign : s.copies.copies.assign n v = _ := (map_copies_assign s.env n v).symm
      rw [FullCopies.step, hassign, settle_copies, step]
  | bind n v =>
      have hbind : s.copies.copies.bind n v = _ := (copies_bind s.env n v).symm
      rw [FullCopies.step, hbind]
      rfl
  | bindGlobal n v =>
      have hnil : s.env.overlays = [] := by
        have hdepth : s.env.overlays.length + 1 = 1 := s.env.depth_eq ▸ h
        exact List.length_eq_zero_iff.mp (by omega)
      have hbind : s.copies.copies.bindGlobal n v = _ := (copies_bindGlobal hnil n v).symm
      rw [FullCopies.step, hbind]
      rfl
  | lookup n =>
      have hread : s.copies.copies.top n = s.env.lookup? n := congrFun (top_copies s.env) n
      rw [FullCopies.step, hread]
      rfl
  | isBound n =>
      have hread : (s.copies.copies.top n).isSome = s.env.isBound n := isSome_top_copies s.env n
      rw [FullCopies.step, hread]
      rfl
  | snapshot =>
      have hsnapshot : s.copies.copies.snapshot = _ := (copies_snapshot s.env).symm
      rw [FullCopies.step, hsnapshot]
      rfl
  | restore k =>
      have htaken : s.copies.taken = s.taken := rfl
      rw [FullCopies.step, step, htaken]
      cases s.taken[k]? with
      | none => rfl
      | some token =>
          have hrestore : s.copies.copies.restore token = _ := (copies_restore s.env token).symm
          simp only [hrestore]
          rfl

theorem run_copies {ops : List (Op η)} {s : Scripted η} (h : GlobalsAtTop s ops) :
    FullCopies.run s.copies ops = ((run s ops).1, (run s ops).2.copies) := by
  induction ops generalizing s with
  | nil => rfl
  | cons op rest ih =>
      obtain ⟨hop, hrest⟩ := h
      simp only [FullCopies.run, step_copies op s hop, ih hrest, run]

theorem GlobalsAtTop.take {ops : List (Op η)} {s : Scripted η} (h : GlobalsAtTop s ops)
    (k : Nat) : GlobalsAtTop s (ops.take k) := by
  induction ops generalizing s k with
  | nil => simpa only [List.take_nil] using h
  | cons op rest ih =>
      cases k with
      | zero => trivial
      | succ k => exact ⟨h.1, ih h.2 k⟩

end Op

theorem copies_start : (Scripted.start : Scripted η).copies = FullCopies.Scripted.start := by
  rw [Scripted.copies, FullCopies.Scripted.start, ← copies_empty]
  rfl

/-- **An environment is observably a stack of full copies.** Take any script of operations
that binds global names at top level only. From an environment without bindings it gets the
answers that it gets from complete maps; and after any number of its operations the two have
handed out the same snapshots, are equally deep, and read the same under every name. -/
theorem run_fullCopies (ops : List (Op η)) (h : Op.GlobalsAtTop .start ops) :
    (Op.run .start ops).1 = (FullCopies.run .start ops).1 ∧
      ∀ k, (Op.run .start (ops.take k)).2.taken = (FullCopies.run .start (ops.take k)).2.taken ∧
        (Op.run .start (ops.take k)).2.env.depth =
          (FullCopies.run .start (ops.take k)).2.copies.depth ∧
        ∀ n, (Op.run .start (ops.take k)).2.env.lookup? n =
            (FullCopies.run .start (ops.take k)).2.copies.top n ∧
          (Op.run .start (ops.take k)).2.env.isBound n =
            ((FullCopies.run .start (ops.take k)).2.copies.top n).isSome := by
  have hrun := Op.run_copies h
  rw [copies_start] at hrun
  refine ⟨by rw [hrun], fun k => ?_⟩
  have hk := Op.run_copies (h.take k)
  rw [copies_start] at hk
  rw [hk]
  refine ⟨rfl, (depth_copies _).symm, fun n => ⟨?_, ?_⟩⟩
  · exact (congrFun (top_copies _) n).symm
  · exact (isSome_top_copies _ n).symm

/-- Shadows an outer name twice, restores the outer snapshot before the inner one, writes and
restores the two stale snapshots again in the other order. -/
def staleRestores : List (Op Empty) :=
  [.bindGlobal ⟨1⟩ (.bool true), .snapshot, .assign ⟨1⟩ (.bool false), .snapshot,
    .bind ⟨2⟩ (.bool true), .assign ⟨1⟩ (.bool true), .restore 0, .lookup ⟨1⟩, .restore 1,
    .snapshot, .declare ⟨1⟩ (.bool false), .declare ⟨2⟩ (.bool false), .restore 1, .isBound ⟨2⟩,
    .restore 0, .lookup ⟨2⟩, .bindGlobal ⟨2⟩ (.bool true), .lookup ⟨2⟩]

theorem run_fullCopies_staleRestores :
    Op.GlobalsAtTop .start staleRestores ∧
      (Op.run .start staleRestores).1 = (FullCopies.run .start staleRestores).1 ∧
      ∀ k n, (Op.run .start (staleRestores.take k)).2.env.lookup? n =
        (FullCopies.run .start (staleRestores.take k)).2.copies.top n := by
  have hglobals : Op.GlobalsAtTop .start staleRestores := by
    simp [staleRestores, Op.GlobalsAtTop, Op.GlobalAtTop]
    exact ⟨rfl, rfl⟩
  obtain ⟨hanswers, hstates⟩ := run_fullCopies staleRestores hglobals
  exact ⟨hglobals, hanswers, fun k n => ((hstates k).2.2 n).1⟩

end Environment

end DynScope
