import DynScope.Environment.Script

/-!
# DynScope.Proofs.Rollback

**Restoring a snapshot undoes everything since it but the global definitions.** Between taking a
snapshot and restoring it a script may do what it likes: write and fail to write, define global
names, take further snapshots and restore those in any order, repeatedly and long after their
overlays are gone. The restored environment is the one that the snapshot was taken in, overlay
for overlay, and its global frame has the definitions made since and nothing else
(`Environment.restore_undoes`).

How it works: the snapshot pushes an overlay, and every later snapshot counts it. So no later
restore can drop it, and as long as it stands there is an overlay above the old ones to take
the writes. `Inside` is that invariant. It is kept by every operation other than restoring the
snapshot itself or an older one (`Inside.step`), hence by every script of those (`Inside.run`).
-/

namespace DynScope.Environment

variable {η : Type} {e : Environment η} {k : Nat} {s s' : Scripted η} {op : Op η}

/-- A snapshot counts the overlays of the environment that it is taken in. -/
theorem counts_snapshot (e : Environment η) : e.snapshot.1.overlays = e.overlays.length :=
  e.height_eq

/-- Writing where there is an overlay changes that overlay and nothing below it. -/
theorem bind_overlay {f : Frame η} {rest : List (Frame η)} (h : e.overlays = f :: rest)
    (n : Name) (v : Value η) :
    (e.bind n v).globals = e.globals ∧ (e.bind n v).overlays = f.insert n v :: rest := by
  obtain ⟨g, o, k, hk⟩ := e
  obtain rfl : o = f :: rest := h
  exact ⟨rfl, rfl⟩

namespace Op

/-- The global definition that an operation is, if it is one. -/
def global? : Op η → Option (Name × Value η)
  | .bindGlobal n v => some (n, v)
  | .declare .. | .assign .. | .bind .. | .lookup _ | .isBound _ | .snapshot | .restore _ => none

/-- What an operation does to an environment and its snapshots, whatever it answers. -/
inductive Moves (s : Scripted η) : Op η → Scripted η → Prop
  /-- It reads, or it was refused, or there is no such snapshot. -/
  | nothing {op : Op η} : op.global? = none → Moves s op s
  /-- It writes to the innermost frame. -/
  | write {op : Op η} (n : Name) (v : Value η) : op.global? = none →
      Moves s op { s with env := s.env.bind n v }
  /-- It writes to the global frame. -/
  | define (n : Name) (v : Value η) :
      Moves s (.bindGlobal n v) { s with env := s.env.bindGlobal n v }
  /-- It pushes an overlay and keeps the way back. -/
  | push : Moves s .snapshot
      { env := s.env.snapshot.2, taken := s.taken.push s.env.snapshot.1 }
  /-- It restores a snapshot. -/
  | cut {j : Nat} {token : Snapshot} : s.taken[j]? = some token →
      Moves s (.restore j) { s with env := s.env.restore token }

theorem step_restore {j : Nat} {token : Snapshot} (h : s.taken[j]? = some token) :
    (step s (.restore j)).2 = { s with env := s.env.restore token } := by
  simp only [step, h]

theorem step_moves (op : Op η) (s : Scripted η) : op.Moves s (op.step s).2 := by
  cases op with
  | declare n v =>
      by_cases h : s.env.isBound n
      · simp only [step, Environment.declare, h, if_true, settle]
        exact .nothing rfl
      · simp only [step, Environment.declare, h, settle]
        exact .write n v rfl
  | assign n v =>
      by_cases h : s.env.isBound n
      · simp only [step, Environment.assign, h, if_true, settle]
        exact .write n v rfl
      · simp only [step, Environment.assign, h, settle]
        exact .nothing rfl
  | bind n v => exact .write n v rfl
  | bindGlobal n v => exact .define n v
  | lookup n => exact .nothing rfl
  | isBound n => exact .nothing rfl
  | snapshot => exact .push
  | restore j =>
      cases h : s.taken[j]? with
      | none =>
          simp only [step, h]
          exact .nothing rfl
      | some token =>
          rw [step_restore h]
          exact .cut h

theorem run_append (ops ops' : List (Op η)) (s : Scripted η) :
    (run s (ops ++ ops')).2 = (run (run s ops).2 ops').2 := by
  induction ops generalizing s with
  | nil => rfl
  | cons op rest ih => exact ih (op.step s).2

end Op

/-! ### Since a snapshot -/

/-- The `k`-th snapshot was taken in `e`, and its overlay still stands on those of `e`. -/
structure Inside (e : Environment η) (k : Nat) (s : Scripted η) : Prop where
  /-- There are the overlays of `e` with at least one above. -/
  overlays : ∃ f own, s.env.overlays = f :: own ++ e.overlays
  /-- The snapshot was taken in `e`. -/
  token : s.taken[k]? = some e.snapshot.1
  /-- Later ones count the overlay that it pushed. -/
  later : ∀ {j t}, k < j → s.taken[j]? = some t → e.overlays.length < t.overlays

/-- Taking a snapshot opens what it will undo. -/
theorem inside_snapshot (s : Scripted η) :
    Inside s.env s.taken.size (Op.snapshot.step s).2 where
  overlays := ⟨∅, [], rfl⟩
  token := Array.getElem?_push_size
  later := by
    intro j t hj ht
    have hlt := (Array.getElem?_eq_some_iff.mp ht).1
    simp only [Op.step, Array.size_push] at hlt
    omega

namespace Inside

theorem write (h : Inside e k s) (n : Name) (v : Value η) :
    Inside e k { s with env := s.env.bind n v } := by
  obtain ⟨f, own, ho⟩ := h.overlays
  exact ⟨⟨f.insert n v, own, (bind_overlay ho n v).2⟩, h.token, h.later⟩

theorem push (h : Inside e k s) :
    Inside e k { env := s.env.snapshot.2, taken := s.taken.push s.env.snapshot.1 } := by
  obtain ⟨f, own, ho⟩ := h.overlays
  have hk := (Array.getElem?_eq_some_iff.mp h.token).1
  refine ⟨⟨∅, f :: own, by simp [ho]⟩, ?_, ?_⟩
  · rw [Array.getElem?_push_lt hk, ← h.token, Array.getElem?_eq_getElem hk]
  · intro j t hj ht
    rw [Array.getElem?_push] at ht
    by_cases hsize : j = s.taken.size
    · -- The new snapshot counts the overlays of `e` and those above.
      rw [if_pos hsize] at ht
      obtain rfl := Option.some.inj ht
      rw [counts_snapshot, ho, List.length_append, List.length_cons]
      omega
    · rw [if_neg hsize] at ht
      exact h.later hj ht

/-- Restoring a later snapshot leaves the overlay that this one pushed. -/
theorem cut (h : Inside e k s) {j : Nat} {token : Snapshot} (hj : k < j)
    (htoken : s.taken[j]? = some token) :
    Inside e k { s with env := s.env.restore token } := by
  obtain ⟨f, own, ho⟩ := h.overlays
  have hcount := h.later hj htoken
  refine ⟨?_, h.token, h.later⟩
  obtain ⟨d, hd⟩ : ∃ d, d = s.env.overlays.length - token.overlays := ⟨_, rfl⟩
  have hlen : d < (f :: own).length := by
    rw [ho] at hd
    simp only [List.cons_append, List.length_cons, List.length_append] at hd ⊢
    omega
  have hpos : (f :: own).drop d ≠ [] := by
    rw [Ne, List.drop_eq_nil_iff]
    omega
  obtain ⟨f', own', hown⟩ := List.exists_cons_of_ne_nil hpos
  refine ⟨f', own', ?_⟩
  rw [overlays_restore, ← hd, ho, List.drop_append_of_le_length (Nat.le_of_lt hlen), hown]

/-- **One operation.** It stays inside unless it restores the snapshot or an older one, and the
global frame sees it only if it is a global definition. -/
theorem step (h : Inside e k s) (hmoves : op.Moves s s') (hop : ∀ j, op = .restore j → k < j) :
    Inside e k s' ∧ s'.env.globals = s.env.globals.insertMany op.global?.toList := by
  cases hmoves with
  | nothing hglobal =>
      rw [hglobal]
      exact ⟨h, rfl⟩
  | write n v hglobal =>
      obtain ⟨f, own, ho⟩ := h.overlays
      rw [hglobal]
      exact ⟨h.write n v, (bind_overlay ho n v).1⟩
  | define n v => exact ⟨⟨h.overlays, h.token, h.later⟩, rfl⟩
  | push => exact ⟨h.push, rfl⟩
  | cut htoken => exact ⟨h.cut (hop _ rfl) htoken, rfl⟩

/-- **Any script of such operations.** -/
theorem run {ops : List (Op η)} (h : Inside e k s) (hops : ∀ j, .restore j ∈ ops → k < j) :
    Inside e k (Op.run s ops).2 ∧
      (Op.run s ops).2.env.globals = s.env.globals.insertMany (ops.filterMap Op.global?) := by
  induction ops generalizing s with
  | nil => exact ⟨h, rfl⟩
  | cons op rest ih =>
      obtain ⟨hstep, hglobals⟩ := h.step (op.step_moves s) fun j hj =>
        hops j (hj ▸ List.mem_cons_self)
      obtain ⟨hrun, hrest⟩ := ih hstep fun j hj => hops j (List.mem_cons_of_mem _ hj)
      refine ⟨hrun, hrest.trans ?_⟩
      rw [hglobals]
      cases hop : op.global? with
      | none =>
          rw [List.filterMap_cons_none hop]
          rfl
      | some b =>
          rw [List.filterMap_cons_some hop, Std.TreeMap.insertMany_cons]
          rfl

/-- Restoring the snapshot leaves the overlays of `e` under the global frame as it is now. -/
theorem restore (h : Inside e k s) :
    s.env.restore e.snapshot.1 = { e with globals := s.env.globals } := by
  obtain ⟨f, own, ho⟩ := h.overlays
  ext1
  · rfl
  · rw [overlays_restore, ho]
    have hcount : (f :: own).length =
        (f :: own ++ e.overlays).length - e.snapshot.1.overlays := by
      rw [List.length_append, counts_snapshot, Nat.add_sub_cancel]
    exact List.drop_left' hcount

end Inside

/-- **Restoring a snapshot undoes everything since it but the global definitions.** Take a
snapshot in any environment, go on with any operations that restore none but later snapshots,
and restore it. The environment is the one that the snapshot was taken in, with its overlays as
they were, and with a global frame that has received the global definitions among the
operations, in order. Nothing else reaches that frame at any moment before, for there is an
overlay above those of the environment all the time. -/
theorem restore_undoes (s : Scripted η) (ops : List (Op η))
    (h : ∀ j, Op.restore j ∈ ops → s.taken.size < j) :
    (Op.run s (.snapshot :: (ops ++ [.restore s.taken.size]))).2.env =
        { s.env with globals := s.env.globals.insertMany (ops.filterMap Op.global?) } ∧
      ∀ i, (Op.run s (.snapshot :: ops.take i)).2.env.globals =
          s.env.globals.insertMany ((ops.take i).filterMap Op.global?) ∧
        ∃ f own, (Op.run s (.snapshot :: ops.take i)).2.env.overlays =
          f :: own ++ s.env.overlays := by
  constructor
  · obtain ⟨hinside, hglobals⟩ := (inside_snapshot s).run h
    have hrestored : (Op.run s (.snapshot :: (ops ++ [.restore s.taken.size]))).2 =
        ((Op.restore s.taken.size).step (Op.run (Op.snapshot.step s).2 ops).2).2 :=
      Op.run_append ops _ (Op.snapshot.step s).2
    rw [hrestored, Op.step_restore hinside.token]
    show Environment.restore _ _ = _
    rw [hinside.restore, hglobals]
    rfl
  · intro i
    have hlater : ∀ j, Op.restore j ∈ ops.take i → s.taken.size < j :=
      fun j hj => h j (List.mem_of_mem_take hj)
    obtain ⟨hinside, hglobals⟩ := (inside_snapshot s).run hlater
    exact ⟨hglobals, hinside.overlays⟩

/-- In the frame of a call, with a parameter that hides a global name, and one snapshot taken. -/
def insideCall : Scripted Empty :=
  (Op.run .start [.bindGlobal ⟨1⟩ (.bool true), .snapshot, .bind ⟨1⟩ (.bool false)]).2

/-- Shadows names at two depths, fails to declare and to assign, defines two global names, one of
them twice, and restores snapshots of its own out of order, repeatedly and when they are stale. -/
def detour : List (Op Empty) :=
  [.assign ⟨1⟩ (.bool true), .snapshot, .declare ⟨1⟩ (.bool true), .bind ⟨2⟩ (.bool true),
    .bindGlobal ⟨3⟩ (.bool true), .snapshot, .assign ⟨4⟩ (.bool true), .restore 2,
    .bindGlobal ⟨1⟩ (.bool false), .restore 3, .declare ⟨5⟩ (.bool true), .snapshot, .restore 3,
    .bindGlobal ⟨3⟩ (.bool false), .restore 2]

theorem restore_undoes_detour :
    (∀ j, Op.restore j ∈ detour → insideCall.taken.size < j) ∧
      (Op.run insideCall (.snapshot :: (detour ++ [.restore 1]))).2.env =
        { insideCall.env with
          globals := insideCall.env.globals.insertMany
            [(⟨3⟩, .bool true), (⟨1⟩, .bool false), (⟨3⟩, .bool false)] } ∧
      ∀ i, ∃ f own, (Op.run insideCall (.snapshot :: detour.take i)).2.env.overlays =
        f :: own ++ insideCall.env.overlays := by
  have hlater : ∀ j, Op.restore j ∈ detour → insideCall.taken.size < j := by
    intro j hj
    have hsize : insideCall.taken.size = 1 := rfl
    simp only [detour, List.mem_cons, List.not_mem_nil, or_false, reduceCtorEq, false_or,
      Op.restore.injEq] at hj
    omega
  obtain ⟨hrestored, hbefore⟩ := restore_undoes insideCall detour hlater
  exact ⟨hlater, hrestored, fun i => (hbefore i).2⟩

end DynScope.Environment
