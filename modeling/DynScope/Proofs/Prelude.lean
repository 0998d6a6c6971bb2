import DynScope.Interpreter
import DynScope.Proofs.Interner

/-!
# DynScope.Proofs.Prelude

**The environment that a run starts from.** Building it interns the texts of the prelude
and binds their names in the global frame. It takes no name back (`extends_environment`),
and it settles the names of the texts for good: building it a second time, at any time
later, interns nothing more and makes the same environment (`environment_of_extends`).

What it binds are the texts of the prelude and nothing else (`isBound_environment`), each to
the value that was registered last (`lookup?_environment`).
-/

namespace DynScope

variable {η : Type}

namespace Environment

theorem bindGlobal_eq_bind {e : Environment η} (h : e.overlays = []) (n : Name) (v : Value η) :
    e.bindGlobal n v = e.bind n v := by
  obtain ⟨g, o, k, hk⟩ := e
  obtain rfl : o = [] := h
  rfl

theorem isBound_bind (e : Environment η) (n k : Name) (v : Value η) :
    (e.bind n v).isBound k ↔ e.isBound k ∨ k = n := by
  rw [isBound, isBound, lookup?_bind]
  split
  · next heq => simp [heq]
  · next hne => simp [Ne.symm hne]

theorem overlays_bindGlobal (e : Environment η) (n : Name) (v : Value η) :
    (e.bindGlobal n v).overlays = e.overlays := rfl

end Environment

namespace Prelude

/-! ### Entries -/

theorem forall_mem_insert {P : Value η → Prop} {p : Prelude η}
    (h : ∀ entry ∈ p.entries, P entry.2) (name : String) {v : Value η} (hv : P v) :
    ∀ entry ∈ (p.insert name v).entries, P entry.2 := by
  obtain ⟨entries⟩ := p
  simp only [insert] at h ⊢
  induction entries with
  | nil =>
      intro entry hentry
      obtain rfl := List.mem_singleton.mp hentry
      exact hv
  | cons first rest ih =>
      intro entry hentry
      obtain ⟨n, w⟩ := first
      rw [insertEntry] at hentry
      split at hentry
      · rcases List.mem_cons.mp hentry with rfl | hmem
        · exact hv
        · exact h entry (List.mem_cons_of_mem _ hmem)
      · rcases List.mem_cons.mp hentry with rfl | hmem
        · exact h _ List.mem_cons_self
        · exact ih (fun e he => h e (List.mem_cons_of_mem _ he)) entry hmem

/-! ### Interning and binding them -/

theorem extends_bindEntries (entries : List (String × Value η)) (t : Interner)
    (env : Environment η) : t.Extends (bindEntries t env entries).1 := by
  induction entries generalizing t env with
  | nil => exact .refl t
  | cons entry rest ih =>
      obtain ⟨name, v⟩ := entry
      exact (t.extends_intern name).trans (ih _ _)

theorem wellFormed_bindEntries (entries : List (String × Value η)) {t : Interner}
    (h : t.WellFormed) (env : Environment η) : (bindEntries t env entries).1.WellFormed := by
  induction entries generalizing t env with
  | nil => exact h
  | cons entry rest ih =>
      obtain ⟨name, v⟩ := entry
      exact ih (h.intern name) _

theorem overlays_bindEntries (entries : List (String × Value η)) (t : Interner)
    (env : Environment η) : (bindEntries t env entries).2.overlays = env.overlays := by
  induction entries generalizing t env with
  | nil => rfl
  | cons entry rest ih => exact ih _ _

/-- Where all the texts have their names already, binding the entries interns nothing. -/
theorem bindEntries_of_extends (entries : List (String × Value η)) {t t' : Interner}
    {env : Environment η} (h : (bindEntries t env entries).1.Extends t') :
    bindEntries t' env entries = (t', (bindEntries t env entries).2) := by
  induction entries generalizing t env with
  | nil => rfl
  | cons entry rest ih =>
      obtain ⟨name, v⟩ := entry
      -- The first text got its name before all the others, and no later one took it back.
      have hfind : t'.find? name = some (t.intern name).1 :=
        h _ _ (extends_bindEntries rest _ _ _ _ (t.find?_intern_self name))
      simp only [bindEntries, Interner.intern_of_find?_eq_some hfind]
      exact ih h

theorem overlays_environment (p : Prelude η) (t : Interner) :
    (p.environment t).2.overlays = [] := overlays_bindEntries _ _ _

theorem wellFormed_environment (p : Prelude η) {t : Interner} (h : t.WellFormed) :
    (p.environment t).1.WellFormed := wellFormed_bindEntries _ h _

theorem extends_environment (p : Prelude η) (t : Interner) :
    t.Extends (p.environment t).1 := extends_bindEntries _ _ _

/-- **Later environments are the same.** Once a run has been prepared, preparing another one
with whatever names came since makes the same environment and interns nothing. -/
theorem environment_of_extends (p : Prelude η) {t t' : Interner}
    (h : (p.environment t).1.Extends t') :
    p.environment t' = (t', (p.environment t).2) := bindEntries_of_extends _ h

theorem environment_environment (p : Prelude η) (t : Interner) :
    p.environment (p.environment t).1 = p.environment t :=
  p.environment_of_extends (.refl _)

/-! ### Texts are registered once -/

theorem map_fst_insertEntry (name : String) (v : Value η) (entries : List (String × Value η)) :
    (insertEntry name v entries).map Prod.fst =
      if name ∈ entries.map Prod.fst then entries.map Prod.fst
      else entries.map Prod.fst ++ [name] := by
  induction entries with
  | nil => simp [insertEntry]
  | cons entry rest ih =>
      obtain ⟨n, w⟩ := entry
      by_cases hn : n = name
      · simp [insertEntry, hn]
      · have hne : name ≠ n := Ne.symm hn
        simp only [insertEntry, if_neg hn, List.map_cons, ih, List.mem_cons, hne, false_or]
        split <;> rfl

theorem nodup_names_insert {p : Prelude η} (h : p.names.Nodup) (name : String) (v : Value η) :
    (p.insert name v).names.Nodup := by
  have hnames := map_fst_insertEntry name v p.entries
  rw [names, insert, hnames]
  split
  · exact h
  · next hnew =>
      refine List.nodup_append.mpr ⟨h, by simp, ?_⟩
      intro a ha b hb heq
      rw [List.mem_singleton.mp hb] at heq
      exact hnew (heq ▸ ha)

theorem nodup_names_standard : (standard : Prelude η).names.Nodup := by
  unfold standard
  iterate 7 refine nodup_names_insert ?_ _ _
  exact List.nodup_nil

/-! ### What a fresh environment binds -/

/-- Of entries with distinct texts, each is found under the name of its text. -/
theorem lookup?_bindEntries {entries : List (String × Value η)}
    (hnodup : (entries.map Prod.fst).Nodup) {t : Interner} (ht : t.WellFormed)
    {env : Environment η} (henv : env.overlays = []) {n : Name} (hn : t.Holds n) :
    (bindEntries t env entries).2.lookup? n =
      (entries.lookup (t.text n)).or (env.lookup? n) := by
  induction entries generalizing t env with
  | nil => rfl
  | cons entry rest ih =>
      obtain ⟨name, v⟩ := entry
      obtain ⟨hname, hrest⟩ := List.nodup_cons.mp hnodup
      obtain ⟨hn', htext⟩ := (t.extends_intern name).holds_text ht (ht.intern name) hn
      have hself : (t.intern name).1 = n ↔ name = t.text n := by
        have hfind := (ht.intern name).find?_eq_some_iff name n
        rw [t.find?_intern_self name, Option.some.injEq, htext] at hfind
        rw [hfind]
        exact ⟨fun h => h.2.symm, fun h => ⟨hn', h.symm⟩⟩
      have henv' : (env.bindGlobal (t.intern name).1 v).overlays = [] := henv
      simp only [bindEntries]
      rw [ih hrest (ht.intern name) henv' hn', htext, Environment.bindGlobal_eq_bind henv,
        Environment.lookup?_bind, List.lookup_cons]
      by_cases heq : name = t.text n
      · have hnone : rest.lookup (t.text n) = none := by
          rw [List.lookup_eq_none_iff]
          intro entry hentry
          rw [← heq]
          simpa using fun h => hname (List.mem_map.mpr ⟨entry, hentry, h.symm⟩)
        rw [if_pos (hself.mpr heq), hnone, ← heq, beq_self_eq_true]
        rfl
      · rw [if_neg fun h => heq (hself.mp h), beq_eq_false_iff_ne.mpr (Ne.symm heq)]

theorem lookup?_environment {p : Prelude η} (hp : p.names.Nodup) {t : Interner}
    (ht : t.WellFormed) {n : Name} (hn : t.Holds n) :
    (p.environment t).2.lookup? n = p.find? (t.text n) := by
  rw [environment, lookup?_bindEntries hp ht rfl hn, Environment.lookup?_empty, Option.or_none,
    find?]

theorem isBound_bindEntries (entries : List (String × Value η)) (t : Interner)
    {env : Environment η} (henv : env.overlays = []) (n : Name) :
    (bindEntries t env entries).2.isBound n ↔
      env.isBound n ∨ n ∈ (t.internAll (entries.map Prod.fst)).1 := by
  induction entries generalizing t env with
  | nil => simp [bindEntries, Interner.internAll]
  | cons entry rest ih =>
      obtain ⟨name, v⟩ := entry
      have henv' : (env.bindGlobal (t.intern name).1 v).overlays = [] := henv
      simp only [bindEntries, List.map_cons, Interner.internAll, List.mem_cons]
      rw [ih _ henv', Environment.bindGlobal_eq_bind henv, Environment.isBound_bind, or_assoc]

/-- The names of the texts of a prelude, and no others, are bound when a run starts. -/
theorem isBound_environment (p : Prelude η) (t : Interner) (n : Name) :
    (p.environment t).2.isBound n ↔ n ∈ (t.internAll p.names).1 := by
  have hempty : (Environment.empty : Environment η).isBound n = false := by
    rw [Environment.isBound, Environment.lookup?_empty, Option.isSome_none]
  rw [environment, isBound_bindEntries _ _ rfl, hempty, names]
  simp

end Prelude

theorem Setup.nodup_names_ofSettings (settings : List (Setting η)) :
    (ofSettings settings).prelude.names.Nodup := by
  have hadd : ∀ (c : Setup η) (st : Setting η), c.prelude.names.Nodup →
      (c.add st).prelude.names.Nodup := by
    intro c st hc
    cases st with
    | host name fn => exact Prelude.nodup_names_insert hc _ _
    | constant name v => exact Prelude.nodup_names_insert hc _ _
    | emptyPrelude => exact List.nodup_nil
    | sink s => exact hc
  have hfold : ∀ (settings : List (Setting η)) (c : Setup η), c.prelude.names.Nodup →
      (settings.foldl add c).prelude.names.Nodup := by
    intro settings
    induction settings with
    | nil => exact fun _ hc => hc
    | cons st rest ih => exact fun c hc => ih _ (hadd c st hc)
  exact hfold settings _ Prelude.nodup_names_standard

/-! ### Setups that differ in some texts -/

/-- The setting registers a value, under a text that is none of `texts`. -/
def Setting.RegistersOutside (texts : List String) : Setting η → Prop
  | .host name _ | .constant name _ => name ∉ texts
  | .emptyPrelude | .sink _ => False

/-- The setups have one sink, and one value for each of the texts. -/
def Setup.SameOn (texts : List String) (c c' : Setup η) : Prop :=
  c.sink = c'.sink ∧ ∀ s ∈ texts, c.prelude.find? s = c'.prelude.find? s

namespace Setup

variable {texts : List String} {c c' : Setup η}

theorem SameOn.add (h : SameOn texts c c') (st : Setting η) :
    SameOn texts (c.add st) (c'.add st) := by
  have hinsert : ∀ (name : String) (v : Value η), ∀ s ∈ texts,
      (c.prelude.insert name v).find? s = (c'.prelude.insert name v).find? s := by
    intro name v s hs
    rw [Prelude.find?_insert, Prelude.find?_insert, h.2 s hs]
  cases st with
  | host name fn => exact ⟨h.1, hinsert name _⟩
  | constant name v => exact ⟨h.1, hinsert name v⟩
  | emptyPrelude => exact ⟨h.1, fun s _ => rfl⟩
  | sink k => exact ⟨rfl, h.2⟩

theorem SameOn.foldl_add (h : SameOn texts c c') (settings : List (Setting η)) :
    SameOn texts (settings.foldl Setup.add c) (settings.foldl Setup.add c') := by
  induction settings generalizing c c' with
  | nil => exact h
  | cons st rest ih => exact ih (h.add st)

/-- Registering something elsewhere changes nothing for these texts. -/
theorem sameOn_extra (c : Setup η) {extra : List (Setting η)}
    (hextra : ∀ st ∈ extra, st.RegistersOutside texts) :
    SameOn texts c (extra.foldl Setup.add c) := by
  induction extra generalizing c with
  | nil => exact ⟨rfl, fun _ _ => rfl⟩
  | cons st rest ih =>
      have hst := hextra st List.mem_cons_self
      have hrest := ih (c.add st) fun st' h => hextra st' (List.mem_cons_of_mem _ h)
      have hinsert : ∀ (name : String) (v : Value η), name ∉ texts → ∀ s ∈ texts,
          c.prelude.find? s = (c.prelude.insert name v).find? s := by
        intro name v hname s hs
        rw [Prelude.find?_insert, if_neg fun heq : s = name => hname (heq ▸ hs)]
      cases st with
      | host name fn =>
          exact ⟨hrest.1, fun s hs => (hinsert name _ hst s hs).trans (hrest.2 s hs)⟩
      | constant name v =>
          exact ⟨hrest.1, fun s hs => (hinsert name v hst s hs).trans (hrest.2 s hs)⟩
      | emptyPrelude => exact hst.elim
      | sink k => exact hst.elim

theorem sameOn_ofSettings (before after : List (Setting η)) {extra : List (Setting η)}
    (hextra : ∀ st ∈ extra, st.RegistersOutside texts) :
    SameOn texts (ofSettings (before ++ after)) (ofSettings (before ++ extra ++ after)) := by
  simp only [ofSettings, List.foldl_append]
  exact (sameOn_extra _ hextra).foldl_add after

end Setup

end DynScope
