import DynScope.Proofs.FirstAppearance
import DynScope.Proofs.History
import Mathlib.Data.List.DropRight

/-!
# DynScope.Proofs.Registration

**A prelude is what was registered, once for each text.** The settings of an interpreter come
down to a list of registrations: those since the last setting that started over, or all of
them after those of the standard prelude. The prelude has their texts in the order in which
they come first, each with the value that it was given last (`Setup.sums_ofSettings`).

A run starts from these entries under the names of their texts, whatever other texts there
are (`Interpreter.starts_from_registrations`). Since a text has one name and a name stands for
one text, no entry can get into the way of another one or of a program's own names.
-/

namespace DynScope

variable {η : Type}

/-! ### Registrations -/

/-- What a setting registers, if it registers anything. -/
def Setting.entry? : Setting η → Option (String × Value η)
  | .host name fn => some (name, .builtin ⟨name, 0, fn⟩)
  | .constant name v => some (name, v)
  | .emptyPrelude | .sink _ => none

/-- Whether a setting starts over from an empty prelude. -/
def Setting.startsOver : Setting η → Bool
  | .emptyPrelude => true
  | .host .. | .constant .. | .sink _ => false

/-- The registrations that count, in order: those of the settings since the last one that
started over, and before them those of the standard prelude if none did. -/
def Setup.registrations (settings : List (Setting η)) : List (String × Value η) :=
  (if settings.any Setting.startsOver then [] else Prelude.standard.entries) ++
    (settings.rtakeWhile (!Setting.startsOver ·)).filterMap Setting.entry?

namespace Prelude

/-- The prelude has the texts of the registrations in the order in which they come first, and
binds each to the value that it was given last. -/
structure Sums (p : Prelude η) (regs : List (String × Value η)) : Prop where
  names_eq : p.names = (regs.map Prod.fst).eraseDups
  find?_eq : ∀ s, p.find? s = regs.reverse.lookup s

theorem sums_empty : (empty : Prelude η).Sums [] := ⟨rfl, fun _ => rfl⟩

/-- One more insertion is one more registration. -/
theorem Sums.insert {p : Prelude η} {regs : List (String × Value η)} (h : p.Sums regs)
    (name : String) (v : Value η) : (p.insert name v).Sums (regs ++ [(name, v)]) where
  names_eq := by
    have hmem : name ∈ p.names ↔ name ∈ regs.map Prod.fst := by
      rw [h.names_eq, List.mem_eraseDups]
    rw [List.map_append, List.map_singleton, eraseDups_concat, ← h.names_eq]
    simp only [names, Prelude.insert, map_fst_insertEntry] at hmem ⊢
    simp only [hmem]
  find?_eq s := by
    rw [find?_insert, List.reverse_concat, List.lookup_cons, h.find?_eq]
    by_cases hs : s = name
    · rw [if_pos hs, beq_iff_eq.mpr hs]
    · rw [if_neg hs, beq_eq_false_iff_ne.mpr hs]

theorem insertEntry_of_not_mem {name : String} {entries : List (String × Value η)}
    (h : name ∉ entries.map Prod.fst) (v : Value η) :
    insertEntry name v entries = entries ++ [(name, v)] := by
  induction entries with
  | nil => rfl
  | cons entry rest ih =>
      obtain ⟨n, w⟩ := entry
      simp only [List.map_cons, List.mem_cons, not_or] at h
      rw [insertEntry, if_neg (Ne.symm h.1), ih h.2, List.cons_append]

/-- A prelude of distinct texts is what its own entries register. -/
theorem sums_entries {entries : List (String × Value η)}
    (h : (entries.map Prod.fst).Nodup) : Sums ⟨entries⟩ entries := by
  induction entries using List.reverseRecOn with
  | nil => exact sums_empty
  | append_singleton entries entry ih =>
      rw [List.map_append, List.map_singleton, List.nodup_append] at h
      obtain ⟨hnodup, -, hdisjoint⟩ := h
      have hnew : entry.1 ∉ entries.map Prod.fst :=
        fun hmem => hdisjoint _ hmem _ List.mem_cons_self rfl
      have hsums := (ih hnodup).insert entry.1 entry.2
      rwa [insert, insertEntry_of_not_mem hnew] at hsums

/-- The texts of a prelude are those that it finds a value for. -/
theorem mem_names_iff (p : Prelude η) (s : String) : s ∈ p.names ↔ (p.find? s).isSome := by
  rw [find?, List.lookup_isSome_iff, names, List.mem_map]
  simp only [beq_iff_eq, @eq_comm _ s]

end Prelude

/-! ### Settings and their registrations -/

namespace Setup

theorem registrations_concat (settings : List (Setting η)) (st : Setting η) :
    registrations (settings ++ [st]) =
      if st.startsOver then [] else registrations settings ++ st.entry?.toList := by
  have hentry : [st].filterMap Setting.entry? = st.entry?.toList := by
    cases h : st.entry? <;> simp [h]
  simp only [registrations, List.any_append, List.any_cons, List.any_nil, Bool.or_false,
    List.rtakeWhile_concat]
  cases st.startsOver with
  | true => simp
  | false => simp [List.filterMap_append, hentry]

/-- What has been put together so far comes down to its registrations. -/
theorem sums_ofSettings (settings : List (Setting η)) :
    (ofSettings settings).prelude.Sums (registrations settings) := by
  induction settings using List.reverseRecOn with
  | nil => exact Prelude.sums_entries Prelude.nodup_names_standard
  | append_singleton settings st ih =>
      have hadd : ofSettings (settings ++ [st]) = (ofSettings settings).add st := by
        simp [ofSettings]
      rw [hadd, registrations_concat]
      cases st with
      | host name fn => exact ih.insert name _
      | constant name v => exact ih.insert name v
      | emptyPrelude => exact Prelude.sums_empty
      | sink s =>
          show (ofSettings settings).prelude.Sums (registrations settings ++ [])
          rw [List.append_nil]
          exact ih

end Setup

/-! ### What a run starts from -/

namespace Prelude

open Interner (reached)

theorem fst_bindEntries (entries : List (String × Value η)) (t : Interner)
    (env : Environment η) :
    (bindEntries t env entries).1 = (t.internAll (entries.map Prod.fst)).2 := by
  induction entries generalizing t env with
  | nil => rfl
  | cons entry rest ih => exact ih _ _

/-- Preparing a run interns the texts of the prelude, in order, and no others. -/
theorem fst_environment_reached (p : Prelude η) (texts : List String) :
    (p.environment (reached texts)).1 = reached (texts ++ p.names) := by
  rw [environment, fst_bindEntries, reached, reached, Interner.internAll_append, names]

/-- Under the name that a text has or gets, now or later, there is what the prelude has for
the text. -/
theorem lookup?_environment_reached {p : Prelude η} (hp : p.names.Nodup)
    (texts later : List String) (s : String) :
    (p.environment (reached texts)).2.lookup? ((reached (texts ++ p.names ++ later)).intern s).1 =
      p.find? s := by
  -- Prepared when the text has its name, the run starts from the same environment.
  have hlater : (p.environment (reached texts)).1.Extends
      (reached (texts ++ p.names ++ later ++ [s])) := by
    rw [fst_environment_reached, List.append_assoc (texts ++ p.names)]
    exact Interner.extends_reached_append _ _
  have hsame := p.environment_of_extends hlater
  have hwf := Interner.wellFormed_reached (texts ++ p.names ++ later ++ [s])
  have hname := Interner.find?_reached_intern (texts ++ p.names ++ later) [] s
  obtain ⟨hholds, htext⟩ := (hwf.find?_eq_some_iff s _).mp hname
  have hlookup := lookup?_environment hp hwf hholds
  rwa [hsame, htext] at hlookup

end Prelude

/-- **A run starts from what was registered.** Put together by any settings, an interpreter
has a prelude of distinct texts: those of its registrations in the order in which they come
first, each with the value that it was given last. Whatever texts have been interned by then,
and whatever state has been left by then, a run starts from an environment in which the name
of a text is bound exactly if the text is in the prelude, and to that value; and this is so
for names that the texts had before, for those that the run gives them, and for those that
they get at any later time. No name that was handed out before is changed, and however the run
comes out, the prelude is there for the next one. -/
theorem Interpreter.starts_from_registrations [Host η] (settings : List (Setting η))
    (texts : List String) (state : State η) :
    let p := (Setup.ofSettings settings).prelude
    let regs := Setup.registrations settings
    let before := Interner.reached texts
    let after := Interner.reached (texts ++ p.names)
    let env := (p.environment before).2
    (p.names.Nodup ∧ p.names = (regs.map Prod.fst).eraseDups ∧
      ∀ s, (s ∈ p.names ↔ (p.find? s).isSome) ∧ p.find? s = regs.reverse.lookup s) ∧
    (∀ fuel program, Interpreter.interpret fuel program ⟨before, p, state⟩ =
      (Stmt.execAll after fuel program.body ⟨env, #[], state.sink⟩).mapState
        fun state => ⟨after, p, state⟩) ∧
    (∀ later s, env.lookup? ((Interner.reached (texts ++ p.names ++ later)).intern s).1 =
      regs.reverse.lookup s) ∧
    (∀ s n, before.find? s = some n → after.find? s = some n) ∧
    ∀ n, before.Holds n → after.Holds n ∧ after.text n = before.text n := by
  intro p regs before after env
  have hsums : p.Sums regs := Setup.sums_ofSettings settings
  have hnodup : p.names.Nodup := Setup.nodup_names_ofSettings settings
  have hextends : before.Extends after := Interner.extends_reached_append texts p.names
  have hstart : p.environment before = (after, env) :=
    Prod.ext (p.fst_environment_reached texts) rfl
  refine ⟨⟨hnodup, hsums.names_eq, fun s => ⟨p.mem_names_iff s, hsums.find?_eq s⟩⟩,
    fun fuel program => ?_, fun later s => ?_, hextends, fun n hn => ?_⟩
  · exact Interpreter.interpret_eq ⟨before, p, state⟩ fuel program hstart
  · rw [← hsums.find?_eq s]
    exact Prelude.lookup?_environment_reached hnodup texts later s
  · exact hextends.holds_text (Interner.wellFormed_reached _) (Interner.wellFormed_reached _) hn

end DynScope
