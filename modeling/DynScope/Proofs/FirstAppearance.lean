import DynScope.Proofs.Interner
import Mathlib.Data.List.Basic
import Mathlib.Data.List.Induction
import Mathlib.Logic.Function.Basic

/-!
# DynScope.Proofs.FirstAppearance

**Texts are numbered by their first appearance.** Whatever is asked of some interners and in
whatever order, each of them holds the empty text and after it the texts that it was given, in
the order in which it met them first. The name of a text is its place in that list, now and at
any later time (`Interner.serve_numbers`).

How it works: looking up changes nothing, and interning touches one interner of several, so an
interner is what its own texts in their order have made of it (`serveAll_eq_reached`). The rest
is about `reached texts`, of which `firstAppearances texts` is the view: one more text leaves
both alone or is the last of both (`texts_intern`, `firstAppearances_concat`).
-/

namespace DynScope

/-- Without repetitions, a list with one more element has it at the end, unless it was there
already. -/
theorem eraseDups_concat {α : Type} [DecidableEq α] (l : List α) (a : α) :
    (l ++ [a]).eraseDups = if a ∈ l then l.eraseDups else l.eraseDups ++ [a] := by
  rw [List.eraseDups_append, List.removeAll, List.filter_singleton, List.elem_eq_mem]
  by_cases h : a ∈ l
  · rw [if_pos h, decide_eq_true h]
    simp
  · rw [if_neg h, decide_eq_false h]
    rfl

namespace Interner

/-! ### The list of first appearances -/

/-- The empty text, and then the other texts of a list, each where it appears first. -/
def firstAppearances (texts : List String) : List String :=
  "" :: (texts.filter (· != "")).eraseDups

theorem firstAppearances_eq_eraseDups (texts : List String) :
    firstAppearances texts = ("" :: texts).eraseDups := by
  rw [List.eraseDups_cons]
  rfl

theorem mem_firstAppearances {texts : List String} {s : String} :
    s ∈ firstAppearances texts ↔ s = "" ∨ s ∈ texts := by
  rw [firstAppearances_eq_eraseDups, List.mem_eraseDups, List.mem_cons]

/-- One more text is new at the end, or it changes nothing. -/
theorem firstAppearances_concat (texts : List String) (s : String) :
    firstAppearances (texts ++ [s]) =
      if s ∈ firstAppearances texts then firstAppearances texts
      else firstAppearances texts ++ [s] := by
  have hmem : s ∈ firstAppearances texts ↔ s ∈ "" :: texts := by
    rw [mem_firstAppearances, List.mem_cons]
  rw [firstAppearances_eq_eraseDups, ← List.cons_append, eraseDups_concat,
    ← firstAppearances_eq_eraseDups]
  simp only [hmem]

/-! ### The texts of an interner -/

theorem WellFormed.find?_eq_none_iff {t : Interner} (h : t.WellFormed) (s : String) :
    t.find? s = none ↔ s ∉ t.texts.toList := by
  rw [find?, Option.map_eq_none_iff, Option.eq_none_iff_forall_not_mem]
  simp only [Option.mem_def, h.positions_iff, Array.mem_toList_iff, Array.mem_iff_getElem?]
  exact not_exists.symm

/-- Interning appends a text that is not there yet, and does nothing for one that is. -/
theorem WellFormed.texts_intern {t : Interner} (h : t.WellFormed) (s : String) :
    (t.intern s).2.texts.toList =
      if s ∈ t.texts.toList then t.texts.toList else t.texts.toList ++ [s] := by
  rw [intern_eq_enroll]
  cases hs : t.find? s with
  | none =>
      have hnew := (h.find?_eq_none_iff s).mp hs
      rw [enroll_of_find?_eq_none hs, if_neg hnew, Array.toList_push]
  | some n =>
      have hold : s ∈ t.texts.toList := by
        by_contra hnew
        rw [(h.find?_eq_none_iff s).mpr hnew] at hs
        cases hs
      rw [enroll_of_find?_eq_some hs, if_pos hold]

theorem internAll_append (t : Interner) (ss ss' : List String) :
    (t.internAll (ss ++ ss')).2 = ((t.internAll ss).2.internAll ss').2 := by
  induction ss generalizing t with
  | nil => rfl
  | cons s ss ih => exact ih _

theorem reached_concat (texts : List String) (s : String) :
    reached (texts ++ [s]) = ((reached texts).intern s).2 :=
  internAll_append empty texts [s]

/-- **An interner holds its texts in the order of their first appearance.** -/
theorem texts_reached (texts : List String) :
    (reached texts).texts.toList = firstAppearances texts := by
  induction texts using List.reverseRecOn with
  | nil => rfl
  | append_singleton texts s ih =>
      rw [reached_concat, (wellFormed_reached texts).texts_intern, ih, firstAppearances_concat]

theorem size_reached (texts : List String) :
    (reached texts).size = (firstAppearances texts).length := by
  rw [← texts_reached, Array.length_toList, size]

theorem extends_reached_append (texts later : List String) :
    (reached texts).Extends (reached (texts ++ later)) := by
  induction later using List.reverseRecOn with
  | nil =>
      rw [List.append_nil]
      exact .refl _
  | append_singleton later s ih =>
      rw [← List.append_assoc, reached_concat]
      exact ih.trans (extends_intern _ s)

/-- What interning a text answers is its name from then on. -/
theorem find?_reached_intern (texts later : List String) (s : String) :
    (reached (texts ++ s :: later)).find? s = some ((reached texts).intern s).1 := by
  have hself := (reached texts).find?_intern_self s
  rw [← reached_concat] at hself
  have hlater := extends_reached_append (texts ++ [s]) later _ _ hself
  rwa [List.append_assoc, List.singleton_append] at hlater

/-- The name of a text is its place among the first appearances. -/
theorem index_intern_reached (texts : List String) (s : String) :
    ((reached texts).intern s).1.index = (firstAppearances (texts ++ [s])).idxOf s := by
  have hwf := wellFormed_reached (texts ++ [s])
  have hfind := find?_reached_intern texts [] s
  rw [find?_eq_some_iff_position] at hfind
  -- The text stands at its first place, and a text has one position only.
  have hmem : s ∈ firstAppearances (texts ++ [s]) := by simp [mem_firstAppearances]
  have hplace := List.getElem?_idxOf hmem
  rw [← texts_reached, Array.getElem?_toList, ← hwf.positions_iff, hfind] at hplace
  rw [← texts_reached]
  exact Option.some.inj hplace

/-- A text gets a new name, which is the last one, exactly if it was never met. -/
theorem index_intern_eq_length_iff (texts : List String) (s : String) :
    ((reached texts).intern s).1.index = (firstAppearances texts).length ↔
      s ∉ firstAppearances texts := by
  rw [index_intern_reached, firstAppearances_concat]
  split
  · next hold =>
      have hlt := List.idxOf_lt_length_iff.mpr hold
      exact ⟨fun heq => absurd heq (Nat.ne_of_lt hlt), fun hnew => absurd hold hnew⟩
  · next hnew =>
      rw [List.idxOf_append_of_notMem hnew, List.idxOf_cons_self]
      exact ⟨fun _ => hnew, fun _ => rfl⟩

/-- Whenever two texts are interned, they get one name exactly if they are one text. -/
theorem intern_reached_eq_iff (texts between : List String) (s s' : String) :
    ((reached texts).intern s).1 = ((reached (texts ++ s :: between)).intern s').1 ↔ s = s' := by
  have hname := find?_reached_intern texts between s
  constructor
  · intro heq
    -- At the end both texts have the name, which stands for one of them only.
    have hfirst := find?_reached_intern texts (between ++ [s']) s
    have hsecond := find?_reached_intern (texts ++ s :: between) [] s'
    rw [List.append_assoc, List.cons_append] at hsecond
    have hwf := wellFormed_reached (texts ++ s :: (between ++ [s']))
    obtain ⟨-, htext⟩ := (hwf.find?_eq_some_iff _ _).mp hfirst
    obtain ⟨-, htext'⟩ := (hwf.find?_eq_some_iff _ _).mp hsecond
    rw [heq] at htext
    exact htext.symm.trans htext'
  · rintro rfl
    rw [intern_of_find?_eq_some hname]

/-- A name that was handed out stands for its text from then on. -/
theorem text_reached_intern (texts later : List String) (s : String) :
    (reached (texts ++ s :: later)).text ((reached texts).intern s).1 = s :=
  ((wellFormed_reached _).find?_eq_some_iff s _ |>.mp (find?_reached_intern texts later s)).2

theorem text_of_size_le {t : Interner} {n : Name} (h : t.size ≤ n.index) : t.text n = "" := by
  rw [text, Array.getElem?_eq_none h, Option.getD_none]

theorem isEmpty_reached (texts : List String) :
    (reached texts).isEmpty = true ↔ ∀ s ∈ texts, s = "" := by
  have hsize : (reached texts).isEmpty = true ↔ (texts.filter (· != "")).eraseDups.length = 0 := by
    rw [isEmpty, size_reached, firstAppearances, List.length_cons, decide_eq_true_iff]
    omega
  rw [hsize, List.length_eq_zero_iff, List.eq_nil_iff_forall_not_mem]
  simp only [List.mem_eraseDups, List.mem_filter, bne_iff_ne, ne_eq, not_and, not_not]

/-! ### Several interners in use -/

/-- Something asked of one of several interners, which are told apart by `κ`. -/
inductive Request (κ : Type) where
  /-- Intern a text. -/
  | intern (key : κ) (text : String)
  /-- Look a name up, whichever interner it comes from. -/
  | lookup (key : κ) (n : Name)

/-- What is answered. -/
inductive Reply where
  /-- The name of the text. -/
  | name (n : Name)
  /-- The text of the name. -/
  | text (s : String)
deriving DecidableEq

section Requests

variable {κ : Type} [DecidableEq κ]

/-- Answer one request. -/
def Request.serve (ts : κ → Interner) : Request κ → Reply × (κ → Interner)
  | .intern k s =>
    let (n, t) := (ts k).intern s
    (.name n, Function.update ts k t)
  | .lookup k n => (.text ((ts k).text n), ts)

/-- New interners after some requests, which were answered in order. -/
def serveAll (requests : List (Request κ)) : κ → Interner :=
  requests.foldl (fun ts r => (r.serve ts).2) fun _ => empty

/-- The texts that one of the interners was given, in order. -/
def given (k : κ) (requests : List (Request κ)) : List String :=
  requests.filterMap fun
    | .intern k' s => if k' = k then some s else none
    | .lookup .. => none

/-- **An interner is what its own texts have made of it.** -/
theorem serveAll_eq_reached (requests : List (Request κ)) (k : κ) :
    serveAll requests k = reached (given k requests) := by
  induction requests using List.reverseRecOn with
  | nil => rfl
  | append_singleton requests r ih =>
      rw [given, List.filterMap_append, ← given]
      rw [serveAll, List.foldl_append, ← serveAll]
      cases r with
      | lookup k' n => simpa [Request.serve] using ih
      | intern k' s =>
          by_cases hk : k' = k
          · subst hk
            have hstep := reached_concat (given k' requests) s
            simp [Request.serve, hstep, ih]
          · simpa [Request.serve, hk, Function.update_of_ne (Ne.symm hk)] using ih

/-- **Texts are numbered by their first appearance.** Whatever some interners have been asked,
each holds the empty text and then the other texts that it was given, in the order of their
first appearance; it counts them, and is empty as long as it was given the empty text only.
Interning a text answers its place in that list, a new place at the end exactly if the text was
never met. At any later time just this text is answered by that name, and the name is answered
by this text. A name that was not handed out is answered by the empty text. What other
interners are asked makes no difference. -/
theorem serve_numbers (past : List (Request κ)) (k : κ) :
    let seen := firstAppearances (given k past)
    (serveAll past k).texts.toList = seen ∧
      (serveAll past k).size = seen.length ∧
      ((serveAll past k).isEmpty = true ↔ ∀ s ∈ given k past, s = "") ∧
      (∀ s, ∃ n, ((Request.intern k s).serve (serveAll past)).1 = .name n ∧
        n.index = (firstAppearances (given k past ++ [s])).idxOf s ∧
        (n.index = seen.length ↔ s ≠ "" ∧ s ∉ given k past) ∧
        (∀ between s', ((Request.intern k s').serve
          (serveAll (past ++ .intern k s :: between))).1 = .name n ↔ s' = s) ∧
        ∀ later, ((Request.lookup k n).serve
          (serveAll (past ++ .intern k s :: later))).1 = .text s) ∧
      (∀ n : Name, seen.length ≤ n.index →
        ((Request.lookup k n).serve (serveAll past)).1 = .text "") ∧
      ∀ past', given k past' = given k past → serveAll past' k = serveAll past k := by
  have hgiven : ∀ (s : String) (later : List (Request κ)),
      given k (past ++ .intern k s :: later) = given k past ++ s :: given k later := by
    intro s later
    simp [given]
  intro seen
  rw [serveAll_eq_reached]
  refine ⟨texts_reached _, size_reached _, isEmpty_reached _, fun s => ?_, fun n hn => ?_,
    fun past' hsame => ?_⟩
  · refine ⟨((reached (given k past)).intern s).1, ?_, index_intern_reached _ s, ?_, ?_, ?_⟩
    · simp only [Request.serve, serveAll_eq_reached]
    · rw [index_intern_eq_length_iff, mem_firstAppearances, not_or]
    · intro between s'
      simp only [Request.serve, serveAll_eq_reached, hgiven, Reply.name.injEq]
      rw [eq_comm, intern_reached_eq_iff, eq_comm]
    · intro later
      simp only [Request.serve, serveAll_eq_reached, hgiven, text_reached_intern]
  · rw [← size_reached] at hn
    simp only [Request.serve, serveAll_eq_reached, text_of_size_le hn]
  · rw [serveAll_eq_reached, hsame]

end Requests

end Interner

end DynScope
