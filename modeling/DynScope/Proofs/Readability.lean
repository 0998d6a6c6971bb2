import Mathlib
import DynScope.Value
import DynScope.Proofs.Equality
import DynScope.Proofs.NumberText

/-!
# DynScope.Proofs.Readability

**Displayed data can be told apart.** Two values that are built from numbers, booleans and arrays
have the same text exactly if they have the same content: the same shape, the same booleans, and the
same numbers but for the sign of zero. So on data without NaN, sameness of texts is equality
(`Value.display_eq_iff`).

How it works: reading the text of a number gives back the number, with zero unsigned, so numbers
with one text have one content (`Layout.render_eq_iff`). The text of a number holds neither a comma
nor a bracket, so what follows it in the text of an array tells where it ends. Therefore a text and
what follows it determine the value and the rest (`Value.readable`), as the first characters tell
numbers, booleans and arrays apart.
-/

namespace DynScope

open Number
open Float.Model (UnpackedFloat)

/-! ### Numbers -/

namespace Layout

/-- Reading back what is displayed of a number gives the number, with zero unsigned. -/
theorem ofText?_render (x : Float) :
    Number.ofText? (display.render x).toList = some (unsignedZero x) := by
  rcases special_or_finite x with (rfl | rfl | rfl | rfl | rfl) | ⟨s, m, q, hm, hx⟩
  case inr =>
      rw [ofText?_display hx, unsignedZero, if_neg]
      rintro rfl
      cases hx
  all_goals rfl

/-- Two numbers are displayed alike exactly if they are the same but for the sign of zero. -/
theorem render_eq_iff (x y : Float) :
    display.render x = display.render y ↔ unsignedZero x = unsignedZero y := by
  constructor
  · intro h
    have hread := ofText?_render x
    rw [h, ofText?_render y] at hread
    exact (Option.some.inj hread).symm
  · intro h
    rcases (unsignedZero_eq_iff x y).mp h with rfl | ⟨rfl, rfl⟩ | ⟨rfl, rfl⟩
    · rfl
    · rfl
    · rfl

/-- The character is none of those that stand between the elements of an array and around them. -/
def Plain (c : Char) : Prop := c ≠ ',' ∧ c ≠ '[' ∧ c ≠ ']'

instance (c : Char) : Decidable (Plain c) := inferInstanceAs (Decidable (_ ∧ _ ∧ _))

theorem plain_of_isDigit {c : Char} (h : c.isDigit) : Plain c := by
  refine ⟨?_, ?_, ?_⟩ <;> rintro rfl <;> cases h

open Decimal in
/-- Both notations are plain. -/
theorem plain_of_layout {text : List Char} {d : Decimal}
    (h : IsPositional text d ∨ IsScientific text d) : ∀ c ∈ text, Plain c := by
  have hpointed : ∀ whole fraction : List Char, (∀ c ∈ whole ++ fraction, c.isDigit) →
      ∀ c ∈ pointed whole fraction, Plain c := by
    intro whole fraction hdigits c hc
    rcases mem_of_mem_pointed hc with hc | rfl
    · exact plain_of_isDigit (hdigits c hc)
    · decide
  rcases h with ⟨whole, fraction, rfl, hparts⟩ | ⟨lead, fraction, hdigits, rfl⟩
  · exact hpointed whole fraction hparts.digits
  · intro c hc
    rcases List.mem_append.mp hc with hc | hc
    · have hmantissa : ∀ c ∈ [lead] ++ fraction, c.isDigit := by
        rw [List.singleton_append, ← hdigits]
        exact d.isDigit_digits
      exact hpointed [lead] fraction hmantissa c hc
    · rcases List.mem_cons.mp hc with rfl | hc
      · decide
      · rcases List.mem_cons.mp hc with rfl | hc
        · split_ifs <;> decide
        · exact plain_of_isDigit (Nat.isDigit_of_mem_toDigits (by norm_num) (by norm_num) hc)

/-- Displayed numbers are plain. -/
theorem plain_render (x : Float) : ∀ c ∈ (display.render x).toList, Plain c := by
  cases hx : x.toModel.unpack with
  | finite s m q hm =>
      rw [toList_render display hx]
      intro c hc
      rcases List.mem_append.mp hc with hc | hc
      · split_ifs at hc
        · obtain rfl := List.mem_singleton.mp hc
          decide
        · cases hc
      · exact plain_of_layout (one_layout hx) c hc
  | infinity s | zero s =>
      rw [render, hx]
      cases s <;> simp [signText, display, positionalText, Plain]
  | notANumber =>
      rw [render, hx]
      simp [Plain]

/-- A displayed number does not start like a boolean. -/
theorem exists_head_render (x : Float) :
    ∃ c rest, (display.render x).toList = c :: rest ∧ c ≠ 't' ∧ c ≠ 'f' := by
  cases hx : x.toModel.unpack with
  | finite s m q hm =>
      rw [toList_render display hx]
      split_ifs
      · exact ⟨'-', _, rfl, by decide, by decide⟩
      · obtain ⟨c, rest, heq, hdigit⟩ := Decimal.exists_head (one_layout hx)
        rw [heq]
        refine ⟨c, rest, rfl, ?_, ?_⟩ <;> rintro rfl <;> cases hdigit
  | infinity s | zero s =>
      rw [render, hx]
      cases s <;> exact ⟨_, _, rfl, by decide, by decide⟩
  | notANumber =>
      rw [render, hx]
      exact ⟨_, _, rfl, by decide, by decide⟩

end Layout

namespace Value

variable {η : Type}

/-! ### Data -/

mutual
/-- The value is built from numbers, booleans and arrays. -/
def IsData : Value η → Prop
  | .number _ | .bool _ => True
  | .array _ es => IsDataAll es
  | .builtin _ | .function _ => False
/-- All values of a sequence are. -/
def IsDataAll : List (Value η) → Prop
  | [] => True
  | v :: vs => IsData v ∧ IsDataAll vs
end

/-- What follows the text of a value in the text of an array, or at its end. -/
def Follows (s : List Char) : Prop := ∀ c, s.head? = some c → c = ',' ∨ c = ']'

/-- The text of the elements of an array behind the first one, with the end of the array. -/
def furtherText : List (Value η) → List Char
  | [] => [']']
  | v :: vs => ',' :: ' ' :: (v.display.toList ++ furtherText vs)

theorem follows_furtherText (vs : List (Value η)) (s : List Char) :
    Follows (furtherText vs ++ s) := by
  intro c hc
  cases vs with
  | nil => exact Or.inr (Option.some.inj hc).symm
  | cons v vs => exact Or.inl (Option.some.inj hc).symm

theorem toList_display_false :
    (display (.bool false : Value η)).toList = ['f', 'a', 'l', 's', 'e'] := by
  simp [display, boolText]

theorem toList_display_true : (display (.bool true : Value η)).toList = ['t', 'r', 'u', 'e'] := by
  simp [display, boolText]

theorem toList_display_nil (label : Option Nat) :
    (display (.array label [] : Value η)).toList = ['[', ']'] := by
  simp [display, displayAll, bracketed]

/-- The text of an array, element by element. -/
theorem toList_display_cons (label : Option Nat) (v : Value η) (vs : List (Value η)) :
    (display (.array label (v :: vs))).toList = '[' :: (v.display.toList ++ furtherText vs) := by
  have hfurther : ∀ (u : Value η) (us : List (Value η)),
      [',', ' '].intercalate ((displayAll (u :: us)).map (·.toList)) ++ [']'] =
        u.display.toList ++ furtherText us := by
    intro u us
    induction us generalizing u with
    | nil => simp [displayAll, furtherText]
    | cons u' us ih =>
        have hrest := ih u'
        simp only [displayAll, List.map_cons] at hrest ⊢
        rw [List.intercalate_cons_cons, List.append_assoc, List.append_assoc, hrest]
        simp [furtherText]
  have hsplit := hfurther v vs
  rw [display, bracketed, String.toList_append, String.toList_append, String.toList_intercalate,
    ← hsplit]
  simp

/-! ### Unique readability -/

/-- The kind of the data whose text starts with the character. -/
def leadKind (c : Char) : Kind :=
  if c = '[' then .array else if c = 't' ∨ c = 'f' then .boolean else .number

/-- The first character tells the kind. -/
theorem exists_head {v : Value η} (hv : v.IsData) :
    ∃ c rest, v.display.toList = c :: rest ∧ c ≠ ']' ∧ leadKind c = v.kind := by
  cases v with
  | number x =>
      obtain ⟨c, rest, heq, ht, hf⟩ := Layout.exists_head_render x
      have hplain := Layout.plain_render x c (by rw [heq]; exact List.mem_cons_self)
      refine ⟨c, rest, heq, hplain.2.2, ?_⟩
      rw [leadKind, if_neg hplain.2.1, if_neg (not_or.mpr ⟨ht, hf⟩)]
      rfl
  | bool b =>
      cases b with
      | false => exact ⟨_, _, toList_display_false, by decide, rfl⟩
      | true => exact ⟨_, _, toList_display_true, by decide, rfl⟩
  | array label es =>
      cases es with
      | nil => exact ⟨_, _, toList_display_nil label, by decide, rfl⟩
      | cons v vs => exact ⟨_, _, toList_display_cons label v vs, by decide, rfl⟩
  | builtin | function => cases hv

/-- Data with texts that continue to the same text are of one kind. -/
theorem kind_eq_of_append {v w : Value η} (hv : v.IsData) (hw : w.IsData) {s s' : List Char}
    (h : v.display.toList ++ s = w.display.toList ++ s') : v.kind = w.kind := by
  obtain ⟨c, rest, heq, -, hkind⟩ := exists_head hv
  obtain ⟨c', rest', heq', -, hkind'⟩ := exists_head hw
  rw [heq, heq'] at h
  rw [← hkind, ← hkind', (List.cons.inj h).1]

/-- A plain text ends where something follows it. -/
theorem plain_append_inj {t t' s s' : List Char} (ht : ∀ c ∈ t, Layout.Plain c)
    (ht' : ∀ c ∈ t', Layout.Plain c) (hs : Follows s) (hs' : Follows s') (h : t ++ s = t' ++ s') :
    t = t' ∧ s = s' := by
  have hstop : ∀ {c : Char} {r u : List Char}, Layout.Plain c → Follows u → u ≠ c :: r :=
    fun hplain hu heq => by
      rcases hu _ (congrArg List.head? heq) with rfl | rfl
      · exact hplain.1 rfl
      · exact hplain.2.2 rfl
  induction t generalizing t' with
  | nil =>
      cases t' with
      | nil => exact ⟨rfl, h⟩
      | cons c t' => exact absurd h (hstop (ht' c List.mem_cons_self) hs)
  | cons c t ih =>
      cases t' with
      | nil => exact absurd h.symm (hstop (ht c List.mem_cons_self) hs')
      | cons c' t' =>
          obtain ⟨rfl, hrest⟩ := List.cons.inj h
          obtain ⟨rfl, hs⟩ := ih (fun c hc => ht c (List.mem_cons_of_mem _ hc))
            (fun c hc => ht' c (List.mem_cons_of_mem _ hc)) hrest
          exact ⟨rfl, hs⟩

mutual
/-- **Unique readability.** The text of a value and what follows it determine the content of the
value and the rest. -/
theorem readable : ∀ (v w : Value η) (s s' : List Char), v.IsData → w.IsData → Follows s →
    Follows s' → v.display.toList ++ s = w.display.toList ++ s' → v.content = w.content ∧ s = s'
  | .number x, w, s, s', hv, hw, hs, hs', h => by
      have hkind := kind_eq_of_append hv hw h
      cases w with
      | number y =>
          obtain ⟨htext, hrest⟩ :=
            plain_append_inj (Layout.plain_render x) (Layout.plain_render y) hs hs' h
          have hcontent := (Layout.render_eq_iff x y).mp (String.toList_inj.mp htext)
          exact ⟨congrArg Content.number hcontent, hrest⟩
      | bool b => exact absurd hkind (show Kind.number ≠ Kind.boolean by decide)
      | array label ws => exact absurd hkind (show Kind.number ≠ Kind.array by decide)
      | builtin | function => cases hw
  | .bool b, w, s, s', hv, hw, hs, hs', h => by
      have hkind := kind_eq_of_append hv hw h
      cases w with
      | number y => exact absurd hkind (show Kind.boolean ≠ Kind.number by decide)
      | bool b' =>
          cases b <;> cases b'
          case false.false => exact ⟨rfl, List.append_cancel_left h⟩
          case true.true => exact ⟨rfl, List.append_cancel_left h⟩
          case false.true =>
              rw [toList_display_false, toList_display_true] at h
              exact absurd (List.cons.inj h).1 (by decide)
          case true.false =>
              rw [toList_display_true, toList_display_false] at h
              exact absurd (List.cons.inj h).1 (by decide)
      | array label ws => exact absurd hkind (show Kind.boolean ≠ Kind.array by decide)
      | builtin | function => cases hw
  | .array label es, w, s, s', hv, hw, hs, hs', h => by
      have hkind := kind_eq_of_append hv hw h
      cases w with
      | number y => exact absurd hkind (show Kind.array ≠ Kind.number by decide)
      | bool b => exact absurd hkind (show Kind.array ≠ Kind.boolean by decide)
      | array label' ws =>
          obtain ⟨hcontent, hrest⟩ := readableElements label label' es ws s s' hv hw h
          exact ⟨congrArg Content.array hcontent, hrest⟩
      | builtin | function => cases hw
  | .builtin _, _, _, _, hv, _, _, _, _ | .function _, _, _, _, hv, _, _, _, _ => nomatch hv
/-- The text of an array and what follows it determine the contents of its elements. -/
theorem readableElements : ∀ (label label' : Option Nat) (es ws : List (Value η))
    (s s' : List Char), IsDataAll es → IsDataAll ws →
    (display (.array label es)).toList ++ s = (display (.array label' ws)).toList ++ s' →
    contentAll es = contentAll ws ∧ s = s'
  | label, label', [], [], s, s', _, _, h => by
      rw [toList_display_nil, toList_display_nil] at h
      exact ⟨rfl, List.append_cancel_left h⟩
  | label, label', [], w :: ws, s, s', _, hw, h => by
      obtain ⟨c, rest, heq, hc, -⟩ := exists_head hw.1
      rw [toList_display_nil, toList_display_cons, heq] at h
      exact absurd (List.cons.inj (List.cons.inj h).2).1.symm hc
  | label, label', v :: vs, [], s, s', hv, _, h => by
      obtain ⟨c, rest, heq, hc, -⟩ := exists_head hv.1
      rw [toList_display_nil, toList_display_cons, heq] at h
      exact absurd (List.cons.inj (List.cons.inj h).2).1 hc
  | label, label', v :: vs, w :: ws, s, s', hv, hw, h => by
      rw [toList_display_cons, toList_display_cons, List.cons_append, List.cons_append,
        List.append_assoc, List.append_assoc] at h
      obtain ⟨hfirst, hfurther⟩ := readable v w _ _ hv.1 hw.1 (follows_furtherText vs s)
        (follows_furtherText ws s') (List.cons.inj h).2
      obtain ⟨hothers, hrest⟩ := readableAll vs ws s s' hv.2 hw.2 hfurther
      refine ⟨?_, hrest⟩
      rw [contentAll, contentAll, hfirst, hothers]
/-- So do the texts of the further elements. -/
theorem readableAll : ∀ (vs ws : List (Value η)) (s s' : List Char), IsDataAll vs → IsDataAll ws →
    furtherText vs ++ s = furtherText ws ++ s' → contentAll vs = contentAll ws ∧ s = s'
  | [], [], s, s', _, _, h => ⟨rfl, (List.cons.inj h).2⟩
  | [], w :: ws, s, s', _, _, h => absurd (List.cons.inj h).1 (by decide)
  | v :: vs, [], s, s', _, _, h => absurd (List.cons.inj h).1 (by decide)
  | v :: vs, w :: ws, s, s', hv, hw, h => by
      have hinside : (v.display.toList ++ furtherText vs) ++ s =
          (w.display.toList ++ furtherText ws) ++ s' := (List.cons.inj (List.cons.inj h).2).2
      rw [List.append_assoc, List.append_assoc] at hinside
      obtain ⟨hfirst, hfurther⟩ := readable v w _ _ hv.1 hw.1 (follows_furtherText vs s)
        (follows_furtherText ws s') hinside
      obtain ⟨hothers, hrest⟩ := readableAll vs ws s s' hv.2 hw.2 hfurther
      refine ⟨?_, hrest⟩
      rw [contentAll, contentAll, hfirst, hothers]
end

mutual
/-- Data of one content have one text. -/
theorem display_of_content : ∀ (v w : Value η), v.IsData → v.content = w.content →
    v.display = w.display
  | .number x, w, _, h => by
      cases w with
      | number y =>
          rw [display, display]
          exact (Layout.render_eq_iff x y).mpr (Content.number.inj h)
      | _ => cases h
  | .bool b, w, _, h => by
      cases w with
      | bool b' => rw [Content.bool.inj h]
      | _ => cases h
  | .array label es, w, hv, h => by
      cases w with
      | array label' ws =>
          rw [display, display, displayAll_of_content es ws hv (Content.array.inj h)]
      | _ => cases h
  | .builtin _, _, hv, _ | .function _, _, hv, _ => nomatch hv
/-- So have sequences of data. -/
theorem displayAll_of_content : ∀ (vs ws : List (Value η)), IsDataAll vs →
    contentAll vs = contentAll ws → displayAll vs = displayAll ws
  | [], [], _, _ => rfl
  | [], _ :: _, _, h => nomatch h
  | _ :: _, [], _, h => nomatch h
  | v :: vs, w :: ws, hv, h => by
      obtain ⟨hfirst, hothers⟩ := List.cons.inj h
      rw [displayAll, displayAll, display_of_content v w hv.1 hfirst,
        displayAll_of_content vs ws hv.2 hothers]
end

/-- **Displayed data.** Two values built from numbers, booleans and arrays have one text exactly if
they have one content. On those without NaN this is equality. -/
theorem display_eq_iff {v w : Value η} (hv : v.IsData) (hw : w.IsData) :
    (v.display = w.display ↔ v.content = w.content) ∧
      (v.NaNFree → w.NaNFree → (v.display = w.display ↔ (v == w) = true)) := by
  have hiff : v.display = w.display ↔ v.content = w.content := by
    refine ⟨fun h => ?_, display_of_content v w hv⟩
    have hempty : Follows [] := fun c hc => nomatch hc
    exact (readable v w [] [] hv hw hempty hempty (by rw [h])).1
  refine ⟨hiff, fun hnv hnw => ?_⟩
  rw [hiff]
  show _ ↔ v.beq w = true
  rw [beq_iff_content]
  exact ⟨fun h => ⟨hnv, hnw, h⟩, fun h => h.2.2⟩

/-- The signs of zeros do not show in the text of an array, and neither do labels. -/
theorem display_eq_iff_zeros :
    (array (some 1) [.number 0, .array none [], .bool true] : Value Empty).IsData ∧
      (array none [.number (-0), .array (some 2) [], .bool true] : Value Empty).IsData ∧
      (array (some 1) [.number 0, .array none [], .bool true] : Value Empty).display =
        (array none [.number (-0), .array (some 2) [], .bool true] : Value Empty).display := by
  have hv : (array (some 1) [.number 0, .array none [], .bool true] : Value Empty).IsData := by
    simp [IsData, IsDataAll]
  have hw : (array none [.number (-0), .array (some 2) [], .bool true] : Value Empty).IsData := by
    simp [IsData, IsDataAll]
  have hzeros : unsignedZero 0 = unsignedZero (-0) := rfl
  refine ⟨hv, hw, (display_eq_iff hv hw).1.mpr ?_⟩
  simp [content, contentAll, hzeros]

end Value

end DynScope
