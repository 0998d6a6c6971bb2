import Mathlib
import DynScope.Number.Layout
import DynScope.Proofs.Shortest

/-!
# DynScope.Proofs.NumberText

**What the text of a number says.** A finite number other than zero is written with its shortest
decimal, positionally if the decimal exponent lies from -6 to 20 and with an exponent otherwise, and
reading the text back gives the number (`Layout.display_finite`). Comparing the number with the
doubles `1e21` and `1e-6` tells the two notations apart as well, although the second one is no power
of ten, and the text with a signed exponent is the one without with the sign put in
(`Layout.render_eq_byLimits`).

How it works: the intervals of doubles follow one another as the doubles do, so shortest decimals
are ordered as the doubles are. Both limits have a power of ten as their shortest decimal, and a
number reaches the limit exactly if its decimal exponent reaches that power
(`Decimal.le_iff_le_exponent`). The reader gets the digits back, and with them a decimal of the same
value, which is all that rounding looks at (`Decimal.ofText?_positional`,
`Decimal.ofText?_scientific`).
-/

namespace DynScope

open Number
open Float.Model (UnpackedFloat)
open Float.Model.UnpackedFloat (Sign)

/-! ### Limits -/

namespace Decimal

theorem holds_shortest {m : ℕ} {q : ℤ} (h : Canonical m q) :
    (Target.of m q).Holds (shortest m q).value := by
  have hx := unpack_ofUnpacked_finite .positive h
  exact (toFloat_eq_iff hx _).mp (shortest_isShortest hx).reads

/-- Let the shortest decimal of a double be a power of ten. Then the numbers from there on are those
whose decimal exponent is at least that of the power. -/
theorem le_iff_le_exponent {m m' : ℕ} {q q' k : ℤ} (h : Canonical m q) (h' : Canonical m' q')
    (hpower : shortest m q = ⟨1, k⟩) :
    scaled m q ≤ scaled m' q' ↔ k ≤ (shortest m' q').exponent := by
  have hvalue : (shortest m q).value = 10 ^ k := by
    rw [hpower, value]
    simp
  obtain ⟨hlow, hhigh⟩ := exponent_spec (coefficient_pos_of_holds h' (holds_shortest h'))
  constructor
  · intro hle
    rcases hle.eq_or_lt with heq | hlt
    · obtain ⟨rfl, rfl⟩ := h.scaled_inj h' heq
      have hone : (⟨1, k⟩ : Decimal).exponent = k := by
        have hlength : (Nat.toDigits 10 1).length = 1 := rfl
        show k + (Nat.toDigits 10 1).length - 1 = k
        omega
      rw [hpower, hone]
    · have hless := (lt_of_holds h h' (holds_shortest h) (holds_shortest h') hlt).trans hhigh
      rw [hvalue] at hless
      exact Int.lt_add_one_iff.mp ((zpow_lt_zpow_iff_right₀ (by norm_num)).mp hless)
  · intro hle
    by_contra hlt
    have hless := hlow.trans_lt
      (lt_of_holds h' h (holds_shortest h') (holds_shortest h) (not_le.mp hlt))
    rw [hvalue] at hless
    exact absurd ((zpow_lt_zpow_iff_right₀ (by norm_num)).mp hless) (not_lt.mpr hle)

end Decimal

/-! ### Notations -/

/-- Digits with a point in front of the fraction, if there is one. -/
def pointed (whole fraction : List Char) : List Char :=
  whole ++ if fraction.isEmpty then [] else '.' :: fraction

theorem mem_of_mem_pointed {whole fraction : List Char} {c : Char} (h : c ∈ pointed whole fraction) :
    c ∈ whole ++ fraction ∨ c = '.' := by
  rcases List.mem_append.mp h with h | h
  · exact Or.inl (List.mem_append_left _ h)
  · split_ifs at h
    · cases h
    · rcases List.mem_cons.mp h with rfl | h
      · exact Or.inr rfl
      · exact Or.inl (List.mem_append_right _ h)

namespace Decimal

/-- The digits in front of the point and behind it that make up a decimal, without superfluous
zeros. -/
structure PositionalParts (whole fraction : List Char) (d : Decimal) : Prop where
  /-- There are only digits. -/
  digits : ∀ c ∈ whole ++ fraction, c.isDigit
  /-- There is one in front of the point. -/
  whole_ne_nil : whole ≠ []
  /-- Zero is in front only if it stands alone. -/
  head : whole.head? = some '0' → whole = ['0']
  /-- Zero is never at the end of the fraction. -/
  last : fraction.getLast? ≠ some '0'
  /-- They make up the decimal. -/
  value : (Nat.ofDigitChars 10 (whole ++ fraction) 0 : ℚ) * 10 ^ (-(fraction.length : ℤ)) = d.value

/-- The text is the decimal in positional notation. -/
def IsPositional (text : List Char) (d : Decimal) : Prop :=
  ∃ whole fraction, text = pointed whole fraction ∧ PositionalParts whole fraction d

/-- The text is the digits of the decimal as a mantissa, and its decimal exponent with a sign. -/
def IsScientific (text : List Char) (d : Decimal) : Prop :=
  ∃ lead fraction, d.digits = lead :: fraction ∧
    text = pointed [lead] fraction ++
      'e' :: (if d.exponent < 0 then '-' else '+') :: Nat.toDigits 10 d.exponent.natAbs

/-! ### Digits -/

theorem isDigit_digits (d : Decimal) : ∀ c ∈ d.digits, c.isDigit := fun _ hc =>
  Nat.isDigit_of_mem_toDigits (by norm_num) (by norm_num) hc

theorem digits_ne_nil (d : Decimal) : d.digits ≠ [] := Nat.toDigits_ne_nil

theorem digitChar_eq_zero : ∀ {k : ℕ}, k < 10 → k.digitChar = '0' → k = 0 := by
  decide

theorem head?_toDigits_ne {n : ℕ} (hn : 0 < n) : (Nat.toDigits 10 n).head? ≠ some '0' := by
  induction n using Nat.strongRecOn with
  | ind n ih =>
      rcases lt_or_ge n 10 with hlt | hge
      · rw [Nat.toDigits_of_lt_base hlt, List.head?_cons, ne_eq, Option.some.injEq]
        exact fun h => hn.ne' (digitChar_eq_zero hlt h)
      · have hrest := ih (n / 10) (by omega) (by omega)
        rw [Nat.toDigits_of_base_le (by norm_num) hge, List.head?_append_of_ne_nil _ (by simp)]
        exact hrest

theorem getLast?_toDigits (n : ℕ) : (Nat.toDigits 10 n).getLast? = some (n % 10).digitChar := by
  rcases lt_or_ge n 10 with hlt | hge
  · rw [Nat.toDigits_of_lt_base hlt, Nat.mod_eq_of_lt hlt]
    rfl
  · rw [Nat.toDigits_of_base_le (by norm_num) hge]
    simp

/-- The last digit of a decimal without a zero at the end. -/
theorem getLast?_digits_ne {d : Decimal} (h : ¬ 10 ∣ d.coefficient) :
    d.digits.getLast? ≠ some '0' := by
  rw [digits, getLast?_toDigits, ne_eq, Option.some.injEq]
  intro hzero
  have hmod := digitChar_eq_zero (Nat.mod_lt _ (by norm_num)) hzero
  exact h (Nat.dvd_of_mod_eq_zero hmod)

theorem coefficient_pos_of_reduced {d : Decimal} (h : ¬ 10 ∣ d.coefficient) : 0 < d.coefficient :=
  Nat.pos_of_ne_zero fun hzero => h (hzero ▸ dvd_zero 10)

theorem exponent_add_one (d : Decimal) : d.exponent + 1 = d.scale + d.digits.length := by
  rw [exponent]
  ring

theorem ofDigitChars_digits (d : Decimal) : Nat.ofDigitChars 10 d.digits 0 = d.coefficient :=
  Nat.ofDigitChars_ten_toDigits

end Decimal

/-! ### Positional notation -/

namespace Layout

open Decimal

/-- A decimal below one: zeros and the digits behind the point. -/
theorem positionalParts_small {d : Decimal} (h : ¬ 10 ∣ d.coefficient) (he : d.exponent < 0) :
    PositionalParts ['0'] (List.replicate (-d.exponent - 1).toNat '0' ++ d.digits) d := by
  have hlength : (List.replicate (-d.exponent - 1).toNat '0' ++ d.digits).length = -d.scale := by
    have := d.exponent_add_one
    rw [List.length_append, List.length_replicate]
    omega
  refine ⟨fun c hc => ?_, by simp, fun _ => rfl, ?_, ?_⟩
  · rcases List.mem_append.mp hc with hc | hc
    · obtain rfl := List.mem_singleton.mp hc
      rfl
    · rcases List.mem_append.mp hc with hc | hc
      · obtain rfl := List.eq_of_mem_replicate hc
        rfl
      · exact d.isDigit_digits c hc
  · rw [List.getLast?_append_of_ne_nil _ d.digits_ne_nil]
    exact getLast?_digits_ne h
  · rw [hlength, neg_neg, Decimal.value, Nat.ofDigitChars_append, Nat.ofDigitChars_append]
    simp [ofDigitChars_digits, Nat.ofDigitChars_cons]

/-- A whole decimal: the digits and zeros. -/
theorem positionalParts_whole {d : Decimal} (h : ¬ 10 ∣ d.coefficient) (he : 0 ≤ d.exponent)
    (hlength : d.digits.length ≤ (d.exponent + 1).toNat) :
    PositionalParts
      (d.digits ++ List.replicate ((d.exponent + 1).toNat - d.digits.length) '0') [] d := by
  have hzeros : (((d.exponent + 1).toNat - d.digits.length : ℕ) : ℤ) = d.scale := by
    have := d.exponent_add_one
    omega
  refine ⟨fun c hc => ?_, by simp [d.digits_ne_nil], fun hzero => ?_, by simp, ?_⟩
  · rw [List.append_nil] at hc
    rcases List.mem_append.mp hc with hc | hc
    · exact d.isDigit_digits c hc
    · obtain rfl := List.eq_of_mem_replicate hc
      rfl
  · rw [List.head?_append_of_ne_nil _ d.digits_ne_nil] at hzero
    exact absurd hzero (head?_toDigits_ne (coefficient_pos_of_reduced h))
  · rw [List.append_nil, Nat.ofDigitChars_append, Nat.ofDigitChars_replicate_zero,
      ofDigitChars_digits, Decimal.value, ← hzeros]
    push_cast
    rw [zpow_natCast]
    simp [mul_comm]

/-- Any other decimal: the point among the digits. -/
theorem positionalParts_mixed {d : Decimal} (h : ¬ 10 ∣ d.coefficient) (he : 0 ≤ d.exponent)
    (hlength : (d.exponent + 1).toNat < d.digits.length) :
    PositionalParts
      (d.digits.take (d.exponent + 1).toNat) (d.digits.drop (d.exponent + 1).toNat) d := by
  have hfraction : ((d.digits.drop (d.exponent + 1).toNat).length : ℤ) = -d.scale := by
    have := d.exponent_add_one
    rw [List.length_drop]
    omega
  have hdrop : d.digits.drop (d.exponent + 1).toNat ≠ [] := by
    rw [ne_eq, List.drop_eq_nil_iff]
    omega
  refine ⟨fun c hc => ?_, ?_, fun hzero => ?_, ?_, ?_⟩
  · rw [List.take_append_drop] at hc
    exact d.isDigit_digits c hc
  · rw [ne_eq, List.take_eq_nil_iff, not_or]
    exact ⟨by omega, d.digits_ne_nil⟩
  · rw [List.head?_take, if_neg (by omega)] at hzero
    exact absurd hzero (head?_toDigits_ne (coefficient_pos_of_reduced h))
  · rw [List.getLast?_drop, if_neg (by omega)]
    exact getLast?_digits_ne h
  · rw [List.take_append_drop, ofDigitChars_digits, hfraction, neg_neg, Decimal.value]

/-- Positional notation of displayed numbers. -/
theorem isPositional_positionalText {d : Decimal} (h : ¬ 10 ∣ d.coefficient) :
    IsPositional (display.positionalText d.digits d.exponent).toList d := by
  rw [positionalText]
  split_ifs with he
  · refine ⟨_, _, ?_, positionalParts_small h he⟩
    simp [pointed, d.digits_ne_nil]
  dsimp only
  split_ifs with hlength
  · refine ⟨_, _, ?_, positionalParts_whole h (not_lt.mp he) hlength⟩
    simp [pointed, display]
  · refine ⟨_, _, ?_, positionalParts_mixed h (not_lt.mp he) (not_le.mp hlength)⟩
    have hdrop : (d.digits.drop (d.exponent + 1).toNat).isEmpty = false := by
      rw [List.isEmpty_eq_false_iff, ne_eq, List.drop_eq_nil_iff]
      omega
    simp only [pointed, hdrop, String.toList_ofList]
    rfl

/-- Any scientific notation: the digits as a mantissa, and the exponent. -/
theorem toList_exponentText (l : Layout) (d : Decimal) :
    (l.exponentText d.digits d.exponent).toList =
      pointed (d.digits.take 1) (d.digits.drop 1) ++
        'e' :: ((if d.exponent < 0 then ['-'] else l.plus.toList) ++
          Nat.toDigits 10 d.exponent.natAbs) := by
  have hsign : (if d.exponent < 0 then "-" else l.plus).toList =
      if d.exponent < 0 then ['-'] else l.plus.toList := by
    split_ifs <;> rfl
  have hexponent : (toString d.exponent.natAbs).toList = Nat.toDigits 10 d.exponent.natAbs :=
    Nat.toList_repr
  rw [exponentText]
  simp only [String.toList_append, String.toList_ofList, hsign, hexponent, pointed,
    List.append_assoc]
  cases d.digits.drop 1 <;> rfl

/-- Scientific notation of displayed numbers. -/
theorem isScientific_exponentText (d : Decimal) :
    IsScientific (display.exponentText d.digits d.exponent).toList d := by
  rw [toList_exponentText]
  cases hdigits : d.digits with
  | nil => exact absurd hdigits d.digits_ne_nil
  | cons lead fraction =>
      refine ⟨lead, fraction, hdigits, ?_⟩
      split_ifs <;> rfl

end Layout

/-! ### Reading -/

/-- The number that some digits write. -/
def naturalOfText? (cs : List Char) : Option ℕ :=
  if cs ≠ [] ∧ ∀ c ∈ cs, c.isDigit then some (Nat.ofDigitChars 10 cs 0) else none

/-- The exponent that stands at the end of a decimal; none written is zero. -/
def exponentOfText? : List Char → Option ℤ
  | [] => some 0
  | 'e' :: '-' :: cs => (naturalOfText? cs).map fun n : ℕ => -(n : ℤ)
  | 'e' :: '+' :: cs => (naturalOfText? cs).map fun n : ℕ => (n : ℤ)
  | 'e' :: cs => (naturalOfText? cs).map fun n : ℕ => (n : ℤ)
  | _ => none

/-- The digits behind a point, and the rest. -/
def fractionOfText : List Char → List Char × List Char
  | '.' :: cs => (cs.takeWhile (·.isDigit), cs.dropWhile (·.isDigit))
  | cs => ([], cs)

/-- The decimal that a text without a sign in front writes. -/
def Decimal.ofText? (cs : List Char) : Option Decimal :=
  let whole := cs.takeWhile (·.isDigit)
  let (fraction, rest) := fractionOfText (cs.dropWhile (·.isDigit))
  if whole = [] then none
  else (exponentOfText? rest).map fun e =>
    ⟨Nat.ofDigitChars 10 (whole ++ fraction) 0, e - fraction.length⟩

/-- The number that a text without a sign in front writes: the name of an exceptional value, or a
decimal. -/
def Number.magnitudeOfText? (cs : List Char) : Option Float :=
  if cs = "NaN".toList then some nan
  else if cs = "Infinity".toList then some infinity
  else (Decimal.ofText? cs).map (·.toFloat)

/-- The number that a text writes. -/
def Number.ofText? : List Char → Option Float
  | '-' :: cs => (magnitudeOfText? cs).map (- ·)
  | cs => magnitudeOfText? cs

/-- Digits are read up to what is none. -/
theorem span_digits {digits rest : List Char} (h : ∀ c ∈ digits, c.isDigit)
    (hrest : ∀ c, rest.head? = some c → c.isDigit = false) :
    (digits ++ rest).takeWhile (·.isDigit) = digits ∧
      (digits ++ rest).dropWhile (·.isDigit) = rest := by
  rw [List.takeWhile_append_of_pos h, List.dropWhile_append_of_pos h]
  cases rest with
  | nil => simp
  | cons c rest => simp [hrest c rfl]

namespace Decimal

/-- The reader gets back the digits on both sides of the point. -/
theorem ofText?_pointed {whole fraction rest : List Char} {e : ℤ}
    (hdigits : ∀ c ∈ whole ++ fraction, c.isDigit) (hwhole : whole ≠ [])
    (hrest : ∀ c, rest.head? = some c → c.isDigit = false ∧ c ≠ '.')
    (he : exponentOfText? rest = some e) : ofText? (pointed whole fraction ++ rest) =
      some ⟨Nat.ofDigitChars 10 (whole ++ fraction) 0, e - fraction.length⟩ := by
  have hw : ∀ c ∈ whole, c.isDigit := fun c hc => hdigits c (List.mem_append_left _ hc)
  have hf : ∀ c ∈ fraction, c.isDigit := fun c hc => hdigits c (List.mem_append_right _ hc)
  rw [ofText?, pointed, List.append_assoc]
  cases fraction with
  | nil =>
      obtain ⟨htake, hdrop⟩ := span_digits hw fun c hc => (hrest c hc).1
      have hnone : fractionOfText rest = ([], rest) := by
        cases rest with
        | nil => rfl
        | cons c rest =>
            unfold fractionOfText
            split
            case h_1 heq => exact absurd (List.cons.inj heq).1 (hrest c rfl).2
            case h_2 => rfl
      simp only [List.isEmpty_nil, if_true, List.nil_append, htake, hdrop, hnone, if_neg hwhole, he,
        Option.map_some]
  | cons d fraction =>
      obtain ⟨htake, hdrop⟩ := @span_digits whole ('.' :: (d :: fraction ++ rest)) hw
        fun c hc => by obtain rfl := Option.some.inj hc; rfl
      obtain ⟨htake', hdrop'⟩ := span_digits hf fun c hc => (hrest c hc).1
      have hsome : fractionOfText ('.' :: (d :: fraction ++ rest)) = (d :: fraction, rest) := by
        rw [fractionOfText, htake', hdrop']
      simp only [List.isEmpty_cons, if_false, Bool.false_eq_true, List.cons_append]
        at htake hdrop hsome ⊢
      simp only [htake, hdrop, hsome, if_neg hwhole, he, Option.map_some]

/-- Reading positional notation gives back the value. -/
theorem ofText?_positional {text : List Char} {d : Decimal} (h : IsPositional text d) :
    ∃ d', ofText? text = some d' ∧ d'.value = d.value := by
  obtain ⟨whole, fraction, rfl, hparts⟩ := h
  have hread : ofText? (pointed whole fraction ++ []) = _ :=
    ofText?_pointed hparts.digits hparts.whole_ne_nil (by simp) rfl
  rw [List.append_nil] at hread
  exact ⟨_, hread, by rw [← hparts.value, value, zero_sub]⟩

theorem naturalOfText?_toDigits (n : ℕ) : naturalOfText? (Nat.toDigits 10 n) = some n := by
  rw [naturalOfText?, if_pos ⟨Nat.toDigits_ne_nil, fun c hc =>
    Nat.isDigit_of_mem_toDigits (by norm_num) (by norm_num) hc⟩, Nat.ofDigitChars_ten_toDigits]

/-- Reading scientific notation gives back the decimal. -/
theorem ofText?_scientific {text : List Char} {d : Decimal} (h : IsScientific text d) :
    ofText? text = some d := by
  obtain ⟨lead, fraction, hdigits, rfl⟩ := h
  have hexponent : exponentOfText?
      ('e' :: (if d.exponent < 0 then '-' else '+') :: Nat.toDigits 10 d.exponent.natAbs) =
        some d.exponent := by
    split_ifs with hneg
    · rw [exponentOfText?, naturalOfText?_toDigits, Option.map_some, Option.some.injEq]
      omega
    · rw [exponentOfText?, naturalOfText?_toDigits, Option.map_some, Option.some.injEq]
      omega
  have hmantissa : ∀ c ∈ [lead] ++ fraction, c.isDigit := by
    rw [List.singleton_append, ← hdigits]
    exact d.isDigit_digits
  have hread := ofText?_pointed hmantissa (by simp)
    (fun c hc => by obtain rfl := Option.some.inj hc; exact ⟨rfl, by decide⟩) hexponent
  have hscale : d.exponent - fraction.length = d.scale := by
    rw [exponent, hdigits, List.length_cons]
    push_cast
    ring
  rw [hread, List.singleton_append, ← hdigits, ofDigitChars_digits, hscale]

end Decimal

/-! ### Signs and limits -/

namespace Number

variable {x : Float} {s : Sign} {m : ℕ} {q : ℤ} {hm : 0 < m}

theorem unpack_abs (hx : x.toModel.unpack = .finite s m q hm) :
    x.abs.toModel.unpack = .finite .positive m q hm := by
  show (ofUnpacked x.toModel.unpack.abs).toModel.unpack = _
  rw [hx]
  exact unpack_ofUnpacked_finite .positive (canonical_unpack hx)

theorem unpack_neg (hx : x.toModel.unpack = .finite s m q hm) :
    (-x).toModel.unpack = .finite (-s) m q hm := by
  show (ofUnpacked x.toModel.unpack.neg).toModel.unpack = _
  rw [hx]
  exact unpack_ofUnpacked_finite (-s) (canonical_unpack hx)

/-- A finite number other than zero has a mantissa. -/
theorem exists_unpack_finite (hfinite : x.isFinite = true) (hne : (x == 0) = false) :
    ∃ s m q hm, x.toModel.unpack = .finite s m q hm := by
  rcases special_or_finite x with (rfl | rfl | rfl | rfl | rfl) | h
  · exact absurd hfinite (by decide +kernel)
  · exact absurd hfinite (by decide +kernel)
  · exact absurd hfinite (by decide +kernel)
  · exact absurd hne (by decide +kernel)
  · exact absurd hne (by decide +kernel)
  · exact h

/-- The sign of a finite number other than zero. -/
theorem lt_zero_iff (hx : x.toModel.unpack = .finite s m q hm) : x < 0 ↔ s = .negative := by
  have hpos := scaled_pos hm q
  rw [lt_iff (value?_of_unpack_finite hx) (value?_of_unpack_zero rfl)]
  cases s with
  | negative => simpa [signed] using hpos
  | positive => simpa [signed] using hpos.le

/-- The limits of positional notation, as doubles, are the limits of the decimal exponent. -/
theorem beyond_limits_iff (hx : x.toModel.unpack = .finite s m q hm) :
    1e21 ≤ x.abs ∨ x.abs < 1e-6 ↔
      ¬ (-6 ≤ (Decimal.shortest m q).exponent ∧ (Decimal.shortest m q).exponent ≤ 20) := by
  have habs := unpack_abs hx
  have hupper : (1e21 : Float).toModel.unpack =
      .finite .positive (5 ^ 21 * 2 ^ 4) 17 (by norm_num) := rfl
  have hlower : (1e-6 : Float).toModel.unpack =
      .finite .positive 0x10c6f7a0b5ed8d (-72) (by norm_num) := rfl
  -- both have a power of ten as their shortest decimal
  have hupper' : Decimal.shortest (5 ^ 21 * 2 ^ 4) 17 = ⟨1, 21⟩ := by decide +kernel
  have hlower' : Decimal.shortest 0x10c6f7a0b5ed8d (-72) = ⟨1, -6⟩ := by decide +kernel
  have hlarge : 1e21 ≤ x.abs ↔ 21 ≤ (Decimal.shortest m q).exponent := by
    rw [le_iff (value?_of_unpack_finite hupper) (value?_of_unpack_finite habs)]
    exact Decimal.le_iff_le_exponent (canonical_unpack hupper) (canonical_unpack hx) hupper'
  have hsmall : x.abs < 1e-6 ↔ ¬ -6 ≤ (Decimal.shortest m q).exponent := by
    rw [lt_iff (value?_of_unpack_finite habs) (value?_of_unpack_finite hlower),
      ← Decimal.le_iff_le_exponent (canonical_unpack hlower) (canonical_unpack hx) hlower', not_le]
    rfl
  rw [hlarge, hsmall]
  omega

end Number

/-! ### Writing by limits -/

namespace Layout

open Decimal

/-- What is written of a finite number other than zero. -/
theorem toList_render (l : Layout) {x : Float} {s : Sign} {m : ℕ} {q : ℤ} {hm : 0 < m}
    (hx : x.toModel.unpack = .finite s m q hm) : (l.render x).toList =
      (if x < 0 then ['-'] else []) ++ (l.decimalText (shortest m q)).toList := by
  have hneg := lt_zero_iff hx
  have hsign : (signText s).toList = if x < 0 then ['-'] else [] := by
    cases s with
    | negative => exact (if_pos (hneg.mpr rfl)).symm
    | positive => exact (if_neg (hneg.not.mpr (by simp))).symm
  rw [render, hx]
  dsimp only
  rw [String.toList_append, hsign]

/-- Always with an exponent, which shows a sign only if it is negative. -/
def exponential : Layout := ⟨fun _ => false, "", "", true, "inf"⟩

/-- A text in which the exponent shows its sign. -/
def withSign (text : List Char) : List Char :=
  match text.dropWhile (· != 'e') with
  | [] => text
  | _ :: exponent =>
    if exponent.head? = some '-' then text
    else text.takeWhile (· != 'e') ++ 'e' :: '+' :: exponent

/-- The text of a number that is found without looking at its decimal exponent: the magnitude is
compared with the limits as doubles, and the sign of the exponent is put into a text that is there
already. -/
def byLimits (x : Float) : List Char :=
  if x.isNaN then "NaN".toList
  else if x.isInf then (if x < 0 then ['-'] else []) ++ "Infinity".toList
  else if x == 0 then ['0']
  else if 1e21 ≤ x.abs ∨ x.abs < 1e-6 then withSign (exponential.render x).toList
  else (plain.render x).toList

/-- Which decimal exponents are displayed positionally. -/
theorem display_positional_iff (e : ℤ) : display.positional e = true ↔ -6 ≤ e ∧ e ≤ 20 := by
  simp [display]

/-- The sign is put behind the one `e`. -/
theorem withSign_append {mantissa exponent : List Char} (h : ∀ c ∈ mantissa, c ≠ 'e') :
    withSign (mantissa ++ 'e' :: exponent) =
      mantissa ++ 'e' :: if exponent.head? = some '-' then exponent else '+' :: exponent := by
  have hbefore : ∀ c ∈ mantissa, (c != 'e') = true := fun c hc => bne_iff_ne.mpr (h c hc)
  rw [withSign, List.dropWhile_append_of_pos hbefore, List.takeWhile_append_of_pos hbefore]
  simp only [List.dropWhile_cons, List.takeWhile_cons, bne_self_eq_false, if_false,
    Bool.false_eq_true, List.append_nil]
  split_ifs <;> rfl

/-- No `e` is in the mantissa. -/
theorem ne_e_of_mem_mantissa (d : Decimal) {c : Char}
    (hc : c ∈ pointed (d.digits.take 1) (d.digits.drop 1)) : c ≠ 'e' := by
  rcases mem_of_mem_pointed hc with hc | rfl
  · rw [List.take_append_drop] at hc
    rintro rfl
    exact absurd (d.isDigit_digits 'e' hc) (by decide)
  · decide

/-- Putting the sign into the text with an exponent gives the displayed one. -/
theorem withSign_exponential (d : Decimal) {front : List Char} (h : ∀ c ∈ front, c ≠ 'e') :
    withSign (front ++ (exponential.exponentText d.digits d.exponent).toList) =
      front ++ (display.exponentText d.digits d.exponent).toList := by
  have hmantissa : ∀ c ∈ front ++ pointed (d.digits.take 1) (d.digits.drop 1), c ≠ 'e' :=
    fun c hc => (List.mem_append.mp hc).elim (h c) (ne_e_of_mem_mantissa d)
  rw [toList_exponentText, toList_exponentText, ← List.append_assoc, withSign_append hmantissa,
    List.append_assoc]
  have hdigits : (Nat.toDigits 10 d.exponent.natAbs).head? ≠ some '-' := fun hhead =>
    absurd (Nat.isDigit_of_mem_toDigits (by norm_num) (by norm_num) (List.mem_of_head? hhead))
      (by decide)
  split_ifs with hneg hhead hhead
  · rfl
  · exact absurd rfl hhead
  · exact absurd hhead hdigits
  · rfl

/-- **Limits.** Deciding by the decimal exponent comes to comparing with the limits. -/
theorem render_eq_byLimits (x : Float) : (display.render x).toList = byLimits x := by
  rcases special_or_finite x with (rfl | rfl | rfl | rfl | rfl) | ⟨s, m, q, hm, hx⟩
  case inr =>
      have hnan : x.isNaN = false := by
        show x.toModel.unpack.isNaN = false
        rw [hx]
        rfl
      have hinf : x.isInf = false := by
        show x.toModel.unpack.isInf = false
        rw [hx]
        rfl
      have hzero : (x == 0) = false := by
        show (x.toModel.unpack.compare (0 : Float).toModel.unpack == some .eq) = false
        rw [hx]
        cases s <;> rfl
      have hpositional := display_positional_iff (shortest m q).exponent
      rw [byLimits, hnan, hinf, hzero, toList_render display hx, toList_render exponential hx,
        toList_render plain hx]
      simp only [Bool.false_eq_true, if_false, beyond_limits_iff hx, ← hpositional]
      by_cases hplace : display.positional (shortest m q).exponent = true
      · rw [if_neg (not_not.mpr hplace), decimalText, if_pos hplace]
        rfl
      · rw [if_pos hplace, decimalText, if_neg hplace]
        refine (withSign_exponential (shortest m q) fun c hc => ?_).symm
        split_ifs at hc
        · obtain rfl := List.mem_singleton.mp hc
          decide
        · cases hc
  all_goals rfl

end Layout

/-! ### Displayed numbers -/

namespace Decimal

/-- Both notations start with a digit. -/
theorem exists_head {text : List Char} {d : Decimal}
    (h : IsPositional text d ∨ IsScientific text d) : ∃ c rest, text = c :: rest ∧ c.isDigit := by
  rcases h with ⟨whole, fraction, rfl, hparts⟩ | ⟨lead, fraction, hdigits, rfl⟩
  · obtain ⟨c, whole, rfl⟩ := List.exists_cons_of_ne_nil hparts.whole_ne_nil
    exact ⟨c, _, rfl, hparts.digits c (by simp)⟩
  · exact ⟨lead, _, rfl, d.isDigit_digits lead (by simp [hdigits])⟩

/-- In both notations, a decimal that is read back as a double is read as this double. -/
theorem magnitudeOfText?_eq {x : Float} {m : ℕ} {q : ℤ} {hm : 0 < m} {text : List Char}
    {d : Decimal} (hx : x.toModel.unpack = .finite .positive m q hm) (hreads : d.toFloat = x)
    (h : IsPositional text d ∨ IsScientific text d) : magnitudeOfText? text = some x := by
  obtain ⟨d', hread, hvalue⟩ : ∃ d', ofText? text = some d' ∧ d'.value = d.value :=
    h.elim ofText?_positional fun h => ⟨d, ofText?_scientific h, rfl⟩
  have hsame : d'.toFloat = x := by
    rw [toFloat_eq_iff hx, hvalue]
    exact (toFloat_eq_iff hx d).mp hreads
  obtain ⟨c, rest, rfl, hdigit⟩ := exists_head h
  have hnan : c :: rest ≠ "NaN".toList := fun heq => by
    obtain rfl : c = 'N' := Option.some.inj (congrArg List.head? heq)
    cases hdigit
  have hinfinity : c :: rest ≠ "Infinity".toList := fun heq => by
    obtain rfl : c = 'I' := Option.some.inj (congrArg List.head? heq)
    cases hdigit
  rw [magnitudeOfText?, if_neg hnan, if_neg hinfinity, hread, Option.map_some, hsame]

end Decimal

namespace Layout

open Decimal

/-- The shortest decimal of a number is displayed in one of the two notations. -/
theorem layout_decimalText {d : Decimal} (h : ¬ 10 ∣ d.coefficient) :
    if -6 ≤ d.exponent ∧ d.exponent ≤ 20 then IsPositional (display.decimalText d).toList d
    else IsScientific (display.decimalText d).toList d := by
  have hlimits := display_positional_iff d.exponent
  rw [decimalText]
  split_ifs with hlimit hpositional hpositional
  · exact isPositional_positionalText h
  · exact absurd (hlimits.mpr hlimit) hpositional
  · exact absurd (hlimits.mp hpositional) hlimit
  · exact isScientific_exponentText d

theorem one_layout {x : Float} {s : Sign} {m : ℕ} {q : ℤ} {hm : 0 < m}
    (hx : x.toModel.unpack = .finite s m q hm) :
    IsPositional (display.decimalText (shortest m q)).toList (shortest m q) ∨
      IsScientific (display.decimalText (shortest m q)).toList (shortest m q) := by
  have hlayout := layout_decimalText (shortest_isShortest (unpack_abs hx)).reduced
  split_ifs at hlayout
  · exact Or.inl hlayout
  · exact Or.inr hlayout

/-- Reading back what is displayed of a finite number other than zero gives the number. -/
theorem ofText?_display {x : Float} {s : Sign} {m : ℕ} {q : ℤ} {hm : 0 < m}
    (hx : x.toModel.unpack = .finite s m q hm) :
    Number.ofText? (display.render x).toList = some x := by
  have habs := unpack_abs hx
  have hone := one_layout hx
  have hread := magnitudeOfText?_eq habs (shortest_isShortest habs).reads hone
  have hneg := lt_zero_iff hx
  rw [toList_render display hx]
  cases s with
  | negative =>
      rw [if_pos (hneg.mpr rfl)]
      show (magnitudeOfText? (display.decimalText (shortest m q)).toList).map _ = _
      rw [hread, Option.map_some]
      exact congrArg some (unpack_inj ((unpack_neg habs).trans hx.symm))
  | positive =>
      obtain ⟨c, rest, heq, hdigit⟩ := exists_head hone
      have hsame : x.abs = x := unpack_inj (habs.trans hx.symm)
      rw [if_neg (hneg.not.mpr (by simp)), List.nil_append, heq, Number.ofText?, ← heq, hread,
        hsame]
      rintro cs hcs
      obtain rfl := (List.cons.inj hcs).1
      cases hdigit

/-- A finite number other than zero is displayed as a decimal with the text `body`, behind its
sign. -/
structure Displayed (x : Float) (d : Decimal) (body : List Char) : Prop where
  /-- The decimal is the shortest one of the magnitude. -/
  shortest : d.IsShortest x.abs
  /-- There is no other. -/
  only : ∀ d' : Decimal, d'.IsShortest x.abs → d' = d
  /-- There is a minus sign exactly if the number is negative. -/
  text : (display.render x).toList = (if x < 0 then ['-'] else []) ++ body
  /-- The decimal exponent decides how the decimal is written. -/
  layout : if -6 ≤ d.exponent ∧ d.exponent ≤ 20 then IsPositional body d else IsScientific body d
  /-- So does comparing the magnitude with the limits as doubles. -/
  limits : 1e21 ≤ x.abs ∨ x.abs < 1e-6 ↔ ¬ (-6 ≤ d.exponent ∧ d.exponent ≤ 20)
  /-- The text is the one that is found by this comparison. -/
  compared : (display.render x).toList = byLimits x
  /-- Reading the text back gives the number. -/
  reads : Number.ofText? (display.render x).toList = some x

/-- **Displayed numbers.** Every finite number other than zero is displayed as its shortest decimal,
positionally if the decimal exponent lies from -6 to 20 and scientifically otherwise. -/
theorem display_finite {x : Float} (hfinite : x.isFinite = true) (hne : (x == 0) = false) :
    ∃ d body, Displayed x d body := by
  obtain ⟨s, m, q, hm, hx⟩ := exists_unpack_finite hfinite hne
  have habs := unpack_abs hx
  have hshortest := shortest_isShortest habs
  refine ⟨Decimal.shortest m q, (display.decimalText (Decimal.shortest m q)).toList, ?_⟩
  constructor
  case shortest => exact hshortest
  case only => exact fun d' hd' => hd'.unique (value?_of_unpack_finite habs) hshortest
  case text => exact toList_render display hx
  case layout => exact layout_decimalText hshortest.reduced
  case limits => exact beyond_limits_iff hx
  case compared => exact render_eq_byLimits x
  case reads => exact ofText?_display hx

/-- The number `-1e-6` is at the lower limit. -/
theorem display_finite_limit : (-1e-6 : Float).isFinite = true ∧ ((-1e-6 : Float) == 0) = false ∧
    ∃ d body, Displayed (-1e-6) d body := by
  have hfinite : (-1e-6 : Float).isFinite = true := by decide +kernel
  have hne : ((-1e-6 : Float) == 0) = false := by decide +kernel
  exact ⟨hfinite, hne, display_finite hfinite hne⟩

-- Decimal exponents 20 and 21, then -6 and -7: the two ends of positional notation.
example : display.render 123456789012345680000 = "123456789012345680000" := by decide +kernel
example : display.render 1e21 = "1e+21" := by decide +kernel
example : display.render (-1.5e-6) = "-0.0000015" := by decide +kernel
example : display.render 1.5e-7 = "1.5e-7" := by decide +kernel

end Layout

end DynScope
