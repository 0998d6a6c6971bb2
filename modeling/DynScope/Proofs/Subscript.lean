import Mathlib
import DynScope.Value.Operation
import DynScope.Proofs.Rounding

/-!
# DynScope.Proofs.Subscript

**Which element an index selects.** An index selects the element at its whole part, if there is one,
and is an error otherwise (`Value.subscript_by_whole_part`). The same comes of working with doubles
and machine integers throughout, as long as the length of the array is a number that a double
holds: the whole part as a double, the length as a double, and the whole part as an index
(`Value.selectConverted`).

How it works: whole parts of doubles and lengths up to `2 ^ 53` are numbers that a double holds, so
none of the conversions rounds (`Number.value?_truncate`, `Number.value?_ofLength`). A whole part
that passes the comparisons is an index of the array, and converting it gives this index
(`Number.toUInt64_of_exact`).
-/

namespace DynScope

open Float.Model (UnpackedFloat)
open Float.Model.UnpackedFloat (Sign)

namespace Number

/-! ### Whole parts -/

/-- The integer that is left of a rational when its fraction is dropped. -/
def wholePart (v : ℚ) : ℤ := if 0 ≤ v then ⌊v⌋ else ⌈v⌉

/-- The whole part of a number, as a double. -/
def truncate (x : Float) : Float :=
  match x.toModel.unpack with
  | .finite s m e _ => ofScaled s (scaledFloor m e) 0
  | .notANumber | .infinity _ | .zero _ => x

theorem scaledFloor_eq_floor (m : ℕ) (e : ℤ) : (scaledFloor m e : ℤ) = ⌊scaled m e⌋ := by
  rw [scaledFloor, scaled]
  split_ifs with he
  · obtain ⟨k, rfl⟩ := Int.eq_ofNat_of_zero_le he
    rw [Int.toNat_natCast, Nat.shiftLeft_eq, zpow_natCast]
    exact_mod_cast (Int.floor_natCast (R := ℚ) (m * 2 ^ k)).symm
  · obtain ⟨k, rfl⟩ : ∃ k : ℕ, e = -k := ⟨(-e).toNat, by omega⟩
    rw [neg_neg, Int.toNat_natCast, Nat.shiftRight_eq_div_pow, zpow_neg, zpow_natCast,
      ← div_eq_mul_inv]
    exact_mod_cast (Rat.floor_natCast_div_natCast m (2 ^ k)).symm

theorem wholePart_signed {v : ℚ} (hv : 0 ≤ v) (s : Sign) :
    wholePart (signed s v) = s.apply ⌊v⌋ := by
  cases s with
  | positive => exact if_pos hv
  | negative =>
      rcases hv.eq_or_lt with rfl | hpos
      · rfl
      · rw [wholePart, signed, if_neg (by linarith), Int.ceil_neg]
        rfl

/-- The whole part of a number is that of what it stands for. -/
theorem wholePart?_eq (x : Float) : wholePart? x = (value? x).map wholePart := by
  rw [wholePart?, value?]
  cases x.toModel.unpack with
  | notANumber | infinity => rfl
  | zero => rfl
  | finite s m e hm =>
      have hwhole := wholePart_signed (scaled_pos hm e).le s
      rw [← scaledFloor_eq_floor] at hwhole
      cases s <;> exact congrArg some hwhole.symm

/-! ### Conversions that do not round -/

/-- What fits into a mantissa can be written the way a double is. -/
theorem exists_canonical {m : ℕ} {e : ℤ} (hm : 0 < m) (hlt : m < 2 ^ 53) (hlow : -1074 ≤ e)
    (hhigh : e ≤ 971) : ∃ n q, Canonical n q ∧ scaled m e = scaled n q := by
  have hbits : m.log2 ≤ 52 := by
    have := (Nat.log2_lt hm.ne').mpr hlt
    omega
  obtain ⟨k, hk, hfull⟩ : ∃ k : ℕ, k ≤ 52 - m.log2 ∧ e - k ≥ -1074 ∧
      (k = 52 - m.log2 ∨ e - k = -1074) :=
    ⟨min (52 - m.log2) (e + 1074).toNat, by omega, by omega, by omega⟩
  have hscaled : scaled m e = scaled (m * 2 ^ k) (e - k) := by
    rw [← scaled_add, sub_add_cancel]
  refine ⟨m * 2 ^ k, e - k, ⟨by positivity, ?_, hfull.1, by omega, hfull.2.imp_left ?_⟩, hscaled⟩
  · calc m * 2 ^ k < 2 ^ (m.log2 + 1) * 2 ^ k :=
          Nat.mul_lt_mul_of_pos_right Nat.lt_log2_self (by positivity)
      _ = 2 ^ (m.log2 + 1 + k) := (pow_add ..).symm
      _ ≤ 2 ^ 53 := Nat.pow_le_pow_right (by norm_num) (by omega)
  · intro hk
    calc 2 ^ 52 = 2 ^ m.log2 * 2 ^ k := by rw [← pow_add]; congr 1; omega
      _ ≤ m * 2 ^ k := Nat.mul_le_mul_right _ (Nat.log2_self_le hm.ne')

theorem unpack_ofScaled_zero (s : Sign) : (ofScaled s 0 0).toModel.unpack = .zero s := by
  cases s <;> rfl

/-- The whole number is one that a double holds. -/
def Held (n : ℕ) : Prop := n = 0 ∨ ∃ m q, Canonical m q ∧ (n : ℚ) = scaled m q

theorem held_of_le {n : ℕ} (h : n ≤ 2 ^ 53) : Held n := by
  rcases Nat.eq_zero_or_pos n with rfl | hn
  · exact Or.inl rfl
  right
  rcases h.eq_or_lt with rfl | hlt
  · refine ⟨2 ^ 52, 1, ⟨by norm_num, by norm_num, by norm_num, by norm_num, Or.inl le_rfl⟩, ?_⟩
    norm_num [scaled]
  · obtain ⟨m, q, hcanonical, heq⟩ := exists_canonical hn hlt (e := 0) (by norm_num) (by norm_num)
    exact ⟨m, q, hcanonical, by rw [← heq, scaled]; simp⟩

/-- Dropping the fraction of a double leaves what a double holds. -/
theorem held_scaledFloor {m : ℕ} {e : ℤ} (h : Canonical m e) : Held (scaledFloor m e) := by
  rw [scaledFloor]
  split_ifs with he
  · obtain ⟨k, rfl⟩ := Int.eq_ofNat_of_zero_le he
    refine Or.inr ⟨m, k, h, ?_⟩
    rw [Int.toNat_natCast, Nat.shiftLeft_eq, scaled, zpow_natCast]
    push_cast
    rfl
  · apply held_of_le
    rw [Nat.shiftRight_eq_div_pow]
    exact (Nat.div_le_self _ _).trans h.lt.le

/-- A whole number that a double holds is converted as it is. -/
theorem value?_ofScaled (s : Sign) {n : ℕ} (h : Held n) :
    value? (ofScaled s n 0) = some (signed s n) := by
  rcases h with rfl | ⟨m, q, hcanonical, heq⟩
  · rw [value?_of_unpack_zero (unpack_ofScaled_zero s)]
    cases s <;> simp [signed]
  · have hvalue : scaled n 0 = scaled m q := by
      rw [← heq, scaled]
      simp
    have hn : 0 < n := Nat.cast_pos.mp (heq ▸ scaled_pos hcanonical.pos q)
    rw [value?_of_unpack_finite (unpack_ofScaled s hn hcanonical hvalue), heq]

/-- The whole part of a number is a number that a double holds. -/
theorem value?_truncate {x : Float} {v : ℚ} (h : value? x = some v) :
    value? (truncate x) = some (wholePart v : ℚ) := by
  rw [truncate]
  cases hx : x.toModel.unpack with
  | notANumber | infinity => simp [value?, hx] at h
  | zero s =>
      rw [value?_of_unpack_zero hx] at h ⊢
      obtain rfl := Option.some.inj h
      simp [wholePart]
  | finite s m e hm =>
      rw [value?_of_unpack_finite hx] at h
      obtain rfl := Option.some.inj h
      rw [value?_ofScaled s (held_scaledFloor (canonical_unpack hx)),
        wholePart_signed (scaled_pos hm e).le, ← scaledFloor_eq_floor]
      cases s <;> simp [signed, Sign.apply]

theorem isFinite_truncate (x : Float) : (truncate x).isFinite = (value? x).isSome := by
  cases h : value? x with
  | some v => rw [isFinite_eq_isSome_value?, value?_truncate h]; rfl
  | none =>
      have hx : truncate x = x := by
        rw [truncate]
        cases hx : x.toModel.unpack with
        | finite s m e hm => simp [value?, hx] at h
        | _ => rfl
      rw [hx, isFinite_eq_isSome_value?, h]

/-- The length of an array is converted as it is. -/
theorem value?_ofLength {n : ℕ} (h : n ≤ 2 ^ 53) : value? n.toUInt64.toFloat = some (n : ℚ) := by
  have hword : n.toUInt64.toNat = n := Nat.mod_eq_of_lt (by omega)
  have hscaled : n.toUInt64.toFloat = ofScaled .positive n 0 := by
    show ofUnpacked (UnpackedFloat.normalize .binary64 n.toUInt64.toNat 0 .positive) = _
    rw [hword, UnpackedFloat.normalize]
    rcases Nat.eq_zero_or_pos n with rfl | hn
    · rfl
    · rw [show compare (n : ℤ) 0 = .gt from compare_gt_iff_gt.mpr (by omega)]
      rfl
  rw [hscaled, value?_ofScaled _ (held_of_le h)]
  rfl

/-- Converting to an integer drops the fraction. -/
theorem roundToInt_eq (s : Sign) (m : ℕ) (e : ℤ) :
    UnpackedFloat.roundToInt s m e = s.apply ⌊scaled m e⌋ := by
  have hle : (UnpackedFloat.decreaseExponent m e 0).2 ≤ 0 := by
    rw [UnpackedFloat.decreaseExponent]
    dsimp only
    omega
  have hfloor := (represents_shiftToExponent (placed_decreaseExponent m e 0) hle).1.floor
  rw [zpow_zero, div_one] at hfloor
  rw [hfloor]
  rfl

/-- A whole number is converted to the index that it is. -/
theorem toUInt64_of_exact {x : Float} {n : ℕ} (h : value? x = some (n : ℚ)) (hn : n < 2 ^ 64) :
    x.toUInt64.toNat = n := by
  have hint : x.toModel.unpack.toInt 0 (UInt64.size - 1) = n := by
    cases hx : x.toModel.unpack with
    | notANumber | infinity => simp [value?, hx] at h
    | zero s =>
        rw [value?_of_unpack_zero hx] at h
        have hzero := Option.some.inj h
        rw [UnpackedFloat.toInt]
        exact_mod_cast hzero
    | finite s m e hm =>
        rw [value?_of_unpack_finite hx] at h
        have hvalue := Option.some.inj h
        rw [UnpackedFloat.toInt, roundToInt_eq]
        cases s with
        | positive =>
            rw [show scaled m e = (n : ℚ) from hvalue, Int.floor_natCast]
            rfl
        | negative =>
            have hpos := scaled_pos hm e
            rw [signed] at hvalue
            have : (0 : ℚ) ≤ n := Nat.cast_nonneg n
            linarith
  show (UInt64.ofNatClamp (x.toModel.unpack.toInt 0 (UInt64.size - 1)).toNat).toNat = n
  rw [hint, Int.toNat_natCast, UInt64.ofNatClamp_eq_ofNat n hn]
  exact UInt64.toNat_ofNat_of_lt hn

end Number

namespace Value

variable {η : Type}

/-! ### Selecting by conversions -/

/-- The index that is left of a number after checking its range with doubles: it is truncated,
compared with zero and with the length, and converted to a machine integer. -/
def checkedIndex? (length : ℕ) (raw : Float) : Option ℕ :=
  let position := Number.truncate raw
  if !position.isFinite || position < 0 || length.toUInt64.toFloat ≤ position then none
  else some position.toUInt64.toNat

/-- Selecting with doubles and machine integers. An index that passes the check and is not there is
an error like the others. -/
def selectConverted (es : List (Value η)) (raw : Float) : Except EvalError (Value η) :=
  match checkedIndex? es.length raw with
  | some i =>
    match es[i]? with
    | some v => .ok v
    | none => .error (.indexOutOfRange raw es.length)
  | none => .error (.indexOutOfRange raw es.length)

/-- **Check.** The indices that pass the check are the whole parts that lie inside the array. -/
theorem checkedIndex?_eq_some_iff {length : ℕ} (h : length ≤ 2 ^ 53) {raw : Float} {i : ℕ} :
    checkedIndex? length raw = some i ↔ Number.wholePart? raw = some (i : ℤ) ∧ i < length := by
  rw [checkedIndex?, Number.wholePart?_eq]
  cases hraw : Number.value? raw with
  | none => simp [Number.isFinite_truncate, hraw]
  | some v =>
      have hposition := Number.value?_truncate hraw
      have hzero : Number.value? 0 = some 0 := Number.value?_of_unpack_zero rfl
      have hneg : Number.truncate raw < 0 ↔ Number.wholePart v < 0 :=
        (Number.lt_iff hposition hzero).trans Int.cast_lt_zero
      have hlarge : length.toUInt64.toFloat ≤ Number.truncate raw ↔
          length ≤ Number.wholePart v := by
        rw [Number.le_iff (Number.value?_ofLength h) hposition]
        exact_mod_cast Iff.rfl
      simp only [Number.isFinite_truncate, hraw, hneg, hlarge]
      simp only [Option.isSome_some, Bool.not_true, Bool.false_or, Bool.or_eq_true,
        decide_eq_true_eq, Option.map_some, Option.some.injEq]
      split_ifs with hout
      · simp only [false_iff]
        omega
      · obtain ⟨k, hk⟩ := Int.eq_ofNat_of_zero_le (a := Number.wholePart v) (by omega)
        rw [hk, Int.cast_natCast] at hposition
        have hindex := Number.toUInt64_of_exact hposition (by omega)
        rw [hindex, Option.some.injEq]
        omega

/-- Selecting by the whole part is selecting by conversions. -/
theorem select_eq_selectConverted {es : List (Value η)} (h : es.length ≤ 2 ^ 53) (raw : Float) :
    select es raw = selectConverted es raw := by
  rw [select, selectConverted]
  cases hindex : checkedIndex? es.length raw with
  | some i =>
      obtain ⟨hwhole, -⟩ := (checkedIndex?_eq_some_iff h).mp hindex
      generalize Number.wholePart? raw = whole at hwhole
      subst hwhole
      rfl
  | none =>
      cases hwhole : Number.wholePart? raw with
      | none => rfl
      | some k =>
          cases k with
          | negSucc k => rfl
          | ofNat i =>
              have hout : ¬ i < es.length := fun hi => by
                have := (checkedIndex?_eq_some_iff h).mpr ⟨hwhole, hi⟩
                rw [hindex] at this
                cases this
              dsimp only
              rw [List.getElem?_eq_none (not_lt.mp hout)]

/-! ### Which element an index selects -/

theorem select_of_lt {es : List (Value η)} {raw : Float} {v : ℚ} {i : ℕ}
    (hraw : Number.value? raw = some v) (hwhole : Number.wholePart v = i) (hi : i < es.length) :
    select es raw = .ok es[i] := by
  rw [select, Number.wholePart?_eq, hraw, Option.map_some, hwhole]
  show (match es[i]? with | some v => Except.ok v | none => _) = _
  rw [List.getElem?_eq_getElem hi]

theorem select_of_not_lt {es : List (Value η)} {raw : Float}
    (hout : ∀ v, Number.value? raw = some v → ∀ i : ℕ, Number.wholePart v = i → es.length ≤ i) :
    select es raw = .error (.indexOutOfRange raw es.length) := by
  rw [select, Number.wholePart?_eq]
  cases hraw : Number.value? raw with
  | none => rfl
  | some v =>
      rw [Option.map_some]
      cases hwhole : Number.wholePart v with
      | negSucc k => rfl
      | ofNat i =>
          dsimp only
          rw [List.getElem?_eq_none (hout v hraw i hwhole)]

/-- **Subscripts.** An index selects the element at its whole part, which is the very value that
stands there, with the identities in it. If the index stands for no number or there is no such
element, it is an error that tells the index as it was given and the length. An index between `-1`
and `1` selects the first element of an array that has one. All this is what working with doubles
and machine integers comes to, where an index that passes the check is always there. -/
theorem subscript_by_whole_part (label : Option Nat) (es : List (Value η))
    (h : es.length ≤ 2 ^ 53) (raw : Float) :
    (∀ v, Number.value? raw = some v → ∀ i : ℕ, Number.wholePart v = i → (hi : i < es.length) →
        subscript (.array label es) (.number raw) = .ok es[i]) ∧
      ((∀ v, Number.value? raw = some v → ∀ i : ℕ, Number.wholePart v = i → es.length ≤ i) →
        subscript (.array label es) (.number raw) = .error (.indexOutOfRange raw es.length)) ∧
      (∀ v, Number.value? raw = some v → -1 < v → v < 1 → (hi : 0 < es.length) →
        subscript (.array label es) (.number raw) = .ok es[0]) ∧
      subscript (.array label es) (.number raw) = selectConverted es raw ∧
      ∀ i, checkedIndex? es.length raw = some i → i < es.length := by
  refine ⟨fun v hraw i hwhole hi => select_of_lt hraw hwhole hi, fun hout => select_of_not_lt hout,
    fun v hraw hlow hhigh hi => select_of_lt hraw ?_ hi, select_eq_selectConverted h raw,
    fun i hindex => ((checkedIndex?_eq_some_iff h).mp hindex).2⟩
  rw [Number.wholePart]
  split_ifs with hv
  · exact Int.floor_eq_zero_iff.mpr ⟨hv, hhigh⟩
  · exact Int.ceil_eq_zero_iff.mpr ⟨hlow, by linarith⟩

/-- The number `-0.5` selects the first of two elements, an array, and with it its identity. -/
theorem subscript_by_whole_part_half :
    ([.array (some 2) [], .bool true] : List (Value Empty)).length ≤ 2 ^ 53 ∧
      subscript (.array (some 1) [.array (some 2) [], .bool true] : Value Empty) (.number (-0.5)) =
        .ok (.array (some 2) []) := by
  have hlength : ([.array (some 2) [], .bool true] : List (Value Empty)).length ≤ 2 ^ 53 := by
    decide
  have hvalue : Number.value? (-0.5) = some (-(1 / 2)) := by
    have hunpack : (-0.5 : Float).toModel.unpack =
        .finite .negative (2 ^ 52) (-53) (by decide) := rfl
    rw [Number.value?_of_unpack_finite hunpack]
    norm_num [Number.signed, Number.scaled]
  exact ⟨hlength, (subscript_by_whole_part (some 1) _ hlength (-0.5)).2.2.1 _ hvalue (by norm_num)
    (by norm_num) (by decide)⟩

end Value

end DynScope
