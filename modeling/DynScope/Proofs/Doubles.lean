import Mathlib
import DynScope.Number.Exact

/-!
# DynScope.Proofs.Doubles

**What number a double stands for.** A finite double other than zero has a sign, a mantissa and
an exponent, and there is one way only in which it can be written so (`Canonical`). Packing and
unpacking are inverse to each other on what is written that way, and comparing doubles is
comparing the rationals that they stand for (`Number.lt_iff`, `Number.le_iff`).

How it works: a mantissa that fills its bits under one exponent exceeds all mantissas under
smaller exponents. So the order of the values is the order of the exponents and then of the
mantissas.
-/

namespace DynScope.Number

open Float.Model (UnpackedFloat Format)
open Float.Model.UnpackedFloat (Sign)

/-! ### Mantissa and exponent -/

/-- The number `m * 2 ^ q`. -/
def scaled (m : ℕ) (q : ℤ) : ℚ := m * 2 ^ q

/-- The way in which a double is written: the mantissa has 53 bits, and fewer only at the bottom
of the range. -/
structure Canonical (m : ℕ) (q : ℤ) : Prop where
  /-- Zero is written differently. -/
  pos : 0 < m
  /-- The mantissa has 53 bits at most. -/
  lt : m < 2 ^ 53
  /-- The bottom of the range. -/
  low : -1074 ≤ q
  /-- The top of the range. -/
  high : q ≤ 971
  /-- The mantissa has 53 bits above the bottom. -/
  full : 2 ^ 52 ≤ m ∨ q = -1074

theorem scaled_pos {m : ℕ} (h : 0 < m) (q : ℤ) : 0 < scaled m q := by
  rw [scaled]
  positivity

/-- Halving the unit doubles the count. -/
theorem scaled_add (m : ℕ) (q : ℤ) (k : ℕ) : scaled m (q + k) = scaled (m * 2 ^ k) q := by
  rw [scaled, scaled, zpow_add₀ (by norm_num), zpow_natCast]
  push_cast
  ring

namespace Canonical

variable {m m' : ℕ} {q q' : ℤ}

/-- A smaller exponent makes a smaller number. -/
theorem scaled_lt_of_lt (h : Canonical m q) (h' : Canonical m' q') (hlt : q < q') :
    scaled m q < scaled m' q' := by
  have hfull : 2 ^ 52 ≤ m' := h'.full.resolve_right (by have := h.low; omega)
  obtain ⟨k, rfl⟩ : ∃ k : ℕ, q' = q + (k + 1 : ℕ) := ⟨(q' - q - 1).toNat, by omega⟩
  rw [scaled_add]
  refine mul_lt_mul_of_pos_right (Nat.cast_lt.mpr ?_) (by positivity)
  calc m < 2 ^ 53 := h.lt
    _ = 2 ^ 52 * 2 ^ 1 := by norm_num
    _ ≤ m' * 2 ^ (k + 1) := Nat.mul_le_mul hfull (Nat.pow_le_pow_right (by norm_num) (by omega))

/-- The order of the numbers is the order of the exponents and then of the mantissas. -/
theorem scaled_lt_iff (h : Canonical m q) (h' : Canonical m' q') :
    scaled m q < scaled m' q' ↔ q < q' ∨ q = q' ∧ m < m' := by
  rcases lt_trichotomy q q' with hlt | rfl | hgt
  · simp [h.scaled_lt_of_lt h' hlt, hlt]
  · simp [scaled, zpow_pos]
  · have hnot := (h'.scaled_lt_of_lt h hgt).not_gt
    simp only [hnot, false_iff]
    omega

/-- No number is written in two ways. -/
theorem scaled_inj (h : Canonical m q) (h' : Canonical m' q') (heq : scaled m q = scaled m' q') :
    m = m' ∧ q = q' := by
  have hnlt := (h.scaled_lt_iff h').not.mp heq.not_lt
  have hngt := (h'.scaled_lt_iff h).not.mp heq.not_gt
  omega

end Canonical

/-! ### Packing and unpacking -/

/-- A double is known by what it unpacks to. -/
theorem unpack_inj {x y : Float} (h : x.toModel.unpack = y.toModel.unpack) : x = y :=
  Float.toBits_inj.mp (UInt64.toBitVec_inj.mp
    ((UnpackedFloat.unpack_inj_of_valid x.toModel.valid y.toModel.valid).mp h))

/-- A double is one of five special ones, or it has a mantissa. -/
theorem special_or_finite (x : Float) :
    (x = nan ∨ x = infinity ∨ x = -infinity ∨ x = 0 ∨ x = -0) ∨
      ∃ s m q hm, x.toModel.unpack = .finite s m q hm := by
  cases hx : x.toModel.unpack with
  | finite s m q hm => exact Or.inr ⟨s, m, q, hm, rfl⟩
  | notANumber =>
      have hnan : x = nan := unpack_inj (hx.trans rfl)
      simp [hnan]
  | infinity s =>
      cases s with
      | positive =>
          have hinfinity : x = infinity := unpack_inj (hx.trans rfl)
          simp [hinfinity]
      | negative =>
          have hinfinity : x = -infinity := unpack_inj (hx.trans rfl)
          simp [hinfinity]
  | zero s =>
      cases s with
      | positive =>
          have hzero : x = 0 := unpack_inj (hx.trans rfl)
          simp [hzero]
      | negative =>
          have hzero : x = -0 := unpack_inj (hx.trans rfl)
          simp [hzero]

/-- What a sign, an exponent field and a mantissa field stand for. -/
theorem unpack_packComponents (s : Sign) (ex : BitVec 11) (mant : BitVec 52) :
    UnpackedFloat.unpack .binary64 (UnpackedFloat.packComponents .binary64 s ex mant) =
      if ex.toNat = 2047 then
        if mant.toNat = 0 then .infinity s else .notANumber
      else if ex.toNat = 0 then
        if h : mant.toNat = 0 then .zero s
        else .finite s mant.toNat (-1074) (Nat.pos_of_ne_zero h)
      else .finite s (2 ^ 52 + mant.toNat) (ex.toNat - 1075) (by positivity) := by
  have happend : (1#1 ++ mant).toNat = 2 ^ 52 + mant.toNat := by
    rw [BitVec.toNat_append, ← Nat.shiftLeft_add_eq_or_of_lt mant.isLt]
    rfl
  simp only [UnpackedFloat.unpack, UnpackedFloat.unpackExponent_packComponents,
    UnpackedFloat.unpackMantissa_packComponents, UnpackedFloat.unpackSign_packComponents,
    UnpackedFloat.Sign.ofBitVec_toBitVec, Format.exponentBias, happend, ← BitVec.toNat_inj]
  split_ifs <;> simp_all

/-- Doubles are written in their way. -/
theorem canonical_unpack {x : Float} {s : Sign} {m : ℕ} {q : ℤ} {hm : 0 < m}
    (h : x.toModel.unpack = .finite s m q hm) : Canonical m q := by
  rw [Float.Model.unpack, ← @UnpackedFloat.packComponents_unpackSign_unpackExponent_unpackMantissa
    .binary64 x.toModel.toBits.toBitVec, unpack_packComponents] at h
  have hmant := (@UnpackedFloat.unpackMantissa .binary64 x.toModel.toBits.toBitVec).isLt
  have hex := (@UnpackedFloat.unpackExponent .binary64 x.toModel.toBits.toBitVec).isLt
  dsimp only at hmant hex
  split_ifs at h
  case neg =>
      obtain ⟨-, rfl, rfl⟩ := UnpackedFloat.finite.inj h
      exact ⟨hm, by omega, by omega, by omega, Or.inr rfl⟩
  case neg =>
      obtain ⟨-, rfl, rfl⟩ := UnpackedFloat.finite.inj h
      exact ⟨hm, by omega, by omega, by omega, Or.inl (by omega)⟩

theorem log2_eq_52_iff {m : ℕ} (h : m < 2 ^ 53) (hm : 0 < m) : m.log2 = 52 ↔ 2 ^ 52 ≤ m := by
  rw [← Nat.le_log2 hm.ne']
  have hlt := (Nat.log2_lt hm.ne').mpr h
  omega

/-- Packing keeps what is written the way a double is. -/
theorem unpack_ofUnpacked_finite {m : ℕ} {q : ℤ} (s : Sign) (h : Canonical m q) :
    (ofUnpacked (.finite s m q h.pos)).toModel.unpack = .finite s m q h.pos := by
  obtain ⟨hpos, hlt, hlow, hhigh, hfull⟩ := h
  have hbias : (q + ((2 ^ (11 - 1) - 1 : ℕ) : ℤ) + (52 : ℕ)).toNat = (q + 1075).toNat := by
    congr 1
    norm_num
    ring
  show UnpackedFloat.unpack .binary64 (UnpackedFloat.pack .binary64 _) = _
  simp only [UnpackedFloat.pack, Format.exponentBias, Format.mantissaBits, hbias]
  rw [if_neg (by omega)]
  have hlog := log2_eq_52_iff hlt hpos
  split_ifs with hnormal
  · have hbits : 2 ^ 52 ≤ m := hlog.mp (by omega)
    rw [unpack_packComponents]
    simp only [BitVec.toNat_ofNat]
    rw [if_neg (by omega), if_neg (by omega)]
    congr 1 <;> omega
  · have hbits : ¬ 2 ^ 52 ≤ m := hlog.not.mp (by omega)
    rw [unpack_packComponents]
    simp only [BitVec.toNat_ofNat]
    rw [if_neg (by decide), if_pos (by decide), dif_neg (by omega)]
    congr 1 <;> omega

/-- What exceeds the range is packed as an infinity. -/
theorem ofUnpacked_overflow {m : ℕ} {q : ℤ} (s : Sign) (hm : 0 < m) (h : 971 < q) :
    ofUnpacked (.finite s m q hm) = ofUnpacked (.infinity s) := by
  have hbias : (q + ((2 ^ (11 - 1) - 1 : ℕ) : ℤ) + (52 : ℕ)).toNat = (q + 1075).toNat := by
    congr 1
    norm_num
    ring
  have hpack : UnpackedFloat.pack .binary64 (.finite s m q hm) =
      UnpackedFloat.pack .binary64 (.infinity s) := by
    simp only [UnpackedFloat.pack, Format.exponentBias, hbias]
    rw [if_pos (by omega)]
  rw [ofUnpacked, ofUnpacked, Float.Model.pack, Float.Model.pack]
  simp only [hpack]

theorem unpack_ofUnpacked_infinity (s : Sign) :
    (ofUnpacked (.infinity s)).toModel.unpack = .infinity s := by
  show UnpackedFloat.unpack .binary64 (UnpackedFloat.pack .binary64 _) = _
  rw [UnpackedFloat.pack, UnpackedFloat.packedInfinity, unpack_packComponents]
  rfl

theorem unpack_ofUnpacked_zero (s : Sign) : (ofUnpacked (.zero s)).toModel.unpack = .zero s :=
  UnpackedFloat.unpack_packedZero

/-! ### Values -/

/-- A magnitude with a sign. -/
def signed : Sign → ℚ → ℚ
  | .positive, v => v
  | .negative, v => -v

/-- The number that a double stands for; none for infinities and NaN. -/
def value? (x : Float) : Option ℚ :=
  match x.toModel.unpack with
  | .notANumber | .infinity _ => none
  | .zero _ => some 0
  | .finite s m q _ => some (signed s (scaled m q))

theorem value?_of_unpack_finite {x : Float} {s : Sign} {m : ℕ} {q : ℤ} {hm : 0 < m}
    (h : x.toModel.unpack = .finite s m q hm) : value? x = some (signed s (scaled m q)) := by
  rw [value?, h]

theorem value?_of_unpack_zero {x : Float} {s : Sign} (h : x.toModel.unpack = .zero s) :
    value? x = some 0 := by
  rw [value?, h]

theorem isFinite_eq_isSome_value? (x : Float) : x.isFinite = (value? x).isSome := by
  show x.toModel.unpack.isFinite = _
  rw [value?]
  cases x.toModel.unpack <;> rfl

/-- On what is written the way doubles are, exponent and mantissa decide the order. -/
theorem Canonical.compare_eq {m m' : ℕ} {q q' : ℤ} (h : Canonical m q) (h' : Canonical m' q') :
    (compare q q').then (compare m m') = compare (scaled m q) (scaled m' q') := by
  rcases lt_trichotomy (scaled m q) (scaled m' q') with hlt | heq | hgt
  · rw [compare_lt_iff_lt.mpr hlt, Ordering.then_eq_lt, compare_lt_iff_lt, compare_eq_iff_eq,
      compare_lt_iff_lt]
    exact (h.scaled_lt_iff h').mp hlt
  · obtain ⟨rfl, rfl⟩ := h.scaled_inj h' heq
    simp
  · rw [compare_gt_iff_gt.mpr hgt, Ordering.then_eq_gt, compare_gt_iff_gt, compare_eq_iff_eq,
      compare_gt_iff_gt]
    have hlex := (h'.scaled_lt_iff h).mp hgt
    omega

theorem compare_neg_neg (v w : ℚ) : compare (-v) (-w) = (compare v w).swap := by
  rcases lt_trichotomy v w with hlt | rfl | hgt
  · rw [compare_lt_iff_lt.mpr hlt, compare_gt_iff_gt.mpr (neg_lt_neg hlt)]
    rfl
  · simp
  · rw [compare_gt_iff_gt.mpr hgt, compare_lt_iff_lt.mpr (neg_lt_neg hgt)]
    rfl

/-- Comparing doubles is comparing what they stand for. -/
theorem compare_unpack {x y : Float} {v w : ℚ} (hx : value? x = some v) (hy : value? y = some w) :
    x.toModel.unpack.compare y.toModel.unpack = some (compare v w) := by
  unfold value? at hx hy
  cases hux : x.toModel.unpack with
  | notANumber | infinity => simp [hux] at hx
  | zero s =>
      obtain rfl : 0 = v := by simpa [hux] using hx
      cases huy : y.toModel.unpack with
      | notANumber | infinity => simp [huy] at hy
      | zero s' =>
          obtain rfl : 0 = w := by simpa [huy] using hy
          simp [UnpackedFloat.compare]
      | finite s' m' q' hm' =>
          obtain rfl : signed s' (scaled m' q') = w := by simpa [huy] using hy
          have hpos := scaled_pos hm' q'
          cases s' with
          | positive => simp [UnpackedFloat.compare, signed, compare_lt_iff_lt.mpr hpos]
          | negative =>
              have hneg := neg_neg_of_pos hpos
              simp [UnpackedFloat.compare, signed, compare_gt_iff_gt.mpr hneg]
  | finite s m q hm =>
      obtain rfl : signed s (scaled m q) = v := by simpa [hux] using hx
      have hpos := scaled_pos hm q
      cases huy : y.toModel.unpack with
      | notANumber | infinity => simp [huy] at hy
      | zero s' =>
          obtain rfl : 0 = w := by simpa [huy] using hy
          cases s with
          | positive => simp [UnpackedFloat.compare, signed, compare_gt_iff_gt.mpr hpos]
          | negative =>
              have hneg := neg_neg_of_pos hpos
              simp [UnpackedFloat.compare, signed, compare_lt_iff_lt.mpr hneg]
      | finite s' m' q' hm' =>
          obtain rfl : signed s' (scaled m' q') = w := by simpa [huy] using hy
          have hpos' := scaled_pos hm' q'
          have hcompare := (canonical_unpack hux).compare_eq (canonical_unpack huy)
          cases s <;> cases s' <;> simp only [UnpackedFloat.compare, signed, Option.some.injEq]
          case negative.negative => rw [hcompare, compare_neg_neg]
          case negative.positive => rw [compare_lt_iff_lt.mpr (by linarith)]
          case positive.negative => rw [compare_gt_iff_gt.mpr (by linarith)]
          case positive.positive => exact hcompare

theorem lt_iff {x y : Float} {v w : ℚ} (hx : value? x = some v) (hy : value? y = some w) :
    x < y ↔ v < w := by
  refine decide_eq_true_iff.trans ?_
  show (x.toModel.unpack.compare y.toModel.unpack == some .lt) = true ↔ _
  rw [compare_unpack hx hy, beq_iff_eq, Option.some.injEq, compare_lt_iff_lt]

theorem le_iff {x y : Float} {v w : ℚ} (hx : value? x = some v) (hy : value? y = some w) :
    x ≤ y ↔ v ≤ w := by
  refine decide_eq_true_iff.trans ?_
  show (x.toModel.unpack.compare y.toModel.unpack).any (·.isLE) = true ↔ _
  rw [compare_unpack hx hy, Option.any_some, Ordering.isLE_iff_ne_gt]
  exact compare_le_iff_le

end DynScope.Number
