import Mathlib
import DynScope.Number.Decimal
import DynScope.Proofs.Doubles

/-!
# DynScope.Proofs.Rounding

**Which numbers round to a double.** The numbers that round to a double are those of its interval
(`Decimal.Target.Holds`, `rounds_iff_holds`). So the intervals of two doubles are disjoint, a number
that a double can hold is left as it is (`unpack_ofScaled`), and reading a decimal gives a double
exactly if the decimal lies in the interval of that double (`Decimal.toFloat_eq_iff`).

How it works: rounding brings a number to the unit of its binade and then to the nearest integer,
the even one of two, where it may reach the next binade (`Rounds`). What is cut off on the way is
kept as its place among zero, one half and one (`Placed`), and cutting off one more bit keeps that
up (`placed_shiftRightOne`).
-/

namespace DynScope

open Float.Model (UnpackedFloat Format totalExponent)
open Float.Model.UnpackedFloat (Sign Accuracy ExtendedMantissa)

namespace Number

/-! ### What is cut off -/

/-- The accuracy tells the place of a number among zero, one half and one. -/
def Placed : Accuracy → ℚ → Prop
  | .exact, t => t = 0
  | .inexact .lt, t => 0 < t ∧ t < 1 / 2
  | .inexact .eq, t => t = 1 / 2
  | .inexact .gt, t => 1 / 2 < t ∧ t < 1

theorem Placed.nonneg {a : Accuracy} {t : ℚ} (h : Placed a t) : 0 ≤ t := by
  rcases a with _ | _ | _ | _ <;> simp only [Placed] at h <;> linarith

theorem Placed.lt_one {a : Accuracy} {t : ℚ} (h : Placed a t) : t < 1 := by
  rcases a with _ | _ | _ | _ <;> simp only [Placed] at h <;> linarith

/-- The accuracy of a fraction is its place. -/
theorem placed_accuracyOfFraction {k n : ℕ} (h : k < n) :
    Placed (UnpackedFloat.accuracyOfFraction k n) (k / n) := by
  have hn : (0 : ℚ) < n := Nat.cast_pos.mpr (by omega)
  rw [UnpackedFloat.accuracyOfFraction]
  split_ifs with hk
  · simp [Placed, hk]
  · have hk' : (0 : ℚ) < k := Nat.cast_pos.mpr (Nat.pos_of_ne_zero hk)
    have hlt : (k : ℚ) < n := Nat.cast_lt.mpr h
    rcases lt_trichotomy (2 * k) n with hc | hc | hc
    · have hc' : (2 * k : ℚ) < n := by exact_mod_cast hc
      rw [Nat.compare_eq_lt.mpr hc, Placed, div_lt_iff₀ hn]
      exact ⟨by positivity, by linarith⟩
    · have hc' : (2 * k : ℚ) = n := by exact_mod_cast hc
      rw [Nat.compare_eq_eq.mpr hc, Placed, div_eq_iff hn.ne']
      linarith
    · have hc' : (n : ℚ) < 2 * k := by exact_mod_cast hc
      rw [Nat.compare_eq_gt.mpr hc, Placed, lt_div_iff₀ hn, div_lt_one hn]
      exact ⟨by linarith, hlt⟩

/-- A mantissa with residual bits stands for a number: the bits tell where the number is above the
mantissa. -/
def Represents (em : ExtendedMantissa) (f : ℚ) : Prop := Placed em.accuracy (f - em.mantissa)

theorem represents_ofMantissaAndAccuracy {m : ℕ} {a : Accuracy} {f : ℚ} (h : Placed a (f - m)) :
    Represents (.ofMantissaAndAccuracy m a) f := by
  rcases a with _ | _ | _ | _ <;> exact h

/-- **Step.** Cutting off one bit halves the number. -/
theorem represents_shiftRightOne {em : ExtendedMantissa} {f : ℚ} (h : Represents em f) :
    Represents em.shiftRightOne (f / 2) := by
  obtain ⟨m, round, sticky⟩ := em
  -- the last bit of the mantissa becomes the round bit
  rcases Nat.even_or_odd' m with ⟨k, rfl | rfl⟩
  · have hbit : (2 * k % 2 != 0) = false := by simp
    have hhalf : 2 * k / 2 = k := by omega
    cases round <;> cases sticky <;>
      simp only [Represents, ExtendedMantissa.shiftRightOne, ExtendedMantissa.accuracy, Placed, hbit,
        hhalf, Bool.or_true, Bool.or_false, Nat.cast_mul, Nat.cast_ofNat] at h ⊢
    all_goals try constructor
    all_goals linarith
  · have hbit : ((2 * k + 1) % 2 != 0) = true := by simp
    have hhalf : (2 * k + 1) / 2 = k := by omega
    cases round <;> cases sticky <;>
      simp only [Represents, ExtendedMantissa.shiftRightOne, ExtendedMantissa.accuracy, Placed, hbit,
        hhalf, Bool.or_true, Bool.or_false, Nat.cast_mul, Nat.cast_ofNat, Nat.cast_add,
        Nat.cast_one] at h ⊢
    all_goals try constructor
    all_goals linarith

/-- **Run.** Cutting off `n` bits divides the number by `2 ^ n`. -/
theorem represents_shiftRight {em : ExtendedMantissa} {f : ℚ} (h : Represents em f) (n : ℕ) :
    Represents (em >>> n) (f / 2 ^ n) := by
  induction n with
  | zero => simpa [HShiftRight.hShiftRight, Nat.repeat] using h
  | succ n ih =>
      have hstep := represents_shiftRightOne ih
      rwa [div_div, ← pow_succ] at hstep

theorem Represents.floor {em : ExtendedMantissa} {f : ℚ} (h : Represents em f) :
    ⌊f⌋ = em.mantissa := by
  rw [Int.floor_eq_iff]
  push_cast
  exact ⟨by linarith [h.nonneg], by linarith [h.lt_one]⟩

/-! ### The nearest integer -/

/-- The integer is the nearest one to the number, the even one if two are equally near. -/
def NearestEven (f : ℚ) (n : ℕ) : Prop := 2 * |f - n| < 1 ∨ 2 * |f - n| = 1 ∧ Even n

theorem nearestEven_of_lt {f : ℚ} {n : ℕ} (h : |f - n| < 1 / 2) : NearestEven f n :=
  Or.inl (by linarith)

theorem nearestEven_of_le {f : ℚ} {n : ℕ} (h : |f - n| ≤ 1 / 2) (hn : Even n) :
    NearestEven f n := by
  rcases h.lt_or_eq with hlt | heq
  · exact nearestEven_of_lt hlt
  · exact Or.inr ⟨by linarith, hn⟩

theorem NearestEven.le {f : ℚ} {n : ℕ} (h : NearestEven f n) : |f - n| ≤ 1 / 2 := by
  rcases h with h | ⟨h, -⟩ <;> linarith

/-- There is one nearest integer. -/
theorem NearestEven.unique {f : ℚ} {n n' : ℕ} (h : NearestEven f n) (h' : NearestEven f n') :
    n = n' := by
  by_contra hne
  wlog hlt : n < n' generalizing n n'
  · exact this h' h (Ne.symm hne) (by omega)
  have hgap : (n : ℚ) + 1 ≤ n' := by exact_mod_cast hlt
  have hl := abs_le.mp h.le
  have hl' := abs_le.mp h'.le
  have hmid : f - n = 1 / 2 := by linarith
  have hmid' : f - n' = -(1 / 2) := by linarith
  have heven : Even n := (h.resolve_left (by rw [hmid]; norm_num)).2
  have heven' : Even n' := (h'.resolve_left (by rw [hmid']; norm_num)).2
  have hsucc : n' = n + 1 := by
    have hcast : (n' : ℚ) = n + 1 := by linarith
    exact_mod_cast hcast
  rw [hsucc, Nat.even_add_one] at heven'
  exact heven' heven

/-- The place of the number decides the nearest integer. -/
theorem Placed.nearestEven {a : Accuracy} {m : ℕ} {f : ℚ} (h : Placed a (f - m)) :
    NearestEven f (a.roundToNearestEven m) := by
  rcases a with _ | _ | _ | _ <;> simp only [Placed] at h <;>
    simp only [Accuracy.roundToNearestEven]
  case exact =>
      left
      rw [h]
      norm_num
  case inexact.lt =>
      left
      rw [abs_of_pos h.1]
      linarith
  case inexact.eq =>
      right
      rcases Nat.even_or_odd m with heven | hodd
      · rw [Nat.even_iff.mp heven, Nat.add_zero, h]
        exact ⟨by norm_num, heven⟩
      · rw [Nat.odd_iff.mp hodd, Nat.cast_add, Nat.cast_one, ← sub_sub, h]
        exact ⟨by norm_num, hodd.add_one⟩
  case inexact.gt =>
      left
      rw [Nat.cast_add, Nat.cast_one, ← sub_sub, abs_of_neg (by linarith)]
      linarith

theorem Represents.nearestEven {em : ExtendedMantissa} {f : ℚ} (h : Represents em f) :
    NearestEven f em.roundedMantissa :=
  Placed.nearestEven h

/-! ### Rounding a number -/

/-- The exponent under which the number fills the mantissa, or else the bottom of the range. -/
structure Binade (v : ℚ) (q : ℤ) : Prop where
  /-- The range has a bottom. -/
  low : -1074 ≤ q
  /-- The number fits. -/
  lt : v < 2 ^ (q + 53)
  /-- A smaller exponent would not do. -/
  full : q = -1074 ∨ 2 ^ (q + 52) ≤ v

theorem Binade.unique {v : ℚ} {q q' : ℤ} (h : Binade v q) (h' : Binade v q') : q = q' := by
  by_contra hne
  wlog hlt : q < q' generalizing q q'
  · exact this h' h (Ne.symm hne) (by omega)
  have hfull := h'.full.resolve_left (by have := h.low; omega)
  have hle : (2 : ℚ) ^ (q + 53) ≤ 2 ^ (q' + 52) := zpow_le_zpow_right₀ (by norm_num) (by omega)
  linarith [h.lt]

/-- A mantissa that reached the next binade, brought to the unit there. -/
def carried (n : ℕ) (q : ℤ) : ℕ × ℤ := if n = 2 ^ 53 then (2 ^ 52, q + 1) else (n, q)

/-- The number rounds to `m * 2 ^ q`, if the range has no top. -/
def Rounds (v : ℚ) (m : ℕ) (q : ℤ) : Prop :=
  ∃ n e, Binade v e ∧ NearestEven (v / 2 ^ e) n ∧ carried n e = (m, q)

theorem Rounds.unique {v : ℚ} {m m' : ℕ} {q q' : ℤ} (h : Rounds v m q) (h' : Rounds v m' q') :
    m = m' ∧ q = q' := by
  obtain ⟨n, e, hbinade, hnearest, hcarried⟩ := h
  obtain ⟨n', e', hbinade', hnearest', hcarried'⟩ := h'
  obtain rfl := hbinade.unique hbinade'
  obtain rfl := hnearest.unique hnearest'
  exact Prod.mk.inj (hcarried.symm.trans hcarried')

/-- A binade in units of its exponent. -/
theorem binade_iff {v : ℚ} {q : ℤ} : Binade v q ↔
    -1074 ≤ q ∧ v / 2 ^ q < 2 ^ 53 ∧ (q = -1074 ∨ 2 ^ 52 ≤ v / 2 ^ q) := by
  have hunit : (0 : ℚ) < 2 ^ q := by positivity
  have hlt : v < 2 ^ (q + 53) ↔ v / 2 ^ q < 2 ^ 53 := by
    rw [div_lt_iff₀ hunit, ← zpow_natCast, ← zpow_add₀ (by norm_num), add_comm]
    rfl
  have hfull : 2 ^ (q + 52) ≤ v ↔ 2 ^ 52 ≤ v / 2 ^ q := by
    rw [le_div_iff₀ hunit, ← zpow_natCast, ← zpow_add₀ (by norm_num), add_comm]
    rfl
  rw [← hlt, ← hfull]
  exact ⟨fun h => ⟨h.low, h.lt, h.full⟩, fun ⟨hlow, hlt, hfull⟩ => ⟨hlow, hlt, hfull⟩⟩

theorem NearestEven.le_of_binade {v : ℚ} {q : ℤ} {n : ℕ} (h : Binade v q)
    (hn : NearestEven (v / 2 ^ q) n) : n ≤ 2 ^ 53 := by
  have hlt := (binade_iff.mp h).2.1
  have hnear := (abs_le.mp hn.le).1
  have hcast : (n : ℚ) < (2 ^ 53 + 1 : ℕ) := by
    push_cast
    linarith
  exact Nat.lt_succ_iff.mp (Nat.cast_lt.mp hcast)

/-- What a number rounds to is written the way a double is, unless it is zero or beyond the top. -/
theorem Rounds.canonical {v : ℚ} {m : ℕ} {q : ℤ} (h : Rounds v m q) (hm : 0 < m) (hq : q ≤ 971) :
    Canonical m q := by
  obtain ⟨n, e, hbinade, hnearest, hcarried⟩ := h
  have hn := hnearest.le_of_binade hbinade
  have hlow := hbinade.low
  rw [carried] at hcarried
  split_ifs at hcarried with htop
  · obtain ⟨rfl, rfl⟩ := Prod.mk.inj hcarried
    exact ⟨hm, by norm_num, by omega, hq, Or.inl le_rfl⟩
  · obtain ⟨rfl, rfl⟩ := Prod.mk.inj hcarried
    refine ⟨hm, by omega, hlow, hq, ?_⟩
    by_cases hbottom : e = -1074
    · exact Or.inr hbottom
    · left
      have hfull := (binade_iff.mp hbinade).2.2.resolve_left hbottom
      have hnear := (abs_le.mp hnearest.le).2
      by_contra hlt
      have hcast : ((n + 1 : ℕ) : ℚ) ≤ (2 ^ 52 : ℕ) := Nat.cast_le.mpr (by omega)
      push_cast at hcast
      linarith

/-! ### The algorithm -/

theorem targetExponent_eq (t : ℤ) : Format.binary64.targetExponent t = max (t - 53) (-1074) := rfl

/-- The exponent that is aimed at belongs to the binade of the number. -/
theorem binade_targetExponent {m : ℕ} {e : ℤ} {a : Accuracy} {v : ℚ} (h : Placed a (v / 2 ^ e - m))
    (he : e ≤ Format.binary64.targetExponent (totalExponent m e)) :
    Binade v (Format.binary64.targetExponent (totalExponent m e)) := by
  have hunit : (0 : ℚ) < 2 ^ e := by positivity
  have hlt : v < (m + 1) * 2 ^ e := by
    rw [← div_lt_iff₀ hunit]
    linarith [h.lt_one]
  have hle : m * 2 ^ e ≤ v := by
    rw [← le_div_iff₀ hunit]
    linarith [h.nonneg]
  rw [targetExponent_eq, totalExponent] at he ⊢
  constructor
  case low => exact le_max_right _ _
  case lt =>
      have hbits : ((m + 1 : ℕ) : ℚ) ≤ (2 ^ (m.log2 + 1) : ℕ) := Nat.cast_le.mpr Nat.lt_log2_self
      push_cast at hbits
      calc v < (m + 1) * 2 ^ e := hlt
        _ ≤ 2 ^ (m.log2 + 1) * 2 ^ e := by gcongr
        _ = 2 ^ ((m.log2 + 1 : ℕ) + e) := by rw [zpow_add₀ (by norm_num), zpow_natCast]
        _ ≤ _ := zpow_le_zpow_right₀ (by norm_num) (by push_cast; omega)
  case full =>
      rcases eq_or_ne m 0 with rfl | hm
      · left
        simp at he ⊢
        omega
      · rcases le_or_gt (((m.log2 : ℕ) : ℤ) + 1 + e - 53) (-1074) with hsmall | hlarge
        · exact Or.inl (max_eq_right hsmall)
        · right
          have hbits : ((2 ^ m.log2 : ℕ) : ℚ) ≤ m := Nat.cast_le.mpr (Nat.log2_self_le hm)
          push_cast at hbits
          rw [max_eq_left hlarge.le]
          calc (2 : ℚ) ^ ((m.log2 : ℤ) + 1 + e - 53 + 52) = 2 ^ m.log2 * 2 ^ e := by
                rw [← zpow_natCast, ← zpow_add₀ (by norm_num)]
                congr 1
                ring
            _ ≤ m * 2 ^ e := by gcongr
            _ ≤ v := hle

/-- Shifting to a higher exponent goes on representing the number. -/
theorem represents_shiftToExponent {m : ℕ} {e q : ℤ} {a : Accuracy} {v : ℚ}
    (h : Placed a (v / 2 ^ e - m)) (he : e ≤ q) :
    Represents (UnpackedFloat.shiftToExponent m e a q).1 (v / 2 ^ q) ∧
      (UnpackedFloat.shiftToExponent m e a q).2 = q := by
  have hq : e + ((q - e).toNat : ℤ) = q := by omega
  have hshift := represents_shiftRight (represents_ofMantissaAndAccuracy h) (q - e).toNat
  rw [div_div, ← zpow_natCast, ← zpow_add₀ (by norm_num), hq] at hshift
  exact ⟨hshift, hq⟩

/-- Shifting a second time makes room for a mantissa that reached the next binade. -/
theorem shiftToTargetExponent_eq_carried {n : ℕ} {q : ℤ} (hn : n ≤ 2 ^ 53) (hq : -1074 ≤ q) :
    ((UnpackedFloat.shiftToTargetExponent .binary64 n q .exact).1.mantissa,
      (UnpackedFloat.shiftToTargetExponent .binary64 n q .exact).2) = carried n q := by
  rw [UnpackedFloat.shiftToTargetExponent, targetExponent_eq, totalExponent, carried]
  rcases hn.lt_or_eq with hlt | rfl
  · have hbits : n.log2 < 53 := by
      rcases eq_or_ne n 0 with rfl | hne
      · simp
      · exact (Nat.log2_lt hne).mpr hlt
    have hstay : (max ((n.log2 : ℤ) + 1 + q - 53) (-1074) - q).toNat = 0 := by omega
    rw [if_neg hlt.ne, UnpackedFloat.shiftToExponent, hstay]
    simp [HShiftRight.hShiftRight, Nat.repeat, ExtendedMantissa.ofMantissaAndAccuracy]
  · have hbits : (2 ^ 53).log2 = 53 := Nat.log2_two_pow
    have hup : (max (((2 ^ 53).log2 : ℤ) + 1 + q - 53) (-1074) - q).toNat = 1 := by omega
    rw [if_pos rfl, UnpackedFloat.shiftToExponent, hup]
    rfl

/-- Rounding with an accuracy rounds the number that the accuracy is about, if the mantissa does
not lack bits. -/
theorem roundWithAccuracy_rounds {s : Sign} {m : ℕ} {e : ℤ} {a : Accuracy} {v : ℚ}
    (h : Placed a (v / 2 ^ e - m))
    (he : e ≤ Format.binary64.targetExponent (totalExponent m e)) :
    ∃ n q, Rounds v n q ∧ UnpackedFloat.roundWithAccuracy .binary64 s m e a =
      if hn : n = 0 then .zero s else .finite s n q (Nat.pos_of_ne_zero hn) := by
  have hbinade := binade_targetExponent h he
  obtain ⟨hrepresents, hexponent⟩ := represents_shiftToExponent h he
  have hnearest := hrepresents.nearestEven
  have hcarried := shiftToTargetExponent_eq_carried (hnearest.le_of_binade hbinade) hbinade.low
  refine ⟨_, _, ⟨_, _, hbinade, hnearest, hcarried.symm⟩, ?_⟩
  rw [UnpackedFloat.roundWithAccuracy, UnpackedFloat.shiftToTargetExponent]
  simp only [hexponent]

theorem log2_shiftLeft {m : ℕ} (hm : 0 < m) (k : ℕ) : (m <<< k).log2 = m.log2 + k := by
  have hlog := (Nat.log2_eq_iff hm.ne').mp rfl
  rw [Nat.shiftLeft_eq, Nat.log2_eq_iff (by positivity), Nat.add_right_comm, pow_add, pow_add _ _ k]
  exact ⟨Nat.mul_le_mul_right _ hlog.1, Nat.mul_lt_mul_of_pos_right hlog.2 (by positivity)⟩

/-- What a lower exponent adds to the mantissa are zeros. -/
theorem placed_decreaseExponent (m : ℕ) (e t : ℤ) :
    Placed .exact (scaled m e / 2 ^ (UnpackedFloat.decreaseExponent m e t).2 -
      (UnpackedFloat.decreaseExponent m e t).1) := by
  have hunit : (2 : ℚ) ^ e = 2 ^ (e - t).toNat * 2 ^ (e - (e - t).toNat) := by
    rw [← zpow_natCast, ← zpow_add₀ (by norm_num)]
    congr 1
    ring
  rw [UnpackedFloat.decreaseExponent, Placed, Nat.shiftLeft_eq, scaled, hunit]
  push_cast
  rw [← mul_assoc, mul_div_cancel_right₀ _ (by positivity), sub_self]

/-- Rounding a mantissa and an exponent rounds the number that they make. -/
theorem round_rounds (s : Sign) {m : ℕ} (hm : 0 < m) (e : ℤ) :
    ∃ n q, Rounds (scaled m e) n q ∧ UnpackedFloat.round .binary64 s m e =
      if hn : n = 0 then .zero s else .finite s n q (Nat.pos_of_ne_zero hn) := by
  rw [UnpackedFloat.round]
  generalize ht : Format.binary64.targetExponent (totalExponent m e) = t
  apply roundWithAccuracy_rounds (placed_decreaseExponent m e t)
  have htotal : totalExponent (m <<< (e - t).toNat) (e - (e - t).toNat) = totalExponent m e := by
    rw [totalExponent, totalExponent, log2_shiftLeft hm]
    push_cast
    ring
  rw [UnpackedFloat.decreaseExponent, htotal, ht]
  dsimp only
  omega

end Number

/-! ### The interval of a double -/

namespace Decimal

open Number

/-- The number that a decimal stands for. -/
def value (d : Decimal) : ℚ := d.coefficient * 10 ^ d.scale

/-- The number lies in the interval. -/
def Target.Holds (t : Target) (v : ℚ) : Prop :=
  if t.closed then t.low * 2 ^ t.unit ≤ v ∧ v ≤ t.high * 2 ^ t.unit
  else t.low * 2 ^ t.unit < v ∧ v < t.high * 2 ^ t.unit

/-- The factors bring both counts to one unit. -/
theorem factors_eq (s r : ℤ) : ∃ k : ℚ, 0 < k ∧
    ((factors s r).1 : ℚ) = 10 ^ s * k ∧ ((factors s r).2 : ℚ) = 2 ^ r * k := by
  have hsplit : ∀ (b : ℚ) (e : ℤ), b ≠ 0 → b ^ e.toNat = b ^ e * b ^ (-e).toNat := fun b e hb => by
    rw [← zpow_natCast, ← zpow_natCast, ← zpow_add₀ hb]
    congr 1
    omega
  refine ⟨10 ^ (-s).toNat * 2 ^ (-r).toNat, by positivity, ?_, ?_⟩
  · rw [factors]
    simp only [Nat.pow_eq]
    push_cast
    rw [hsplit 10 s (by norm_num)]
    ring
  · rw [factors]
    simp only [Nat.pow_eq]
    push_cast
    rw [hsplit 2 r (by norm_num)]
    ring

theorem Target.contains_iff (t : Target) (c : ℕ) (s : ℤ) :
    t.contains c s = true ↔ t.Holds (c * 10 ^ s) := by
  obtain ⟨k, hk, hfst, hsnd⟩ := factors_eq s t.unit
  rw [Target.contains, Target.Holds]
  generalize factors s t.unit = f at hfst hsnd
  obtain ⟨a, b⟩ := f
  have hleft : ∀ n : ℕ, n * b ≤ c * a ↔ (n * 2 ^ t.unit : ℚ) ≤ c * 10 ^ s := fun n => by
    rw [← Nat.cast_le (α := ℚ)]
    push_cast
    rw [hfst, hsnd, ← mul_assoc, ← mul_assoc, mul_le_mul_iff_left₀ hk]
  have hright : ∀ n : ℕ, c * a ≤ n * b ↔ (c * 10 ^ s : ℚ) ≤ n * 2 ^ t.unit := fun n => by
    rw [← Nat.cast_le (α := ℚ)]
    push_cast
    rw [hfst, hsnd, ← mul_assoc, ← mul_assoc, mul_le_mul_iff_left₀ hk]
  cases t.closed
  · simp only [Bool.false_eq_true, if_false, Bool.and_eq_true, decide_eq_true_eq, ← not_le, hleft,
      hright]
  · simp only [if_true, Bool.and_eq_true, decide_eq_true_eq, hleft, hright]

/-- The interval has no gaps. -/
theorem Target.Holds.between {t : Target} {u v w : ℚ} (hu : t.Holds u) (hw : t.Holds w)
    (huv : u ≤ v) (hvw : v ≤ w) : t.Holds v := by
  rw [Target.Holds] at hu hw ⊢
  split_ifs at hu hw ⊢
  · exact ⟨hu.1.trans huv, hvw.trans hw.2⟩
  · exact ⟨hu.1.trans_le huv, hvw.trans_lt hw.2⟩

/-- How far the interval of a double reaches down, in units of the double. -/
def Target.reach (m : ℕ) (q : ℤ) : ℚ := if m = 2 ^ 52 ∧ -1074 < q then 1 / 4 else 1 / 2

theorem Target.reach_le (m : ℕ) (q : ℤ) : reach m q ≤ 1 / 2 := by
  rw [reach]
  split_ifs <;> norm_num

theorem Target.reach_pos (m : ℕ) (q : ℤ) : 0 < reach m q := by
  rw [reach]
  split_ifs <;> norm_num

theorem Target.holds_of_iff {m : ℕ} {q : ℤ} (hm : 0 < m) (v : ℚ) : (Target.of m q).Holds v ↔
    (m - reach m q < v / 2 ^ q ∧ v / 2 ^ q < m + 1 / 2) ∨
      Even m ∧ m - reach m q ≤ v / 2 ^ q ∧ v / 2 ^ q ≤ m + 1 / 2 := by
  have hunit : (0 : ℚ) < 2 ^ q := by positivity
  have hquarter : (2 : ℚ) ^ (q - 2) = 2 ^ q / 4 := by
    rw [zpow_sub₀ (by norm_num)]
    norm_num
  have hlow : ((Target.of m q).low : ℚ) = 4 * (m - reach m q) := by
    rw [Target.of, reach]
    simp only [Nat.pow_eq]
    split_ifs <;> push_cast [Nat.cast_sub (show 1 ≤ 4 * m by omega),
      Nat.cast_sub (show 2 ≤ 4 * m by omega)] <;> ring
  have hhigh : ((Target.of m q).high : ℚ) = 4 * (m + 1 / 2) := by
    rw [Target.of]
    push_cast
    ring
  have hscale : ∀ t : ℚ, 4 * t * (2 ^ q / 4) = t * 2 ^ q := fun t => by ring
  have hclosed : (Target.of m q).closed = true ↔ Even m := by
    simp [Target.of, Nat.even_iff]
  have hexponent : (Target.of m q).unit = q - 2 := rfl
  rw [Target.Holds, hlow, hhigh, hexponent, hquarter, hscale, hscale, le_div_iff₀ hunit,
    div_le_iff₀ hunit, lt_div_iff₀ hunit, div_lt_iff₀ hunit]
  split_ifs with heven
  · simp only [hclosed.mp heven, true_and]
    exact ⟨Or.inr, fun h => h.elim (fun h => ⟨h.1.le, h.2.le⟩) id⟩
  · simp only [hclosed.not.mp heven, false_and, or_false]

end Decimal

namespace Number

open Decimal

theorem Rounds.holds {m : ℕ} {q : ℤ} {v : ℚ} (hm : 0 < m) (h : Rounds v m q) :
    (Target.of m q).Holds v := by
  obtain ⟨n, e, hbinade, hnearest, hcarried⟩ := h
  obtain ⟨hlow, hlt, hfull⟩ := binade_iff.mp hbinade
  rw [Target.holds_of_iff hm, Target.reach]
  rw [carried] at hcarried
  split_ifs at hcarried with htop
  · -- the double starts a binade, and the number lies below it
    obtain ⟨rfl, rfl⟩ := Prod.mk.inj hcarried
    have hnear := abs_le.mp hnearest.le
    have hhalf : v / 2 ^ (e + 1) = v / 2 ^ e / 2 := by
      rw [zpow_add_one₀ (by norm_num), div_div]
    rw [htop] at hnear
    push_cast at hnear ⊢
    rw [if_pos ⟨trivial, by omega⟩, hhalf]
    exact Or.inr ⟨by decide, by linarith, by linarith⟩
  · obtain ⟨rfl, rfl⟩ := Prod.mk.inj hcarried
    have hstart : n = 2 ^ 52 ∧ -1074 < e → (n : ℚ) ≤ v / 2 ^ e := by
      rintro ⟨rfl, he⟩
      push_cast
      exact hfull.resolve_left he.ne'
    rcases hnearest with hnear | ⟨hnear, heven⟩
    · have hnear := abs_lt.mp (show |v / 2 ^ e - n| < 1 / 2 by linarith)
      left
      split_ifs with h52
      · have := hstart h52
        exact ⟨by linarith, by linarith⟩
      · exact ⟨by linarith, by linarith⟩
    · have hnear := abs_le.mp (show |v / 2 ^ e - n| ≤ 1 / 2 by linarith)
      right
      split_ifs with h52
      · have := hstart h52
        exact ⟨heven, by linarith, by linarith⟩
      · exact ⟨heven, by linarith, by linarith⟩

/-- The ends of the interval, in units of the double. -/
theorem between_of_holds {m : ℕ} {q : ℤ} (hm : 0 < m) {v : ℚ} (h : (Target.of m q).Holds v) :
    (m : ℚ) - 1 / 2 ≤ v / 2 ^ q ∧ v / 2 ^ q ≤ m + 1 / 2 := by
  have hreach := Target.reach_le m q
  rcases (Target.holds_of_iff hm v).mp h with ⟨hlow, hhigh⟩ | ⟨-, hlow, hhigh⟩ <;>
    exact ⟨by linarith, by linarith⟩

theorem rounds_of_holds {m : ℕ} {q : ℤ} (h : Canonical m q) {v : ℚ}
    (hholds : (Target.of m q).Holds v) : Rounds v m q := by
  obtain ⟨hlow, hhigh⟩ := between_of_holds h.pos hholds
  have hreach := Target.reach_le m q
  rw [Target.holds_of_iff h.pos] at hholds
  by_cases hbelow : (m = 2 ^ 52 ∧ -1074 < q) ∧ v / 2 ^ q < m
  · -- the number belongs to the binade below and rounds up to the start of this one
    obtain ⟨⟨rfl, hq⟩, hlt⟩ := hbelow
    have htwice : v / 2 ^ (q - 1) = v / 2 ^ q * 2 := by
      rw [zpow_sub_one₀ (by norm_num)]
      field_simp
    have hle : (2 ^ 52 : ℕ) - 1 / 4 ≤ v / 2 ^ q := by
      rw [Target.reach, if_pos ⟨rfl, hq⟩] at hholds
      exact hholds.elim (·.1.le) (·.2.1)
    push_cast at hle hlt
    refine ⟨2 ^ 53, q - 1, binade_iff.mpr ⟨by omega, ?_, Or.inr ?_⟩, nearestEven_of_le ?_ ?_, ?_⟩
    · rw [htwice]
      linarith
    · rw [htwice]
      linarith
    · rw [htwice, abs_le]
      push_cast
      exact ⟨by linarith, by linarith⟩
    · decide
    · rw [carried, if_pos rfl, sub_add_cancel]
  · have htop : ((m + 1 : ℕ) : ℚ) ≤ (2 ^ 53 : ℕ) := Nat.cast_le.mpr h.lt
    have hfull : q = -1074 ∨ 2 ^ 52 ≤ v / 2 ^ q := by
      rcases h.low.eq_or_lt with heq | hq
      · exact Or.inl heq.symm
      right
      rcases (h.full.resolve_right hq.ne').eq_or_lt with rfl | hgt
      · have hge := not_lt.mp fun hlt => hbelow ⟨⟨rfl, hq⟩, hlt⟩
        push_cast at hge
        exact hge
      · have hcast : ((2 ^ 52 + 1 : ℕ) : ℚ) ≤ m := Nat.cast_le.mpr hgt
        push_cast at hcast
        linarith
    push_cast at htop
    refine ⟨m, q, binade_iff.mpr ⟨h.low, by linarith, hfull⟩, ?_, ?_⟩
    · rcases hholds with hlt | ⟨heven, -⟩
      · exact nearestEven_of_lt (abs_lt.mpr ⟨by linarith, by linarith⟩)
      · exact nearestEven_of_le (abs_le.mpr ⟨by linarith, by linarith⟩) heven
    · rw [carried, if_neg h.lt.ne]

/-- **Intervals.** The numbers that round to a double are those of its interval. -/
theorem rounds_iff_holds {m : ℕ} {q : ℤ} (h : Canonical m q) (v : ℚ) :
    Rounds v m q ↔ (Target.of m q).Holds v :=
  ⟨Rounds.holds h.pos, rounds_of_holds h⟩

theorem holds_scaled {m : ℕ} {q : ℤ} (hm : 0 < m) : (Target.of m q).Holds (scaled m q) := by
  have hreach := Target.reach_pos m q
  rw [Target.holds_of_iff hm, scaled, mul_div_cancel_right₀ _ (by positivity)]
  exact Or.inl ⟨by linarith, by linarith⟩

/-- A number that a double can hold is left as it is. -/
theorem unpack_ofScaled {m n : ℕ} {e q : ℤ} (s : Sign) (hm : 0 < m) (h : Canonical n q)
    (heq : scaled m e = scaled n q) : (ofScaled s m e).toModel.unpack = .finite s n q h.pos := by
  obtain ⟨n', q', hrounds, hround⟩ := round_rounds s hm e
  have hself : Rounds (scaled m e) n q := rounds_of_holds h (heq ▸ holds_scaled h.pos)
  obtain ⟨rfl, rfl⟩ := hself.unique hrounds
  rw [ofScaled, hround, dif_neg h.pos.ne']
  exact unpack_ofUnpacked_finite s h

/-- What rounding makes of a number is a given double exactly if the number lies in the interval of
the double. -/
theorem ofUnpacked_eq_iff {x : Float} {m : ℕ} {q : ℤ} {hm : 0 < m}
    (hx : x.toModel.unpack = .finite .positive m q hm) {v : ℚ} {n : ℕ} {e : ℤ}
    (hv : Rounds v n e) : ofUnpacked (if hn : n = 0 then .zero .positive
      else .finite .positive n e (Nat.pos_of_ne_zero hn)) = x ↔ (Target.of m q).Holds v := by
  have hcanonical := canonical_unpack hx
  rw [← rounds_iff_holds hcanonical]
  constructor
  · intro h
    subst h
    split_ifs at hx with hn
    · rw [unpack_ofUnpacked_zero] at hx
      cases hx
    · rcases le_or_gt e 971 with he | he
      · rw [unpack_ofUnpacked_finite _ (hv.canonical (Nat.pos_of_ne_zero hn) he)] at hx
        obtain ⟨-, rfl, rfl⟩ := UnpackedFloat.finite.inj hx
        exact hv
      · rw [ofUnpacked_overflow _ _ he, unpack_ofUnpacked_infinity] at hx
        cases hx
  · intro h
    obtain ⟨rfl, rfl⟩ := h.unique hv
    rw [dif_neg hm.ne']
    exact unpack_inj ((unpack_ofUnpacked_finite _ hcanonical).trans hx.symm)

theorem bounds_of_holds {m : ℕ} {q : ℤ} (h : Canonical m q) {v : ℚ}
    (hholds : (Target.of m q).Holds v) : 2 ^ (-1075 : ℤ) ≤ v ∧ v < 2 ^ (1024 : ℤ) := by
  obtain ⟨hlow, hhigh⟩ := between_of_holds h.pos hholds
  have hpos : (1 : ℚ) ≤ m := by exact_mod_cast h.pos
  have htop : ((m + 1 : ℕ) : ℚ) ≤ (2 ^ 53 : ℕ) := Nat.cast_le.mpr h.lt
  push_cast at htop
  have hunit : (0 : ℚ) < 2 ^ q := by positivity
  constructor
  · have hq := h.low
    calc (2 : ℚ) ^ (-1075 : ℤ) ≤ 2 ^ (-1 + q) := zpow_le_zpow_right₀ (by norm_num) (by omega)
      _ = 1 / 2 * 2 ^ q := by rw [zpow_add₀ (by norm_num)]; norm_num
      _ ≤ v := (le_div_iff₀ hunit).mp (by linarith)
  · have hq := h.high
    calc v < 2 ^ 53 * 2 ^ q := (div_lt_iff₀ hunit).mp (by linarith)
      _ = 2 ^ (53 + q) := by rw [zpow_add₀ (by norm_num)]; norm_num
      _ ≤ 2 ^ (1024 : ℤ) := zpow_le_zpow_right₀ (by norm_num) (by omega)

theorem pos_of_holds {m : ℕ} {q : ℤ} (h : Canonical m q) {v : ℚ}
    (hholds : (Target.of m q).Holds v) : 0 < v :=
  lt_of_lt_of_le (by positivity) (bounds_of_holds h hholds).1

/-- Intervals follow one another as the doubles do. -/
theorem lt_of_holds {m m' : ℕ} {q q' : ℤ} (h : Canonical m q) (h' : Canonical m' q') {v w : ℚ}
    (hv : (Target.of m q).Holds v) (hw : (Target.of m' q').Holds w)
    (hlt : scaled m q < scaled m' q') : v < w := by
  -- a number in both intervals would round to both doubles
  have hdisjoint : ∀ u, (Target.of m q).Holds u → ¬ (Target.of m' q').Holds u := fun u hu hu' => by
    obtain ⟨rfl, rfl⟩ := (rounds_of_holds h hu).unique (rounds_of_holds h' hu')
    exact lt_irrefl _ hlt
  by_contra hle
  rcases le_or_gt w (scaled m q) with hbelow | habove
  · exact hdisjoint _ (holds_scaled h.pos) (hw.between (holds_scaled h'.pos) hbelow hlt.le)
  · exact hdisjoint w ((holds_scaled h.pos).between hv habove.le (not_lt.mp hle)) hw

end Number

/-! ### Reading decimals -/

namespace Decimal

open Number

theorem coefficient_pos_of_holds {m : ℕ} {q : ℤ} (h : Canonical m q) {d : Decimal}
    (hd : (Target.of m q).Holds d.value) : 0 < d.coefficient := by
  have hpos := pos_of_holds h hd
  rw [value] at hpos
  exact Nat.cast_pos.mp (pos_of_mul_pos_left hpos (by positivity))

/-- The double that a decimal is read as. -/
def toFloat (d : Decimal) : Float := Float.ofModel (.ofScientific d.coefficient d.scale)

/-- A product with a power of ten rounds once, from its exact value. -/
theorem mul_rounds {c : ℕ} (hc : 0 < c) (k : ℕ) : ∃ n e, Rounds (c * 10 ^ k) n e ∧
    UnpackedFloat.roundWithAccuracy .binary64 .positive (c <<< 53 * 10 ^ k) (-53) .exact =
      if hn : n = 0 then .zero .positive else .finite .positive n e (Nat.pos_of_ne_zero hn) := by
  apply roundWithAccuracy_rounds
  · have hunit : (2 : ℚ) ^ (-53 : ℤ) = (2 ^ 53)⁻¹ := by
      rw [zpow_neg]
      norm_cast
    rw [Placed, Nat.shiftLeft_eq, hunit, div_inv_eq_mul]
    push_cast
    ring
  · have hbits : 53 ≤ (c <<< 53 * 10 ^ k).log2 := by
      have hpos : 0 < 10 ^ k := by positivity
      have hle : 2 ^ 53 ≤ c * 2 ^ 53 * 10 ^ k :=
        (Nat.le_mul_of_pos_left _ hc).trans (Nat.le_mul_of_pos_right _ hpos)
      rw [Nat.shiftLeft_eq]
      exact (Nat.le_log2 (by omega)).mpr hle
    rw [targetExponent_eq, totalExponent]
    omega

/-- So does a quotient. -/
theorem div_rounds {c d : ℕ} (hc : 0 < c) (hd : 0 < d) :
    ∃ n e, Rounds (c / d) n e ∧
      UnpackedFloat.roundWithAccuracy .binary64 .positive
        (UnpackedFloat.divCore .binary64 c 0 d 0).1 (UnpackedFloat.divCore .binary64 c 0 d 0).2.1
        (UnpackedFloat.divCore .binary64 c 0 d 0).2.2 =
      if hn : n = 0 then .zero .positive else .finite .positive n e (Nat.pos_of_ne_zero hn) := by
  rw [UnpackedFloat.divCore]
  generalize he : min ((0 : ℤ) - 0)
    (Format.binary64.targetExponent (totalExponent c 0 - totalExponent d 0)) = e
  obtain ⟨k, rfl⟩ : ∃ k : ℕ, e = -k := ⟨(-e).toNat, by omega⟩
  have hshift : ((0 : ℤ) - 0 - -k).toNat = k := by omega
  rw [hshift]
  have hd' : (0 : ℚ) < d := Nat.cast_pos.mpr hd
  apply roundWithAccuracy_rounds
  · have hsplit : ((d * (c <<< k / d) + c <<< k % d : ℕ) : ℚ) = (c <<< k : ℕ) := by
      rw [Nat.div_add_mod]
    have hplace : (c / d / 2 ^ (-k : ℤ) - (c <<< k / d : ℕ) : ℚ) = (c <<< k % d : ℕ) / d := by
      rw [Nat.shiftLeft_eq] at hsplit ⊢
      push_cast at hsplit ⊢
      rw [zpow_neg, zpow_natCast, div_inv_eq_mul, eq_div_iff hd'.ne']
      field_simp
      linarith
    rw [hplace]
    exact placed_accuracyOfFraction (Nat.mod_lt _ hd)
  · rw [targetExponent_eq, totalExponent, totalExponent] at he
    rw [targetExponent_eq, totalExponent]
    rcases le_or_gt (-(k : ℤ)) (-1074) with hlow | hhigh
    · exact le_max_of_le_right hlow
    · -- the quotient has the bits of a mantissa
      have hbits : 52 ≤ (c <<< k / d).log2 := by
        have hk : d.log2 + 53 ≤ c.log2 + k := by omega
        have hle : 2 ^ 52 ≤ c <<< k / d := by
          rw [Nat.le_div_iff_mul_le hd, Nat.shiftLeft_eq]
          calc 2 ^ 52 * d ≤ 2 ^ 52 * 2 ^ (d.log2 + 1) :=
                Nat.mul_le_mul_left _ Nat.lt_log2_self.le
            _ = 2 ^ (d.log2 + 53) := by rw [← pow_add]; congr 1; omega
            _ ≤ 2 ^ (c.log2 + k) := Nat.pow_le_pow_right (by norm_num) hk
            _ = 2 ^ c.log2 * 2 ^ k := pow_add ..
            _ ≤ c * 2 ^ k := Nat.mul_le_mul_right _ (Nat.log2_self_le hc.ne')
        exact (Nat.le_log2 (by omega)).mpr hle
      dsimp only
      omega

/-- A decimal with a scale beyond the range is too large for a double. -/
theorem le_value_of_large {c : ℕ} {s : ℤ} (hc : 0 < c) (hs : 2 ^ 11 < s) :
    2 ^ (1024 : ℤ) ≤ value ⟨c, s⟩ := by
  have hcast : (1 : ℚ) ≤ c := by exact_mod_cast hc
  calc (2 : ℚ) ^ (1024 : ℤ) ≤ 2 ^ s := zpow_le_zpow_right₀ (by norm_num) (by omega)
    _ ≤ 10 ^ s := zpow_le_zpow_left₀ (by omega) (by norm_num) (by norm_num)
    _ ≤ c * 10 ^ s := le_mul_of_one_le_left (by positivity) hcast

/-- A decimal with a scale below the range is too small for a double. -/
theorem value_lt_of_small {c : ℕ} {s : ℤ} (hs : s < -(2 ^ 11 + c.log2)) :
    value ⟨c, s⟩ < 2 ^ (-1075 : ℤ) := by
  have hbits : (c : ℚ) < (2 ^ (c.log2 + 1) : ℕ) := Nat.cast_lt.mpr Nat.lt_log2_self
  have hscale : (10 : ℚ) ^ s ≤ 2 ^ s := by
    obtain ⟨k, rfl⟩ : ∃ k : ℕ, s = -k := ⟨(-s).toNat, by omega⟩
    rw [zpow_neg, zpow_neg, zpow_natCast, zpow_natCast]
    gcongr
    norm_num
  calc (c : ℚ) * 10 ^ s < 2 ^ (c.log2 + 1) * 10 ^ s := by
        push_cast at hbits
        gcongr
    _ ≤ 2 ^ (c.log2 + 1) * 2 ^ s := by gcongr
    _ = 2 ^ ((c.log2 + 1 : ℕ) + s) := by rw [zpow_add₀ (by norm_num), zpow_natCast]
    _ ≤ 2 ^ (-1075 : ℤ) := zpow_le_zpow_right₀ (by norm_num) (by omega)

/-- **Reading.** A decimal is read as a given double exactly if it lies in the interval of the
double. -/
theorem toFloat_eq_iff {x : Float} {m : ℕ} {q : ℤ} {hm : 0 < m}
    (hx : x.toModel.unpack = .finite .positive m q hm) (d : Decimal) :
    d.toFloat = x ↔ (Target.of m q).Holds d.value := by
  obtain ⟨c, s⟩ := d
  have hcanonical := canonical_unpack hx
  -- what the reader cuts short is not read as `x` and lies outside the interval
  have hcut : ∀ u, (ofUnpacked u).toModel.unpack = u → u.isFinite = false ∨ u = .zero .positive →
      ¬ (Target.of m q).Holds (value ⟨c, s⟩) →
      (ofUnpacked u = x ↔ (Target.of m q).Holds (value ⟨c, s⟩)) := by
    intro u hunpack hu hout
    refine iff_of_false (fun h => ?_) hout
    rw [← h, hunpack] at hx
    subst hx
    rcases hu with hu | hu <;> cases hu
  show ofUnpacked (UnpackedFloat.ofScientific .binary64 c s) = x ↔ _
  rw [UnpackedFloat.ofScientific]
  split_ifs with hc hlarge hsmall hs
  case pos =>
      refine hcut _ (unpack_ofUnpacked_zero _) (Or.inr rfl) fun hholds => ?_
      exact (coefficient_pos_of_holds hcanonical hholds).ne' hc
  case pos =>
      refine hcut _ (unpack_ofUnpacked_infinity _) (Or.inl rfl) fun hholds => ?_
      have hhigh := (bounds_of_holds hcanonical hholds).2
      exact absurd hhigh (le_value_of_large (Nat.pos_of_ne_zero hc) hlarge).not_gt
  case pos =>
      refine hcut _ (unpack_ofUnpacked_zero _) (Or.inr rfl) fun hholds => ?_
      have hlow := (bounds_of_holds hcanonical hholds).1
      exact absurd hlow (value_lt_of_small hsmall).not_ge
  case pos =>
      obtain ⟨n, e, hrounds, hresult⟩ := mul_rounds (Nat.pos_of_ne_zero hc) s.toNat
      have hvalue : value ⟨c, s⟩ = c * 10 ^ s.toNat := by
        rw [value, ← zpow_natCast, Int.toNat_of_nonneg hs]
      show ofUnpacked (UnpackedFloat.roundWithAccuracy .binary64 .positive (c <<< 53 * 10 ^ s.toNat)
        (-53) .exact) = x ↔ _
      rw [hresult, hvalue]
      exact ofUnpacked_eq_iff hx hrounds
  case neg =>
      have hpow : 0 < 10 ^ (-s).toNat := by positivity
      obtain ⟨n, e, hrounds, hresult⟩ := div_rounds (Nat.pos_of_ne_zero hc) hpow
      have hvalue : value ⟨c, s⟩ = c / (10 ^ (-s).toNat : ℕ) := by
        rw [value, div_eq_mul_inv, Nat.cast_pow, ← zpow_natCast, ← zpow_neg,
          Int.toNat_of_nonneg (by omega), neg_neg]
        rfl
      show ofUnpacked (UnpackedFloat.roundWithAccuracy .binary64 .positive
        (UnpackedFloat.divCore .binary64 c 0 (10 ^ (-s).toNat) 0).1
        (UnpackedFloat.divCore .binary64 c 0 (10 ^ (-s).toNat) 0).2.1
        (UnpackedFloat.divCore .binary64 c 0 (10 ^ (-s).toNat) 0).2.2) = x ↔ _
      rw [hresult, hvalue]
      exact ofUnpacked_eq_iff hx hrounds

end Decimal

end DynScope
