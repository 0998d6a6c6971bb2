import Mathlib
import DynScope.Number.Decimal
import DynScope.Proofs.Rounding

/-!
# DynScope.Proofs.Shortest

**The digits of a double.** The decimal that is chosen for a double is read back as that double, no
decimal with fewer digits is, none with as many digits is nearer, and of two that are equally near
it is the larger one (`Decimal.shortest_isShortest`). There is one decimal like that
(`Decimal.IsShortest.unique`).

How it works: a decimal with at most `n` digits that rounds to the double lies on the grid of
decimals with `n` digits, or else below the power of ten that the digits of the double start with;
then that power, which is on the grid, lies between the decimal and the double
(`Decimal.exists_onGrid`). Since the interval of the double has no gaps, it holds a point of a grid
exactly if it holds one of the two neighbours of the double there
(`Decimal.Target.onGrid?_eq_none`, `Decimal.Target.chosen_of_onGrid?`). The grid of seventeen digits
is finer than the interval is wide.
-/

namespace DynScope

open Number

namespace Decimal

/-! ### Intervals and grids -/

namespace Target

variable {t : Target}

/-- The double that the interval is about. -/
def exact (t : Target) : ℚ := t.value * 2 ^ t.unit

theorem exact_of (m : ℕ) (q : ℤ) : (Target.of m q).exact = scaled m q := by
  rw [exact, scaled, Target.of, zpow_sub₀ (by norm_num)]
  push_cast
  ring

theorem value_pos {m : ℕ} (hm : 0 < m) (q : ℤ) : 0 < (Target.of m q).value := by
  show 0 < 4 * m
  omega

theorem holds_exact {m : ℕ} (hm : 0 < m) (q : ℤ) :
    (Target.of m q).Holds (Target.of m q).exact := by
  rw [exact_of]
  exact holds_scaled hm

theorem factors_fst_pos (s r : ℤ) : 0 < (factors s r).1 := by
  rw [factors]
  simp only [Nat.pow_eq]
  positivity

/-- The double lies between its neighbours on a grid. -/
theorem below_spec (t : Target) (s : ℤ) :
    t.below s * 10 ^ s ≤ t.exact ∧ t.exact < (t.below s + 1) * 10 ^ s := by
  obtain ⟨k, hk, hfst, hsnd⟩ := factors_eq s t.unit
  have hpos := factors_fst_pos s t.unit
  rw [below, exact]
  generalize factors s t.unit = f at hfst hsnd hpos
  obtain ⟨a, b⟩ := f
  have hle : ((t.value * b / a * a : ℕ) : ℚ) ≤ (t.value * b : ℕ) :=
    Nat.cast_le.mpr (Nat.div_mul_le_self _ _)
  have hlt : ((t.value * b : ℕ) : ℚ) < ((t.value * b / a + 1) * a : ℕ) :=
    Nat.cast_lt.mpr (Nat.lt_mul_of_div_lt (Nat.lt_succ_self _) hpos)
  dsimp only at hfst hsnd hle hlt ⊢
  generalize t.value * b / a = c at hle hlt
  push_cast at hle hlt
  rw [hfst, hsnd, ← mul_assoc, ← mul_assoc] at hle hlt
  exact ⟨le_of_mul_le_mul_right hle hk, lt_of_mul_lt_mul_right hlt hk.le⟩

/-- The nearer one of two neighbours. -/
theorem nearer_spec {c : ℕ} {s : ℤ} (hle : c * 10 ^ s ≤ t.exact)
    (hlt : t.exact < (c + 1) * 10 ^ s) :
    t.nearer c s = if t.exact - c * 10 ^ s < (c + 1) * 10 ^ s - t.exact then c else c + 1 := by
  obtain ⟨k, hk, hfst, hsnd⟩ := factors_eq s t.unit
  rw [exact] at hle hlt ⊢
  rw [nearer]
  generalize factors s t.unit = f at hfst hsnd
  obtain ⟨a, b⟩ := f
  dsimp only at hfst hsnd ⊢
  have hle' : c * a ≤ t.value * b := by
    rw [← Nat.cast_le (α := ℚ)]
    push_cast
    rw [hfst, hsnd, ← mul_assoc, ← mul_assoc]
    exact mul_le_mul_of_nonneg_right hle hk.le
  have hlt' : t.value * b ≤ (c + 1) * a := by
    rw [← Nat.cast_le (α := ℚ)]
    push_cast
    rw [hfst, hsnd, ← mul_assoc, ← mul_assoc]
    exact mul_le_mul_of_nonneg_right hlt.le hk.le
  have hiff : t.value * b - c * a < (c + 1) * a - t.value * b ↔
      (t.value * 2 ^ t.unit - c * 10 ^ s : ℚ) < (c + 1) * 10 ^ s - t.value * 2 ^ t.unit := by
    rw [← Nat.cast_lt (α := ℚ), Nat.cast_sub hle', Nat.cast_sub hlt']
    push_cast
    rw [hfst, hsnd, ← mul_assoc, ← mul_assoc, ← mul_assoc, ← sub_mul, ← sub_mul,
      mul_lt_mul_iff_left₀ hk]
  simp only [hiff]

/-- The point of the grid lies in the interval, none that does is nearer to the double, and none as
near is larger. -/
structure Chosen (t : Target) (s : ℤ) (c : ℕ) : Prop where
  /-- It lies in the interval. -/
  holds : t.Holds (c * 10 ^ s)
  /-- None is nearer. -/
  nearest : ∀ k : ℕ, t.Holds (k * 10 ^ s) → |c * 10 ^ s - t.exact| ≤ |k * 10 ^ s - t.exact|
  /-- None as near is larger. -/
  larger : ∀ k : ℕ, t.Holds (k * 10 ^ s) → |k * 10 ^ s - t.exact| = |c * 10 ^ s - t.exact| → k ≤ c

/-- A point of the grid lies at the lower neighbour of the double or below, or at the upper one or
above. -/
theorem le_below_or_le (t : Target) (s : ℤ) (k : ℕ) :
    (k : ℚ) * 10 ^ s ≤ t.below s * 10 ^ s ∨ (t.below s + 1) * 10 ^ s ≤ (k : ℚ) * 10 ^ s := by
  have hunit : (0 : ℚ) < 10 ^ s := by positivity
  rcases le_or_gt k (t.below s) with hle | hlt
  · left
    gcongr
  · right
    gcongr
    exact_mod_cast hlt

/-- If neither neighbour lies in the interval, then no point of the grid does. -/
theorem onGrid?_eq_none {s : ℤ} (hexact : t.Holds t.exact) (h : t.onGrid? s = none) (k : ℕ) :
    ¬ t.Holds (k * 10 ^ s) := by
  intro hk
  obtain ⟨hle, hlt⟩ := t.below_spec s
  rw [onGrid?] at h
  rcases t.le_below_or_le s k with hbelow | habove
  · have hneighbour := (t.contains_iff (t.below s) s).mpr (hk.between hexact hbelow hle)
    simp only [hneighbour] at h
    split at h <;> simp_all
  · have hneighbour := (t.contains_iff (t.below s + 1) s).mpr
      (by push_cast; exact hexact.between hk hlt.le habove)
    simp only [hneighbour] at h
    split at h <;> simp_all

/-- The choice is among the neighbours of the double that lie in the interval. -/
theorem onGrid?_eq_some {s : ℤ} {c : ℕ} (h : t.onGrid? s = some c) :
    t.Holds (c * 10 ^ s) ∧
      (c = t.below s ∧ (t.Holds ((t.below s + 1) * 10 ^ s) →
          t.exact - t.below s * 10 ^ s < (t.below s + 1) * 10 ^ s - t.exact) ∨
        c = t.below s + 1 ∧ (t.Holds (t.below s * 10 ^ s) →
          (t.below s + 1) * 10 ^ s - t.exact ≤ t.exact - t.below s * 10 ^ s)) := by
  obtain ⟨hle, hlt⟩ := t.below_spec s
  have hlow := t.contains_iff (t.below s) s
  have hhigh := t.contains_iff (t.below s + 1) s
  push_cast at hhigh
  rw [onGrid?] at h
  cases hl : t.contains (t.below s) s with
  | false =>
      cases hu : t.contains (t.below s + 1) s with
      | false => simp [hl, hu] at h
      | true =>
          obtain rfl : t.below s + 1 = c := by simpa [hl, hu] using h
          refine ⟨by push_cast; exact hhigh.mp hu, Or.inr ⟨rfl, fun hholds => ?_⟩⟩
          exact absurd (hlow.mpr hholds) (by simp [hl])
  | true =>
      cases hu : t.contains (t.below s + 1) s with
      | false =>
          obtain rfl : t.below s = c := by simpa [hl, hu] using h
          refine ⟨hlow.mp hl, Or.inl ⟨rfl, fun hholds => ?_⟩⟩
          exact absurd (hhigh.mpr hholds) (by simp [hu])
      | true =>
          obtain rfl : t.nearer (t.below s) s = c := by simpa [hl, hu] using h
          rw [nearer_spec hle hlt]
          split_ifs with hnear
          · exact ⟨hlow.mp hl, Or.inl ⟨rfl, fun _ => hnear⟩⟩
          · exact ⟨by push_cast; exact hhigh.mp hu, Or.inr ⟨rfl, fun _ => not_lt.mp hnear⟩⟩

/-- What is chosen on a grid is the nearest point there, the larger one of two. -/
theorem chosen_of_onGrid? {s : ℤ} {c : ℕ} (hexact : t.Holds t.exact) (h : t.onGrid? s = some c) :
    t.Chosen s c := by
  obtain ⟨hle, hlt⟩ := t.below_spec s
  have hunit : (0 : ℚ) < 10 ^ s := by positivity
  obtain ⟨hholds, hchoice⟩ := onGrid?_eq_some h
  have hcast : ∀ k n : ℕ, (k : ℚ) * 10 ^ s ≤ n * 10 ^ s → k ≤ n := fun k n hkn =>
    Nat.cast_le.mp (le_of_mul_le_mul_right hkn hunit)
  -- the distances of the points below the double and of those above it
  have hbelow : ∀ k : ℕ, (k : ℚ) * 10 ^ s ≤ t.below s * 10 ^ s →
      |k * 10 ^ s - t.exact| = t.exact - k * 10 ^ s := fun k hk => by
    rw [abs_of_nonpos (by linarith)]
    ring
  have habove : ∀ k : ℕ, (t.below s + 1) * 10 ^ s ≤ (k : ℚ) * 10 ^ s →
      |k * 10 ^ s - t.exact| = k * 10 ^ s - t.exact := fun k hk => abs_of_nonneg (by linarith)
  rcases hchoice with ⟨rfl, hother⟩ | ⟨rfl, hother⟩
  · have hself := hbelow (t.below s) le_rfl
    have hfar : ∀ k : ℕ, t.Holds (k * 10 ^ s) → (t.below s + 1) * 10 ^ s ≤ (k : ℚ) * 10 ^ s →
        t.exact - t.below s * 10 ^ s < k * 10 ^ s - t.exact := fun k hk hle => by
      have := hother (hexact.between hk hlt.le hle)
      linarith
    refine ⟨hholds, fun k hk => ?_, fun k hk heq => ?_⟩
    · rcases t.le_below_or_le s k with hkl | hkg
      · rw [hself, hbelow k hkl]
        linarith
      · rw [hself, habove k hkg]
        exact (hfar k hk hkg).le
    · rcases t.le_below_or_le s k with hkl | hkg
      · exact hcast _ _ hkl
      · rw [hself, habove k hkg] at heq
        exact absurd heq (hfar k hk hkg).ne'
  · have hself := habove (t.below s + 1) (by push_cast; exact le_rfl)
    refine ⟨hholds, fun k hk => ?_, fun k hk heq => ?_⟩
    · rcases t.le_below_or_le s k with hkl | hkg
      · have := hother (hk.between hexact hkl hle)
        rw [hself, hbelow k hkl]
        push_cast
        linarith
      · rw [hself, habove k hkg]
        push_cast
        linarith
    · rcases t.le_below_or_le s k with hkl | hkg
      · exact (hcast _ _ hkl).trans (Nat.le_succ _)
      · rw [hself, habove k hkg] at heq
        exact hcast _ _ (by linarith)

end Target

/-! ### Digits -/

/-- A power of ten, counted in units of another. -/
theorem pow_in_units {e s : ℤ} {k : ℕ} (h : e = s + k) : (10 : ℚ) ^ e = 10 ^ k * 10 ^ s := by
  rw [h, zpow_add₀ (by norm_num), zpow_natCast, mul_comm]

theorem pow_le_of_toDigits {n : ℕ} (hn : 0 < n) :
    10 ^ ((Nat.toDigits 10 n).length - 1) ≤ n ∧ n < 10 ^ (Nat.toDigits 10 n).length := by
  have hpos := @Nat.length_toDigits_pos 10 n
  refine ⟨?_, (Nat.length_toDigits_le_iff (by norm_num) hpos).mp le_rfl⟩
  rcases Nat.eq_or_lt_of_le hpos with hone | hmore
  · rw [← hone]
    exact hn
  · have hmore' : 0 < (Nat.toDigits 10 n).length - 1 := by omega
    exact not_lt.mp ((Nat.length_toDigits_le_iff (by norm_num) hmore').not.mp (by omega))

/-- The decimal exponent of a decimal tells its power of ten. -/
theorem exponent_spec {d : Decimal} (hd : 0 < d.coefficient) :
    10 ^ d.exponent ≤ d.value ∧ d.value < 10 ^ (d.exponent + 1) := by
  have hpos := @Nat.length_toDigits_pos 10 d.coefficient
  obtain ⟨hle, hlt⟩ := pow_le_of_toDigits hd
  have hunit : (0 : ℚ) < 10 ^ d.scale := by positivity
  have hle' : ((10 ^ ((Nat.toDigits 10 d.coefficient).length - 1) : ℕ) : ℚ) ≤ d.coefficient :=
    Nat.cast_le.mpr hle
  have hlt' : (d.coefficient : ℚ) < (10 ^ (Nat.toDigits 10 d.coefficient).length : ℕ) :=
    Nat.cast_lt.mpr hlt
  push_cast at hle' hlt'
  rw [value, exponent, digits]
  constructor
  · calc (10 : ℚ) ^ (d.scale + (Nat.toDigits 10 d.coefficient).length - 1)
        = 10 ^ ((Nat.toDigits 10 d.coefficient).length - 1) * 10 ^ d.scale :=
          pow_in_units (by omega)
      _ ≤ _ := by gcongr
  · calc (d.coefficient : ℚ) * 10 ^ d.scale
        < 10 ^ (Nat.toDigits 10 d.coefficient).length * 10 ^ d.scale := by gcongr
      _ = _ := (pow_in_units (by omega)).symm

/-- So does the decimal exponent of a double. -/
theorem Target.exponent_spec {t : Target} (ht : 0 < t.value) :
    10 ^ t.exponent ≤ t.exact ∧ t.exact < 10 ^ (t.exponent + 1) := by
  -- the double is a decimal whose scale is the number of its binary places
  let places := (-t.unit).toNat
  let d : Decimal := ⟨t.value * 2 ^ t.unit.toNat * 5 ^ places, -places⟩
  have hvalue : d.value = t.exact := by
    have hsplit : t.unit = t.unit.toNat - places := by omega
    have hten : (10 : ℚ) ^ places = 2 ^ places * 5 ^ places := by rw [← mul_pow]; norm_num
    rw [exact, hsplit, zpow_sub₀ (by norm_num), zpow_natCast, zpow_natCast]
    show ((t.value * 2 ^ t.unit.toNat * 5 ^ places : ℕ) : ℚ) * 10 ^ (-(places : ℤ)) = _
    rw [zpow_neg, zpow_natCast, hten]
    push_cast
    field_simp
  have hexponent : d.exponent = t.exponent := by
    show -(places : ℤ) + (Nat.toDigits 10 (t.value * 2 ^ t.unit.toNat * 5 ^ places)).length - 1 =
      (Nat.toDigits 10 (t.value * 2 ^ t.unit.toNat * 5 ^ places)).length - 1 - places
    ring
  rw [← hvalue, ← hexponent]
  exact Decimal.exponent_spec (by positivity)

/-- The number of digits bounds the coefficient. -/
theorem coefficient_lt_of_length_le {d : Decimal} {n : ℕ} (hn : 0 < n) (h : d.digits.length ≤ n) :
    d.coefficient < 10 ^ n :=
  (Nat.length_toDigits_le_iff (by norm_num) hn).mp h

/-! ### The search -/

theorem value_ofGrid (n c : ℕ) (s : ℤ) : (ofGrid n c s).value = c * 10 ^ s := by
  rw [ofGrid]
  split_ifs with hc
  · rw [value, hc, pow_in_units rfl]
    simp [Nat.pow_eq]
  · rfl

theorem length_ofGrid_le {n c : ℕ} (hn : 0 < n) (hc : c ≤ 10 ^ n) (s : ℤ) :
    (ofGrid n c s).digits.length ≤ n := by
  rw [ofGrid]
  simp only [Nat.pow_eq]
  split_ifs with heq
  · have hone : (Nat.toDigits 10 1).length = 1 := rfl
    show (Nat.toDigits 10 1).length ≤ n
    omega
  · have hlt : c < 10 ^ n := by omega
    exact (Nat.length_toDigits_le_iff (by norm_num) hn).mpr hlt

section Search

variable {t : Target} {n : ℕ}

/-- The lower neighbour on the grid of `n` digits has `n` digits. -/
theorem below_bounds (ht : 0 < t.value) (hn : 0 < n) :
    10 ^ (n - 1) ≤ t.below (t.exponent - n + 1) ∧ t.below (t.exponent - n + 1) < 10 ^ n := by
  obtain ⟨hlow, hhigh⟩ := Target.exponent_spec ht
  obtain ⟨hle, hlt⟩ := t.below_spec (t.exponent - n + 1)
  have hunit : (0 : ℚ) < 10 ^ (t.exponent - n + 1) := by positivity
  have hfirst : (10 : ℚ) ^ t.exponent = 10 ^ (n - 1) * 10 ^ (t.exponent - n + 1) :=
    pow_in_units (by omega)
  have hlast : (10 : ℚ) ^ (t.exponent + 1) = 10 ^ n * 10 ^ (t.exponent - n + 1) :=
    pow_in_units (by omega)
  rw [hfirst] at hlow
  rw [hlast] at hhigh
  constructor
  · have hcast := lt_of_mul_lt_mul_right (hlow.trans_lt hlt) hunit.le
    exact Nat.lt_succ_iff.mp (by exact_mod_cast hcast)
  · have hcast := lt_of_mul_lt_mul_right (hle.trans_lt hhigh) hunit.le
    exact_mod_cast hcast

/-- A decimal with at most `n` digits in the interval lies on the grid of `n` digits, or else a
point of the grid is nearer. -/
theorem exists_onGrid (ht : 0 < t.value) (hexact : t.Holds t.exact) (hn : 0 < n) {d : Decimal}
    (hlength : d.digits.length ≤ n) (hd : t.Holds d.value) :
    ∃ k : ℕ, t.Holds (k * 10 ^ (t.exponent - n + 1)) ∧ (d.value = k * 10 ^ (t.exponent - n + 1) ∨
      |k * 10 ^ (t.exponent - n + 1) - t.exact| < |d.value - t.exact|) := by
  obtain ⟨c, s⟩ := d
  rcases le_or_gt (t.exponent - n + 1) s with hle | hlt
  · obtain ⟨k, hk⟩ : ∃ k : ℕ, s = t.exponent - n + 1 + k :=
      ⟨(s - (t.exponent - n + 1)).toNat, by omega⟩
    have hvalue : value ⟨c, s⟩ = (c * 10 ^ k : ℕ) * 10 ^ (t.exponent - n + 1) := by
      rw [value, pow_in_units hk, ← mul_assoc]
      push_cast
      rfl
    exact ⟨c * 10 ^ k, hvalue ▸ hd, Or.inl hvalue⟩
  · -- the decimal lies below the power of ten that the digits of the double start with
    have hlow := (Target.exponent_spec ht).1
    have hpower : ((10 ^ (n - 1) : ℕ) : ℚ) * 10 ^ (t.exponent - n + 1) = 10 ^ t.exponent := by
      push_cast
      exact (pow_in_units (by omega)).symm
    have hsmall : value ⟨c, s⟩ < 10 ^ t.exponent := by
      have hc : (c : ℚ) < (10 ^ n : ℕ) := Nat.cast_lt.mpr (coefficient_lt_of_length_le hn hlength)
      push_cast at hc
      calc (c : ℚ) * 10 ^ s < 10 ^ n * 10 ^ s := by gcongr
        _ = 10 ^ (n + s) := by rw [zpow_add₀ (by norm_num), zpow_natCast]
        _ ≤ 10 ^ t.exponent := zpow_le_zpow_right₀ (by norm_num) (by omega)
    refine ⟨10 ^ (n - 1), hpower ▸ hd.between hexact hsmall.le hlow, Or.inr ?_⟩
    rw [hpower, abs_of_nonpos (by linarith), abs_of_nonpos (by linarith)]
    linarith

/-- If nothing is found on the grid of `n` digits, then no decimal with at most `n` digits lies in
the interval. -/
theorem not_holds_of_withDigits?_eq_none (ht : 0 < t.value) (hexact : t.Holds t.exact) (hn : 0 < n)
    (h : withDigits? t t.exponent n = none) {d : Decimal} (hlength : d.digits.length ≤ n) :
    ¬ t.Holds d.value := by
  intro hd
  obtain ⟨k, hk, -⟩ := exists_onGrid ht hexact hn hlength hd
  rw [withDigits?, Option.map_eq_none_iff] at h
  exact Target.onGrid?_eq_none hexact h k hk

/-- What is found on the grid of `n` digits. -/
structure Found (t : Target) (n : ℕ) (d : Decimal) : Prop where
  /-- It lies in the interval. -/
  holds : t.Holds d.value
  /-- It has at most `n` digits. -/
  length_le : d.digits.length ≤ n
  /-- No decimal with at most `n` digits is nearer. -/
  nearest : ∀ d' : Decimal, t.Holds d'.value → d'.digits.length ≤ n →
    |d.value - t.exact| ≤ |d'.value - t.exact|
  /-- None as near is larger. -/
  larger : ∀ d' : Decimal, t.Holds d'.value → d'.digits.length ≤ n →
    |d'.value - t.exact| = |d.value - t.exact| → d'.value ≤ d.value

theorem found_of_withDigits? (ht : 0 < t.value) (hexact : t.Holds t.exact) (hn : 0 < n)
    {d : Decimal} (h : withDigits? t t.exponent n = some d) : Found t n d := by
  obtain ⟨c, hc, rfl⟩ := Option.map_eq_some_iff.mp h
  have hchosen := Target.chosen_of_onGrid? hexact hc
  have hvalue := value_ofGrid n c (t.exponent - n + 1)
  have hle : c ≤ 10 ^ n := by
    have hbelow := (below_bounds ht hn).2
    rcases (Target.onGrid?_eq_some hc).2 with ⟨rfl, -⟩ | ⟨rfl, -⟩ <;> omega
  refine ⟨hvalue ▸ hchosen.holds, length_ofGrid_le hn hle _, fun d' hd' hlength => ?_,
    fun d' hd' hlength heq => ?_⟩
  · obtain ⟨k, hk, hk'⟩ := exists_onGrid ht hexact hn hlength hd'
    have hnearest := hchosen.nearest k hk
    rw [hvalue]
    rcases hk' with heq | hlt
    · rwa [heq]
    · exact hnearest.trans hlt.le
  · obtain ⟨k, hk, hk'⟩ := exists_onGrid ht hexact hn hlength hd'
    have hnearest := hchosen.nearest k hk
    rw [hvalue] at heq ⊢
    rcases hk' with hon | hlt
    · rw [hon] at heq ⊢
      have hkc := hchosen.larger k hk heq
      gcongr
    · linarith

end Search

/-- Seventeen digits are enough. -/
theorem exists_withDigits? {m : ℕ} {q : ℤ} (h : Canonical m q) :
    ∃ d, withDigits? (Target.of m q) (Target.of m q).exponent 17 = some d := by
  rw [← Option.ne_none_iff_exists', withDigits?, ne_eq, Option.map_eq_none_iff]
  intro hnone
  have hout := Target.onGrid?_eq_none (Target.holds_exact h.pos q) hnone
  obtain ⟨hle, hlt⟩ := (Target.of m q).below_spec ((Target.of m q).exponent - (17 : ℕ) + 1)
  have hlow := (Target.exponent_spec (Target.value_pos h.pos q)).1
  have hpower : (10 : ℚ) ^ (Target.of m q).exponent =
      10 ^ 16 * 10 ^ ((Target.of m q).exponent - (17 : ℕ) + 1) :=
    pow_in_units (by omega)
  rw [hpower, Target.exact_of] at hlow
  rw [Target.exact_of] at hle hlt
  have hbelow := hout ((Target.of m q).below ((Target.of m q).exponent - (17 : ℕ) + 1))
  have habove := hout ((Target.of m q).below ((Target.of m q).exponent - (17 : ℕ) + 1) + 1)
  generalize ((Target.of m q).below ((Target.of m q).exponent - (17 : ℕ) + 1)) = c at *
  generalize (10 : ℚ) ^ ((Target.of m q).exponent - (17 : ℕ) + 1) = g at *
  -- in units of the double, the neighbours lie at the ends of the interval or outside
  have hunit : (0 : ℚ) < 2 ^ q := by positivity
  rw [Target.holds_of_iff h.pos] at hbelow habove
  push_cast at habove
  rw [scaled, ← div_le_iff₀ hunit] at hle
  rw [scaled, ← lt_div_iff₀ hunit] at hlt
  rw [scaled, ← div_le_iff₀ hunit] at hlow
  have hgap : (c + 1) * g / 2 ^ q = c * g / 2 ^ q + g / 2 ^ q := by ring
  have hscale : 10 ^ 16 * g / 2 ^ q = 10 ^ 16 * (g / 2 ^ q) := by ring
  rw [hgap] at habove hlt
  rw [hscale] at hlow
  generalize c * g / 2 ^ q = f at *
  generalize g / 2 ^ q = u at *
  have hfirst : f ≤ m - Target.reach m q := by
    by_contra hgt
    exact hbelow (Or.inl ⟨by linarith, by linarith⟩)
  have hlast : (m : ℚ) + 1 / 2 ≤ f + u := by
    by_contra hgt
    have hreach := Target.reach_pos m q
    exact habove (Or.inl ⟨by linarith, by linarith⟩)
  rw [Target.reach] at hfirst
  have htop : (m : ℚ) < (2 ^ 53 : ℕ) := Nat.cast_lt.mpr h.lt
  push_cast at htop
  split_ifs at hfirst with hstart
  · rw [hstart.1] at hlow hfirst hlast
    push_cast at hlow hfirst hlast
    linarith
  · linarith

/-- The search finds the least number of digits. -/
theorem shortest_spec {m : ℕ} {q : ℤ} (h : Canonical m q) : ∃ n, 0 < n ∧
    withDigits? (Target.of m q) (Target.of m q).exponent n = some (shortest m q) ∧
    ∀ k, 0 < k → k < n → withDigits? (Target.of m q) (Target.of m q).exponent k = none := by
  have hsome : ((List.range' 1 17).findSome?
      (withDigits? (Target.of m q) (Target.of m q).exponent)).isSome := by
    obtain ⟨d, hd⟩ := exists_withDigits? h
    exact List.findSome?_isSome_iff.mpr ⟨17, by simp, by simp [hd]⟩
  obtain ⟨d, hd⟩ := Option.isSome_iff_exists.mp hsome
  have hshortest : shortest m q = d := by
    rw [shortest]
    simp only [hd, Option.getD_some]
  rw [hshortest]
  obtain ⟨before, n, after, hsplit, hn, hbefore⟩ := List.findSome?_eq_some_iff.mp hd
  have hsorted : (before ++ n :: after).Pairwise (· < ·) := hsplit ▸ List.pairwise_lt_range'
  have hmem : n ∈ List.range' 1 17 := hsplit ▸ by simp
  have hrange := List.mem_range'_1.mp hmem
  refine ⟨n, by omega, hn, fun k hk hkn => hbefore k ?_⟩
  have hk' : k ∈ before ++ n :: after := hsplit ▸ List.mem_range'_1.mpr ⟨hk, by omega⟩
  rcases List.mem_append.mp hk' with hin | hin
  · exact hin
  · rcases List.mem_cons.mp hin with rfl | hin
    · exact absurd hkn (lt_irrefl _)
    · have := List.rel_of_pairwise_cons (List.pairwise_append.mp hsorted).2.1 hin
      omega

/-! ### Shortest decimals -/

/-- The decimal is the one that a positive double is written with: it has no zero at the end, it is
read back as the double, no decimal that is has fewer digits, none that has as many is nearer, and
none as near is larger. -/
structure IsShortest (d : Decimal) (x : Float) : Prop where
  /-- It has no zero at the end. -/
  reduced : ¬ 10 ∣ d.coefficient
  /-- It is read back as the double. -/
  reads : d.toFloat = x
  /-- None that is read back has fewer digits. -/
  length_le : ∀ d' : Decimal, d'.toFloat = x → d.digits.length ≤ d'.digits.length
  /-- None with as many digits is nearer. -/
  nearest : ∀ d' : Decimal, d'.toFloat = x → d'.digits.length = d.digits.length →
    ∀ v, value? x = some v → |d.value - v| ≤ |d'.value - v|
  /-- None as near is larger. -/
  larger : ∀ d' : Decimal, d'.toFloat = x → d'.digits.length = d.digits.length →
    ∀ v, value? x = some v → |d'.value - v| = |d.value - v| → d'.value ≤ d.value

/-- A zero at the end can be dropped. -/
theorem drop_zero {d : Decimal} (hd : 0 < d.coefficient) (h : 10 ∣ d.coefficient) :
    ∃ d' : Decimal, d'.value = d.value ∧ d'.digits.length < d.digits.length := by
  obtain ⟨c, s⟩ := d
  obtain ⟨k, rfl⟩ : ∃ k, c = 10 * k := h
  have hk : 0 < k := by
    dsimp only at hd
    omega
  refine ⟨⟨k, s + 1⟩, ?_, ?_⟩
  · rw [value, value, zpow_add_one₀ (by norm_num)]
    push_cast
    ring
  · have hlt := (pow_le_of_toDigits (n := 10 * k) (by omega)).2
    have hlength := @Nat.length_toDigits_pos 10 (10 * k)
    have hmore : 0 < (Nat.toDigits 10 (10 * k)).length - 1 := by
      by_contra hone
      have : (Nat.toDigits 10 (10 * k)).length = 1 := by omega
      rw [this] at hlt
      omega
    have hsplit : 10 ^ (Nat.toDigits 10 (10 * k)).length =
        10 * 10 ^ ((Nat.toDigits 10 (10 * k)).length - 1) := by
      rw [← pow_succ']
      congr 1
      omega
    have hle := (Nat.length_toDigits_le_iff (n := k) (b := 10) (by norm_num) hmore).mpr (by omega)
    show (Nat.toDigits 10 k).length < (Nat.toDigits 10 (10 * k)).length
    omega

/-- **Shortest decimals.** The decimal that is chosen for a positive double is its shortest one. -/
theorem shortest_isShortest {x : Float} {m : ℕ} {q : ℤ} {hm : 0 < m}
    (hx : x.toModel.unpack = .finite .positive m q hm) : (shortest m q).IsShortest x := by
  have h := canonical_unpack hx
  have hexact := Target.holds_exact hm q
  have hvalue := Target.value_pos hm q
  obtain ⟨n, hn, hfind, hnone⟩ := shortest_spec h
  have hfound := found_of_withDigits? hvalue hexact hn hfind
  -- no decimal with fewer than `n` digits lies in the interval
  have hleast : ∀ d : Decimal, (Target.of m q).Holds d.value → n ≤ d.digits.length := by
    intro d hd
    by_contra hlt
    have hpos : 0 < d.digits.length := Nat.length_toDigits_pos
    have hfew := hnone _ hpos (not_le.mp hlt)
    exact not_holds_of_withDigits?_eq_none hvalue hexact hpos hfew le_rfl hd
  have hlength : (shortest m q).digits.length = n :=
    le_antisymm hfound.length_le (hleast _ hfound.holds)
  have hself : ∀ v, value? x = some v → v = (Target.of m q).exact := fun v hv => by
    rw [value?_of_unpack_finite hx] at hv
    rw [Target.exact_of]
    exact (Option.some.inj hv).symm
  refine ⟨fun hten => ?_, (toFloat_eq_iff hx _).mpr hfound.holds, fun d' hd' => ?_,
    fun d' hd' hl v hv => ?_, fun d' hd' hl v hv heq => ?_⟩
  · obtain ⟨d', hsame, hshorter⟩ := drop_zero (coefficient_pos_of_holds h hfound.holds) hten
    have := hleast d' (hsame ▸ hfound.holds)
    omega
  · exact hlength ▸ hleast d' ((toFloat_eq_iff hx _).mp hd')
  · rw [hself v hv]
    exact hfound.nearest d' ((toFloat_eq_iff hx _).mp hd') (by omega)
  · rw [hself v hv] at heq
    exact hfound.larger d' ((toFloat_eq_iff hx _).mp hd') (by omega) heq

/-- Decimals without a zero at the end are known by their value. -/
theorem eq_of_value_eq {d d' : Decimal} (h : ¬ 10 ∣ d.coefficient) (h' : ¬ 10 ∣ d'.coefficient)
    (heq : d.value = d'.value) : d = d' := by
  wlog hle : d.scale ≤ d'.scale generalizing d d'
  · exact (this h' h heq.symm (by omega)).symm
  obtain ⟨c, s⟩ := d
  obtain ⟨c', s'⟩ := d'
  obtain ⟨k, rfl⟩ : ∃ k : ℕ, s' = s + k := ⟨(s' - s).toNat, by dsimp only at hle; omega⟩
  have hcoefficient : c = c' * 10 ^ k := by
    have hunit : (10 : ℚ) ^ s ≠ 0 := by positivity
    rw [value, value, zpow_add₀ (by norm_num), zpow_natCast, mul_comm (10 ^ s : ℚ), ← mul_assoc,
      mul_left_inj' hunit] at heq
    exact_mod_cast heq
  cases k with
  | zero => simp [hcoefficient]
  | succ k =>
      refine absurd ?_ h
      rw [hcoefficient, pow_succ]
      exact Dvd.dvd.mul_left (Dvd.dvd.mul_left (dvd_refl 10) _) _

/-- A double has one shortest decimal. -/
theorem IsShortest.unique {d d' : Decimal} {x : Float} {v : ℚ} (hx : value? x = some v)
    (h : d.IsShortest x) (h' : d'.IsShortest x) : d = d' := by
  have hlength : d'.digits.length = d.digits.length :=
    le_antisymm (h'.length_le d h.reads) (h.length_le d' h'.reads)
  have hnear : |d'.value - v| = |d.value - v| :=
    le_antisymm (h'.nearest d h.reads hlength.symm v hx) (h.nearest d' h'.reads hlength v hx)
  have hvalue : d.value = d'.value :=
    le_antisymm (h'.larger d h.reads hlength.symm v hx hnear.symm)
      (h.larger d' h'.reads hlength v hx hnear)
  exact eq_of_value_eq h.reduced h'.reduced hvalue

end Decimal

end DynScope
