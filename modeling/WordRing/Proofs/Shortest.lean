import Mathlib.Algebra.Order.Field.Power
import Mathlib.Tactic.Linarith
import Mathlib.Tactic.Positivity
import Mathlib.Tactic.Ring
import WordRing.Proofs.Binary64
import WordRing.Proofs.Digits
import WordRing.Text.Shortest

/-!
# Shortest decimals round back

A point of a decimal grid is taken for a magnitude only if it lies in the rounding interval, so the
decimal that is found rounds to the magnitude. One is found, as with seventeen digits the grid is
finer than the interval: a grid that misses it has a step as wide as the interval, which is wider
than the magnitude by the factor `2 ^ -53`.

## Main definitions

* `Shortest.Decimal.value d` — the rational number that a decimal writes.
-/
namespace WordRing.Shortest
open Binary64
variable {rank : Nat} {exponent : Int} {d : Decimal}

/-- The rational number that a decimal writes. -/
def Decimal.value (d : Decimal) : ℚ := d.digits * 10 ^ d.exponent

/-! ## Decimals as fractions -/

theorem down_pos (exponent : Int) : 0 < Nat.pow 10 (-exponent).toNat :=
  Nat.pow_pos (by decide)

/-- A decimal is a fraction with powers of ten in natural numbers. -/
theorem mul_ten_zpow_eq_div (digits : Nat) (exponent : Int) :
    (digits : ℚ) * 10 ^ exponent =
      (digits * Nat.pow 10 exponent.toNat : Nat) / (Nat.pow 10 (-exponent).toNat : Nat) := by
  have hpow (n : Nat) : Nat.pow 10 n = 10 ^ n := rfl
  rw [hpow, hpow]
  obtain ⟨n, rfl | rfl⟩ := exponent.eq_nat_or_neg
  · simp
  · simp [div_eq_mul_inv]

/-- A fraction is contained in the rounding interval exactly if it rounds to the magnitude. -/
theorem contains_iff {num den : Nat} (hden : 0 < den) :
    (Interval.ofRank rank).contains num den = true ↔ RoundsTo rank (num / den) := by
  rw [roundsTo_div_iff hden]
  by_cases hrank : rank % 2 = 0 <;> simp [Interval.contains, Interval.ofRank, hrank]

theorem contains_grid_iff (digits : Nat) (exponent : Int) :
    (Interval.ofRank rank).contains (digits * Nat.pow 10 exponent.toNat)
      (Nat.pow 10 (-exponent).toNat) = true ↔ RoundsTo rank (digits * 10 ^ exponent) := by
  rw [contains_iff (down_pos exponent), mul_ten_zpow_eq_div]

/-! ## Points of a grid -/

/-- A point that is taken from a grid rounds to the magnitude. -/
theorem roundsTo_of_onGrid (h : (Interval.ofRank rank).onGrid exponent = some d) :
    RoundsTo rank d.value := by
  simp only [Interval.onGrid] at h
  split at h
  next hlower hupper =>
    split at h
    all_goals
      obtain rfl := Option.some.inj h
      exact (contains_grid_iff _ _).1 ‹_›
  next hlower _ =>
    obtain rfl := Option.some.inj h
    exact (contains_grid_iff _ _).1 hlower
  next _ hupper =>
    obtain rfl := Option.some.inj h
    exact (contains_grid_iff _ _).1 hupper
  next => cases h

/-- The interval around a magnitude is wider than the magnitude by the factor `2 ^ -52`. -/
theorem two_mul_units_le (hrank : 0 < rank) :
    2 * units rank + 2 ^ 53 * units (rank - 1) ≤ 2 ^ 53 * units (rank + 1) := by
  obtain ⟨below, rfl⟩ := Nat.exists_eq_add_of_le' hrank
  have hunits := units_succ_le below
  have hgap : gap below ≤ gap (below + 1) := gap_le_gap (Nat.le_succ below)
  rw [Nat.add_sub_cancel, units_succ (below + 1), units_succ below] at *
  omega

/-- The magnitude stands between two neighbours on the grid. -/
theorem grid_floor (rank : Nat) (exponent : Int) {lower : Nat}
    (hlower : (Interval.ofRank rank).value * Nat.pow 10 (-exponent).toNat /
      ((Interval.ofRank rank).denominator * Nat.pow 10 exponent.toNat) = lower) :
    (lower : ℚ) * 10 ^ exponent * (2 * scale) ≤ 2 * units rank ∧
      (2 * units rank : ℚ) < (lower + 1) * 10 ^ exponent * (2 * scale) := by
  have hdown : (0 : ℚ) < (Nat.pow 10 (-exponent).toNat : Nat) := Nat.cast_pos.2 (down_pos exponent)
  have hup : (Nat.pow 10 exponent.toNat : Nat) =
      (10 : ℚ) ^ exponent * (Nat.pow 10 (-exponent).toNat : Nat) := by
    have hfraction := mul_ten_zpow_eq_div 1 exponent
    rw [Nat.cast_one, one_mul, Nat.one_mul] at hfraction
    rw [hfraction, div_mul_cancel₀ _ hdown.ne']
  generalize Nat.pow 10 (-exponent).toNat = down at *
  have hunit : 0 < 2 * scale * Nat.pow 10 exponent.toNat :=
    Nat.mul_pos (Nat.mul_pos Nat.two_pos scale_pos) (Nat.pow_pos (by decide))
  generalize Nat.pow 10 exponent.toNat = up at *
  have hle : lower * (2 * scale * up) ≤ 2 * units rank * down := hlower ▸ Nat.div_mul_le_self ..
  have hlt : 2 * units rank * down < (lower + 1) * (2 * scale * up) :=
    (Nat.div_lt_iff_lt_mul hunit).1 (Nat.lt_succ_of_le hlower.le)
  constructor
  · refine le_of_mul_le_mul_right ?_ hdown
    calc
      (lower : ℚ) * 10 ^ exponent * (2 * scale) * down = lower * (2 * scale * up) := by
        rw [hup]
        ring
      _ ≤ 2 * units rank * down := by exact_mod_cast hle
  · refine lt_of_mul_lt_mul_right ?_ hdown.le
    calc
      (2 * units rank : ℚ) * down < (lower + 1) * (2 * scale * up) := by exact_mod_cast hlt
      _ = (lower + 1) * 10 ^ exponent * (2 * scale) * down := by
        rw [hup]
        ring

/-- A grid that is fine enough has a point in the interval. -/
theorem exists_onGrid (hrank : 0 < rank) (h : (10 : ℚ) ^ exponent * 2 ^ 53 < magnitude rank) :
    ∃ d, (Interval.ofRank rank).onGrid exponent = some d := by
  rw [magnitude, lt_div_iff₀ (Nat.cast_pos.2 scale_pos)] at h
  simp only [Interval.onGrid]
  generalize hlower : (Interval.ofRank rank).value * Nat.pow 10 (-exponent).toNat /
    ((Interval.ofRank rank).denominator * Nat.pow 10 exponent.toNat) = lower
  obtain ⟨hbelow, habove⟩ := grid_floor rank exponent hlower
  have hsucc : (units rank : ℚ) < units (rank + 1) :=
    Nat.cast_lt.2 (strictMono_units (Nat.lt_succ_self rank))
  have hpred : (units (rank - 1) : ℚ) < units rank :=
    Nat.cast_lt.2 (strictMono_units (Nat.sub_lt hrank Nat.one_pos))
  split
  · split <;> exact ⟨_, rfl⟩
  · exact ⟨_, rfl⟩
  · exact ⟨_, rfl⟩
  next hmiss hmiss' =>
    -- Both neighbours miss the interval, so a step of the grid is at least as wide.
    have hlow : (lower : ℚ) * 10 ^ exponent * (2 * scale) ≤ units (rank - 1) + units rank := by
      by_contra hlt
      refine absurd ((contains_grid_iff lower exponent).2 (roundsTo_of_lt_of_lt ?_ ?_))
        (Bool.eq_false_iff.1 hmiss)
      · push_cast
        exact not_le.1 hlt
      · push_cast
        linarith
    have hhigh : (units rank + units (rank + 1) : ℚ) ≤
        (lower + 1) * 10 ^ exponent * (2 * scale) := by
      by_contra hlt
      refine absurd ((contains_grid_iff (lower + 1) exponent).2 (roundsTo_of_lt_of_lt ?_ ?_))
        (Bool.eq_false_iff.1 hmiss')
      · push_cast
        linarith
      · push_cast
        exact not_le.1 hlt
    have hwidth : (2 * units rank + 2 ^ 53 * units (rank - 1) : ℚ) ≤ 2 ^ 53 * units (rank + 1) := by
      exact_mod_cast two_mul_units_le hrank
    linarith

/-! ## The number of digits before the point -/

theorem le_leadingZeros {value den fuel : Nat} (h : den ≤ 10 ^ fuel * value) :
    den ≤ 10 ^ (leadingZeros value den fuel + 1) * value := by
  induction fuel generalizing value with
  | zero =>
    rw [Nat.pow_zero, Nat.one_mul] at h
    exact h.trans (Nat.le_mul_of_pos_left _ (Nat.pow_pos (by decide)))
  | succ fuel ih =>
    rw [leadingZeros]
    split
    next hle => rwa [Nat.zero_add, Nat.pow_one]
    next =>
      have hnext : den ≤ 10 ^ (leadingZeros (10 * value) den fuel + 1) * (10 * value) :=
        ih (by rwa [← Nat.mul_assoc, ← Nat.pow_succ])
      rwa [← Nat.mul_assoc, ← Nat.pow_succ] at hnext

/-- A magnitude above zero has the digit that it is found to begin with. -/
theorem ten_zpow_le_magnitude (hrank : 0 < rank) :
    (10 : ℚ) ^ ((Interval.ofRank rank).magnitude - 1) ≤ magnitude rank := by
  have hscale : (0 : ℚ) < scale := Nat.cast_pos.2 scale_pos
  have hunits := units_pos hrank
  rw [magnitude, Interval.magnitude, Interval.ofRank]
  dsimp only
  split
  next hle =>
    have hpos : 2 * units rank / (2 * scale) ≠ 0 :=
      (Nat.div_pos hle (Nat.mul_pos Nat.two_pos scale_pos)).ne'
    have hdigits := Digits.pow_count_le (show 0 < 10 by decide) hpos
    have hcount := Digits.count_pos 10 (2 * units rank / (2 * scale))
    have hexponent : ((Digits.count 10 (2 * units rank / (2 * scale)) : Int) - 1) =
        (Digits.count 10 (2 * units rank / (2 * scale)) - 1 : Nat) := by omega
    rw [hexponent, zpow_natCast, le_div_iff₀ hscale]
    rw [Nat.le_div_iff_mul_le (Nat.mul_pos Nat.two_pos scale_pos)] at hdigits
    have hcast : (10 ^ (Digits.count 10 (2 * units rank / (2 * scale)) - 1) * (2 * scale) : ℚ) ≤
        2 * units rank := by exact_mod_cast hdigits
    linarith
  next =>
    have hleast : 2 * scale ≤ 10 ^ 330 * (2 * units rank) := by
      have hscale : scale ≤ 10 ^ 330 := by decide +kernel
      calc
        2 * scale ≤ 2 * (10 ^ 330 * units rank) :=
          Nat.mul_le_mul_left 2 (hscale.trans (Nat.le_mul_of_pos_right _ hunits))
        _ = 10 ^ 330 * (2 * units rank) := Nat.mul_left_comm ..
    have hzeros := le_leadingZeros hleast
    generalize leadingZeros (2 * units rank) (2 * scale) 330 = zeros at *
    have hcast : (2 * scale : ℚ) ≤ 10 ^ (zeros + 1) * (2 * units rank) := by exact_mod_cast hzeros
    have hexponent : -(zeros : Int) - 1 = -((zeros + 1 : Nat) : Int) := by omega
    rw [hexponent, zpow_neg, zpow_natCast, inv_le_iff_one_le_mul₀ (by positivity),
      div_mul_eq_mul_div, one_le_div hscale]
    linarith

/-! ## Shortest decimals -/

/-- **The shortest decimal rounds to its magnitude**: with seventeen digits at the latest the grid
has a point in the interval. -/
theorem roundsTo_shortest (hrank : 0 < rank) : RoundsTo rank (shortest rank).value := by
  have hten : (10 : ℚ) ≠ 0 := by decide
  have hfine : (10 : ℚ) ^ ((Interval.ofRank rank).magnitude - (16 : Nat) - 1) * 2 ^ 53 <
      magnitude rank := by
    refine lt_of_lt_of_le ?_ (ten_zpow_le_magnitude hrank)
    have hsplit : (Interval.ofRank rank).magnitude - 1 =
        (Interval.ofRank rank).magnitude - (16 : Nat) - 1 + (16 : Nat) := by omega
    conv_rhs => rw [hsplit, zpow_add₀ hten, zpow_natCast]
    exact mul_lt_mul_of_pos_left (by norm_num) (by positivity)
  obtain ⟨d, hd⟩ := exists_onGrid hrank hfine
  rw [shortest]
  cases hfound : (List.range 17).findSome? fun n : Nat =>
      (Interval.ofRank rank).onGrid ((Interval.ofRank rank).magnitude - n - 1) with
  | none =>
    have hnone := List.findSome?_eq_none_iff.1 hfound 16 (by decide)
    exact nomatch hd.symm.trans hnone
  | some d =>
    obtain ⟨n, -, hn⟩ := List.exists_of_findSome?_eq_some hfound
    simpa only [hfound, Option.getD_some] using roundsTo_of_onGrid hn

/-- No decimal that rounds to a magnitude above zero is zero. -/
theorem digits_ne_zero {digits : Nat} (hrank : 0 < rank)
    (h : RoundsTo rank (digits * 10 ^ exponent)) : digits ≠ 0 := by
  rintro rfl
  have hlow := h.le_and_le.1
  have hunits : (0 : ℚ) < units rank := Nat.cast_pos.2 (units_pos hrank)
  have hbelow : (0 : ℚ) ≤ units (rank - 1) := Nat.cast_nonneg _
  push_cast at hlow
  linarith

end WordRing.Shortest
