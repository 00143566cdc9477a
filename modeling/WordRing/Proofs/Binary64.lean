import Mathlib.Algebra.Order.Field.Rat
import Mathlib.Data.Nat.Cast.Order.Field
import Mathlib.Data.Nat.Log
import Mathlib.Tactic.Linarith
import Mathlib.Tactic.NormNum
import WordRing.Binary64

/-!
# Rounding to the nearest magnitude

Magnitudes grow from rank to rank by the gap above them, and no gap is smaller than the magnitude
above it by more than the factor `2 ^ 53`. The rationals that round to a rank lie between the middles
to its neighbours, the middles included where the rank is even; rounding a fraction finds that rank.

## Main definitions

* `Binary64.magnitude rank` — the magnitude of a rank as a rational number.
* `Binary64.RoundsTo rank v` — `v` lies between the middles around a magnitude.
-/
namespace WordRing.Binary64
variable {rank n num den : Nat} {v : ℚ}

/-! ## Magnitudes -/

theorem octave_pos : 0 < octave := Nat.two_pow_pos 52

/-- Every rank stands in an octave, the first two of which have one gap. -/
theorem exists_eq_mul_octave_add (rank : Nat) :
    ∃ shift c, rank = shift * octave + c ∧ c < 2 * octave ∧ (shift = 0 ∨ octave ≤ c) := by
  rcases Nat.lt_or_ge rank octave with h | h
  · exact ⟨0, rank, by omega, by omega, .inl rfl⟩
  · have hrest := Nat.mod_lt rank octave_pos
    have hpos : 0 < rank / octave := Nat.div_pos h octave_pos
    obtain ⟨shift, hshift⟩ := Nat.exists_eq_add_of_le' hpos
    refine ⟨shift, octave + rank % octave, ?_, by omega, .inr (Nat.le_add_right _ _)⟩
    have hrank := Nat.div_add_mod rank octave
    rw [hshift, Nat.mul_comm, Nat.add_mul] at hrank
    omega

section Octaves
variable {shift c : Nat}

theorem div_octave (hc : octave ≤ c) (hlt : c < 2 * octave) :
    (shift * octave + c) / octave = shift + 1 ∧
      (shift * octave + c) % octave = c - octave := by
  obtain ⟨rest, rfl⟩ := Nat.exists_eq_add_of_le hc
  have hrest : rest < octave := by omega
  have hsum : shift * octave + (octave + rest) = rest + octave * (shift + 1) := by
    rw [Nat.mul_succ, Nat.mul_comm]
    omega
  rw [hsum, Nat.add_mul_div_left _ _ octave_pos, Nat.add_mul_mod_self_left,
    Nat.div_eq_of_lt hrest, Nat.mod_eq_of_lt hrest]
  omega

theorem gap_of_octave (hlt : c < 2 * octave) (h : shift = 0 ∨ octave ≤ c) :
    gap (shift * octave + c) = 2 ^ shift := by
  rcases Nat.lt_or_ge c octave with hc | hc
  · obtain rfl := h.resolve_right (Nat.not_le.2 hc)
    rw [gap, Nat.zero_mul, Nat.zero_add, Nat.div_eq_of_lt hc]
    rfl
  · rw [gap, (div_octave hc hlt).1]
    rfl

theorem units_of_octave (hlt : c < 2 * octave) (h : shift = 0 ∨ octave ≤ c) :
    units (shift * octave + c) = c * 2 ^ shift := by
  rw [units, gap_of_octave hlt h, significand]
  rcases Nat.lt_or_ge c octave with hc | hc
  · obtain rfl := h.resolve_right (Nat.not_le.2 hc)
    rw [Nat.zero_mul, Nat.zero_add, if_pos hc]
  · rw [if_neg (Nat.not_lt.2 (hc.trans (Nat.le_add_left _ _))), (div_octave hc hlt).2,
      Nat.add_sub_cancel' hc]

end Octaves

@[simp] theorem units_zero : units 0 = 0 := by
  rw [units, significand, if_pos octave_pos, Nat.zero_mul]

theorem gap_pos (rank : Nat) : 0 < gap rank := Nat.two_pow_pos _

/-- The next magnitude stands a gap above. -/
theorem units_succ (rank : Nat) : units (rank + 1) = units rank + gap rank := by
  obtain ⟨shift, c, rfl, hlt, h⟩ := exists_eq_mul_octave_add rank
  rw [units_of_octave hlt h, gap_of_octave hlt h, ← Nat.add_one_mul]
  rcases Nat.lt_or_ge (c + 1) (2 * octave) with hnext | hnext
  · rw [Nat.add_assoc]
    exact units_of_octave hnext (h.imp_right fun hc => hc.trans (Nat.le_succ c))
  · -- The next rank begins another octave.
    have hc : c + 1 = 2 * octave := by omega
    have hrank : shift * octave + c + 1 = (shift + 1) * octave + octave := by
      rw [Nat.add_one_mul]
      omega
    rw [hrank, units_of_octave (by have := octave_pos; omega) (.inr (Nat.le_refl _)), hc,
      Nat.pow_succ', Nat.mul_left_comm, Nat.mul_assoc]

theorem strictMono_units : StrictMono units :=
  strictMono_nat_of_lt_succ fun rank => by
    rw [units_succ]
    exact Nat.lt_add_of_pos_right (gap_pos rank)

theorem units_pos (h : 0 < rank) : 0 < units rank := by
  rw [← units_zero]
  exact strictMono_units h

/-- A magnitude has at most 53 bits in multiples of the gap below it. -/
theorem units_succ_le (rank : Nat) : units (rank + 1) ≤ 2 ^ 53 * gap rank := by
  obtain ⟨shift, c, rfl, hlt, h⟩ := exists_eq_mul_octave_add rank
  have hbound : 2 * octave = 2 ^ 53 := rfl
  rw [units_succ, units_of_octave hlt h, gap_of_octave hlt h, ← Nat.add_one_mul, ← hbound]
  exact Nat.mul_le_mul_right _ hlt

theorem gap_le_gap {rank rank' : Nat} (h : rank ≤ rank') : gap rank ≤ gap rank' := by
  have hquotient : rank / octave ≤ rank' / octave := Nat.div_le_div_right h
  exact Nat.pow_le_pow_right Nat.two_pos (by omega)

/-! ## The rank below a number -/

theorem rankBelow_spec (n : Nat) : units (rankBelow n) ≤ n ∧ n < units (rankBelow n + 1) := by
  have hshift : n < 2 ^ (n.log2 - 52) * (2 * octave) := by
    have hlt : n < 2 ^ (n.log2 + 1) := Nat.lt_log2_self
    have hoctave : 2 ^ (n.log2 - 52) * (2 * octave) = 2 ^ (n.log2 - 52 + 53) := by
      rw [Nat.pow_add]
      rfl
    rw [hoctave]
    exact hlt.trans_le (Nat.pow_le_pow_right Nat.two_pos (by omega))
  have hquotient : n / 2 ^ (n.log2 - 52) < 2 * octave :=
    (Nat.div_lt_iff_lt_mul (Nat.two_pow_pos _)).2 (by rwa [Nat.mul_comm])
  have hfirst : n.log2 - 52 = 0 ∨ octave ≤ n / 2 ^ (n.log2 - 52) := by
    rcases Nat.eq_zero_or_pos (n.log2 - 52) with h | h
    · exact .inl h
    · have hne : n ≠ 0 := by
        rintro rfl
        simp at h
      have hle : 2 ^ n.log2 ≤ n := Nat.log2_self_le hne
      have hoctave : octave * 2 ^ (n.log2 - 52) = 2 ^ n.log2 := by
        have hsum : n.log2 = 52 + (n.log2 - 52) := by omega
        conv_rhs => rw [hsum, Nat.pow_add]
        rfl
      exact .inr ((Nat.le_div_iff_mul_le (Nat.two_pow_pos _)).2 (hoctave ▸ hle))
  have hrank : rankBelow n = (n.log2 - 52) * octave + n / 2 ^ (n.log2 - 52) := rfl
  rw [units_succ, hrank, units_of_octave hquotient hfirst, gap_of_octave hquotient hfirst]
  have hdivision := Nat.div_add_mod' n (2 ^ (n.log2 - 52))
  have hrest := Nat.mod_lt n (Nat.two_pow_pos (n.log2 - 52))
  omega

theorem rankBelow_eq (h : units rank ≤ n) (h' : n < units (rank + 1)) : rankBelow n = rank := by
  obtain ⟨hbelow, habove⟩ := rankBelow_spec n
  have hle : rankBelow n < rank + 1 := strictMono_units.lt_iff_lt.1 (hbelow.trans_lt h')
  have hge : rank < rankBelow n + 1 := strictMono_units.lt_iff_lt.1 (h.trans_lt habove)
  omega

/-! ## Rounding -/

/-- The magnitude of a rank. -/
def magnitude (rank : Nat) : ℚ := units rank / scale

theorem scale_pos : 0 < scale := by decide +kernel

/-- A rational that is nearest to a magnitude: in units of half the least one it lies between the
sums with the neighbours of the magnitude, and on a sum only if the rank is even. -/
def RoundsTo (rank : Nat) (v : ℚ) : Prop :=
  let low : ℚ := (units (rank - 1) + units rank : Nat)
  let high : ℚ := (units rank + units (rank + 1) : Nat)
  if rank % 2 = 0 then low ≤ v * (2 * scale) ∧ v * (2 * scale) ≤ high
  else low < v * (2 * scale) ∧ v * (2 * scale) < high

/-- For a fraction the condition is one on natural numbers. -/
theorem roundsTo_div_iff (hden : 0 < den) : RoundsTo rank (num / den) ↔
    let low := (units (rank - 1) + units rank) * den
    let high := (units rank + units (rank + 1)) * den
    if rank % 2 = 0 then low ≤ num * (2 * scale) ∧ num * (2 * scale) ≤ high
    else low < num * (2 * scale) ∧ num * (2 * scale) < high := by
  have hpos : (0 : ℚ) < den := Nat.cast_pos.2 hden
  simp only [RoundsTo, div_mul_eq_mul_div, le_div_iff₀ hpos, div_le_iff₀ hpos, lt_div_iff₀ hpos,
    div_lt_iff₀ hpos]
  norm_cast

theorem RoundsTo.le_and_le (h : RoundsTo rank v) :
    ((units (rank - 1) + units rank : Nat) : ℚ) ≤ v * (2 * scale) ∧
      v * (2 * scale) ≤ ((units rank + units (rank + 1) : Nat) : ℚ) := by
  rw [RoundsTo] at h
  split at h
  · exact h
  · exact ⟨h.1.le, h.2.le⟩

theorem roundsTo_of_lt_of_lt (h : ((units (rank - 1) + units rank : Nat) : ℚ) < v * (2 * scale))
    (h' : v * (2 * scale) < ((units rank + units (rank + 1) : Nat) : ℚ)) : RoundsTo rank v := by
  rw [RoundsTo]
  split
  · exact ⟨h.le, h'.le⟩
  · exact ⟨h, h'⟩

/-- **Rounding finds the rank that a fraction rounds to.** -/
theorem nearestRank_eq (hden : 0 < den) (h : RoundsTo rank (num / den)) :
    nearestRank num den = rank := by
  rw [roundsTo_div_iff hden] at h
  simp only [Nat.mul_left_comm num 2, Nat.add_mul] at h
  rw [nearestRank]
  generalize num * scale = scaled at h ⊢
  have hstep : units rank * den < units (rank + 1) * den :=
    Nat.mul_lt_mul_of_pos_right (strictMono_units (Nat.lt_succ_self rank)) hden
  rcases Nat.lt_or_ge scaled (units rank * den) with hlt | hge
  · -- From below the fraction comes out at the rank before and is rounded up.
    obtain ⟨below, rfl⟩ : ∃ below, rank = below + 1 := by
      refine Nat.exists_eq_succ_of_ne_zero ?_
      rintro rfl
      rw [units_zero, Nat.zero_mul] at hlt
      exact absurd hlt (Nat.not_lt_zero _)
    have hlast : units below * den < units (below + 1) * den :=
      Nat.mul_lt_mul_of_pos_right (strictMono_units (Nat.lt_succ_self below)) hden
    rw [Nat.add_sub_cancel] at h
    have hrank : rankBelow (scaled / den) = below := by
      refine rankBelow_eq ((Nat.le_div_iff_mul_le hden).2 ?_) ((Nat.div_lt_iff_lt_mul hden).2 hlt)
      split at h <;> omega
    simp only [hrank, Nat.add_mul]
    rw [if_neg]
    split at h <;> omega
  · have hrank : rankBelow (scaled / den) = rank := by
      refine rankBelow_eq ((Nat.le_div_iff_mul_le hden).2 hge) ((Nat.div_lt_iff_lt_mul hden).2 ?_)
      split at h <;> omega
    simp only [hrank, Nat.add_mul]
    rw [if_pos]
    split at h <;> omega

theorem nearest_eq (hden : 0 < den) (hrank : rank < infiniteRank) (h : RoundsTo rank (num / den))
    (negative : Bool) : nearest negative num den = finite negative ⟨rank, hrank⟩ := by
  rw [nearest, nearestRank_eq hden h, ofRank, dif_pos hrank]

end WordRing.Binary64
