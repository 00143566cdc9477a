import WordRing.Proofs.Digits
import WordRing.Text.Numeral

/-!
# Reading integers back

An integer in plain decimal is read as the integer that it is: decimal digits are digits of the
first of the scripts, and neither a digit nor the minus sign is a blank.
-/
namespace WordRing.Numeral
open Digits
variable {cs : List Char} {c : Char}

/-- The digits of a decimal have their own values, and nothing else is read in them. -/
theorem digit?_digitChar {d : Nat} (h : d < 10) :
    digit? (digitChar d) = some d ∧ digitChar d ∉ ['_', '-', '+'] ∧
      Text.isBlank (digitChar d) = false := by
  have all : ∀ d < 10, digit? (digitChar d) = some d ∧ digitChar d ∉ ['_', '-', '+'] ∧
      Text.isBlank (digitChar d) = false := by decide
  exact all d h

theorem digitsAfter_cons (h : c ≠ '_') (n : Nat) (cs : List Char) :
    digitsAfter n (c :: cs) = (digit? c).bind fun d => digitsAfter (10 * n + d) cs := by
  rw [digitsAfter]
  exact fun _ _ hc => absurd hc h

/-- Digits are read one after another, so the last one may be read last. -/
theorem digitsAfter_concat (hcs : ∀ c ∈ cs, c ≠ '_') (hc : c ≠ '_') (n : Nat) :
    digitsAfter n (cs ++ [c]) =
      (digitsAfter n cs).bind fun m => (digit? c).map fun d => 10 * m + d := by
  induction cs generalizing n with
  | nil =>
    rw [List.nil_append, digitsAfter_cons hc]
    cases digit? c <;> rfl
  | cons c' cs ih =>
    obtain ⟨hc', hcs⟩ := List.forall_mem_cons.1 hcs
    rw [List.cons_append, digitsAfter_cons hc', digitsAfter_cons hc', Option.bind_assoc]
    exact Option.bind_congr fun d _ => ih hcs _

theorem digitsAfter_fixed (count n m : Nat) :
    digitsAfter m (fixed 10 count n) = some (m * 10 ^ count + n % 10 ^ count) := by
  induction count generalizing n with
  | zero => simp [digitsAfter, Nat.mod_one]
  | succ count ih =>
    have hne : ∀ c ∈ fixed 10 count (n / 10), c ≠ '_' := by
      intro c hc
      obtain ⟨d, hd, rfl⟩ := mem_fixed (by decide) hc
      exact fun h => (digit?_digitChar hd).2.1 (by simp [h])
    obtain ⟨hdigit, hmark, -⟩ := digit?_digitChar (Nat.mod_lt n (by decide : 0 < 10))
    have hvalue : 10 * (m * 10 ^ count + n / 10 % 10 ^ count) + n % 10 =
        m * 10 ^ (count + 1) + n % 10 ^ (count + 1) := by
      rw [Nat.pow_succ', Nat.mod_mul, Nat.mul_left_comm m]
      omega
    rw [fixed_succ, digitsAfter_concat hne (fun h => hmark (by simp [h])), ih, hdigit, ← hvalue]
    rfl

theorem exists_decimal_eq_cons (n : Nat) :
    ∃ d < 10, ∃ rest, decimal n = digitChar d :: rest := by
  cases hdecimal : decimal n with
  | nil => exact absurd hdecimal (signedDecimal_ne_nil n)
  | cons c rest =>
    obtain ⟨d, hd, rfl⟩ := mem_fixed (by decide) (hdecimal ▸ List.mem_cons_self : c ∈ decimal n)
    exact ⟨d, hd, rest, rfl⟩

theorem digits?_decimal (n : Nat) : digits? (decimal n) = some n := by
  have hlt : n < 10 ^ max 1 (count 10 n) := by
    simpa using lt_pow_length_padded (by decide : 2 ≤ 10) 1 n
  have hread : digitsAfter 0 (decimal n) = some n := by
    rw [decimal, padded, digitsAfter_fixed, Nat.mod_eq_of_lt hlt, Nat.zero_mul, Nat.zero_add]
  obtain ⟨d, hd, rest, hfirst⟩ := exists_decimal_eq_cons n
  rw [hfirst, digitsAfter_cons fun h => (digit?_digitChar hd).2.1 (by simp [h])] at hread
  rw [hfirst, digits?, ← hread]
  simp

/-- No blank stands in a decimal. -/
theorem trim_signedDecimal (n : Int) :
    Text.trim Text.isBlank (signedDecimal n) = signedDecimal n := by
  have hdrop (cs : List Char) (h : ∀ c ∈ cs, Text.isBlank c = false) :
      cs.dropWhile Text.isBlank = cs := by
    cases cs with
    | nil => rfl
    | cons c cs => simp [h c List.mem_cons_self]
  have hblank : ∀ c ∈ signedDecimal n, Text.isBlank c = false := by
    intro c hc
    rcases mem_signedDecimal hc with rfl | ⟨d, hd, rfl⟩
    · decide
    · exact (digit?_digitChar hd).2.2
  rw [Text.trim, hdrop _ hblank, hdrop _ (by simpa using hblank), List.reverse_reverse]

/-- **An integer in decimal is read as itself.** -/
theorem parse?_signedDecimal (n : Int) : parse? (String.ofList (signedDecimal n)) = some n := by
  rw [parse?, String.toList_ofList, trim_signedDecimal]
  cases n with
  | negSucc n =>
    rw [signedDecimal]
    simp [digits?_decimal, Int.negSucc_eq]
  | ofNat n =>
    -- The first digit is no sign.
    obtain ⟨d, hd, rest, hfirst⟩ := exists_decimal_eq_cons n
    obtain ⟨-, hmark, -⟩ := digit?_digitChar hd
    have hread : digits? (digitChar d :: rest) = some n := hfirst ▸ digits?_decimal n
    simp only [List.mem_cons, List.not_mem_nil, or_false, not_or] at hmark
    rw [signedDecimal, hfirst]
    split
    next heq => exact absurd (List.cons.inj heq).1 hmark.2.1
    next heq => exact absurd (List.cons.inj heq).1 hmark.2.2
    next => rw [hread]; rfl

end WordRing.Numeral
