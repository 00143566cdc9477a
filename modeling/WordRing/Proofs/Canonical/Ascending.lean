import Mathlib.Data.Char
import Mathlib.Data.List.Lex
import Mathlib.Data.List.Permutation
import WordRing.Proofs.Canonical.Limit
import WordRing.Proofs.Derivation

/-!
# Constants stand in the order of their values

The order of texts is the lexicographic one, and on numerals of one length it is the order of the
numbers. Reduced constants have numerals of one length at the width of the ring, so sorting
operands by their writing sorts the constants among them by value. A pass reduces all constants
below a node before it sorts the operands of the node; what passes leave is therefore in order at
every node.

## Main definitions

* `Term.ConstantsFirst r ts` — the operands are constants, each related to all later ones, and
  behind them terms that are no constants.
-/
namespace WordRing

/-! ## Texts and numerals -/

namespace Text
variable {a b : List Char}

/-- The order of texts is the lexicographic order. -/
theorem le_eq_false_iff : le b a = false ↔ a < b := by
  induction a generalizing b with
  | nil => cases b <;> simp [le]
  | cons x a ih =>
    cases b with
    | nil => simp [le]
    | cons y b =>
      have hlt : x < y ↔ x.toNat < y.toNat := Iff.rfl
      have heq : x = y ↔ x.toNat = y.toNat := Char.toNat_inj.symm
      rw [List.cons_lt_cons_iff, ← ih, hlt, heq, le, Bool.or_eq_false_iff, Bool.and_eq_false_iff,
        decide_eq_false_iff_not, beq_eq_false_iff_ne]
      grind

theorem lt_iff_le_and_ne : a < b ↔ le a b = true ∧ a ≠ b := by
  rw [← le_eq_false_iff]
  constructor
  · intro h
    refine ⟨(le_total a b).resolve_right (by simp [h]), ?_⟩
    rintro rfl
    simp at h
  · rintro ⟨hle, hne⟩
    exact Bool.eq_false_iff.2 fun h => hne (le_antisymm hle h)

/-- What stands behind two texts of one length does not matter if they differ. -/
theorem append_lt_append (h : a < b) (hlength : a.length = b.length) (s t : List Char) :
    a ++ s < b ++ t := by
  induction a generalizing b with
  | nil =>
    rw [List.length_eq_zero_iff.1 hlength.symm] at h
    exact absurd h (List.lt_irrefl _)
  | cons x a ih =>
    cases b with
    | nil => exact absurd hlength (Nat.succ_ne_zero _)
    | cons y b =>
      rw [List.cons_append, List.cons_append, List.cons_lt_cons_iff]
      rcases List.cons_lt_cons_iff.1 h with hlt | ⟨heq, hrest⟩
      · exact .inl hlt
      · exact .inr ⟨heq, ih hrest (Nat.succ.inj hlength)⟩

end Text

namespace Digits
variable {base count m n : Nat}

theorem digitChar_lt (h : m < n) (hn : n < 16) : digitChar m < digitChar n := by
  have all : ∀ n < 16, ∀ m < n, digitChar m < digitChar n := by decide
  exact all n hn m h

/-- Of two numerals of one length that of the smaller number comes first. The numbers without their
last digits decide, unless they are equal. -/
theorem fixed_lt_fixed (hpos : 0 < base) (hle : base ≤ 16) (h : m < n) (hn : n < base ^ count) :
    fixed base count m < fixed base count n := by
  induction count generalizing m n with
  | zero => exact absurd h (by rw [Nat.pow_zero] at hn; omega)
  | succ count ih =>
    have hquotient : n / base < base ^ count := by
      rw [Nat.pow_succ'] at hn
      exact Nat.div_lt_of_lt_mul hn
    rw [fixed_succ, fixed_succ]
    rcases (Nat.div_le_div_right h.le : m / base ≤ n / base).lt_or_eq with hlt | heq
    · exact Text.append_lt_append (ih hlt hquotient) (by simp) _ _
    · have hlast : m % base < n % base := by
        have hm := Nat.div_add_mod m base
        have hn := Nat.div_add_mod n base
        rw [heq] at hm
        omega
      have hdigit : n % base < 16 := (Nat.mod_lt n hpos).trans_le hle
      rw [heq]
      exact List.append_left_lt (List.Lex.rel (digitChar_lt hlast hdigit))

theorem fixed_lt_fixed_iff (hpos : 0 < base) (hle : base ≤ 16) (hm : m < base ^ count)
    (hn : n < base ^ count) : fixed base count m < fixed base count n ↔ m < n := by
  have hmono : StrictMonoOn (fixed base count) {k | k < base ^ count} :=
    fun _ _ _ hn h => fixed_lt_fixed hpos hle h hn
  exact hmono.lt_iff_lt hm hn

end Digits

namespace Term
variable {q : Quantum} {width : Nat} {m n : Int} {s t : Term} {ts : List Term}

/-! ## Constants in writing -/

theorem written_lt_iff :
    s.written width < t.written width ↔ Text.le (t.text width) (s.text width) = false := by
  rw [written, written, String.lt_iff, String.toList_ofList, String.toList_ofList,
    Text.le_eq_false_iff]

/-- Reduced constants are written in the order of their values. -/
theorem written_const_lt_iff (hm : 0 ≤ m ∧ m < q.cycle) (hn : 0 ≤ n ∧ n < q.cycle) :
    (const m).written q.width < (const n).written q.width ↔ m < n := by
  obtain ⟨m, rfl⟩ := Int.eq_ofNat_of_zero_le hm.1
  obtain ⟨n, rfl⟩ := Int.eq_ofNat_of_zero_le hn.1
  have hm : m < q.cycle := Int.ofNat_lt.1 hm.2
  have hn : n < q.cycle := Int.ofNat_lt.1 hn.2
  have hdigits := Digits.fixed_lt_fixed_iff (by decide) (Nat.le_refl 16)
    (q.cycle_eq_pow_sixteen ▸ hm) (q.cycle_eq_pow_sixteen ▸ hn)
  rw [written_const_of_lt hm, written_const_of_lt hn, Int.ofNat_lt, ← hdigits, String.lt_iff]
  simp

theorem precedes_const_iff (hm : 0 ≤ m ∧ m < q.cycle) (hn : 0 ≤ n ∧ n < q.cycle) :
    Precedes q.width (const m) (const n) ↔ m < n := by
  rw [← written_const_lt_iff hm hn, written_lt_iff, Text.le_eq_false_iff, Text.lt_iff_le_and_ne]
  rfl

theorem before_const_iff (hm : 0 ≤ m ∧ m < q.cycle) (hn : 0 ≤ n ∧ n < q.cycle) :
    before q.width (const m) (const n) = true ↔ m ≤ n := by
  rw [← Int.not_lt, ← written_const_lt_iff hn hm, written_lt_iff, Bool.not_eq_false]
  rfl

/-! ## Constants in operand lists -/

/-- The operands are constants, each related to all later ones, and behind them terms that are no
constants. -/
def ConstantsFirst (r : Int → Int → Prop) (ts : List Term) : Prop :=
  ∃ (ns : List Int) (us : List Term), ts = ns.map const ++ us ∧ ns.Pairwise r ∧
    ∀ u ∈ us, u.isConst = false

/-- An order of operands that puts nothing before constants but constants, and relates those as `r`
does. -/
theorem constantsFirst_of_pairwise {R : Term → Term → Prop} {r : Int → Int → Prop}
    (hts : ts.Pairwise R) (hfirst : ∀ s n, R s (const n) → s.isConst = true)
    (hvalues : ∀ m n, const m ∈ ts → const n ∈ ts → R (const m) (const n) → r m n) :
    ConstantsFirst r ts := by
  induction ts with
  | nil => exact ⟨[], [], rfl, .nil, by simp⟩
  | cons t ts ih =>
    obtain ⟨ht, hrest⟩ := List.pairwise_cons.1 hts
    by_cases hconst : t.isConst = true
    · obtain ⟨m, rfl⟩ := isConst_eq_true.1 hconst
      obtain ⟨ns, us, rfl, hns, hus⟩ := ih hrest fun m n hm hn =>
        hvalues m n (List.mem_cons_of_mem _ hm) (List.mem_cons_of_mem _ hn)
      refine ⟨m :: ns, us, rfl, List.pairwise_cons.2 ⟨?_, hns⟩, hus⟩
      intro n hn
      have hmem : const n ∈ ns.map const ++ us := List.mem_append_left _ (List.mem_map_of_mem hn)
      exact hvalues m n List.mem_cons_self (List.mem_cons_of_mem _ hmem) (ht _ hmem)
    · refine ⟨[], t :: ts, rfl, .nil, ?_⟩
      intro u hu
      rw [Bool.eq_false_iff]
      intro huconst
      obtain ⟨n, rfl⟩ := isConst_eq_true.1 huconst
      rcases List.mem_cons.1 hu with rfl | hu
      · exact hconst rfl
      · exact hconst (hfirst t n (ht _ hu))

theorem isConst_of_before_const (h : before width s (const n) = true) : s.isConst = true := by
  by_cases hs : s.isConst = true
  · exact hs
  · rwa [before_of_isConst_ne hs] at h

/-- Sorting operands by their writing sorts reduced constants by value. -/
theorem constantsFirst_mergeSort (hreduced : ∀ n, const n ∈ ts → 0 ≤ n ∧ n < q.cycle) :
    ConstantsFirst (· ≤ ·) (ts.mergeSort (before q.width)) := by
  refine constantsFirst_of_pairwise (pairwise_mergeSort_before ts)
    (fun s n h => isConst_of_before_const h) ?_
  intro m n hm hn h
  rw [List.mem_mergeSort] at hm hn
  exact (before_const_iff (hreduced m hm) (hreduced n hn)).1 h

/-- Every operand list of a tidy term has its constants in front, in strictly increasing order. -/
theorem Tidy.constantsFirst {op : NaryOp} (h : Tidy q t) (hnode : nary op ts ∈ t.nodes) :
    ConstantsFirst (· < ·) ts := by
  have harranged : Arranged q op ts := h _ hnode
  have hreduced (n : Int) (hn : const n ∈ ts) : 0 ≤ n ∧ n < q.cycle :=
    (((everywhere_nary op ts).1 (Everywhere.of_mem_nodes h hnode)).2 _ hn).root
  refine constantsFirst_of_pairwise harranged.increasing
    (fun s n h => isConst_of_before_const h.1) ?_
  intro m n hm hn
  exact (precedes_const_iff (hreduced m hm) (hreduced n hn)).1

/-- **Sorting by writing sorts reduced constants by value.** At the width of the ring reduced
constants are written in the order of their values, so wherever the constants among the operands of
a node are reduced, sorting puts them in front by value. They are in canonical forms, and after any
run of at least one pass: there the constants of every operand list are in front, in strictly
increasing order. -/
theorem constants_ascend (q : Quantum) :
    (∀ m n : Int, 0 ≤ m ∧ m < q.cycle → 0 ≤ n ∧ n < q.cycle →
      ((const m).written q.width < (const n).written q.width ↔ m < n)) ∧
    (∀ (op : NaryOp) (ts : List Term), (∀ n, const n ∈ ts → 0 ≤ n ∧ n < q.cycle) →
      ∃ us, sortOperands q (nary op ts) = nary op us ∧ us.Perm ts ∧ ConstantsFirst (· ≤ ·) us) ∧
    ∀ (t : Term) (op : NaryOp) (ts : List Term),
      (nary op ts ∈ (t.canonical q).nodes → ConstantsFirst (· < ·) ts) ∧
      ∀ limit : Int, 1 ≤ limit → nary op ts ∈ (t.settleWithin q limit).1.nodes →
        ConstantsFirst (· < ·) ts := by
  refine ⟨fun m n => written_const_lt_iff, ?_, ?_⟩
  · intro op ts hreduced
    exact ⟨_, rfl, List.mergeSort_perm ts _, constantsFirst_mergeSort hreduced⟩
  · intro t op ts
    refine ⟨(tidy_canonical q t).constantsFirst, ?_⟩
    intro limit hlimit hnode
    rw [fst_settleWithin] at hnode
    exact (tidy_iterate_pass q t (by omega)).constantsFirst hnode

/-- Before they are reduced, neither the writings of these constants nor their values are in the
order in which they come to stand. -/
theorem constants_ascend_reduced :
    let x : Term := var ⟨"x", by decide⟩
    let t : Term := nary .xor [x, const 0x110, nary .xor [const (-0xF7), x, x]]
    let ts : List Term := [const 0x09, const 0x10, x]
    ((0 : Int) ≤ 0x09 ∧ (0x09 : Int) < (⟨0⟩ : Quantum).cycle) ∧
    ((0 : Int) ≤ 0x10 ∧ (0x10 : Int) < (⟨0⟩ : Quantum).cycle) ∧
    (const 0x09).written 1 < (const 0x10).written 1 ∧
    (∃ us, sortOperands ⟨0⟩ (nary .xor [x, const 0x10, const 0x09, const 0x10]) = nary .xor us ∧
      us.Perm [x, const 0x10, const 0x09, const 0x10] ∧ ConstantsFirst (· ≤ ·) us) ∧
    nary .xor ts ∈ (t.canonical ⟨0⟩).nodes ∧ (1 : Int) ≤ 2 ∧
    nary .xor ts ∈ (t.settleWithin ⟨0⟩ 2).1.nodes ∧ ConstantsFirst (· < ·) ts := by
  intro x t ts
  obtain ⟨hwritten, hsort, hcanonical⟩ := constants_ascend ⟨0⟩
  have hcycle : (⟨0⟩ : Quantum).cycle = 256 := rfl
  have hreduced : ∀ n, const n ∈ [x, const 0x10, const 0x09, const 0x10] →
      0 ≤ n ∧ n < (⟨0⟩ : Quantum).cycle := by
    intro n hn
    rw [hcycle]
    simp only [x, List.mem_cons, const.injEq, reduceCtorEq, List.not_mem_nil, or_false,
      false_or] at hn
    omega
  have hcanonicalForm : t.canonical ⟨0⟩ = nary .xor ts := by cbv
  have hrun : (t.settleWithin ⟨0⟩ 2).1 = nary .xor ts := by cbv
  have hnode : nary .xor ts ∈ (nary .xor ts).nodes := List.mem_cons_self
  have hfirst := (hcanonical t .xor ts).1 (hcanonicalForm ▸ hnode)
  exact ⟨by decide, by decide, (hwritten 0x09 0x10 (by decide) (by decide)).2 (by decide),
    hsort _ _ hreduced, hcanonicalForm ▸ hnode, by decide, hrun ▸ hnode, hfirst⟩

end Term

end WordRing
