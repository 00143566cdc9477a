import WordRing.Proofs.Canonical.Settle

/-!
# What the limit on passes costs

Canonicalizing twice is the same as once exactly for the terms that settle within the limit. Most
do at once, but not all: within a pass a node whose operands cancel down to constants is folded
only by the next pass, and folding it can make operands cancel in the node above. `tower n` stacks
this, one pass a storey, so no limit is enough for every term.
-/
namespace WordRing.Term
variable {q : Quantum} {t : Term} {k : Nat}

/-! ## Canonicalizing twice -/

theorem canonical_eq_iterate (h : SettlesAfter q t k) :
    t.canonical q = (pass q)^[min k passLimit] t := by
  rw [canonical, settle_eq h]
  by_cases hlt : k < passLimit
  · rw [if_pos hlt, Nat.min_eq_left hlt.le]
  · rw [if_neg hlt, Nat.min_eq_right (Nat.not_lt.1 hlt)]

theorem canonical_of_normal (h : Normal q t) : t.canonical q = t := by
  rw [canonical_eq, Function.iterate_fixed (pass_of_normal h)]

theorem passLimit_pos : 1 ≤ passLimit := by decide

/-- A run that comes to a normal term within the limit has come to its end. -/
theorem canonical_eq_of_iterate_eq {u : Term} (hk : k ≤ passLimit) (h : (pass q)^[k] t = u)
    (hu : Normal q u) : t.canonical q = u := by
  obtain ⟨j, hj⟩ := Nat.exists_eq_add_of_le' hk
  rw [canonical_eq, hj, Function.iterate_add_apply, h, Function.iterate_fixed (pass_of_normal hu)]

theorem canonical_eq_of_pass_eq {u : Term} (h : t.pass q = u) (hu : Normal q u) :
    t.canonical q = u := canonical_eq_of_iterate_eq passLimit_pos h hu

theorem normal_canonical_of_iterate (hk : k ≤ passLimit) (h : Normal q ((pass q)^[k] t)) :
    Normal q (t.canonical q) := by
  rwa [canonical_eq_of_iterate_eq hk rfl h]

theorem isConst_iterate_pass (h : t.isConst = true) (k : Nat) :
    ((pass q)^[k] t).isConst = true := by
  induction k generalizing t with
  | zero => exact h
  | succ k ih =>
    obtain ⟨n, rfl⟩ := isConst_eq_true.1 h
    exact ih rfl

theorem iterate_pass_canonical (h : Normal q (t.canonical q)) (k : Nat) :
    (pass q)^[passLimit] ((pass q)^[k] t) = t.canonical q := by
  rw [← Function.iterate_add_apply, Nat.add_comm, Function.iterate_add_apply, ← canonical_eq,
    Function.iterate_fixed (pass_of_normal h)]

/-- A constant on the way is one at the end. -/
theorem isConst_canonical_of_iterate (h : Normal q (t.canonical q)) {k : Nat}
    (hconst : ((pass q)^[k] t).isConst = true) : (t.canonical q).isConst = true := by
  rw [← iterate_pass_canonical h k]
  exact isConst_iterate_pass hconst _

/-- Canonicalization is a pass and the further ones that are left. -/
theorem canonical_eq_iterate_pass (q : Quantum) (t : Term) :
    t.canonical q = (pass q)^[passLimit - 1] (t.pass q) := canonical_eq q t

theorem canonical_eq_iterate_pass_pass (q : Quantum) (t : Term) :
    t.canonical q = (pass q)^[passLimit - 2] ((t.pass q).pass q) := canonical_eq q t

/-- What canonicalization answers is tidy, whether or not it reaches a normal form. -/
theorem tidy_canonical (q : Quantum) (t : Term) : Tidy q (t.canonical q) := by
  rw [canonical_eq]
  exact tidy_iterate_pass q t passLimit_pos

theorem nodeCount_iterate_pass_le (h : Tidy q t) (m : Nat) :
    ((pass q)^[m] t).nodeCount ≤ t.nodeCount := by
  induction m generalizing t with
  | zero => exact Nat.le_refl _
  | succ m ih =>
    rw [Function.iterate_succ_apply]
    refine (ih (tidy_pass q t)).trans ?_
    rcases normal_or_nodeCount_pass_lt h with hnormal | hlt
    · rw [pass_of_normal hnormal]
    · exact hlt.le

/-- Canonicalization leaves no tidy term alone but the normal ones: passes only take nodes away,
so a change is not undone later. -/
theorem canonical_eq_self_iff (h : Tidy q t) : t.canonical q = t ↔ Normal q t := by
  constructor
  · intro heq
    rcases normal_or_nodeCount_pass_lt h with hnormal | hlt
    · exact hnormal
    · have hle := nodeCount_iterate_pass_le (tidy_pass q t) (passLimit - 1)
      rw [← canonical_eq_iterate_pass, heq] at hle
      omega
  · exact canonical_of_normal

theorem normal_canonical_iff : Normal q (t.canonical q) ↔ ∃ k ≤ passLimit, SettlesAfter q t k := by
  constructor
  · intro hnormal
    obtain ⟨k, -, hsettles⟩ := exists_settlesAfter q t
    refine ⟨k, ?_, hsettles⟩
    by_contra hle
    have hlt : passLimit < k := Nat.not_le.1 hle
    rw [canonical_eq_iterate hsettles, Nat.min_eq_right hlt.le] at hnormal
    exact hsettles.changing passLimit hlt (pass_of_normal hnormal)
  · rintro ⟨k, hk, hsettles⟩
    rw [canonical_eq_iterate hsettles, Nat.min_eq_left hk]
    exact hsettles.normal

/-- **Canonicalizing twice is the same as once exactly for the terms that settle within the
limit** of a hundred passes; these are the terms whose canonical form is normal, and all terms of
at most a hundred nodes, successors and predecessors counted twice, are among them. -/
theorem canonical_canonical_eq_iff (q : Quantum) (t : Term) :
    ((t.canonical q).canonical q = t.canonical q ↔ ∃ k ≤ 100, SettlesAfter q t k) ∧
    ((t.canonical q).canonical q = t.canonical q ↔ Normal q (t.canonical q)) ∧
    ((t.canonical q).canonical q = t.canonical q ∨
      100 < t.nodeCount + (t.occurrences (.unary .succ) + t.occurrences (.unary .pred))) := by
  have hnormal := canonical_eq_self_iff (tidy_canonical q t)
  have hsettles : (t.canonical q).canonical q = t.canonical q ↔ ∃ k ≤ 100, SettlesAfter q t k :=
    hnormal.trans normal_canonical_iff
  refine ⟨hsettles, hnormal, ?_⟩
  by_cases hsize : t.nodeCount + t.derivedCount ≤ 100
  · obtain ⟨k, hk, hk'⟩ := exists_settlesAfter q t
    exact .inl (hsettles.2 ⟨k, hk.trans hsize, hk'⟩)
  · exact .inr (Nat.not_le.1 hsize)

/-! ## Terms that settle slowly -/

/-- The variable in the towers. -/
def towerVar : Term := var ⟨"y", by decide⟩

/-- What each storey becomes once the storeys below it are folded. -/
def towerStone : Term := nary .and [const 3, towerVar]

/-- The ground floor folds to the constant 3. Each storey hides the floor below it in an operand
that cancels against the stone once that floor is folded, and then holds two constants again. -/
def tower : Nat → Term
  | 0 => nary .xor [const 1, const 2]
  | n + 1 => nary .xor [const 1, const 2, towerStone, nary .and [towerVar, tower n]]

theorem isNaryOf_tower (n : Nat) : (tower n).isNaryOf .and = false := by cases n <;> rfl

theorem isConst_tower (n : Nat) : (tower n).isConst = false := by cases n <;> rfl

theorem head_text_tower (n : Nat) : ∃ rest, (tower n).text 1 = 'x' :: rest := by
  cases n <;> exact ⟨_, rfl⟩

theorem precedes_tower (n : Nat) : Precedes 1 towerVar (tower n) := by
  obtain ⟨rest, htext⟩ := head_text_tower n
  have hconst : towerVar.isConst = (tower n).isConst := (isConst_tower n).symm
  refine ⟨?_, ?_⟩
  · rw [before_of_isConst_eq hconst, htext]
    rfl
  · rw [htext]
    exact fun h => absurd (List.cons.inj h).1 (by decide)

/-- The hidden operand of a storey is normal as long as its floor is none of a constant's. -/
theorem normalNode_hidden (n : Nat) : NormalNode ⟨0⟩ (nary .and [towerVar, tower n]) := by
  have hsuits : Suits ⟨0⟩ .and (tower n) := by
    refine ⟨isNaryOf_tower n, ?_, ?_⟩
    · cases n <;> exact fun h => nomatch h
    · cases n <;> exact fun _ _ h => nomatch h
  refine ⟨⟨Nat.le_refl 2, ?_, ?_⟩, towerVar, List.mem_cons_self, rfl⟩
  · simp only [List.forall_mem_cons, List.not_mem_nil, false_implies, implies_true, and_true]
    exact ⟨by decide, hsuits⟩
  · have hincreasing : [towerVar, tower n].Pairwise (Precedes 1) :=
      List.pairwise_pair.2 (precedes_tower n)
    exact hincreasing

theorem normalNode_storey (n : Nat) : NormalNode ⟨0⟩ (tower (n + 1)) := by
  have hstone : Precedes 1 towerStone (nary .and [towerVar, tower n]) := by
    refine precedes_iff.2 ⟨rfl, ?_⟩
    intro h
    exact nomatch (List.cons.inj (nary.inj h).2).1
  have hconst (c : Int) : Precedes 1 (const c) (nary .and [towerVar, tower n]) :=
    precedes_iff.2 ⟨rfl, fun h => nomatch h⟩
  have hsuits : Suits ⟨0⟩ .xor (nary .and [towerVar, tower n]) :=
    ⟨rfl, (fun h => nomatch h), (fun _ ha => nomatch ha)⟩
  refine ⟨⟨Nat.le_add_left 2 2, ?_, ?_⟩, towerStone, by simp, rfl⟩
  · simp only [List.forall_mem_cons, List.not_mem_nil, false_implies, implies_true, and_true]
    exact ⟨by decide, by decide, by decide, hsuits⟩
  · have hlow : [const 1, const 2, towerStone].Pairwise (Precedes 1) := by decide
    have hlast : ∀ s ∈ [const 1, const 2, towerStone],
        Precedes 1 s (nary .and [towerVar, tower n]) := by
      simp only [List.forall_mem_cons, List.not_mem_nil, false_implies, implies_true, and_true]
      exact ⟨hconst 1, hconst 2, hstone⟩
    have hincreasing : ([const 1, const 2, towerStone] ++
        [nary .and [towerVar, tower n]]).Pairwise (Precedes 1) :=
      List.pairwise_append.2 ⟨hlow, List.pairwise_singleton _ _,
        fun s hs u hu => List.mem_singleton.1 hu ▸ hlast s hs⟩
    exact hincreasing

theorem pass_tower_zero : (tower 0).pass ⟨0⟩ = const 3 := by
  have hfold : Rule.applyAll ⟨0⟩ (nary .xor [const 1, const 2]) = const 3 := by decide
  rw [tower, pass_nary]
  exact hfold

/-- On a constant floor the hidden operand becomes a stone: its operands change places. -/
theorem applyAll_hidden_const :
    Rule.applyAll ⟨0⟩ (nary .and [towerVar, const 3]) = towerStone := by
  have hswap : ([towerVar, const 3].flatMap (spliced .and)).Perm [const 3, towerVar] :=
    List.Perm.swap _ _ _
  rw [applyAll_nary_of_perm ⟨towerVar, by simp, rfl⟩ hswap (by decide)]
  decide

/-- Two stones cancel. -/
theorem applyAll_stones :
    Rule.applyAll ⟨0⟩ (nary .xor [const 1, const 2, towerStone, towerStone]) = tower 0 := by
  rw [applyAll_nary_of_perm ⟨towerStone, by simp, rfl⟩ (List.Perm.refl _) (by decide)]
  decide

/-- A pass takes one storey off a tower. -/
theorem pass_tower_succ (n : Nat) : (tower (n + 1)).pass ⟨0⟩ = tower n := by
  have hvar : towerVar.pass ⟨0⟩ = towerVar := rfl
  have hstone : towerStone.pass ⟨0⟩ = towerStone := pass_of_normal (by decide)
  have hhidden (t : Term) : (nary .and [towerVar, t]).pass ⟨0⟩ =
      Rule.applyAll ⟨0⟩ (nary .and [towerVar, t.pass ⟨0⟩]) := by
    rw [pass_nary, List.map_cons, List.map_singleton, hvar]
  have hstorey (n : Nat) : (tower (n + 1)).pass ⟨0⟩ = Rule.applyAll ⟨0⟩
      (nary .xor [const 1, const 2, towerStone, (nary .and [towerVar, tower n]).pass ⟨0⟩]) := by
    rw [tower, pass_nary, List.map_cons, List.map_cons, List.map_cons, List.map_singleton, hstone]
    rfl
  induction n with
  | zero =>
    rw [hstorey, hhidden, pass_tower_zero, applyAll_hidden_const]
    exact applyAll_stones
  | succ n ih =>
    rw [hstorey, hhidden, ih, applyAll_of_normalNode (normalNode_hidden n)]
    exact applyAll_of_normalNode (normalNode_storey n)

/-- **No number of passes is enough for every term**: a tower takes one for each storey and one
for the ground floor. -/
theorem settlesAfter_tower (n : Nat) : SettlesAfter ⟨0⟩ (tower n) (n + 1) := by
  induction n with
  | zero =>
    refine settlesAfter_succ.2 ⟨?_, settlesAfter_zero.2 ?_⟩
    · rw [pass_tower_zero]
      exact fun h => nomatch h
    · rw [pass_tower_zero]
      rfl
  | succ n ih =>
    refine settlesAfter_succ.2 ⟨?_, ?_⟩
    · rw [pass_tower_succ]
      intro heq
      have hfixed : (tower n).pass ⟨0⟩ = tower n := by
        conv_lhs => rw [heq]
        exact pass_tower_succ n
      exact (settlesAfter_succ.1 ih).1 hfixed
    · rw [pass_tower_succ]
      exact ih

theorem iterate_pass_tower (m n : Nat) : (pass ⟨0⟩)^[m] (tower (n + m)) = tower n := by
  induction m with
  | zero => rfl
  | succ m ih => rw [Function.iterate_succ_apply, ← Nat.add_assoc, pass_tower_succ, ih]

/-- **Canonicalization is not idempotent**: a tower of a hundred storeys stops at its ground floor,
which canonicalizes further. -/
theorem canonical_canonical_tower_ne :
    (tower 100).canonical ⟨0⟩ = nary .xor [const 1, const 2] ∧
    (nary .xor [const 1, const 2]).canonical ⟨0⟩ = const 3 ∧
    ((tower 100).canonical ⟨0⟩).canonical ⟨0⟩ ≠ (tower 100).canonical ⟨0⟩ := by
  have hstop : (tower 100).canonical ⟨0⟩ = nary .xor [const 1, const 2] := by
    rw [canonical_eq_iterate (settlesAfter_tower 100)]
    exact iterate_pass_tower 100 0
  have hfloor : (nary .xor [const 1, const 2]).canonical ⟨0⟩ = const 3 := by
    have hone := canonical_eq_iterate (settlesAfter_tower 0)
    exact hone.trans pass_tower_zero
  refine ⟨hstop, hfloor, ?_⟩
  rw [hstop, hfloor]
  exact fun h => nomatch h

end WordRing.Term
