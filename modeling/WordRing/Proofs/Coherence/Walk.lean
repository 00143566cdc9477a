import WordRing.Proofs.Coherence.Law

/-!
# The walk through the ring

Where successor does what it stands for, the walk from zero stands at the word of `i` after `i`
steps. Up to the number of elements these words are all different, so the walk meets every word
once before it is back at zero, and the law of the full cycle holds.
-/
namespace WordRing

namespace Quantum
variable (q : Quantum)

/-- The words of reduced numbers are different. -/
theorem word_natCast_inj {i j : Nat} (hi : i < q.cycle) (hj : j < q.cycle) :
    q.word i = q.word j ↔ i = j := by
  rw [word_inj, Int.emod_eq_of_lt (Int.natCast_nonneg i) (Int.ofNat_lt.2 hi),
    Int.emod_eq_of_lt (Int.natCast_nonneg j) (Int.ofNat_lt.2 hj), Int.ofNat_inj]

theorem word_cycle : q.word q.cycle = q.zero := by
  rw [← word_emod, Int.emod_self, word_zero]

/-- Every word is the word of a reduced number. -/
theorem exists_word_eq {b : Bytes} (hb : b.length = q.width) :
    ∃ i : Nat, i < q.cycle ∧ q.word i = b :=
  ⟨Bytes.toNat b, q.toNat_lt_cycle hb, q.word_toNat hb⟩

end Quantum

namespace ByteRing
variable {r : ByteRing}

/-! ## Walks along a path -/

section Path
variable (path : Nat → Bytes) {n : Nat}
  (hstep : ∀ i < n, r.unary .succ (path i) = .ok (path (i + 1)))
  (hdifferent : ∀ i < n, ∀ j < n, path i = path j → i = j)
include hstep hdifferent

/-- From a place `k` the walk follows the path. The words noted so far are those before `k`, so each
step notes a new one. -/
theorem walkFrom_path {k steps : Nat} (hbound : k + steps ≤ n) {visited : Std.HashSet Bytes}
    (hsize : visited.size = k) (hvisited : ∀ b ∈ visited, ∃ i < k, b = path i) :
    r.walkFrom steps (path k) visited = .ok (path (k + steps), k + steps) := by
  induction steps generalizing k visited with
  | zero => rw [walkFrom, hsize, Nat.add_zero]
  | succ steps ih =>
    have hnew : path k ∉ visited := by
      intro hmem
      obtain ⟨i, hi, hword⟩ := hvisited _ hmem
      have hik : k = i := hdifferent k (by omega) i (by omega) hword
      omega
    have hrest : r.walkFrom steps (path (k + 1)) (visited.insert (path k)) =
        .ok (path (k + 1 + steps), k + 1 + steps) := by
      refine ih (by omega) ?_ ?_
      · rw [Std.HashSet.size_insert, if_neg hnew, hsize]
      · intro b hb
        rcases Std.HashSet.mem_insert.1 hb with heq | hb
        · exact ⟨k, Nat.lt_succ_self k, (beq_iff_eq.1 heq).symm⟩
        · obtain ⟨i, hi, rfl⟩ := hvisited b hb
          exact ⟨i, Nat.lt_succ_of_lt hi, rfl⟩
    have hsteps : k + 1 + steps = k + (steps + 1) := by omega
    rw [walkFrom, hstep k (by omega), ← hsteps]
    exact hrest

/-- From the start of the path the walk follows it, noting as many words as it takes steps. -/
theorem walkFrom_start {steps : Nat} (hbound : steps ≤ n) :
    r.walkFrom steps (path 0) ∅ = .ok (path steps, steps) := by
  have hnone : ∀ b ∈ (∅ : Std.HashSet Bytes), ∃ i < 0, b = path i :=
    fun b hb => absurd hb Std.HashSet.not_mem_empty
  have hsteps : 0 + steps ≤ n := by omega
  have hwalk := walkFrom_path path hstep hdifferent hsteps Std.HashSet.size_empty hnone
  rwa [Nat.zero_add] at hwalk

end Path

/-- A path of different words from zero back to zero that is as long as the ring is large keeps the
law of the full cycle. -/
theorem cycleViolation?_of_path (path : Nat → Bytes)
    (hstep : ∀ i < r.quantum.cycle, r.unary .succ (path i) = .ok (path (i + 1)))
    (hdifferent : ∀ i < r.quantum.cycle, ∀ j < r.quantum.cycle, path i = path j → i = j)
    (hfirst : path 0 = r.quantum.zero) (hlast : path r.quantum.cycle = r.quantum.zero) :
    r.cycleViolation? = .ok none := by
  have hzero : Bytes.toNat r.quantum.zero = 0 := Bytes.toNat_replicate_zero _
  rw [cycleViolation?, ← hfirst, walkFrom_start path hstep hdifferent (Nat.le_refl _), hlast]
  simp [bind, Except.bind, pure, Except.pure, hzero]

/-! ## Walks by sound successors -/

section Sound
variable (hunary : r.UnarySound)
include hunary

theorem unary_succ_word (k : Nat) :
    r.unary .succ (r.quantum.word k) = .ok (r.quantum.word (k + 1 : Nat)) := by
  rw [hunary .succ _ (r.quantum.length_word k), UnaryOp.apply_word, UnaryOp.residue,
    r.quantum.word_emod, Int.natCast_succ]

/-- The walk from zero stands at the word of `steps` after `steps` steps, with as many words
noted. -/
theorem walkFrom_zero {steps : Nat} (hbound : steps ≤ r.quantum.cycle) :
    r.walkFrom steps r.quantum.zero ∅ = .ok (r.quantum.word steps, steps) := by
  have hwalk := walkFrom_start (fun i => r.quantum.word (i : Nat))
    (fun i _ => unary_succ_word hunary i)
    (fun _ hi _ hj => (r.quantum.word_natCast_inj hi hj).1) hbound
  rwa [Int.natCast_zero, r.quantum.word_zero] at hwalk

theorem walkFrom_cycle :
    r.walkFrom r.quantum.cycle r.quantum.zero ∅ = .ok (r.quantum.zero, r.quantum.cycle) := by
  rw [walkFrom_zero hunary (Nat.le_refl _), r.quantum.word_cycle]

/-- **The walk meets every word once** before it is back at zero. -/
theorem existsUnique_walkFrom_eq {b : Bytes} (hb : b.length = r.quantum.width) :
    ∃! i, i < r.quantum.cycle ∧ r.walkFrom i r.quantum.zero ∅ = .ok (b, i) := by
  obtain ⟨i, hi, rfl⟩ := r.quantum.exists_word_eq hb
  refine ⟨i, ⟨hi, walkFrom_zero hunary hi.le⟩, ?_⟩
  rintro j ⟨hj, hwalk⟩
  rw [walkFrom_zero hunary hj.le] at hwalk
  have hword : r.quantum.word j = r.quantum.word i := congrArg Prod.fst (Except.ok.inj hwalk)
  exact (r.quantum.word_natCast_inj hj hi).1 hword

theorem cycleViolation?_of_sound : r.cycleViolation? = .ok none :=
  cycleViolation?_of_path (fun i => r.quantum.word (i : Nat))
    (fun i _ => unary_succ_word hunary i)
    (fun _ hi _ hj => (r.quantum.word_natCast_inj hi hj).1) r.quantum.word_zero
    r.quantum.word_cycle

end Sound

end ByteRing

end WordRing
