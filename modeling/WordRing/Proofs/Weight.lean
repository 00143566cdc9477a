import Mathlib.Data.List.Perm.Basic
import WordRing.Evaluation
import WordRing.Proofs.Operands
import WordRing.Proofs.Word

/-!
# Weighing operands

A weight puts a word of the ring on every term, and an operand list then has a total under an
operator. The total does not see the order of the operands, nor most of what the rules do to a
list: copies may be cancelled under any weight, and identities dropped or an annihilator answered
alone as soon as the weight puts on these constants the words that they write. The value of a term
is one such weight; others single out the constants of a list, or one operand in it.

## Main definitions

* `Weight q` — a word of the ring for every term.
* `w.total op ts` — the total of an operand list.
-/
namespace WordRing

theorem Term.start_eq (q : Quantum) (op : NaryOp) :
    ByteRing.start q op = q.word (op.identity q) := by
  cases op with
  | xor => rfl
  | and => rfl
  | or => rfl

/-! ## Marks -/

namespace NaryOp
variable {q : Quantum} {op : NaryOp}

/-- A word that shows in every total: the annihilator of an operator that has one, and a word other
than the identity under exclusive or. -/
def mark (q : Quantum) : NaryOp → Bytes
  | xor => q.ones
  | and => q.zero
  | or => q.ones

@[simp] theorem length_mark (op : NaryOp) : (op.mark q).length = q.width := by
  cases op <;> simp [mark]

theorem word_annihilator {a : Nat} (ha : a ∈ op.annihilator? q) : q.word a = op.mark q := by
  cases op with
  | xor => simp [annihilator?] at ha
  | and =>
    obtain rfl : 0 = a := Option.some_inj.1 ha
    exact q.word_zero
  | or =>
    obtain rfl : q.mask = a := Option.some_inj.1 ha
    exact q.word_mask

theorem exists_word_annihilator (q : Quantum) (hop : op ≠ xor) :
    ∃ a ∈ op.annihilator? q, q.word a = op.mark q := by
  cases op with
  | xor => exact absurd rfl hop
  | and => exact ⟨0, rfl, word_annihilator rfl⟩
  | or => exact ⟨q.mask, rfl, word_annihilator rfl⟩

theorem mark_ne_identity (q : Quantum) (op : NaryOp) : op.mark q ≠ q.word (op.identity q) := by
  have hne : q.zero ≠ q.ones := by
    intro h
    exact absurd (List.cons.inj h).1 (by decide)
  rw [word_identity]
  cases op with
  | xor => exact hne.symm
  | and => exact hne
  | or => exact hne.symm

/-- A mark changes every total but one that shows it already. -/
theorem apply_mark_ne {b : Bytes} (hb : b.length = q.width) (hclear : op = xor ∨ b ≠ op.mark q) :
    op.apply (op.mark q) b ≠ b := by
  intro heq
  by_cases hop : op = xor
  · subst hop
    have hself : xor.apply b b = q.word (xor.identity q) := apply_xor_self hb
    have hmark : xor.mark q = q.word (xor.identity q) := calc
      xor.mark q = xor.apply (xor.mark q) (q.word (xor.identity q)) :=
        (xor.apply_identity xor.length_mark).symm
      _ = xor.apply (xor.apply (xor.mark q) b) b := by rw [← hself, apply_assoc]
      _ = q.word (xor.identity q) := by rw [heq, hself]
    exact mark_ne_identity q xor hmark
  · obtain ⟨a, ha, hword⟩ := exists_word_annihilator q hop
    rw [← hword, op.apply_comm, op.apply_annihilator hb ha, hword] at heq
    exact hclear.resolve_left hop heq.symm

end NaryOp

/-! ## Weights -/

/-- A word of the ring for every term. -/
structure Weight (q : Quantum) where
  word : Term → Bytes
  length_word : ∀ t, (word t).length = q.width

namespace Weight
open Term
variable {q : Quantum} {op : NaryOp} {t : Term} {ts us : List Term}

instance : CoeFun (Weight q) fun _ => Term → Bytes := ⟨Weight.word⟩

variable (w : Weight q)

@[simp] theorem length_apply (t : Term) : (w t).length = q.width := w.length_word t

/-- The total of an operand list under an operator. -/
def total (op : NaryOp) (ts : List Term) : Bytes := (ts.map w).foldl op.apply (ByteRing.start q op)

@[simp] theorem length_total (op : NaryOp) (ts : List Term) :
    (w.total op ts).length = q.width := by
  refine op.length_foldl_apply (by rw [start_eq, q.length_word]) ?_
  intro b hb
  obtain ⟨t, -, rfl⟩ := List.mem_map.1 hb
  exact w.length_word t

/-! ## Lists -/

@[simp] theorem total_nil (op : NaryOp) : w.total op [] = q.word (op.identity q) := start_eq q op

/-- Operands are taken in one after another, and it does not matter from which end. -/
@[simp] theorem total_cons (op : NaryOp) (t : Term) (ts : List Term) :
    w.total op (t :: ts) = op.apply (w t) (w.total op ts) := by
  rw [total, List.map_cons, List.foldl_cons, op.apply_comm, List.foldl_assoc, total]

theorem total_singleton (op : NaryOp) (t : Term) : w.total op [t] = w t := by
  rw [total_cons, total_nil, op.apply_identity (w.length_word t)]

theorem total_append (op : NaryOp) (ts us : List Term) :
    w.total op (ts ++ us) = op.apply (w.total op ts) (w.total op us) := by
  induction ts with
  | nil =>
    rw [List.nil_append, total_nil, op.apply_comm, op.apply_identity (w.length_total op us)]
  | cons t ts ih => rw [List.cons_append, total_cons, total_cons, ih, op.apply_assoc]

/-- The order of operands does not matter. -/
theorem total_perm (h : ts.Perm us) : w.total op ts = w.total op us :=
  (h.map w).foldl_eq (ByteRing.start q op)

theorem total_congr {w' : Weight q} (h : ∀ t ∈ ts, w t = w' t) :
    w.total op ts = w'.total op ts := by
  rw [total, List.map_congr_left h, total]

/-! ## Identities and annihilators -/

/-- Operands of the weight of an identity may be dropped. -/
theorem total_filter (p : Term → Bool) (h : ∀ t ∈ ts, p t = false → w t = q.word (op.identity q)) :
    w.total op (ts.filter p) = w.total op ts := by
  induction ts with
  | nil => rfl
  | cons t ts ih =>
    have hrest := ih fun u hu => h u (List.mem_cons_of_mem t hu)
    cases hp : p t with
    | true => rw [List.filter_cons_of_pos hp, total_cons, total_cons, hrest]
    | false =>
      rw [List.filter_cons_of_neg (by simp [hp]), hrest, total_cons, h t List.mem_cons_self hp,
        op.apply_comm, op.apply_identity (w.length_total op ts)]

theorem total_of_forall_identity (h : ∀ t ∈ ts, w t = q.word (op.identity q)) :
    w.total op ts = q.word (op.identity q) := by
  have hnone := w.total_filter (fun _ => false) fun t ht _ => h t ht
  rw [← hnone, List.filter_false, total_nil]

/-- An operand of the weight of an annihilator decides the total alone. -/
theorem total_of_mem {a : Nat} (ha : a ∈ op.annihilator? q) (hmem : t ∈ ts)
    (ht : w t = q.word a) : w.total op ts = q.word a := by
  rw [w.total_perm (List.perm_cons_erase hmem), total_cons, op.apply_comm, ht,
    op.apply_annihilator (w.length_total op _) ha]

/-! ## Copies -/

/-- Outside exclusive or an operand that is there already takes its copies with it. -/
theorem apply_total_filter_ne (hop : op ≠ .xor) (t : Term) (ts : List Term) :
    op.apply (w t) (w.total op (ts.filter (· ≠ t))) = op.apply (w t) (w.total op ts) := by
  induction ts with
  | nil => rfl
  | cons u ts ih =>
    by_cases h : u = t
    · rw [List.filter_cons_of_neg (by simpa using h), ih, total_cons, h, ← op.apply_assoc,
        op.apply_self hop]
    · rw [List.filter_cons_of_pos (by simpa using h), total_cons, total_cons, ← op.apply_assoc,
        op.apply_comm (w t), op.apply_assoc, ih, ← op.apply_assoc, op.apply_comm (w u),
        op.apply_assoc]

theorem total_distinct (hop : op ≠ .xor) (ts : List Term) :
    w.total op (distinct ts) = w.total op ts := by
  induction ts with
  | nil => rfl
  | cons t ts ih => rw [distinct, total_cons, total_cons, apply_total_filter_ne w hop, ih]

/-- An operand of a list without repetitions stands beside the others. -/
theorem total_eq_apply_filter_ne (hnodup : ts.Nodup) (hmem : t ∈ ts) :
    w.total op ts = op.apply (w t) (w.total op (ts.filter (· ≠ t))) := by
  have herase : ts.erase t = ts.filter (· ≠ t) := by
    rw [hnodup.erase_eq_filter]
    refine List.filter_congr ?_
    intro u _
    by_cases h : u = t <;> simp [h]
  rw [w.total_perm (List.perm_cons_erase hmem), total_cons, herase]

/-- Operands that cancel in pairs leave the total of the others. -/
theorem total_kept_xor (ts : List Term) : w.total .xor (kept .xor ts) = w.total .xor ts := by
  induction ts with
  | nil => rfl
  | cons t ts ih =>
    rw [kept_xor_cons, total_cons, ← ih]
    by_cases hmem : t ∈ kept .xor ts
    · have hself := NaryOp.apply_xor_self (w.length_word t)
      have hrest := NaryOp.xor.apply_identity
        (w.length_total .xor ((kept .xor ts).filter (· ≠ t)))
      rw [if_pos hmem, w.total_eq_apply_filter_ne (nodup_kept .xor ts) hmem,
        ← NaryOp.apply_assoc, hself, NaryOp.apply_comm]
      exact hrest.symm
    · rw [if_neg hmem, total_cons]

/-- **Cancelling copies leaves every total.** -/
theorem total_kept (op : NaryOp) (ts : List Term) : w.total op (kept op ts) = w.total op ts := by
  cases op with
  | xor => exact w.total_kept_xor ts
  | and => exact w.total_distinct (by decide) ts
  | or => exact w.total_distinct (by decide) ts

/-! ## Reading operands off totals -/

/-- The weight with a mark on one term. -/
def marking (w : Weight q) (op : NaryOp) (u : Term) : Weight q where
  word t := if t = u then op.mark q else w t
  length_word t := by
    by_cases h : t = u <;> simp [h]

@[simp] theorem marking_self (op : NaryOp) (u : Term) : w.marking op u u = op.mark q := if_pos rfl

theorem marking_of_ne {u : Term} (h : t ≠ u) : w.marking op u t = w t := if_neg h

variable {w}

/-- A mark on a term of no weight shows in the total of a list exactly if the term is in it. -/
theorem total_marking {u : Term} (hu : w u = q.word (op.identity q)) (hnodup : ts.Nodup) :
    (w.marking op u).total op ts =
      if u ∈ ts then op.apply (op.mark q) (w.total op ts) else w.total op ts := by
  have hothers : (w.marking op u).total op (ts.filter (· ≠ u)) = w.total op ts := by
    have hagree : ∀ t ∈ ts.filter (· ≠ u), w.marking op u t = w t := by
      intro t ht
      exact w.marking_of_ne (of_decide_eq_true (List.mem_filter.1 ht).2)
    rw [total_congr _ hagree, total_filter]
    intro t _ ht
    obtain rfl : t = u := by simpa using ht
    exact hu
  by_cases hmem : u ∈ ts
  · rw [if_pos hmem, total_eq_apply_filter_ne _ hnodup hmem, hothers, marking_self]
  · have hall : ts.filter (· ≠ u) = ts :=
      List.filter_eq_self.2 fun t ht => decide_eq_true fun heq => hmem (heq ▸ ht)
    rw [if_neg hmem, ← hothers, hall]

/-- **Totals tell whether an operand is there**: lists without repetitions that come to the same
both with and without a mark on a term hold it both or neither, unless the mark is drowned by an
annihilator. -/
theorem mem_iff_of_total_eq {u : Term} (hu : w u = q.word (op.identity q)) (hts : ts.Nodup)
    (hus : us.Nodup) (hplain : w.total op ts = w.total op us)
    (hmarked : (w.marking op u).total op ts = (w.marking op u).total op us)
    (hclear : op = .xor ∨ w.total op ts ≠ op.mark q) : u ∈ ts ↔ u ∈ us := by
  have hshows := NaryOp.apply_mark_ne (w.length_total op ts) hclear
  rw [total_marking hu hts, total_marking hu hus, ← hplain] at hmarked
  by_cases ht : u ∈ ts
  · refine iff_of_true ht ?_
    by_contra hu
    rw [if_pos ht, if_neg hu] at hmarked
    exact hshows hmarked
  · refine iff_of_false ht ?_
    intro hu
    rw [if_neg ht, if_pos hu] at hmarked
    exact hshows hmarked.symm

end Weight

end WordRing
