import WordRing.Canonical.Rule

/-!
# Canonical forms

A pass applies the rules at every node, operands before the node above them. Passes repeat until
the writing of the term no longer changes, or a limit is reached; what comes out is the canonical
form, the same for all terms that differ by the identities the rules know.
-/
namespace WordRing

/-- The number of passes after which canonicalization gives up. -/
def passLimit : Nat := 100

namespace Term
variable (q : Quantum)

/-- One pass over a whole term. -/
def pass : Term → Term :=
  fold (fun n => Rule.applyAll q (const n)) (fun x => Rule.applyAll q (var x))
    (fun op t => Rule.applyAll q (unary op t)) (fun op ts => Rule.applyAll q (nary op ts))

@[simp] theorem pass_const (n : Int) : (const n).pass q = Rule.applyAll q (const n) := rfl

@[simp] theorem pass_var (x : VarName) : (var x).pass q = Rule.applyAll q (var x) := rfl

@[simp] theorem pass_unary (op : UnaryOp) (t : Term) :
    (unary op t).pass q = Rule.applyAll q (unary op (t.pass q)) := rfl

@[simp] theorem pass_nary (op : NaryOp) (ts : List Term) :
    (nary op ts).pass q = Rule.applyAll q (nary op (ts.map (pass q))) := by
  simp [pass]

/-- The terms after each of a number of passes. -/
def passes : Nat → Term → List Term
  | 0, _ => []
  | count + 1, t => t.pass q :: passes count (t.pass q)

/-- Repeats passes until one leaves the writing unchanged, at most `limit` times. Answers with the
last term and the number of passes, the confirming one included. -/
def settle : (limit : Nat) → Term → Term × Nat
  | 0, t => (t, 0)
  | limit + 1, t =>
    let next := t.pass q
    if next.text q.width = t.text q.width then (next, 1)
    else
      let (result, count) := settle limit next
      (result, count + 1)

/-- Passes under a limit that may be any integer. Where the limit stops them it is the number of
passes, and one below zero stops them at once. -/
def settleWithin (limit : Int) (t : Term) : Term × Int :=
  let (result, count) := settle q limit.toNat t
  (result, if limit < 0 then limit else count)

/-- The canonical form of a term. -/
def canonical (t : Term) : Term := (settle q passLimit t).1

end Term

end WordRing
