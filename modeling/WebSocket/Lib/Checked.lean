import Mathlib.Data.List.Basic

/-!
# Computations that may crash

A checked computation returns its value or the reason it stopped: an index or a range outside
its sequence, a sum or difference outside the machine word, a vector that cannot grow, a branch
that was declared unreachable, a loop that did not end.

Each operation has one lemma, under the condition that makes it safe: it returns what the
unchecked expression is. A program written with these operations is safe where every lemma
applies.
-/

namespace Lib.Checked

variable {α : Type}

/-- Why a computation stopped. -/
inductive Crash where
  | range
  | overflow
  | capacity
  | unreachable
  | stuck
  deriving DecidableEq

/-- `l[i]`. -/
def index (l : List α) (i : Nat) : Except Crash α :=
  match l[i]? with
  | some x => .ok x
  | none => .error .range

/-- `l[a..b]`. -/
def slice (l : List α) (a b : Nat) : Except Crash (List α) :=
  if a ≤ b ∧ b ≤ l.length then .ok ((l.take b).drop a) else .error .range

/-- `l[a..]`. -/
def sliceFrom (l : List α) (a : Nat) : Except Crash (List α) :=
  if a ≤ l.length then .ok (l.drop a) else .error .range

/-- `a + b` in words up to `limit`. -/
def add (limit a b : Nat) : Except Crash Nat := if a + b ≤ limit then .ok (a + b) else .error .overflow

/-- `a - b`. -/
def sub (a b : Nat) : Except Crash Nat := if b ≤ a then .ok (a - b) else .error .overflow

/-- A vector of at most `limit` elements grows by `t`. -/
def extend (limit : Nat) (l t : List α) : Except Crash (List α) :=
  if l.length + t.length ≤ limit then .ok (l ++ t) else .error .capacity

theorem index_getD {l : List α} {i : Nat} (h : i < l.length) (d : α) : index l i = .ok (l.getD i d) := by
  rw [index, List.getD_eq_getElem?_getD, List.getElem?_eq_getElem h]
  rfl

theorem slice_eq {l : List α} {a b : Nat} (h1 : a ≤ b) (h2 : b ≤ l.length) :
    slice l a b = .ok ((l.take b).drop a) := if_pos ⟨h1, h2⟩

theorem sliceFrom_eq {l : List α} {a : Nat} (h : a ≤ l.length) : sliceFrom l a = .ok (l.drop a) := if_pos h

theorem add_eq {limit a b : Nat} (h : a + b ≤ limit) : add limit a b = .ok (a + b) := if_pos h

theorem sub_eq {a b : Nat} (h : b ≤ a) : sub a b = .ok (a - b) := if_pos h

/-- The only crash of a growing vector is its capacity. -/
theorem extend_cases (limit : Nat) (l t : List α) :
    l.length + t.length ≤ limit ∧ extend limit l t = .ok (l ++ t) ∨
      limit < l.length + t.length ∧ extend limit l t = .error .capacity := by
  by_cases h : l.length + t.length ≤ limit
  · exact .inl ⟨h, if_pos h⟩
  · exact .inr ⟨Nat.lt_of_not_le h, if_neg h⟩

end Lib.Checked
