import Mathlib.Data.List.Basic
import Mathlib.Data.List.Pairwise

/-!
# A heap of cells

Addresses are given out in increasing order and never again, and the latest cell comes first. A read
of an address that was released, or never given out, finds nothing.
-/

namespace Lib

universe u

structure Heap (α : Type u) where
  cells : List (Nat × α)
  next : Nat
  ordered : (next :: cells.map Prod.fst).Pairwise (· > ·)

namespace Heap

variable {α : Type u} {h : Heap α} {a b : Nat} {x y : α}

def empty : Heap α := ⟨[], 0, List.pairwise_singleton ..⟩

def alloc (h : Heap α) (x : α) : Heap α where
  cells := (h.next, x) :: h.cells
  next := h.next + 1
  ordered := by
    refine List.pairwise_cons.mpr ⟨fun c mem => ?_, h.ordered⟩
    rcases List.mem_cons.mp mem with rfl | mem
    · exact Nat.lt_succ_self _
    · exact Nat.lt_succ_of_lt (List.rel_of_pairwise_cons h.ordered mem)

def read (h : Heap α) (a : Nat) : Option α := h.cells.lookup a

def live (h : Heap α) (a : Nat) : Bool := (h.read a).isSome

def free (h : Heap α) (a : Nat) : Heap α where
  cells := h.cells.filter fun c => c.1 != a
  next := h.next
  ordered := h.ordered.sublist ((List.filter_sublist.map _).cons_cons _)

theorem read_lt (hr : h.read a = some x) : a < h.next := by
  have mem : a ∈ h.cells.map Prod.fst := by
    rw [read, List.lookup_eq_some_iff] at hr
    obtain ⟨l₁, l₂, cells, -⟩ := hr
    rw [cells]
    simp
  exact List.rel_of_pairwise_cons h.ordered mem

/-- A new cell does not disturb the others. -/
theorem read_alloc (hr : h.read a = some y) : (h.alloc x).read a = some y := by
  have ne : (a == h.next) = false := beq_false_of_ne (Nat.ne_of_lt (read_lt hr))
  rw [read, alloc, List.lookup_cons, ne]
  exact hr

theorem read_next : (h.alloc x).read h.next = some x := by
  rw [read, alloc, List.lookup_cons, beq_self_eq_true]

theorem read_free (hr : h.read a = some y) (ne : a ≠ b) : (h.free b).read a = some y := by
  rw [read] at hr
  rw [read, free]
  dsimp only
  generalize h.cells = cells at hr
  induction cells with
  | nil => cases hr
  | cons c cells ih =>
    rw [List.lookup_cons] at hr
    rw [List.filter_cons]
    by_cases first : a = c.1
    · rw [first, beq_self_eq_true] at hr
      have kept : (c.1 != b) = true := bne_iff_ne.mpr (first ▸ ne)
      rw [kept, if_pos rfl, List.lookup_cons, first, beq_self_eq_true]
      exact hr
    · rw [beq_false_of_ne first] at hr
      split
      · rw [List.lookup_cons, beq_false_of_ne first]
        exact ih hr
      · exact ih hr

/-- The latest cell is the first, and to release it leaves the rest. -/
theorem free_head {rest : List (Nat × α)} (hc : h.cells = (a, x) :: rest) : (h.free a).cells = rest := by
  have below : ∀ c ∈ rest, c.1 ≠ a := by
    have ordered := h.ordered
    rw [hc, List.map_cons] at ordered
    intro c mem
    exact Nat.ne_of_lt (List.rel_of_pairwise_cons ordered.of_cons (List.mem_map_of_mem mem))
  rw [free]
  dsimp only
  rw [hc, List.filter_cons_of_neg (by simp), List.filter_eq_self]
  intro c mem
  exact bne_iff_ne.mpr (below c mem)

theorem read_of_mem (mem : (a, x) ∈ h.cells) : h.read a = some x := by
  rw [read, List.lookup_eq_some_iff]
  obtain ⟨front, rest, cells⟩ := List.append_of_mem mem
  refine ⟨front, rest, cells, fun c first => ?_⟩
  -- what comes first was given out later
  have ordered := h.ordered.of_cons
  rw [cells, List.map_append, List.map_cons] at ordered
  exact bne_iff_ne.mpr (Nat.ne_of_gt (List.pairwise_append.mp ordered |>.2.2 c.1 (List.mem_map_of_mem first) a
    (List.mem_cons_self ..))).symm

end Heap

end Lib
