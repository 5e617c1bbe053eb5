/-!
# A notification for one waiter

A call of `notify` leaves a permit for the waiter, and the waiter's next wait takes it; permits do
not add up. Between the change it tells of and the permit the caller may be interrupted: `flying`
counts the calls in that state. A cell that is `live` has a permit or is about to get one, so a
waiter of a live cell does not wait forever.
-/

namespace Lib

structure Notify where
  permit : Bool
  flying : Nat
  deriving DecidableEq

namespace Notify

def new : Notify := ⟨false, 0⟩

/-- A caller is about to notify. -/
def call (n : Notify) : Notify := { n with flying := n.flying + 1 }

/-- One of the calls leaves its permit. -/
def land (n : Notify) : Option Notify := if 0 < n.flying then some ⟨true, n.flying - 1⟩ else none

/-- The waiter takes the permit. -/
def take (n : Notify) : Option Notify := if n.permit then some { n with permit := false } else none

def live (n : Notify) : Bool := n.permit || decide (0 < n.flying)

variable {n m : Notify}

theorem live_call (n : Notify) : n.call.live = true := by simp [live, call]

theorem live_land (h : n.land = some m) : m.live = true := by
  rw [land] at h
  split at h
  · cases h
    rfl
  · cases h

theorem permit_land (h : n.land = some m) : m.permit = true := by
  rw [land] at h
  split at h
  · cases h
    rfl
  · cases h

theorem land_isSome (h : n.live = true) (hp : n.permit = false) : ∃ m, n.land = some m ∧ m.permit = true := by
  simp only [live, hp, Bool.false_or, decide_eq_true_eq] at h
  exact ⟨_, if_pos h, rfl⟩

end Notify

end Lib
