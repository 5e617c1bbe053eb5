import WebSocket.Lib.Transition
import Mathlib.Logic.Function.Basic

/-!
# A permanent cancellation signal

`core/src/signal.rs`. A `set` stores the flag and, if it was the first, calls `notify_waiters`. A
`wait` registers with the `Notify`, looks at the flag, and looks again after it has handed over its
waker; a poll with the waker it already handed over skips that.

Every access to the flag or to the `Notify` is a step of its own, and between two of them anything may
happen. Of the `Notify` we assume what its documentation says: `notify_waiters` marks every waiter that
is enabled and wakes the waker that each of them was last polled with, one after the other; a waiter
that is marked is ready.

A registration is never lost (`Enrolled`): until the notification it stands in its slot, then it is on the
list of those to wake, and from there on it was woken.
-/

namespace WebSocket.Net

open Lib.Transition

/-- Wakers of tasks. `will_wake` may fail to notice that two wakers are of one task. -/
structure Wakers (Waker Task : Type) where
  task : Waker → Task
  willWake : Waker → Waker → Bool
  sound : ∀ a b, willWake a b = true → task a = task b

inductive Poll where
  | pending
  | ready
  deriving DecidableEq

/-- What a poll with the waker `cx` does next. -/
inductive PollPc (Waker : Type) where
  | enable (cx : Waker)
  | check (cx : Waker)
  | compare (cx : Waker)
  | register (cx : Waker)
  | recheck (cx : Waker) (ready : Bool)
  deriving DecidableEq

/-- A `wait` future: its `Notified`, its variable `registered`, the poll under way, and for the last
poll its result, its waker, whether it began after the flag was stored, and whether the waker was
woken since. -/
structure Waiter (Waker : Type) where
  enabled : Bool
  marked : Bool
  waker : Option Waker
  registered : Option Waker
  pc : Option (PollPc Waker)
  result : Option Poll
  cx : Option Waker
  late : Bool
  woken : Bool
  deriving DecidableEq

/-- A call of `set`; `waking` holds the wakers that `notify_waiters` still has to wake. -/
inductive Setter (Waker : Type) where
  | idle
  | swap
  | notify
  | waking (todo : List (Nat × Waker))
  | done (previous : Bool)
  deriving DecidableEq

structure Signal (Waker : Type) where
  flag : Bool
  setters : Nat → Setter Waker
  waiters : List (Waiter Waker)

/-- The steps of callers, setters and waiters. Nothing happens in a future before its first poll. -/
inductive SignalLabel (Waker : Type) where
  | call (i : Nat)
  | set (i : Nat)
  | create
  | poll (j : Nat) (cx : Waker)
  | wait (j : Nat)

variable {Waker Task : Type}

namespace Waiter

def fresh : Waiter Waker := ⟨false, false, none, none, none, none, none, false, false⟩

/-- A poll begins. A future that was ready is not polled again. -/
def begin_ (w : Waiter Waker) (flag : Bool) (cx : Waker) : Option (Waiter Waker) :=
  if w.pc.isSome ∨ w.result = some .ready then none
  else some { w with
    pc := some (if w.enabled then .check cx else .enable cx), cx := some cx, late := flag, woken := false }

def ret (w : Waiter Waker) (result : Poll) : Waiter Waker := { w with pc := none, result := some result }

/-- `wait`, from one access to the next. -/
def advance (k : Wakers Waker Task) (w : Waiter Waker) (flag : Bool) : Option (Waiter Waker) :=
  match w.pc with
  | none => none
  | some (.enable cx) => some { w with enabled := true, pc := some (.check cx) }
  | some (.check cx) => some (if flag then w.ret .ready else { w with pc := some (.compare cx) })
  | some (.compare cx) =>
    some (if w.registered.any (k.willWake · cx) then w.ret .pending else { w with pc := some (.register cx) })
  | some (.register cx) =>
    some (if w.marked then { w with pc := some (.recheck cx true) }
      else { w with waker := some cx, registered := some cx, pc := some (.recheck cx false) })
  | some (.recheck _ ready) => some (w.ret (if flag || ready then .ready else .pending))

def mark (w : Waiter Waker) : Waiter Waker := if w.enabled then { w with marked := true } else w

/-- The waker `r` of this waiter is woken. -/
def wake [DecidableEq Task] (k : Wakers Waker Task) (r : Waker) (w : Waiter Waker) : Waiter Waker :=
  if w.cx.map k.task = some (k.task r) then { w with woken := true } else w

end Waiter

namespace Signal

def init : Signal Waker := ⟨false, fun _ => .idle, []⟩

/-- The wakers of the enabled waiters. -/
def registrations (s : Signal Waker) : List (Nat × Waker) :=
  s.waiters.zipIdx.filterMap fun (w, j) => if w.enabled then w.waker.map (j, ·) else none

def setter (s : Signal Waker) (i : Nat) (c : Setter Waker) : Signal Waker :=
  { s with setters := Function.update s.setters i c }

/-- The flag is stored; whoever stored it first goes on to notify. -/
def swap (s : Signal Waker) (i : Nat) : Signal Waker :=
  { s.setter i (if s.flag then .done true else .notify) with flag := true }

/-- `notify_waiters` marks the enabled waiters and takes their wakers. -/
def notify (s : Signal Waker) (i : Nat) : Signal Waker :=
  { s.setter i (.waking s.registrations) with waiters := s.waiters.map Waiter.mark }

/-- It wakes one of them. -/
def wake [DecidableEq Task] (k : Wakers Waker Task) (s : Signal Waker) (i j : Nat) (r : Waker)
    (todo : List (Nat × Waker)) : Signal Waker :=
  { s.setter i (.waking todo) with waiters := s.waiters.modify j (Waiter.wake k r) }

/-- `set`, from one access to the next. -/
def setStep [DecidableEq Task] (k : Wakers Waker Task) (s : Signal Waker) (i : Nat) : Option (Signal Waker) :=
  match s.setters i with
  | .swap => some (s.swap i)
  | .notify => some (s.notify i)
  | .waking ((j, r) :: todo) => some (s.wake k i j r todo)
  | .waking [] => some (s.setter i (.done false))
  | .idle | .done _ => none

def step [DecidableEq Task] (k : Wakers Waker Task) (s : Signal Waker) : SignalLabel Waker → Option (Signal Waker)
  | .call i =>
    match s.setters i with
    | .idle => some (s.setter i .swap)
    | _ => none
  | .set i => s.setStep k i
  | .create => some { s with waiters := s.waiters ++ [.fresh] }
  | .poll j cx => (s.waiters[j]?.bind (·.begin_ s.flag cx)).map fun w => { s with waiters := s.waiters.set j w }
  | .wait j => (s.waiters[j]?.bind (·.advance k s.flag)).map fun w => { s with waiters := s.waiters.set j w }

end Signal

/-! ## Setters -/

/-- The call that stored the flag. -/
def Setter.first : Setter Waker → Bool
  | .notify | .waking _ | .done false => true
  | _ => false

/-- The call whose `notify_waiters` has begun. -/
def Setter.notified : Setter Waker → Bool
  | .waking _ | .done false => true
  | _ => false

theorem Setter.first_of_notified {c : Setter Waker} (h : c.notified = true) : c.first = true := by
  cases c with
  | waking todo => rfl
  | done previous => cases previous <;> first | rfl | cases h
  | _ => cases h

namespace Signal

def Notified (s : Signal Waker) : Prop := ∃ i, (s.setters i).notified = true

/-- The waker `r` of waiter `j` is still to be woken. -/
def Waking (s : Signal Waker) (j : Nat) (r : Waker) : Prop := ∃ i todo, s.setters i = .waking todo ∧ (j, r) ∈ todo

/-- Every call of `set` has returned. -/
def Settled (s : Signal Waker) : Prop := ∀ i, s.setters i = .idle ∨ ∃ previous, s.setters i = .done previous

/-- One call of `set` stores the flag. -/
structure Stored (s : Signal Waker) : Prop where
  flag : s.flag = true ↔ ∃ i, (s.setters i).first = true
  one : ∀ i i', (s.setters i).first = true → (s.setters i').first = true → i = i'
  later : ∀ i, s.setters i = .done true → s.flag = true

theorem setters_setter (s : Signal Waker) (i i' : Nat) (c : Setter Waker) :
    (s.setter i c).setters i' = if i' = i then c else s.setters i' := by
  by_cases h : i' = i
  · rw [if_pos h, h]
    exact Function.update_self ..
  · rw [if_neg h]
    exact Function.update_of_ne h ..

variable {s s' : Signal Waker}

theorem Stored.notified_flag (h : Stored s) (hn : s.Notified) : s.flag = true := by
  obtain ⟨i, hi⟩ := hn
  exact h.flag.mpr ⟨i, Setter.first_of_notified hi⟩

theorem Stored.congr (h : Stored s) (flag : s'.flag = s.flag)
    (first : ∀ i, (s'.setters i).first = (s.setters i).first)
    (later : ∀ i, s'.setters i = .done true → s.setters i = .done true) : Stored s' := by
  refine ⟨?_, ?_, ?_⟩
  · simp only [flag, first]
    exact h.flag
  · intro i i' hi hi'
    rw [first] at hi hi'
    exact h.one i i' hi hi'
  · intro i hi
    rw [flag]
    exact h.later i (later i hi)

/-- A step of one call that is as much the first as before. -/
theorem Stored.setter (h : Stored s) {i : Nat} {c : Setter Waker} (first : c.first = (s.setters i).first)
    (later : c ≠ .done true) : Stored (s.setter i c) := by
  refine h.congr rfl (fun i' => ?_) (fun i' hi' => ?_)
  · rw [setters_setter]
    split
    · rename_i same
      rw [first, same]
    · rfl
  · rw [setters_setter] at hi'
    split at hi'
    · exact absurd hi' later
    · exact hi'

theorem setters_swap (s : Signal Waker) (i i' : Nat) :
    (s.swap i).setters i' = if i' = i then (if s.flag then .done true else .notify) else s.setters i' :=
  setters_setter s i i' _

/-- The first to store the flag will notify. -/
theorem Stored.swap (h : Stored s) {i : Nat} (hi : s.setters i = .swap) : Stored (s.swap i) := by
  cases hf : s.flag with
  | true =>
    have first (i' : Nat) : ((s.swap i).setters i').first = (s.setters i').first := by
      rw [setters_swap, hf]
      split
      · rename_i same
        rw [same, hi]
        rfl
      · rfl
    obtain ⟨i₀, h₀⟩ := h.flag.mp hf
    refine ⟨iff_of_true rfl ⟨i₀, (first i₀).trans h₀⟩, ?_, fun _ _ => rfl⟩
    intro i₁ i₂ h₁ h₂
    rw [first] at h₁ h₂
    exact h.one i₁ i₂ h₁ h₂
  | false =>
    have none (i' : Nat) : (s.setters i').first = false := by
      apply Bool.eq_false_iff.mpr
      intro hi'
      rw [h.flag.mpr ⟨i', hi'⟩] at hf
      cases hf
    have only (i' : Nat) (hi' : ((s.swap i).setters i').first = true) : i' = i := by
      apply Classical.byContradiction
      intro other
      rw [setters_swap, if_neg other, none] at hi'
      cases hi'
    refine ⟨iff_of_true rfl ⟨i, ?_⟩, ?_, fun _ _ => rfl⟩
    · rw [setters_swap, if_pos rfl, hf]
      rfl
    · intro i₁ i₂ h₁ h₂
      rw [only i₁ h₁, only i₂ h₂]

end Signal

/-! ## Waiters -/

section Waiters

variable {k : Wakers Waker Task} {s s' : Signal Waker} {j : Nat} {w : Waiter Waker}

/-- A registration is in its slot until the notification; then it is to be woken, or was. -/
def Enrolled (k : Wakers Waker Task) (s : Signal Waker) (j : Nat) (w : Waiter Waker) : Prop :=
  s.Notified → w.marked = true ∧
    ∀ r, w.waker = some r → s.Waking j r ∨ (w.cx.map k.task = some (k.task r) → w.woken = true)

/-- Where a waiter stands. -/
inductive Stands (k : Wakers Waker Task) (s : Signal Waker) (j : Nat) (w : Waiter Waker) : Prop where
  | fresh (pc : w.pc = none) (result : w.result = none) (off : w.enabled = false) (waker : w.waker = none)
      (registered : w.registered = none) (early : w.late = false)
  | enable {c} (pc : w.pc = some (.enable c)) (waker : w.waker = none) (registered : w.registered = none)
      (cx : w.cx = some c)
  | check {c} (pc : w.pc = some (.check c)) (on : w.enabled = true) (same : w.registered = w.waker) (cx : w.cx = some c)
  | compare {c} (pc : w.pc = some (.compare c)) (on : w.enabled = true) (same : w.registered = w.waker)
      (cx : w.cx = some c) (early : w.late = false) (kept : Enrolled k s j w)
  | register {c} (pc : w.pc = some (.register c)) (on : w.enabled = true) (cx : w.cx = some c) (early : w.late = false)
      (marked : s.Notified → w.marked = true)
  | recheck {c} (pc : w.pc = some (.recheck c false)) (on : w.enabled = true) (waker : w.waker = some c)
      (registered : w.registered = some c) (cx : w.cx = some c) (early : w.late = false) (kept : Enrolled k s j w)
  | marked {c} (pc : w.pc = some (.recheck c true))
  | pending {c r} (pc : w.pc = none) (result : w.result = some .pending) (on : w.enabled = true)
      (waker : w.waker = some r) (registered : w.registered = some r) (cx : w.cx = some c)
      (task : k.task c = k.task r) (early : w.late = false) (kept : Enrolled k s j w)
  | ready (pc : w.pc = none) (result : w.result = some .ready)

/-- A waiter stands where it stood if only its marks change, and its registration is kept. -/
theorem Stands.congr {w' : Waiter Waker} (h : Stands k s j w)
    (same : w' = { w with marked := w'.marked, woken := w'.woken })
    (kept : w.enabled = true → Enrolled k s j w → Enrolled k s' j w')
    (marked : w.enabled = true → (s.Notified → w.marked = true) → s'.Notified → w'.marked = true) : Stands k s' j w' := by
  have pc : w'.pc = w.pc := by rw [same]
  have result : w'.result = w.result := by rw [same]
  have enabled : w'.enabled = w.enabled := by rw [same]
  have waker : w'.waker = w.waker := by rw [same]
  have registered : w'.registered = w.registered := by rw [same]
  have cx : w'.cx = w.cx := by rw [same]
  have late : w'.late = w.late := by rw [same]
  cases h with
  | fresh hpc hresult off hwaker hregistered early =>
    exact .fresh (pc.trans hpc) (result.trans hresult) (enabled.trans off) (waker.trans hwaker)
      (registered.trans hregistered) (late.trans early)
  | enable hpc hwaker hregistered hcx =>
    exact .enable (pc.trans hpc) (waker.trans hwaker) (registered.trans hregistered) (cx.trans hcx)
  | check hpc on hsame hcx =>
    exact .check (pc.trans hpc) (enabled.trans on) (by rw [registered, waker, hsame]) (cx.trans hcx)
  | compare hpc on hsame hcx early hkept =>
    exact .compare (pc.trans hpc) (enabled.trans on) (by rw [registered, waker, hsame]) (cx.trans hcx)
      (late.trans early) (kept on hkept)
  | register hpc on hcx early hmarked =>
    exact .register (pc.trans hpc) (enabled.trans on) (cx.trans hcx) (late.trans early) (marked on hmarked)
  | recheck hpc on hwaker hregistered hcx early hkept =>
    exact .recheck (pc.trans hpc) (enabled.trans on) (waker.trans hwaker) (registered.trans hregistered) (cx.trans hcx)
      (late.trans early) (kept on hkept)
  | marked hpc => exact .marked (pc.trans hpc)
  | pending hpc hresult on hwaker hregistered hcx task early hkept =>
    exact .pending (pc.trans hpc) (result.trans hresult) (enabled.trans on) (waker.trans hwaker)
      (registered.trans hregistered) (cx.trans hcx) task (late.trans early) (kept on hkept)
  | ready hpc hresult => exact .ready (pc.trans hpc) (result.trans hresult)

/-- A step of the setters that neither notifies nor wakes this waiter. -/
theorem Stands.mono (h : Stands k s j w) (notified : s'.Notified → s.Notified)
    (waking : ∀ r, s.Waking j r → s'.Waking j r) : Stands k s' j w := by
  refine h.congr rfl (fun _ kept hn => ?_) fun _ marked hn => marked (notified hn)
  obtain ⟨marked, slot⟩ := kept (notified hn)
  exact ⟨marked, fun r hr => (slot r hr).imp (waking r) id⟩

/-- The notification marks an enabled waiter and takes its waker. -/
theorem Stands.mark (h : Stands k s j w)
    (waking : w.enabled = true → ∀ r, w.waker = some r → s'.Waking j r) : Stands k s' j w.mark := by
  have marks (on : w.enabled = true) : w.mark = { w with marked := true } := if_pos on
  refine h.congr ?_ (fun on _ _ => ?_) fun on _ _ => ?_
  · rw [Waiter.mark]
    split <;> rfl
  · rw [marks on]
    exact ⟨rfl, fun r hr => .inl (waking on r hr)⟩
  · rw [marks on]

/-- One waker is woken; the others wait for their turn. -/
theorem Stands.wake [DecidableEq Task] {r₀ : Waker} (h : Stands k s j w) (notified : s'.Notified → s.Notified)
    (waking : ∀ r, s.Waking j r → s'.Waking j r ∨ r = r₀) : Stands k s' j (w.wake k r₀) := by
  have marked : (w.wake k r₀).marked = w.marked := by
    rw [Waiter.wake]
    split <;> rfl
  refine h.congr ?_ (fun _ kept hn => ?_) fun _ hm hn => marked.trans (hm (notified hn))
  · rw [Waiter.wake]
    split <;> rfl
  · obtain ⟨hm, slot⟩ := kept (notified hn)
    refine ⟨marked.trans hm, ?_⟩
    rw [Waiter.wake]
    split
    · exact fun r _ => .inr fun _ => rfl
    · rename_i other
      intro r hr
      rcases slot r hr with hw | woken
      · rcases waking r hw with hw | rfl
        · exact .inl hw
        · exact .inr fun same => absurd same other
      · exact .inr woken

/-- A waiter that is not being polled. -/
theorem Stands.idle (h : Stands k s j w) (pc : w.pc = none) :
    w.result = none ∧ w.late = false ∨ w.result = some .ready ∨
      w.result = some .pending ∧ w.late = false ∧ (s.Notified → (∀ r, ¬ s.Waking j r) → w.woken = true) := by
  have busy {pc' : PollPc Waker} {P : Prop} (h : w.pc = some pc') : P := by
    rw [pc] at h
    cases h
  cases h with
  | fresh _ result _ _ _ early => exact .inl ⟨result, early⟩
  | ready _ result => exact .inr (.inl result)
  | @pending c r _ result on waker _ cx task early kept =>
    refine .inr (.inr ⟨result, early, fun notified none => ?_⟩)
    refine ((kept notified).2 r waker).resolve_left (none r) ?_
    rw [cx, ← task]
    rfl
  | enable pc' => exact busy pc'
  | check pc' => exact busy pc'
  | compare pc' => exact busy pc'
  | register pc' => exact busy pc'
  | recheck pc' => exact busy pc'
  | marked pc' => exact busy pc'

/-- A poll begins. -/
theorem Stands.begin_ {w' : Waiter Waker} {flag : Bool} {cx : Waker} (h : Stands k s j w)
    (hb : w.begin_ flag cx = some w') : Stands k s j w' ∧ w'.late = flag := by
  rw [Waiter.begin_] at hb
  split at hb
  · cases hb
  · rename_i idle
    have off : ∀ {pc : PollPc Waker}, w.pc ≠ some pc := by
      intro pc hpc
      apply idle
      rw [hpc]
      exact .inl rfl
    cases hb
    refine ⟨?_, rfl⟩
    cases h with
    | fresh pc result off waker registered =>
      refine .enable (c := cx) ?_ waker registered rfl
      rw [off]
      rfl
    | pending pc result on waker registered =>
      refine .check (c := cx) ?_ on (registered.trans waker.symm) rfl
      rw [on]
      rfl
    | ready pc result => exact absurd (.inr result) idle
    | enable pc => exact absurd pc off
    | check pc => exact absurd pc off
    | compare pc => exact absurd pc off
    | register pc => exact absurd pc off
    | recheck pc => exact absurd pc off
    | marked pc => exact absurd pc off

/-- A poll goes on. Whoever saw the flag unset was enabled before it was stored. -/
theorem Stands.advance {w' : Waiter Waker} (h : Stands k s j w) (stored : s.Stored) (late : w.late = true → s.flag = true)
    (ha : w.advance k s.flag = some w') : Stands k s j w' ∧ w'.late = w.late := by
  cases h with
  | fresh pc =>
    rw [Waiter.advance, pc] at ha
    cases ha
  | pending pc =>
    rw [Waiter.advance, pc] at ha
    cases ha
  | ready pc =>
    rw [Waiter.advance, pc] at ha
    cases ha
  | enable pc waker registered cx =>
    rw [Waiter.advance, pc] at ha
    cases ha
    exact ⟨.check rfl rfl (registered.trans waker.symm) cx, rfl⟩
  | check pc on same cx =>
    rw [Waiter.advance, pc] at ha
    cases ha
    cases hf : s.flag with
    | true => exact ⟨.ready rfl rfl, rfl⟩
    | false =>
      have early : w.late = false := by
        apply Bool.eq_false_iff.mpr
        intro hl
        rw [late hl] at hf
        cases hf
      refine ⟨.compare rfl on same cx early ?_, rfl⟩
      intro hn
      rw [stored.notified_flag hn] at hf
      cases hf
  | @compare c pc on same cx early kept =>
    rw [Waiter.advance, pc] at ha
    cases ha
    cases hr : w.registered with
    | none => exact ⟨.register rfl on cx early fun hn => (kept hn).1, rfl⟩
    | some r =>
      have waker : w.waker = some r := same.symm.trans hr
      cases hw : k.willWake r c with
      | true =>
        have skips : (some r).any (k.willWake · c) = true := hw
        rw [if_pos skips]
        exact ⟨.pending rfl rfl on waker hr cx (k.sound r c hw).symm early kept, rfl⟩
      | false =>
        have goes : ¬ (some r).any (k.willWake · c) = true := Bool.eq_false_iff.mp hw
        rw [if_neg goes]
        exact ⟨.register rfl on cx early fun hn => (kept hn).1, rfl⟩
  | register pc on cx early marked =>
    rw [Waiter.advance, pc] at ha
    cases ha
    cases hm : w.marked with
    | true => exact ⟨.marked rfl, rfl⟩
    | false =>
      refine ⟨.recheck rfl on rfl rfl cx early ?_, rfl⟩
      intro hn
      rw [marked hn] at hm
      cases hm
  | recheck pc on waker registered cx early kept =>
    rw [Waiter.advance, pc] at ha
    cases ha
    cases s.flag with
    | true => exact ⟨.ready rfl rfl, rfl⟩
    | false => exact ⟨.pending rfl rfl on waker registered cx rfl early kept, rfl⟩
  | marked pc =>
    rw [Waiter.advance, pc] at ha
    cases ha
    rw [Bool.or_true, if_pos rfl]
    exact ⟨.ready rfl rfl, rfl⟩

end Waiters

/-! ## Runs -/

section Runs

variable {k : Wakers Waker Task} {s s' : Signal Waker}

structure Signal.Sound (k : Wakers Waker Task) (s : Signal Waker) : Prop where
  stored : s.Stored
  waiters : ∀ j w, s.waiters[j]? = some w → Stands k s j w ∧ (w.late = true → s.flag = true)

/-- A step of one waiter. -/
theorem Signal.Sound.waiter {j : Nat} {w : Waiter Waker} (h : s.Sound k) (stands : Stands k s j w)
    (late : w.late = true → s.flag = true) : Signal.Sound k { s with waiters := s.waiters.set j w } := by
  refine ⟨⟨h.stored.flag, h.stored.one, h.stored.later⟩, ?_⟩
  intro j' w' hw'
  rw [List.getElem?_set] at hw'
  split at hw'
  · rename_i same
    subst same
    split at hw'
    · cases hw'
      exact ⟨stands.mono id fun _ => id, late⟩
    · cases hw'
  · obtain ⟨stands', late'⟩ := h.waiters j' w' hw'
    exact ⟨stands'.mono id fun _ => id, late'⟩

theorem Signal.Sound.create (h : s.Sound k) : Signal.Sound k { s with waiters := s.waiters ++ [.fresh] } := by
  refine ⟨⟨h.stored.flag, h.stored.one, h.stored.later⟩, ?_⟩
  intro j w hw
  rw [List.getElem?_append] at hw
  split at hw
  · obtain ⟨stands, late⟩ := h.waiters j w hw
    exact ⟨stands.mono id fun _ => id, late⟩
  · have fresh := List.mem_of_getElem? hw
    cases List.mem_singleton.mp fresh
    exact ⟨.fresh rfl rfl rfl rfl rfl rfl, fun hl => by cases hl⟩

/-- A step of one call of `set` that neither notifies nor wakes. -/
theorem Signal.Sound.calls (h : s.Sound k) (stored : s'.Stored) (waiters : s'.waiters = s.waiters)
    (flag : s.flag = true → s'.flag = true) (notified : s'.Notified → s.Notified)
    (waking : ∀ j r, s.Waking j r → s'.Waking j r) : s'.Sound k := by
  refine ⟨stored, ?_⟩
  intro j w hw
  rw [waiters] at hw
  obtain ⟨stands, late⟩ := h.waiters j w hw
  exact ⟨stands.mono notified (waking j), fun hl => flag (late hl)⟩

theorem Signal.notified_setter {i : Nat} {c : Setter Waker} (hc : c.notified = (s.setters i).notified)
    (hn : (s.setter i c).Notified) : s.Notified := by
  obtain ⟨i', hi'⟩ := hn
  rw [setters_setter] at hi'
  split at hi'
  · exact ⟨i, hc ▸ hi'⟩
  · exact ⟨i', hi'⟩

theorem Signal.waking_setter {i : Nat} {c : Setter Waker} {j : Nat} {r : Waker}
    (hc : ∀ todo, s.setters i = .waking todo → (j, r) ∈ todo → ∃ todo', c = .waking todo' ∧ (j, r) ∈ todo')
    (hw : s.Waking j r) : (s.setter i c).Waking j r := by
  obtain ⟨i', todo, hi', mem⟩ := hw
  by_cases same : i' = i
  · subst same
    obtain ⟨todo', rfl, mem'⟩ := hc todo hi' mem
    exact ⟨i', todo', by rw [setters_setter, if_pos rfl], mem'⟩
  · exact ⟨i', todo, by rw [setters_setter, if_neg same, hi'], mem⟩

theorem Signal.mem_registrations {j : Nat} {w : Waiter Waker} {r : Waker} (hw : s.waiters[j]? = some w)
    (on : w.enabled = true) (hr : w.waker = some r) : (j, r) ∈ s.registrations := by
  refine List.mem_filterMap.mpr ⟨(w, j), List.mem_zipIdx_iff_getElem?.mpr hw, ?_⟩
  dsimp only
  rw [if_pos on, hr]
  rfl

theorem Signal.Sound.notify {i : Nat} (h : s.Sound k) (hi : s.setters i = .notify) : (s.notify i).Sound k := by
  have stored : (s.setter i (.waking s.registrations)).Stored := h.stored.setter (by rw [hi]; rfl) (by simp)
  refine ⟨⟨stored.flag, stored.one, stored.later⟩, ?_⟩
  intro j w' hw'
  rw [Signal.notify, List.getElem?_map] at hw'
  obtain ⟨w, hw, rfl⟩ := Option.map_eq_some_iff.mp hw'
  obtain ⟨stands, late⟩ := h.waiters j w hw
  refine ⟨stands.mark ?_, ?_⟩
  · intro on r hr
    refine ⟨i, s.registrations, ?_, Signal.mem_registrations hw on hr⟩
    exact (Signal.setters_setter s i i _).trans (if_pos rfl)
  · intro hl
    apply late
    rw [Waiter.mark] at hl
    split at hl <;> exact hl

variable [DecidableEq Task]

theorem Signal.Sound.wake {i j : Nat} {r : Waker} {todo : List (Nat × Waker)} (h : s.Sound k)
    (hi : s.setters i = .waking ((j, r) :: todo)) : (s.wake k i j r todo).Sound k := by
  have stored : (s.setter i (.waking todo)).Stored := h.stored.setter (by rw [hi]; rfl) (by simp)
  have notified : (s.wake k i j r todo).Notified → s.Notified := Signal.notified_setter (by rw [hi]; rfl)
  have waking {j' : Nat} {r' : Waker} (other : (j', r') ≠ (j, r)) : s.Waking j' r' → (s.wake k i j r todo).Waking j' r' := by
    apply Signal.waking_setter
    intro todo' hi' mem
    rw [hi] at hi'
    cases hi'
    exact ⟨todo, rfl, (List.mem_cons.mp mem).resolve_left other⟩
  refine ⟨⟨stored.flag, stored.one, stored.later⟩, ?_⟩
  intro j' w' hw'
  rw [Signal.wake, List.getElem?_modify] at hw'
  obtain ⟨w, hw, rfl⟩ := Option.map_eq_some_iff.mp hw'
  obtain ⟨stands, late⟩ := h.waiters j' w hw
  by_cases same : j = j'
  · subst same
    rw [if_pos rfl]
    refine ⟨stands.wake notified ?_, ?_⟩
    · intro r' hr'
      by_cases eq : r' = r
      · exact .inr eq
      · refine .inl (waking ?_ hr')
        intro pair
        cases pair
        exact eq rfl
    · intro hl
      apply late
      rw [Waiter.wake] at hl
      split at hl <;> exact hl
  · rw [if_neg same]
    refine ⟨stands.mono notified fun r' => waking ?_, late⟩
    intro pair
    cases pair
    exact same rfl

theorem Signal.Sound.set {i : Nat} (h : s.Sound k) (hs : s.setStep k i = some s') : s'.Sound k := by
  rw [Signal.setStep] at hs
  split at hs
  · rename_i hi
    cases hs
    refine h.calls (h.stored.swap hi) rfl (fun _ => rfl) (Signal.notified_setter ?_) fun j r => Signal.waking_setter ?_
    · rw [hi]
      split <;> rfl
    · intro todo hi'
      rw [hi] at hi'
      cases hi'
  · rename_i hi
    cases hs
    exact h.notify hi
  · rename_i j r todo hi
    cases hs
    exact h.wake hi
  · rename_i hi
    cases hs
    refine h.calls (h.stored.setter ?_ (by simp)) rfl id (Signal.notified_setter ?_) fun j r => Signal.waking_setter ?_
    · rw [hi]
      rfl
    · rw [hi]
      rfl
    · intro todo hi' mem
      rw [hi] at hi'
      cases hi'
      cases mem
  · cases hs
  · cases hs

theorem Signal.Sound.step {lab : SignalLabel Waker} (h : s.Sound k) (hs : s.step k lab = some s') : s'.Sound k := by
  cases lab with
  | call i =>
    rw [Signal.step] at hs
    split at hs
    · rename_i hi
      cases hs
      refine h.calls (h.stored.setter ?_ (by simp)) rfl id (Signal.notified_setter ?_) fun j r => Signal.waking_setter ?_
      · rw [hi]
        rfl
      · rw [hi]
        rfl
      · intro todo hi'
        rw [hi] at hi'
        cases hi'
    · cases hs
  | set i => exact h.set hs
  | create =>
    cases hs
    exact h.create
  | poll j cx =>
    obtain ⟨w', hw', rfl⟩ := Option.map_eq_some_iff.mp hs
    obtain ⟨w, hw, hb⟩ := Option.bind_eq_some_iff.mp hw'
    obtain ⟨stands, late⟩ := (h.waiters j w hw).1.begin_ hb
    exact h.waiter stands fun hl => late ▸ hl
  | wait j =>
    obtain ⟨w', hw', rfl⟩ := Option.map_eq_some_iff.mp hs
    obtain ⟨w, hw, ha⟩ := Option.bind_eq_some_iff.mp hw'
    obtain ⟨stands, late⟩ := (h.waiters j w hw).1.advance h.stored (h.waiters j w hw).2 ha
    exact h.waiter stands fun hl => (h.waiters j w hw).2 (late ▸ hl)

theorem Signal.sound_of_reachable (h : Reachable (Signal.step k) .init s) : s.Sound k := by
  refine h.invariant ⟨⟨?_, ?_, ?_⟩, ?_⟩ fun _ _ _ _ hu hv => hu.step hv
  · refine iff_of_false (by simp [Signal.init]) ?_
    rintro ⟨i, hi⟩
    cases hi
  · intro i i' hi
    cases hi
  · intro i hi
    cases hi
  · intro j w hw
    cases hw

/-- **Cancellation is never lost.** One `set` returns `false`; a poll that begins after the flag was stored
ends, and returns `Ready`; and once every `set` has returned, whoever was left pending has been woken. -/
theorem cancellation_kept (h : Reachable (Signal.step k) .init s) :
    (∀ i i', s.setters i = .done false → s.setters i' = .done false → i = i') ∧
      (s.Settled → (∃ i, s.setters i ≠ .idle) → ∃ i, s.setters i = .done false) ∧
      (∀ j cx s', s.step k (.poll j cx) = some s' → ∃ w, s'.waiters[j]? = some w ∧ w.late = s.flag) ∧
      (∀ (j : Nat) (w : Waiter Waker), s.waiters[j]? = some w → w.pc ≠ none → ∃ s', s.step k (.wait j) = some s') ∧
      (∀ (j : Nat) (w : Waiter Waker), s.waiters[j]? = some w → w.late = true → w.pc = none → w.result = some .ready) ∧
      (s.Settled → (∃ i, s.setters i ≠ .idle) →
        ∀ (j : Nat) (w : Waiter Waker), s.waiters[j]? = some w → w.pc = none → w.result = some .pending → w.woken = true) := by
  obtain ⟨stored, waiters⟩ := Signal.sound_of_reachable h
  have first (settled : s.Settled) (called : ∃ i, s.setters i ≠ .idle) : ∃ i, s.setters i = .done false := by
    obtain ⟨i, hi⟩ := called
    obtain ⟨previous, hd⟩ := (settled i).resolve_left hi
    cases previous with
    | false => exact ⟨i, hd⟩
    | true =>
      obtain ⟨i₀, h₀⟩ := stored.flag.mp (stored.later i hd)
      rcases settled i₀ with hi₀ | ⟨previous, hi₀⟩
      · rw [hi₀] at h₀
        cases h₀
      · cases previous with
        | false => exact ⟨i₀, hi₀⟩
        | true =>
          rw [hi₀] at h₀
          cases h₀
  refine ⟨?_, first, ?_, ?_, ?_, ?_⟩
  · intro i i' hi hi'
    apply stored.one
    · rw [hi]
      rfl
    · rw [hi']
      rfl
  · intro j cx s' hs
    obtain ⟨w', hw', rfl⟩ := Option.map_eq_some_iff.mp hs
    obtain ⟨w, hw, hb⟩ := Option.bind_eq_some_iff.mp hw'
    refine ⟨w', ?_, ((waiters j w hw).1.begin_ hb).2⟩
    exact List.getElem?_set_self (List.getElem?_eq_some_iff.mp hw).1
  · intro j w hw busy
    obtain ⟨pc, hpc⟩ := Option.ne_none_iff_exists'.mp busy
    rw [Signal.step, hw]
    dsimp only [Option.bind]
    rw [Waiter.advance, hpc]
    cases pc <;> exact ⟨_, rfl⟩
  · intro j w hw late idle
    rcases (waiters j w hw).1.idle idle with ⟨-, early⟩ | ready | ⟨-, early, -⟩
    · rw [late] at early
      cases early
    · exact ready
    · rw [late] at early
      cases early
  · intro settled called j w hw idle pending
    obtain ⟨i, hi⟩ := first settled called
    have notified : s.Notified := ⟨i, by rw [hi]; rfl⟩
    have none (r : Waker) : ¬ s.Waking j r := by
      rintro ⟨i', todo, hi', -⟩
      rcases settled i' with hs | ⟨previous, hs⟩ <;> rw [hi'] at hs <;> cases hs
    rcases (waiters j w hw).1.idle idle with ⟨result, -⟩ | ready | ⟨-, -, woken⟩
    · rw [pending] at result
      cases result
    · rw [pending] at ready
      cases ready
    · exact woken notified none

end Runs

/-- Wakers named by their tasks. -/
def plainWakers : Wakers Nat Nat := ⟨id, fun a b => decide (a = b), fun _ _ h => of_decide_eq_true h⟩

/-- A future is polled by task 7, then the signal is set. -/
def signalRun : List (SignalLabel Nat) :=
  [.create, .poll 0 7, .wait 0, .wait 0, .wait 0, .wait 0, .wait 0, .call 0, .set 0, .set 0, .set 0, .set 0]

/-- The future was left pending, and its task was woken. -/
theorem cancellation_kept_once :
    ∃ s w, runs (Signal.step plainWakers) .init signalRun = some s ∧ s.setters 0 = .done false ∧
      s.waiters[0]? = some w ∧ w.result = some .pending ∧ w.woken = true := by
  refine ⟨_, _, rfl, rfl, rfl, rfl, (cancellation_kept ⟨signalRun, rfl⟩).2.2.2.2.2 ?_ ⟨0, ?_⟩ 0 _ rfl rfl rfl⟩
  · intro i
    cases i with
    | zero => exact .inr ⟨false, rfl⟩
    | succ i => exact .inl rfl
  · show (Setter.done false : Setter Nat) ≠ .idle
    simp

end WebSocket.Net
