import WebSocket.Lib.History
import WebSocket.Lib.Transition
import Mathlib.Algebra.Order.Group.Int
import Mathlib.Data.List.Sort

/-!
# Timers

`ws/timer.lua`, with the `running` flag of `ws/loop.lua`. A callback may do anything: start and cancel
timers, ask `pending` and `wait`, take any time, return or raise. So a run is a list of calls made by
whoever is in control, the turns of a `fire` under way, and the steps of the clock. `guarded` refuses a
callback that enters the loop again, so fires do not nest.

Timers are objects: `heap` has every one that was ever started, in order, and `timers` is the local list
of the module. The `log` says what happened to them. `Allowed` is the law of a single run of a callback
in terms of the log alone, `Agrees` says what the log makes of a timer's fields, and `timers_kept` is
about every state of every program: the law holds of the whole log, no live timer is unregistered, and a
fire gives each timer that was live and due its turn, in the order of their times.
-/

namespace WebSocket.Lua

open Lib.History Lib.Transition

/-- A Lua value, as far as `start` looks at it. -/
inductive Value (T F : Type) where
  | number (n : T)
  | huge (negative : Bool)
  | nan
  | function (fn : F)
  | other

/-- The interval of a repeating timer is positive. -/
structure Timer (T F : Type) [Zero T] [LT T] where
  due : T
  fn : F
  every : Option T
  live : Bool
  positive : ∀ p ∈ every, 0 < p

/-- What happened to a timer: it was started for a delay, cancelled, its callback was called, or a fire
passed it over. -/
inductive Happened (T : Type) where
  | started (id : Nat) (time delay : T) (every : Bool)
  | cancelled (id : Nat)
  | called (id : Nat) (time : T)
  | skipped (id : Nat)

/-- A `fire` under way: the timers of `due` that come next, and whether a callback is running. -/
structure Firing where
  rest : List Nat
  busy : Bool

/-- What the code in control does next. `fire` takes the order that `table.sort` gave. -/
inductive TimerLabel (T F : Type) where
  | tick (now : T)
  | start (delay fn : Value T F) (every : Bool)
  | cancel (id : Nat)
  | pending
  | wait
  | enter
  | fire (order : List Nat)
  | next
  | finish
  | leave
  | raise

section Model

variable {T F : Type} [AddCommGroup T] [LinearOrder T]

namespace Timer

def cancel (t : Timer T F) : Timer T F := { t with live := false }

/-- What `fire` does to a timer before it calls it. -/
def turn (t : Timer T F) (now : T) : Timer T F :=
  match t.every with
  | some p => { t with due := now + p }
  | none => { t with live := false }

theorem turn_none {t : Timer T F} {now : T} (h : t.every = none) : t.turn now = t.cancel := by
  obtain ⟨due, fn, every, live, positive⟩ := t
  cases h
  rfl

theorem turn_some {t : Timer T F} {now p : T} (h : t.every = some p) : t.turn now = { t with due := now + p } := by
  obtain ⟨due, fn, every, live, positive⟩ := t
  cases h
  rfl

/-- The record that `start` makes, or its error. -/
def new (now : T) (delay fn : Value T F) (every : Bool) : Except String (Timer T F × T) :=
  match delay with
  | .number d =>
    if h : 0 ≤ d ∧ (every = true → d ≠ 0) then
      match fn with
      | .function f =>
        .ok (⟨now + d, f, if every then some d else none, true, by
          intro p hp
          split at hp
          · cases hp
            exact lt_of_le_of_ne h.1 (h.2 ‹_›).symm
          · cases hp⟩, d)
      | _ => .error "callback must be a function"
    else .error (refused every)
  | _ => .error (refused every)
where
  refused (every : Bool) : String :=
    if every then "interval must be a positive number of seconds" else "delay must be a non-negative number of seconds"

end Timer

/-- The clock, the timers, and what calls them. -/
structure Timers (T F : Type) [Zero T] [LT T] where
  running : Bool
  now : T
  heap : List (Timer T F)
  timers : List Nat
  firing : Option Firing
  log : List (Happened T)

namespace Timers

def init (now : T) : Timers T F := ⟨false, now, [], [], none, []⟩

def add (s : Timers T F) (t : Timer T F) (delay : T) : Timers T F :=
  { s with
    heap := s.heap ++ [t]
    timers := s.timers ++ [s.heap.length]
    log := s.log ++ [.started s.heap.length s.now delay t.every.isSome] }

/-- `after` and `every`. -/
def start (s : Timers T F) (delay fn : Value T F) (every : Bool) : Except String (Timers T F) :=
  (Timer.new s.now delay fn every).map fun t => s.add t.1 t.2

def live (s : Timers T F) (i : Nat) : Bool := s.heap[i]?.any Timer.live

def prune (s : Timers T F) : Timers T F := { s with timers := s.timers.filter s.live }

def pending (s : Timers T F) : Timers T F × Bool := (s.prune, !s.prune.timers.isEmpty)

/-- Seconds until the next timer is due. -/
def wait (s : Timers T F) : Option T :=
  (s.timers.foldl soonest none).map fun due => max 0 (due - s.now)
where
  soonest (due : Option T) (i : Nat) : Option T :=
    match s.heap[i]? with
    | some t => if t.live && due.all (fun d => decide (t.due < d)) then some t.due else due
    | none => due

def isDue (s : Timers T F) (i : Nat) : Bool := s.heap[i]?.any fun t => t.live && decide (t.due ≤ s.now)

/-- `a.due <= b.due`, of two timers. -/
def le (s : Timers T F) (i j : Nat) : Bool :=
  s.heap[i]?.all fun t => s.heap[j]?.all fun u => decide (t.due ≤ u.due)

/-- `fire` has collected and sorted the timers. `table.sort` leaves the order of equal times open. -/
def fire (s : Timers T F) (order : List Nat) : Option (Timers T F) :=
  if order.Perm (s.timers.filter s.isDue) ∧ order.Pairwise fun i j => s.le i j = true then
    some { s with firing := some ⟨order, false⟩ }
  else none

/-- The loop of `fire` comes to the timer `i`. -/
def turn (s : Timers T F) (i : Nat) (rest : List Nat) : Option (Timers T F) :=
  s.heap[i]?.map fun t =>
    if t.live then
      { s with
        heap := s.heap.set i (t.turn s.now)
        firing := some ⟨rest, true⟩
        log := s.log ++ [.called i s.now] }
    else { s with firing := some ⟨rest, false⟩, log := s.log ++ [.skipped i] }

def cancel (s : Timers T F) (i : Nat) : Option (Timers T F) :=
  s.heap[i]?.map fun t => { s with heap := s.heap.set i t.cancel, log := s.log ++ [.cancelled i] }

/-- The error unwinds a `fire`, and `guarded` ends the loop. -/
def unwind (s : Timers T F) : Timers T F := { s with firing := none, running := false }

/-- `guarded`: a loop is entered that is not running. -/
def enter (s : Timers T F) : Except String (Timers T F) :=
  if s.running then .error "the event loop is already running" else .ok { s with running := true }

/-- The application is in control: outside of a `fire`, or in a callback. -/
def user (s : Timers T F) : Bool := s.firing.all Firing.busy

/-- One call, turn or step of the clock. An error of `start` or `enter` changes nothing. -/
def step (s : Timers T F) : TimerLabel T F → Option (Timers T F)
  | .tick now => if s.now ≤ now then some { s with now := now } else none
  | .start delay fn every => if s.user then some ((s.start delay fn every).toOption.getD s) else none
  | .cancel i => if s.user then s.cancel i else none
  | .pending => if s.user then some s.pending.1 else none
  | .wait => if s.user then some s else none
  | .enter => if s.user then some (s.enter.toOption.getD s) else none
  | .fire order => if s.running && s.firing.isNone then s.fire order else none
  | .next =>
    match s.firing with
    | some ⟨i :: rest, _⟩ => s.turn i rest
    | _ => none
  | .finish =>
    match s.firing with
    | some ⟨[], _⟩ => some { s.prune with firing := none }
    | _ => none
  | .leave => if s.running && s.firing.isNone then some { s with running := false } else none
  | .raise => if s.user then some s.unwind else none

end Timers
end Model

/-! ## The law of a log -/

namespace Happened

variable {T : Type}

def id : Happened T → Nat
  | .started i _ _ _ => i
  | .cancelled i => i
  | .called i _ => i
  | .skipped i => i

/-- The timer whose turn in a `fire` this is. -/
def turn : Happened T → Option Nat
  | .called i _ => some i
  | .skipped i => some i
  | _ => none

theorem mem_snoc_of_ne {log : List (Happened T)} {e x : Happened T} (h : x ≠ e) : x ∈ log ++ [e] ↔ x ∈ log := by
  rw [List.mem_append, List.mem_singleton]
  exact or_iff_left h

end Happened

section Laws

variable {T F : Type} [AddCommGroup T] [LinearOrder T]

/-- What may happen after `past`. A timer is started once. Its callback is not called before its time, nor
after it was cancelled, nor again unless it repeats and its interval has passed. -/
def Allowed (past : List (Happened T)) : Happened T → Prop
  | .started i _ d every => (∀ e ∈ past, e.id ≠ i) ∧ 0 ≤ d ∧ (every = true → 0 < d)
  | .called i now => ∃ time d every, .started i time d every ∈ past ∧ time + d ≤ now ∧ .cancelled i ∉ past ∧
      ∀ before, .called i before ∈ past → every = true ∧ before + d ≤ now
  | _ => True

/-- A turn in a `fire`, after what has happened in it: the timer is called if it was not cancelled. -/
def Turned (past : List (Happened T)) : Happened T → Prop
  | .called i _ => .cancelled i ∉ past
  | .skipped i => .cancelled i ∈ past
  | _ => True

/-- The fields of the timer `i` are what the log makes of them. -/
structure Agrees (log : List (Happened T)) (i : Nat) (t : Timer T F) : Prop where
  begun : ∃ time d, .started i time d t.every.isSome ∈ log ∧ (∀ p ∈ t.every, p = d) ∧ time + d ≤ t.due ∧
    ((∀ now, .called i now ∉ log) → t.due = time + d)
  live : t.live = true ↔ .cancelled i ∉ log ∧ (t.every = none → ∀ now, .called i now ∉ log)
  apart : ∀ p ∈ t.every, ∀ now, .called i now ∈ log → now + p ≤ t.due
  latest : ∀ p ∈ t.every, ∀ now, .called i now ∈ log → ∃ last, .called i last ∈ log ∧ t.due = last + p

/-- The log grows by something else. -/
theorem Agrees.snoc {log : List (Happened T)} {i : Nat} {t : Timer T F} {e : Happened T} (h : Agrees log i t)
    (call : ∀ now, .called i now ≠ e) (cancel : .cancelled i ≠ e) : Agrees (log ++ [e]) i t := by
  obtain ⟨time, d, started, interval, later, first⟩ := h.begun
  have same (now : T) : .called i now ∈ log ++ [e] ↔ .called i now ∈ log := Happened.mem_snoc_of_ne (call now)
  have alive : .cancelled i ∈ log ++ [e] ↔ .cancelled i ∈ log := Happened.mem_snoc_of_ne cancel
  constructor
  · refine ⟨time, d, List.mem_append_left _ started, interval, later, ?_⟩
    simp only [same]
    exact first
  · simp only [same, alive]
    exact h.live
  · simp only [same]
    exact h.apart
  · simp only [same]
    exact h.latest

/-- Something happens to another timer. -/
theorem Agrees.other {log : List (Happened T)} {i : Nat} {t : Timer T F} {e : Happened T} (h : Agrees log i t)
    (ne : e.id ≠ i) : Agrees (log ++ [e]) i t := by
  refine h.snoc ?_ ?_
  · rintro now rfl
    exact ne rfl
  · rintro rfl
    exact ne rfl

theorem Agrees.cancel {log : List (Happened T)} {i : Nat} {t : Timer T F} (h : Agrees log i t) :
    Agrees (log ++ [.cancelled i]) i t.cancel := by
  obtain ⟨time, d, started, interval, later, first⟩ := h.begun
  have same (now : T) : .called i now ∈ log ++ [.cancelled i] ↔ .called i now ∈ log :=
    Happened.mem_snoc_of_ne (by intro h; cases h)
  constructor
  · refine ⟨time, d, List.mem_append_left _ started, interval, later, ?_⟩
    simp only [same]
    exact first
  · refine iff_of_false Bool.false_ne_true fun h => h.1 ?_
    exact List.mem_append_right log (List.mem_singleton_self _)
  · simp only [same]
    exact h.apart
  · simp only [same]
    exact h.latest

/-- A new timer. -/
theorem Agrees.new {log : List (Happened T)} {i : Nat} {t : Timer T F} {now d : T} (fresh : ∀ e ∈ log, e.id ≠ i)
    (due : t.due = now + d) (every : ∀ p ∈ t.every, p = d) (live : t.live = true) :
    Agrees (log ++ [.started i now d t.every.isSome]) i t := by
  have uncalled (time : T) : .called i time ∉ log ++ [.started i now d t.every.isSome] := by
    rw [Happened.mem_snoc_of_ne (by intro h; cases h)]
    exact fun h => fresh _ h rfl
  constructor
  · exact ⟨now, d, List.mem_append_right _ (List.mem_singleton_self _), every, ge_of_eq due, fun _ => due⟩
  · refine iff_of_true live ⟨?_, fun _ => uncalled⟩
    rw [Happened.mem_snoc_of_ne (by intro h; cases h)]
    exact fun h => fresh _ h rfl
  · exact fun p _ time h => absurd h (uncalled time)
  · exact fun p _ time h => absurd h (uncalled time)

/-- A timer is started once. -/
theorem started_unique {log : List (Happened T)} (h : Always Allowed log) {i : Nat} {time d time' d' : T}
    {every every' : Bool} (a : .started i time d every ∈ log) (b : .started i time' d' every' ∈ log) : every = every' := by
  obtain ⟨x, y, rfl⟩ := List.append_of_mem a
  rcases List.mem_append.mp b with before | after
  · exact absurd rfl ((h x _ y rfl).1 _ before)
  · rcases List.mem_cons.mp after with same | later
    · cases same
      rfl
    · obtain ⟨y, z, rfl⟩ := List.append_of_mem later
      have twice := (h (x ++ .started i time d every :: y) (.started i time' d' every') z (by simp)).1
      exact absurd rfl (twice (.started i time d every) (List.mem_append_right _ List.mem_cons_self))

/-- A live timer that is due may be called. -/
theorem Agrees.allowed {log : List (Happened T)} {i : Nat} {t : Timer T F} {now : T} (h : Agrees log i t)
    (live : t.live = true) (due : t.due ≤ now) : Allowed log (.called i now) := by
  obtain ⟨time, d, started, interval, later, -⟩ := h.begun
  obtain ⟨uncancelled, once⟩ := h.live.mp live
  refine ⟨time, d, _, started, le_trans later due, uncancelled, ?_⟩
  intro before called
  cases every : t.every with
  | none => exact absurd called (once every before)
  | some p =>
    rw [← interval p every]
    exact ⟨rfl, le_trans (h.apart p every before called) due⟩

variable [IsOrderedAddMonoid T]

/-- It is called. -/
theorem Agrees.turn {log : List (Happened T)} {i : Nat} {t : Timer T F} {now : T} (h : Agrees log i t)
    (live : t.live = true) (due : t.due ≤ now) : Agrees (log ++ [.called i now]) i (t.turn now) := by
  obtain ⟨time, d, started, interval, later, -⟩ := h.begun
  have last : .called i now ∈ log ++ [.called i now] := List.mem_append_right _ (List.mem_singleton_self _)
  have alive : .cancelled i ∈ log ++ [.called i now] ↔ .cancelled i ∈ log :=
    Happened.mem_snoc_of_ne (by intro h; cases h)
  have begun := List.mem_append_left [Happened.called i now] started
  cases every : t.every with
  | none =>
    rw [Timer.turn_none every]
    constructor
    · exact ⟨time, d, begun, interval, later, fun none => absurd last (none now)⟩
    · exact iff_of_false Bool.false_ne_true fun h => h.2 every now last
    · intro p hp
      rw [show t.cancel.every = none from every] at hp
      cases hp
    · intro p hp
      rw [show t.cancel.every = none from every] at hp
      cases hp
  | some p =>
    have pos : now ≤ now + p := le_add_of_nonneg_right (le_of_lt (t.positive p every))
    have same {q : T} (hq : q ∈ t.every) : q = p := by
      rw [every] at hq
      exact (Option.some.inj hq).symm
    rw [Timer.turn_some every]
    constructor
    · exact ⟨time, d, begun, interval, le_trans later (le_trans due pos), fun none => absurd last (none now)⟩
    · rw [alive]
      refine iff_of_true live ⟨(h.live.mp live).1, fun oneShot => ?_⟩
      rw [show t.every = none from oneShot] at every
      cases every
    · intro q hq before called
      rw [same hq]
      rcases List.mem_append.mp called with old | new
      · exact le_trans (h.apart p every before old) (le_trans due pos)
      · cases List.mem_singleton.mp new
        exact le_refl _
    · intro q hq before _
      rw [same hq]
      exact ⟨now, last, rfl⟩

end Laws

/-! ## Every state -/

section Steps

variable {T F : Type} [AddCommGroup T] [LinearOrder T] {s s' : Timers T F}

theorem Timers.live_iff {i : Nat} : s.live i = true ↔ ∃ t, s.heap[i]? = some t ∧ t.live = true := by
  rw [Timers.live, Option.any_eq_true]

theorem Timers.isDue_iff {i : Nat} :
    s.isDue i = true ↔ ∃ t, s.heap[i]? = some t ∧ t.live = true ∧ t.due ≤ s.now := by
  rw [Timers.isDue, Option.any_eq_true]
  simp only [Bool.and_eq_true, decide_eq_true_eq]

/-- The timers that a `fire` has still to come to were due when it began. -/
structure Batch (heap : List (Timer T F)) (now : T) (rest : List Nat) : Prop where
  nodup : rest.Nodup
  due : ∀ i ∈ rest, ∃ t, heap[i]? = some t ∧ t.due ≤ now

/-- The log is lawful and explains the timers, and those that are alive are registered. -/
structure Steady (s : Timers T F) : Prop where
  known : ∀ e ∈ s.log, e.id < s.heap.length
  lawful : Always Allowed s.log
  agrees : ∀ i t, s.heap[i]? = some t → Agrees s.log i t
  nodup : s.timers.Nodup
  old : ∀ i ∈ s.timers, i < s.heap.length
  registered : ∀ i, s.live i = true → i ∈ s.timers
  batch : ∀ f, s.firing = some f → Batch s.heap s.now f.rest

theorem Timer.new_ok {now d : T} {delay fn : Value T F} {every : Bool} {t : Timer T F}
    (h : Timer.new now delay fn every = .ok (t, d)) :
    t.due = now + d ∧ t.live = true ∧ (∀ p ∈ t.every, p = d) ∧ 0 ≤ d := by
  unfold Timer.new at h
  split at h
  · split at h
    · split at h
      · rename_i ok _ _
        cases h
        refine ⟨rfl, rfl, ?_, ok.1⟩
        intro p hp
        dsimp only at hp
        split at hp
        · exact (Option.some.inj hp).symm
        · cases hp
      · cases h
    · cases h
  · cases h

theorem Steady.add (h : Steady s) {t : Timer T F} {d : T} (due : t.due = s.now + d) (live : t.live = true)
    (every : ∀ p ∈ t.every, p = d) (nonneg : 0 ≤ d) : Steady (s.add t d) := by
  have fresh : ∀ e ∈ s.log, e.id ≠ s.heap.length := fun e he => Nat.ne_of_lt (h.known e he)
  have length : (s.add t d).heap.length = s.heap.length + 1 := List.length_append ..
  have before {i : Nat} {u : Timer T F} (hi : s.heap[i]? = some u) : (s.heap ++ [t])[i]? = some u := by
    rw [List.getElem?_append_left (List.getElem?_eq_some_iff.mp hi).1]
    exact hi
  -- a timer of the new heap is an old one, or the new one
  have cases_ {i : Nat} {u : Timer T F} (hu : (s.heap ++ [t])[i]? = some u) :
      s.heap[i]? = some u ∨ i = s.heap.length ∧ u = t := by
    rcases Nat.lt_or_ge i s.heap.length with lt | ge
    · rw [List.getElem?_append_left lt] at hu
      exact .inl hu
    · have bound := (List.getElem?_eq_some_iff.mp hu).1
      rw [List.length_append, List.length_singleton] at bound
      have last : i = s.heap.length := by omega
      rw [last, List.getElem?_concat_length] at hu
      exact .inr ⟨last, (Option.some.inj hu).symm⟩
  constructor
  · rw [length]
    refine List.forall_mem_append.mpr ⟨fun e he => Nat.lt_succ_of_lt (h.known e he), ?_⟩
    exact List.forall_mem_singleton.mpr (Nat.lt_succ_self _)
  · refine h.lawful.snoc ⟨fresh, nonneg, ?_⟩
    intro repeats
    obtain ⟨p, hp⟩ := Option.isSome_iff_exists.mp repeats
    rw [← every p hp]
    exact t.positive p hp
  · intro i u hu
    rcases cases_ hu with old | ⟨rfl, rfl⟩
    · exact (h.agrees i u old).other (Nat.ne_of_gt (List.getElem?_eq_some_iff.mp old).1)
    · exact Agrees.new fresh due every live
  · refine List.nodup_append.mpr ⟨h.nodup, List.nodup_singleton _, ?_⟩
    intro i hi j hj
    rw [List.mem_singleton.mp hj]
    exact Nat.ne_of_lt (h.old i hi)
  · rw [length]
    refine List.forall_mem_append.mpr ⟨fun i hi => Nat.lt_succ_of_lt (h.old i hi), ?_⟩
    exact List.forall_mem_singleton.mpr (Nat.lt_succ_self _)
  · intro i alive
    obtain ⟨u, hu, ul⟩ := Timers.live_iff.mp alive
    rcases cases_ hu with old | ⟨rfl, -⟩
    · exact List.mem_append_left _ (h.registered i (Timers.live_iff.mpr ⟨u, old, ul⟩))
    · exact List.mem_append_right _ (List.mem_singleton_self _)
  · intro f hf
    refine ⟨(h.batch f hf).nodup, fun i hi => ?_⟩
    obtain ⟨u, hu, ud⟩ := (h.batch f hf).due i hi
    exact ⟨u, before hu, ud⟩

/-- Something happens to the timer `i`. -/
theorem Steady.set (h : Steady s) {i : Nat} {t t' : Timer T F} {e : Happened T} {firing : Option Firing}
    (hi : s.heap[i]? = some t) (id : e.id = i) (allowed : Allowed s.log e) (agrees : Agrees (s.log ++ [e]) i t')
    (live : t'.live = true → t.live = true)
    (batch : ∀ f, firing = some f → Batch (s.heap.set i t') s.now f.rest) :
    Steady { s with heap := s.heap.set i t', firing := firing, log := s.log ++ [e] } := by
  have bound := (List.getElem?_eq_some_iff.mp hi).1
  have cases_ {j : Nat} {u : Timer T F} (hu : (s.heap.set i t')[j]? = some u) :
      (j = i ∧ u = t') ∨ j ≠ i ∧ s.heap[j]? = some u := by
    rw [List.getElem?_set, if_pos bound] at hu
    split at hu
    · rename_i same
      exact .inl ⟨same.symm, (Option.some.inj hu).symm⟩
    · rename_i other
      exact .inr ⟨Ne.symm other, hu⟩
  constructor
  · show ∀ e' ∈ s.log ++ [e], e'.id < (s.heap.set i t').length
    rw [List.length_set]
    exact List.forall_mem_append.mpr ⟨h.known, List.forall_mem_singleton.mpr (id ▸ bound)⟩
  · exact h.lawful.snoc allowed
  · intro j u hu
    rcases cases_ hu with ⟨rfl, rfl⟩ | ⟨other, old⟩
    · exact agrees
    · exact (h.agrees j u old).other (by rw [id]; exact Ne.symm other)
  · exact h.nodup
  · show ∀ j ∈ s.timers, j < (s.heap.set i t').length
    rw [List.length_set]
    exact h.old
  · intro j alive
    apply h.registered
    obtain ⟨u, hu, ul⟩ := Timers.live_iff.mp alive
    rcases cases_ hu with ⟨rfl, rfl⟩ | ⟨-, old⟩
    · exact Timers.live_iff.mpr ⟨t, hi, live ul⟩
    · exact Timers.live_iff.mpr ⟨u, old, ul⟩
  · exact batch

/-- The timers ahead stay due while another one changes, or one keeps its time. -/
theorem Batch.set {heap : List (Timer T F)} {now : T} {rest : List Nat} (h : Batch heap now rest) {i : Nat}
    {t t' : Timer T F} (hi : heap[i]? = some t) (same : i ∈ rest → t'.due = t.due) : Batch (heap.set i t') now rest := by
  refine ⟨h.nodup, fun j hj => ?_⟩
  obtain ⟨u, hu, due⟩ := h.due j hj
  by_cases eq : i = j
  · subst eq
    rw [hi] at hu
    cases hu
    refine ⟨t', List.getElem?_set_self (List.getElem?_eq_some_iff.mp hi).1, ?_⟩
    rw [same hj]
    exact due
  · exact ⟨u, (List.getElem?_set_ne eq).trans hu, due⟩

theorem Steady.cancel (h : Steady s) {i : Nat} (hs : s.cancel i = some s') : Steady s' := by
  obtain ⟨t, hi, rfl⟩ := Option.map_eq_some_iff.mp hs
  exact h.set hi rfl trivial (h.agrees i t hi).cancel (fun live => by cases live)
    fun f hf => (h.batch f hf).set hi fun _ => rfl

theorem Steady.prune (h : Steady s) : Steady s.prune := by
  refine ⟨h.known, h.lawful, h.agrees, h.nodup.filter _, ?_, ?_, h.batch⟩
  · exact fun i hi => h.old i (List.mem_of_mem_filter hi)
  · exact fun i live => List.mem_filter.mpr ⟨h.registered i live, live⟩

/-- Control passes, with no timers ahead that were not. -/
theorem Steady.control (h : Steady s) {firing : Option Firing} {running : Bool} {now : T} (later : s.now ≤ now)
    (batch : ∀ f, firing = some f → Batch s.heap s.now f.rest) :
    Steady { s with running := running, now := now, firing := firing } := by
  refine ⟨h.known, h.lawful, h.agrees, h.nodup, h.old, h.registered, fun f hf => ⟨(batch f hf).nodup, fun i hi => ?_⟩⟩
  obtain ⟨t, ht, due⟩ := (batch f hf).due i hi
  exact ⟨t, ht, le_trans due later⟩

theorem Timers.fire_some {order : List Nat} (h : s.fire order = some s') :
    order.Perm (s.timers.filter s.isDue) ∧ (order.Pairwise fun i j => s.le i j = true) ∧
      s' = { s with firing := some ⟨order, false⟩ } := by
  rw [Timers.fire] at h
  split at h
  · rename_i ok
    cases h
    exact ⟨ok.1, ok.2, rfl⟩
  · cases h

theorem Timers.le_iff {i j : Nat} :
    s.le i j = true ↔ ∀ t u, s.heap[i]? = some t → s.heap[j]? = some u → t.due ≤ u.due := by
  rw [Timers.le, Option.all_eq_true]
  simp only [Option.all_eq_true, decide_eq_true_eq]
  exact ⟨fun h t u ht hu => h t ht u hu, fun h t ht u hu => h t u ht hu⟩

/-- There is an order for `table.sort` to give. -/
theorem Timers.exists_fire (s : Timers T F) : ∃ order s', s.fire order = some s' := by
  let key (i : Nat) : T := s.heap[i]?.elim 0 Timer.due
  let order := (s.timers.filter s.isDue).mergeSort fun i j => decide (key i ≤ key j)
  have sorted : order.Pairwise fun i j => decide (key i ≤ key j) = true := by
    apply List.pairwise_mergeSort
    · intro i j k hij hjk
      exact decide_eq_true (le_trans (of_decide_eq_true hij) (of_decide_eq_true hjk))
    · intro i j
      rw [Bool.or_eq_true, decide_eq_true_eq, decide_eq_true_eq]
      exact le_total _ _
  refine ⟨order, _, if_pos ⟨List.mergeSort_perm _ _, sorted.imp ?_⟩⟩
  intro i j le
  refine Timers.le_iff.mpr fun t u ht hu => ?_
  have := of_decide_eq_true le
  simp only [key, ht, hu, Option.elim_some] at this
  exact this

/-- The timers of a `fire` are those alive and due. -/
theorem Steady.mem_order (h : Steady s) {order : List Nat} (perm : order.Perm (s.timers.filter s.isDue)) (i : Nat) :
    i ∈ order ↔ s.isDue i = true := by
  rw [perm.mem_iff, List.mem_filter]
  refine and_iff_right_of_imp fun due => ?_
  obtain ⟨t, ht, live, -⟩ := Timers.isDue_iff.mp due
  exact h.registered i (Timers.live_iff.mpr ⟨t, ht, live⟩)

theorem Steady.batch_of_fire (h : Steady s) {order : List Nat} (perm : order.Perm (s.timers.filter s.isDue)) :
    Batch s.heap s.now order := by
  refine ⟨perm.nodup_iff.mpr (h.nodup.filter _), fun i hi => ?_⟩
  obtain ⟨t, ht, -, due⟩ := Timers.isDue_iff.mp ((h.mem_order perm i).mp hi)
  exact ⟨t, ht, due⟩

theorem Steady.init (now : T) : Steady (Timers.init now : Timers T F) := by
  refine ⟨?_, Always.nil, ?_, List.nodup_nil, ?_, ?_, ?_⟩
  · exact fun e he => by cases he
  · exact fun i t ht => by cases ht
  · exact fun i hi => by cases hi
  · exact fun i live => by cases live
  · exact fun f hf => by cases hf

theorem Steady.registered_of_log (h : Steady s) {i : Nat} {time d : T} {every : Bool}
    (started : .started i time d every ∈ s.log) (uncancelled : .cancelled i ∉ s.log)
    (unfired : every = false → ∀ now, .called i now ∉ s.log) : s.live i = true ∧ i ∈ s.timers := by
  have bound : i < s.heap.length := h.known _ started
  have agrees := h.agrees i _ (List.getElem?_eq_getElem bound)
  obtain ⟨time', d', begun, -⟩ := agrees.begun
  have live : (s.heap.get ⟨i, bound⟩).live = true := by
    refine agrees.live.mpr ⟨uncancelled, fun oneShot => unfired ?_⟩
    rw [started_unique h.lawful started begun, oneShot]
    rfl
  have alive := Timers.live_iff.mpr ⟨_, List.getElem?_eq_getElem bound, live⟩
  exact ⟨alive, h.registered i alive⟩

/-! ## A fire -/

/-- A `fire` of the timers `order` is under way; `during` is what has happened in it, and `rest` comes next.
A timer ahead that is dead was cancelled in this very fire. -/
structure Fired (past : List (Happened T)) (order : List Nat) (s : Timers T F) (during : List (Happened T))
    (f : Firing) : Prop where
  firing : s.firing = some f
  log : s.log = past ++ during
  turns : during.filterMap Happened.turn ++ f.rest = order
  live : ∀ i ∈ f.rest, .cancelled i ∈ during ∨ s.live i = true
  turned : Always Turned during

section Fires

variable {past during : List (Happened T)} {order : List Nat} {f : Firing}

/-- Nothing happens to a timer. -/
theorem Fired.same (h : Fired past order s during f) (firing : s'.firing = s.firing) (heap : s'.heap = s.heap)
    (log : s'.log = s.log) : Fired past order s' during f := by
  refine ⟨firing.trans h.firing, log.trans h.log, h.turns, ?_, h.turned⟩
  intro i hi
  rw [Timers.live, heap]
  exact h.live i hi

/-- The callback starts or cancels a timer. -/
theorem Fired.grow (h : Fired past order s during f) {e : Happened T} (firing : s'.firing = s.firing)
    (log : s'.log = s.log ++ [e]) (turn : e.turn = none)
    (live : ∀ i, s.live i = true → .cancelled i = e ∨ s'.live i = true) : Fired past order s' (during ++ [e]) f := by
  refine ⟨firing.trans h.firing, ?_, ?_, ?_, h.turned.snoc ?_⟩
  · rw [log, h.log, List.append_assoc]
  · rw [List.filterMap_append, List.filterMap_cons_none turn, List.filterMap_nil, List.append_nil]
    exact h.turns
  · intro i hi
    rcases h.live i hi with cancelled | alive
    · exact .inl (List.mem_append_left _ cancelled)
    · refine (live i alive).imp_left fun same => ?_
      rw [same]
      exact List.mem_append_right _ (List.mem_singleton_self e)
  · cases e with
    | started => trivial
    | cancelled => trivial
    | called => cases turn
    | skipped => cases turn

theorem Timers.live_add {t : Timer T F} {d : T} {i : Nat} (h : s.live i = true) : (s.add t d).live i = true := by
  obtain ⟨u, hu, live⟩ := Timers.live_iff.mp h
  refine Timers.live_iff.mpr ⟨u, ?_, live⟩
  show (s.heap ++ [t])[i]? = some u
  rw [List.getElem?_append_left (List.getElem?_eq_some_iff.mp hu).1]
  exact hu

theorem Timers.live_set {i j : Nat} {t : Timer T F} (ne : i ≠ j) :
    Timers.live { s with heap := s.heap.set i t } j = s.live j := by
  rw [Timers.live, Timers.live, List.getElem?_set_ne ne]

/-- The fire comes to its next timer. -/
theorem Fired.turn (h : Fired past order s during f) (steady : Steady s) {i : Nat} {rest : List Nat}
    (ahead : f.rest = i :: rest) (hs : s.turn i rest = some s') :
    ∃ e f', Fired past order s' (during ++ [e]) f' := by
  obtain ⟨t, hi, rfl⟩ := Option.map_eq_some_iff.mp hs
  have nodup := (steady.batch f h.firing).nodup
  have turns := h.turns
  have ahead' := h.live
  rw [ahead] at nodup turns ahead'
  have turn {e : Happened T} (he : e.turn = some i) : (during ++ [e]).filterMap Happened.turn ++ rest = order := by
    rw [List.filterMap_append, List.filterMap_cons_some he, List.filterMap_nil, List.append_assoc]
    exact turns
  split
  · rename_i live
    refine ⟨.called i s.now, ⟨rest, true⟩, rfl, ?_, turn rfl, ?_, h.turned.snoc ?_⟩
    · show s.log ++ _ = _
      rw [h.log, List.append_assoc]
    · intro j hj
      have ne : i ≠ j := by
        rintro rfl
        exact (List.nodup_cons.mp nodup).1 hj
      rcases ahead' j (List.mem_cons_of_mem i hj) with cancelled | alive
      · exact .inl (List.mem_append_left _ cancelled)
      · exact .inr ((Timers.live_set ne).trans alive)
    · intro cancelled
      refine ((steady.agrees i t hi).live.mp live).1 ?_
      rw [h.log]
      exact List.mem_append_right _ cancelled
  · rename_i dead
    refine ⟨.skipped i, ⟨rest, false⟩, rfl, ?_, turn rfl, ?_, h.turned.snoc ?_⟩
    · show s.log ++ _ = _
      rw [h.log, List.append_assoc]
    · intro j hj
      exact (ahead' j (List.mem_cons_of_mem i hj)).imp_left (List.mem_append_left _)
    · refine (ahead' i List.mem_cons_self).resolve_right fun alive => dead ?_
      obtain ⟨u, hu, live⟩ := Timers.live_iff.mp alive
      rw [hi] at hu
      cases hu
      exact live

theorem Fired.step {lab : TimerLabel T F} (h : Fired past order s during f) (steady : Steady s)
    (hs : s.step lab = some s') (finish : lab ≠ .finish) (raise : lab ≠ .raise) :
    ∃ during' f', Fired past order s' during' f' := by
  have busy : ¬ (s.running && s.firing.isNone) = true := by
    rw [h.firing, Option.isNone_some, Bool.and_false]
    exact Bool.false_ne_true
  cases lab with
  | tick now =>
    obtain ⟨-, hs⟩ := Option.ite_none_right_eq_some.mp hs
    cases hs
    exact ⟨_, _, h.same rfl rfl rfl⟩
  | start delay fn every =>
    obtain ⟨-, hs⟩ := Option.ite_none_right_eq_some.mp hs
    cases hs
    rw [Timers.start]
    cases Timer.new s.now delay fn every with
    | error e => exact ⟨_, _, h⟩
    | ok t =>
      have grown : Fired past order (s.add t.1 t.2) _ f := h.grow rfl rfl rfl fun i live => .inr (Timers.live_add live)
      exact ⟨_, _, grown⟩
  | cancel i =>
    obtain ⟨t, hi, rfl⟩ := Option.map_eq_some_iff.mp (Option.ite_none_right_eq_some.mp hs).2
    refine ⟨_, _, h.grow rfl rfl rfl fun j live => ?_⟩
    by_cases same : i = j
    · exact .inl (congrArg _ same.symm)
    · exact .inr ((Timers.live_set same).trans live)
  | pending =>
    obtain ⟨-, hs⟩ := Option.ite_none_right_eq_some.mp hs
    cases hs
    exact ⟨_, _, h.same rfl rfl rfl⟩
  | wait =>
    obtain ⟨-, hs⟩ := Option.ite_none_right_eq_some.mp hs
    cases hs
    exact ⟨_, _, h⟩
  | enter =>
    obtain ⟨-, hs⟩ := Option.ite_none_right_eq_some.mp hs
    cases hs
    rw [Timers.enter]
    split
    · exact ⟨_, _, h⟩
    · exact ⟨_, _, h.same rfl rfl rfl⟩
  | fire order => exact absurd (Option.ite_none_right_eq_some.mp hs).1 busy
  | next =>
    rw [Timers.step, h.firing] at hs
    split at hs
    · rename_i i rest _ ahead
      obtain ⟨e, f', fired⟩ := h.turn steady (congrArg Firing.rest (Option.some.inj ahead)) hs
      exact ⟨_, _, fired⟩
    · cases hs
  | finish => exact absurd rfl finish
  | leave => exact absurd (Option.ite_none_right_eq_some.mp hs).1 busy
  | raise => exact absurd rfl raise

end Fires

/-! ## Every program -/

variable [IsOrderedAddMonoid T]

/-- A timer has its turn. -/
theorem Steady.turn (h : Steady s) {i : Nat} {rest : List Nat} (batch : Batch s.heap s.now (i :: rest))
    (hs : s.turn i rest = some s') : Steady s' := by
  obtain ⟨t, hi, rfl⟩ := Option.map_eq_some_iff.mp hs
  have agrees := h.agrees i t hi
  have apart := List.nodup_cons.mp batch.nodup
  have left : Batch s.heap s.now rest := ⟨apart.2, fun j hj => batch.due j (List.mem_cons_of_mem i hj)⟩
  split
  · rename_i live
    obtain ⟨u, hu, due⟩ := batch.due i List.mem_cons_self
    rw [hi] at hu
    cases hu
    refine h.set hi rfl (agrees.allowed live due) (agrees.turn live due) (fun _ => live) ?_
    rintro f ⟨⟩
    exact left.set hi fun mem => absurd mem apart.1
  · have same : s.heap.set i t = s.heap := by
      obtain ⟨bound, eq⟩ := List.getElem?_eq_some_iff.mp hi
      rw [← eq]
      exact List.set_getElem_self bound
    have skipped : Steady { s with
        heap := s.heap.set i t, firing := some ⟨rest, false⟩, log := s.log ++ [.skipped i] } := by
      refine h.set hi rfl trivial (agrees.snoc ?_ ?_) (fun live => live) ?_
      · intro now h
        cases h
      · intro h
        cases h
      · rintro f ⟨⟩
        rw [same]
        exact left
    rw [same] at skipped
    exact skipped

theorem Steady.step {lab : TimerLabel T F} (h : Steady s) (hs : s.step lab = some s') : Steady s' := by
  cases lab with
  | tick now =>
    obtain ⟨later, hs⟩ := Option.ite_none_right_eq_some.mp hs
    cases hs
    exact h.control later h.batch
  | start delay fn every =>
    obtain ⟨-, hs⟩ := Option.ite_none_right_eq_some.mp hs
    cases hs
    cases new : Timer.new s.now delay fn every with
    | error e =>
      rw [Timers.start, new]
      exact h
    | ok t =>
      obtain ⟨due, live, every, nonneg⟩ := Timer.new_ok new
      rw [Timers.start, new]
      exact h.add due live every nonneg
  | cancel i => exact h.cancel (Option.ite_none_right_eq_some.mp hs).2
  | pending =>
    obtain ⟨-, hs⟩ := Option.ite_none_right_eq_some.mp hs
    cases hs
    exact h.prune
  | wait =>
    obtain ⟨-, hs⟩ := Option.ite_none_right_eq_some.mp hs
    cases hs
    exact h
  | enter =>
    obtain ⟨-, hs⟩ := Option.ite_none_right_eq_some.mp hs
    cases hs
    rw [Timers.enter]
    split
    · exact h
    · exact h.control (le_refl _) h.batch
  | fire order =>
    obtain ⟨perm, -, rfl⟩ := Timers.fire_some (Option.ite_none_right_eq_some.mp hs).2
    refine h.control (le_refl _) ?_
    rintro f ⟨⟩
    exact h.batch_of_fire perm
  | next =>
    rw [Timers.step] at hs
    split at hs
    · rename_i firing
      exact h.turn (h.batch _ firing) hs
    · cases hs
  | finish =>
    rw [Timers.step] at hs
    split at hs
    · cases hs
      exact h.prune.control (le_refl _) (fun f hf => by cases hf)
    · cases hs
  | leave =>
    obtain ⟨-, hs⟩ := Option.ite_none_right_eq_some.mp hs
    cases hs
    exact h.control (le_refl _) h.batch
  | raise =>
    obtain ⟨-, hs⟩ := Option.ite_none_right_eq_some.mp hs
    cases hs
    exact h.control (le_refl _) (fun f hf => by cases hf)

theorem steady_of_runs {now : T} {program : List (TimerLabel T F)} (h : runs Timers.step (.init now) program = some s) :
    Steady s :=
  runs_induct (Steady.init now) (fun _ _ _ hu hv => hu.step hv) h

/-- What a `fire` does until it ends: it comes to the timers of `order` in turn. -/
theorem Fired.runs {past during : List (Happened T)} {order : List Nat} {f : Firing} {labels : List (TimerLabel T F)}
    (h : Fired past order s during f) (steady : Steady s) (hr : runs Timers.step s labels = some s')
    (finish : .finish ∉ labels) (raise : .raise ∉ labels) : ∃ during' f', Fired past order s' during' f' := by
  induction labels generalizing s during f with
  | nil =>
    cases hr
    exact ⟨during, f, h⟩
  | cons lab labels ih =>
    obtain ⟨u, hu, hr⟩ := runs_cons_iff.mp hr
    rw [List.mem_cons, not_or] at finish raise
    obtain ⟨during', f', next⟩ := h.step steady hu (Ne.symm finish.1) (Ne.symm raise.1)
    exact ih next (steady.step hu) hr finish.2 raise.2

/-- **Timers are neither lost nor repeated**, in every program. Nothing happens to a timer that the law of
the log forbids: a callback runs after it was started, not before its time, not after it was cancelled, and
not again unless it repeats and its interval has passed. A timer's fields are what the log makes of them. A
timer that was started, and neither cancelled nor called as a one-shot, is alive and registered. A `fire`
can always begin, and it is about the timers that are alive and due, each once and by their times. Until it
ends or an error ends it, they have their turns one after the other, and a timer is called in its turn unless
it was cancelled earlier in that fire; when it ends, all have had theirs. -/
theorem timers_kept {now : T} {program : List (TimerLabel T F)}
    (h : runs Timers.step (.init now) program = some s) :
    Always Allowed s.log ∧
      (∀ i t, s.heap[i]? = some t → Agrees s.log i t) ∧
      (∀ i time d every, .started i time d every ∈ s.log → .cancelled i ∉ s.log →
        (every = false → ∀ now, .called i now ∉ s.log) → s.live i = true ∧ i ∈ s.timers) ∧
      (s.running = true → s.firing = none → ∃ order s₁, s.step (.fire order) = some s₁) ∧
      ∀ order s₁, s.step (.fire order) = some s₁ →
        order.Nodup ∧ (∀ i, i ∈ order ↔ s.isDue i = true) ∧ (order.Pairwise fun i j => s.le i j = true) ∧
          ∀ labels s₂, runs Timers.step s₁ labels = some s₂ → .finish ∉ labels → .raise ∉ labels →
            ∃ during rest, s₂.log = s.log ++ during ∧ during.filterMap Happened.turn ++ rest = order ∧
              Always Turned during ∧ (s₂.step .finish ≠ none → rest = []) := by
  have steady := steady_of_runs h
  refine ⟨steady.lawful, steady.agrees, fun _ _ _ _ => steady.registered_of_log, ?_, ?_⟩
  · intro running idle
    obtain ⟨order, s₁, fire⟩ := s.exists_fire
    refine ⟨order, s₁, ?_⟩
    rw [Timers.step, running, idle]
    exact fire
  · intro order s₁ hs
    have steady₁ := steady.step hs
    obtain ⟨perm, sorted, rfl⟩ := Timers.fire_some (Option.ite_none_right_eq_some.mp hs).2
    refine ⟨perm.nodup_iff.mpr (steady.nodup.filter _), steady.mem_order perm, sorted, ?_⟩
    intro labels s₂ hr finish raise
    have begun : Fired s.log order { s with firing := some ⟨order, false⟩ } [] ⟨order, false⟩ := by
      refine ⟨rfl, (List.append_nil _).symm, rfl, fun i hi => .inr ?_, Always.nil⟩
      obtain ⟨t, ht, live, -⟩ := Timers.isDue_iff.mp ((steady.mem_order perm i).mp hi)
      exact Timers.live_iff.mpr ⟨t, ht, live⟩
    obtain ⟨during, f, fired⟩ := begun.runs steady₁ hr finish raise
    refine ⟨during, f.rest, fired.log, fired.turns, fired.turned, fun ends => ?_⟩
    rw [Timers.step, fired.firing] at ends
    split at ends
    · rename_i last
      rw [Option.some.inj last]
    · exact absurd rfl ends

end Steps

/-- A timer after 5 and one every 3. Both are due when the loop is entered at 6, and the callback of the
earlier one cancels the other. -/
def fireRun : List (TimerLabel Int Nat) :=
  [.start (.number 5) (.function 1) false, .start (.number 3) (.function 2) true, .tick 6, .enter, .fire [1, 0], .next,
    .cancel 0, .next, .finish]

/-- The repeating timer ran and is due again at 9; the other one is gone. -/
theorem timers_kept_cancelled :
    ∃ s, runs Timers.step (Timers.init 0 : Timers Int Nat) fireRun = some s ∧ Always Allowed s.log ∧ s.timers = [1] ∧
      s.heap.map Timer.due = [5, 9] ∧
      s.log = [.started 0 0 5 false, .started 1 0 3 true, .called 1 6, .cancelled 0, .skipped 0] :=
  have run : runs Timers.step (Timers.init 0 : Timers Int Nat) fireRun = some _ := rfl
  ⟨_, run, (timers_kept run).1, rfl, rfl, rfl⟩

end WebSocket.Lua
