import WebSocket.Lib.Transition
import Mathlib.Data.List.Basic

/-!
# Staggered address attempts

`core/src/net/dial.rs`. The attempts are the tasks of a join set. The scheduler decides how each of
them ends, in which order the ends are observed and when the stagger runs out, so a run of `dial` is a
list of turns of its `select!`.

The loop ends when no attempt is running. A refused attempt and an expired stagger start the next
address first, so then nothing is left to try. A task that fails does not: if it was the only one
running, `dial` gives up with addresses left (`strands`).
-/

namespace WebSocket.Net

open Lib.Transition

/-- How a task ends: with the stream, with the error of `connect`, or with a `JoinError`. -/
inductive Outcome (Tcp : Type) where
  | connected (tcp : Tcp)
  | refused (error : String)
  | failed (error : String)
  deriving DecidableEq

def Outcome.connects {Tcp : Type} : Outcome Tcp → Bool
  | .connected _ => true
  | _ => false

/-- A task of the join set. -/
structure Attempt (Addr : Type) where
  id : Nat
  addr : Addr
  deriving DecidableEq

/-- What the `select!` saw. -/
inductive Turn (Addr Tcp : Type) where
  | joined (attempt : Attempt Addr) (outcome : Outcome Tcp)
  | stagger

/-- The variables of `dial`, the attempts it has started and seen the end of, and what it returned. -/
structure Dial (Addr Tcp : Type) where
  attempts : List (Attempt Addr)
  addresses : List Addr
  error : Option String
  started : List (Attempt Addr)
  ended : List (Attempt Addr × Outcome Tcp)
  returned : Option (Except (Option String) Tcp)

namespace Dial

variable {Addr Tcp : Type}

def start (d : Dial Addr Tcp) (addr : Addr) : Dial Addr Tcp :=
  let attempt := ⟨d.started.length, addr⟩
  { d with attempts := d.attempts ++ [attempt], started := d.started ++ [attempt] }

/-- `if let Some(addr) = addresses.next() { start(&mut attempts, addr) }` -/
def startNext (d : Dial Addr Tcp) : Dial Addr Tcp :=
  match d.addresses with
  | addr :: rest => { d with addresses := rest }.start addr
  | [] => d

/-- The head of the loop: without a running attempt it is over. -/
def loop (d : Dial Addr Tcp) : Dial Addr Tcp :=
  if d.attempts.isEmpty then { d with returned := some (.error d.error) } else d

def init (addrs : List Addr) : Dial Addr Tcp := (startNext ⟨[], addrs, none, [], [], none⟩).loop

/-- The attempt leaves the set; `error` is the last error now. -/
def leave [DecidableEq Addr] (d : Dial Addr Tcp) (attempt : Attempt Addr) (outcome : Outcome Tcp)
    (error : Option String) : Dial Addr Tcp :=
  { d with attempts := d.attempts.erase attempt, ended := d.ended ++ [(attempt, outcome)], error := error }

/-- The end of `attempt` was observed. -/
def join [DecidableEq Addr] [ToString Addr] (d : Dial Addr Tcp) (attempt : Attempt Addr) (outcome : Outcome Tcp) :
    Dial Addr Tcp :=
  match outcome with
  | .connected tcp => { d.leave attempt outcome d.error with returned := some (.ok tcp) }
  | .refused e =>
    (d.leave attempt outcome (some ("cannot connect to " ++ toString attempt.addr ++ ": " ++ e))).startNext.loop
  | .failed e => (d.leave attempt outcome (some ("cannot connect: " ++ e))).loop

/-- One turn of the loop. `join_next` only finds the set empty when the loop is over. -/
def step [DecidableEq Addr] [ToString Addr] (d : Dial Addr Tcp) (turn : Turn Addr Tcp) : Option (Dial Addr Tcp) :=
  if d.returned.isSome then none
  else
    match turn with
    | .joined attempt outcome => if attempt ∈ d.attempts then some (d.join attempt outcome) else none
    | .stagger => some d.startNext.loop

/-- The only running task fails while there are addresses left. -/
def strands (d : Dial Addr Tcp) : Turn Addr Tcp → Bool
  | .joined _ (.failed _) => decide (d.attempts.length = 1) && !d.addresses.isEmpty
  | _ => false

/-- A turn that strands nothing. -/
def fairStep [DecidableEq Addr] [ToString Addr] (d : Dial Addr Tcp) (turn : Turn Addr Tcp) : Option (Dial Addr Tcp) :=
  if d.strands turn then none else d.step turn

/-- Every address was tried, and every attempt has ended without a connection. -/
structure Exhausted (addrs : List Addr) (d : Dial Addr Tcp) : Prop where
  tried : d.started.map Attempt.addr = addrs
  over_ : (d.ended.map Prod.fst).Perm d.started
  failed : ∀ p ∈ d.ended, p.2.connects = false

/-! ## What every turn keeps -/

/-- The addresses, the attempts and the error of a running or finished `dial`. -/
structure Sound (addrs : List Addr) (d : Dial Addr Tcp) : Prop where
  order : d.started.map Attempt.addr ++ d.addresses = addrs
  tasks : (d.attempts ++ d.ended.map Prod.fst).Perm d.started
  error : (∀ tcp, d.returned ≠ some (.ok tcp)) → d.started ≠ [] → d.attempts = [] → d.error ≠ none
  failed : (∀ tcp, d.returned ≠ some (.ok tcp)) → ∀ p ∈ d.ended, p.2.connects = false
  running : d.returned = none → d.attempts ≠ []
  gaveUp : ∀ e, d.returned = some (.error e) → d.attempts = [] ∧ e = d.error
  first : d.started = [] → d.addresses = []

/-- `Sound` at the head of the loop, where no attempt needs to be running. -/
structure Ready (addrs : List Addr) (d : Dial Addr Tcp) : Prop where
  order : d.started.map Attempt.addr ++ d.addresses = addrs
  tasks : (d.attempts ++ d.ended.map Prod.fst).Perm d.started
  error : d.started ≠ [] → d.attempts = [] → d.error ≠ none
  failed : ∀ p ∈ d.ended, p.2.connects = false
  returned : d.returned = none

variable {addrs : List Addr} {d d' : Dial Addr Tcp} {turn : Turn Addr Tcp}

theorem Ready.loop (h : Ready addrs d) (first : d.started = [] → d.addresses = []) : Sound addrs d.loop := by
  rw [Dial.loop]
  split
  · rename_i empty
    have none : d.attempts = [] := List.isEmpty_iff.mp empty
    refine ⟨h.order, h.tasks, fun _ => h.error, fun _ => h.failed, (fun hr => by cases hr), ?_, first⟩
    intro e he
    cases he
    exact ⟨none, rfl⟩
  · rename_i running
    refine ⟨h.order, h.tasks, fun _ => h.error, fun _ => h.failed, fun _ none => running (List.isEmpty_iff.mpr none), ?_,
      first⟩
    intro e he
    rw [h.returned] at he
    cases he

theorem Ready.startNext (h : Ready addrs d) : Ready addrs d.startNext := by
  rw [Dial.startNext]
  split
  · rename_i addr rest next
    refine ⟨?_, ?_, ?_, h.failed, h.returned⟩
    · rw [← h.order, next, start, List.map_append, List.append_assoc]
      rfl
    · rw [start, List.append_assoc]
      exact (List.perm_append_comm_assoc _ _ _).trans
        ((List.perm_append_comm).trans (h.tasks.append_right _))
    · intro _ none
      exact absurd none (List.append_ne_nil_of_right_ne_nil _ (List.cons_ne_nil _ _))
  · exact h

theorem first_startNext (d : Dial Addr Tcp) : d.startNext.started = [] → d.startNext.addresses = [] := by
  rw [startNext]
  split
  · intro none
    exact absurd none (List.append_ne_nil_of_right_ne_nil _ (List.cons_ne_nil _ _))
  · intro _
    assumption

/-- A refused attempt or an expired stagger leaves nothing running only if nothing is left. -/
theorem addresses_of_startNext (h : d.startNext.attempts = []) : d.startNext.addresses = [] := by
  rw [startNext] at h ⊢
  split at h
  · exact absurd h (List.append_ne_nil_of_right_ne_nil _ (List.cons_ne_nil _ _))
  · assumption

theorem init_sound (addrs : List Addr) : Sound addrs (init addrs : Dial Addr Tcp) := by
  refine Ready.loop (Ready.startNext ?_) (first_startNext _)
  exact ⟨rfl, .refl _, fun h => absurd rfl h, (fun p hp => by cases hp), rfl⟩

/-- At a turn nothing was returned yet. -/
theorem Sound.ready (h : Sound addrs d) (running : d.returned = none) : Ready addrs d := by
  have open_ : ∀ tcp, d.returned ≠ some (.ok tcp) := by
    intro tcp ok
    rw [running] at ok
    cases ok
  exact ⟨h.order, h.tasks, h.error open_, h.failed open_, running⟩

/-- With nothing running, `dial` has tried everything exactly if no address is left. -/
theorem Sound.exhausted_iff (h : Sound addrs d) {e : Option String} (he : d.returned = some (.error e)) :
    d.Exhausted addrs ↔ d.addresses = [] := by
  obtain ⟨none, -⟩ := h.gaveUp e he
  have order := h.order
  constructor
  · intro ex
    rw [ex.tried] at order
    exact List.append_right_eq_self.mp order
  · intro left
    rw [left, List.append_nil] at order
    have tasks := h.tasks
    rw [none, List.nil_append] at tasks
    refine ⟨order, tasks, h.failed ?_⟩
    intro tcp ok
    rw [he] at ok
    cases ok

theorem returned_loop {e : Option String} (running : d.returned = none) (he : d.loop.returned = some (.error e)) :
    d.attempts = [] ∧ d.loop.addresses = d.addresses := by
  rw [Dial.loop] at he ⊢
  split at he
  · rename_i empty
    refine ⟨List.isEmpty_iff.mp empty, ?_⟩
    rw [if_pos empty]
  · rw [running] at he
    cases he

theorem returned_startNext (d : Dial Addr Tcp) : d.startNext.returned = d.returned := by
  rw [startNext]
  split <;> rfl

/-- Giving up behind a start leaves no address over. -/
theorem addresses_of_started {e : Option String} (running : d.returned = none)
    (he : d.startNext.loop.returned = some (.error e)) : d.startNext.loop.addresses = [] := by
  obtain ⟨none, same⟩ := returned_loop ((returned_startNext d).trans running) he
  rw [same]
  exact addresses_of_startNext none

/-- The attempt that ended moves from the running ones to the others. -/
theorem Sound.tasks_join [DecidableEq Addr] (h : Sound addrs d) {a : Attempt Addr} (mem : a ∈ d.attempts) (o : Outcome Tcp) :
    (d.attempts.erase a ++ (d.ended ++ [(a, o)]).map Prod.fst).Perm d.started := by
  rw [List.map_append, ← List.append_assoc]
  refine (List.perm_append_comm).trans ?_
  exact ((List.perm_cons_erase mem).symm.append_right _).trans h.tasks

theorem Sound.ready_join [DecidableEq Addr] (h : Sound addrs d) (running : d.returned = none) {a : Attempt Addr} (mem : a ∈ d.attempts)
    {o : Outcome Tcp} (fails : o.connects = false) (error : String) :
    Ready addrs (d.leave a o (some error)) := by
  refine ⟨h.order, h.tasks_join mem o, fun _ _ he => (by cases he), ?_, running⟩
  have before : ∀ p ∈ d.ended, p.2.connects = false := by
    apply h.failed
    intro tcp ok
    rw [running] at ok
    cases ok
  exact List.forall_mem_append.mpr ⟨before, List.forall_mem_singleton.mpr fails⟩

variable [DecidableEq Addr] [ToString Addr]

theorem step_cases (h : d.step turn = some d') :
    d.returned = none ∧ (turn = .stagger ∧ d' = d.startNext.loop ∨
      ∃ a o, turn = .joined a o ∧ a ∈ d.attempts ∧ d' = d.join a o) := by
  unfold step at h
  split at h
  · cases h
  · rename_i running
    refine ⟨Option.not_isSome_iff_eq_none.mp running, ?_⟩
    cases turn with
    | stagger =>
      cases h
      exact .inl ⟨rfl, rfl⟩
    | joined a o =>
      obtain ⟨mem, h⟩ := Option.ite_none_right_eq_some.mp h
      cases h
      exact .inr ⟨a, o, rfl, mem, rfl⟩

theorem Sound.join (h : Sound addrs d) (running : d.returned = none) {a : Attempt Addr} (mem : a ∈ d.attempts)
    (o : Outcome Tcp) : Sound addrs (d.join a o) := by
  cases o with
  | connected tcp =>
    refine ⟨h.order, h.tasks_join mem _, fun none => absurd rfl (none tcp), fun none => absurd rfl (none tcp),
      fun hr => (by cases hr), ?_, h.first⟩
    intro e he
    cases he
  | refused e => exact (h.ready_join running mem rfl _).startNext.loop (first_startNext _)
  | failed e => exact (h.ready_join running mem rfl _).loop h.first

theorem Sound.step (h : Sound addrs d) (hs : d.step turn = some d') : Sound addrs d' := by
  obtain ⟨running, ⟨-, rfl⟩ | ⟨a, o, -, mem, rfl⟩⟩ := step_cases hs
  · exact (h.ready running).startNext.loop (first_startNext _)
  · exact h.join running mem o

theorem sound_of_runs {ls : List (Turn Addr Tcp)} (h : runs Dial.step (.init addrs) ls = some d) : Sound addrs d :=
  runs_induct (R := Sound addrs) (init_sound addrs) (fun _ _ _ hu hv => hu.step hv) h

/-! ## Giving up -/

/-- The turn that ends `dial` leaves an address over exactly if it strands one. -/
theorem addresses_of_gaveUp (hs : d.step turn = some d') {e : Option String} (he : d'.returned = some (.error e)) :
    d'.addresses = [] ↔ d.strands turn = false := by
  obtain ⟨running, ⟨rfl, rfl⟩ | ⟨a, o, rfl, mem, rfl⟩⟩ := step_cases hs
  · exact iff_of_true (addresses_of_started running he) rfl
  · cases o with
    | connected tcp => cases he
    | refused error => exact iff_of_true (addresses_of_started running he) rfl
    | failed error =>
      obtain ⟨none, same⟩ := returned_loop (d := d.leave a _ _) running he
      have alone : d.attempts.length = 1 := by
        have length := List.length_erase_of_mem mem
        rw [show d.attempts.erase a = [] from none] at length
        have := List.length_pos_of_mem mem
        rw [List.length_nil] at length
        omega
      rw [join, same, strands, alone]
      show d.addresses = [] ↔ (!d.addresses.isEmpty) = false
      rw [Bool.not_eq_false', List.isEmpty_iff]

/-- What has returned takes no more turns. -/
theorem runs_of_returned {ls : List (Turn Addr Tcp)} (hr : d.returned.isSome = true)
    (h : runs Dial.step d ls = some d') : d' = d := by
  cases ls with
  | nil =>
    cases h
    rfl
  | cons l ls =>
    obtain ⟨u, hu, -⟩ := runs_cons_iff.mp h
    rw [step_cases hu |>.1] at hr
    cases hr

theorem fairStep_some (h : d.fairStep turn = some d') : d.strands turn = false ∧ d.step turn = some d' := by
  rw [fairStep] at h
  split at h
  · cases h
  · exact ⟨Bool.eq_false_iff.mpr ‹_›, h⟩

theorem fairStep_of_step (hs : d.step turn = some d') (fair : d.strands turn = false) : d.fairStep turn = some d' := by
  rw [fairStep, fair]
  exact hs

/-- A stranding turn returns, with what it left over. -/
theorem left_of_strands (hs : d.step turn = some d') (strands : d.strands turn = true) :
    d'.returned.isSome = true ∧ d'.addresses ≠ [] := by
  obtain ⟨running, ⟨rfl, -⟩ | ⟨a, o, rfl, mem, rfl⟩⟩ := step_cases hs
  · cases strands
  · cases o with
    | connected tcp => cases strands
    | refused error => cases strands
    | failed error =>
      obtain ⟨alone, left⟩ := Bool.and_eq_true_iff.mp strands
      have empty : (d.leave a (.failed error) (some ("cannot connect: " ++ error))).attempts.isEmpty = true := by
        show (d.attempts.erase a).isEmpty = true
        rw [List.isEmpty_iff_length_eq_zero, List.length_erase_of_mem mem, of_decide_eq_true alone]
      rw [join, loop, if_pos empty]
      refine ⟨rfl, ?_⟩
      intro none
      rw [show d.addresses = [] from none] at left
      cases left

/-- A run that leaves no address over has stranded none. -/
theorem fair_of_runs {ls : List (Turn Addr Tcp)} (h : runs Dial.step d ls = some d') (none : d'.addresses = []) :
    runs Dial.fairStep d ls = some d' := by
  induction ls generalizing d with
  | nil => exact h
  | cons l ls ih =>
    obtain ⟨u, hu, h⟩ := runs_cons_iff.mp h
    refine runs_cons_iff.mpr ⟨u, fairStep_of_step hu ?_, ih h⟩
    apply Bool.eq_false_iff.mpr
    intro strands
    obtain ⟨returned, left⟩ := left_of_strands hu strands
    rw [runs_of_returned returned h] at none
    exact left none

/-- A run of fair turns that gives up leaves no address over. -/
theorem none_left_of_fair {ls : List (Turn Addr Tcp)} (h : runs Dial.fairStep (.init addrs) ls = some d)
    {e : Option String} (he : d.returned = some (.error e)) : d.addresses = [] := by
  revert e
  refine runs_induct (R := fun d => ∀ {e}, d.returned = some (.error e) → d.addresses = []) ?_ ?_ h
  · intro e he
    exact addresses_of_started rfl he
  · intro u turn v _ hv e he
    obtain ⟨fair, hs⟩ := fairStep_some hv
    exact (addresses_of_gaveUp hs he).mpr fair

/-- **`dial` gives up only after trying everything**, in every run that strands no address. The addresses
are tried in order, each once; a connection that is observed is returned; only the empty list fails
without an error. -/
theorem dial_gives_up {ls : List (Turn Addr Tcp)} (h : runs Dial.step (.init addrs) ls = some d) :
    d.started.map Attempt.addr ++ d.addresses = addrs ∧
      (∀ a tcp, a ∈ d.attempts → d.returned = none →
        ∃ d', d.step (.joined a (.connected tcp)) = some d' ∧ d'.returned = some (.ok tcp)) ∧
      (∀ e, d.returned = some (.error e) →
        (d.Exhausted addrs ↔ runs Dial.fairStep (.init addrs) ls = some d) ∧ (e = none → addrs = [])) := by
  have sound := sound_of_runs h
  refine ⟨sound.order, ?_, ?_⟩
  · intro a tcp mem running
    refine ⟨d.join a (.connected tcp), ?_, rfl⟩
    rw [step, running]
    exact if_pos mem
  · intro e he
    rw [sound.exhausted_iff he]
    refine ⟨⟨fair_of_runs h, fun fair => none_left_of_fair fair he⟩, ?_⟩
    rintro rfl
    obtain ⟨none, last⟩ := sound.gaveUp _ he
    have started : d.started = [] := by
      apply Classical.byContradiction
      intro some_
      refine sound.error ?_ some_ none last.symm
      intro tcp ok
      rw [he] at ok
      cases ok
    rw [← sound.order, started, sound.first started]
    rfl

/-- The second address is started by the stagger; then both refuse. -/
def refusedRun : List (Turn Nat Unit) :=
  [.stagger, .joined ⟨0, 10⟩ (.refused "no route"), .joined ⟨1, 20⟩ (.refused "no route")]

/-- Both addresses refuse: both were tried. -/
theorem dial_gives_up_refused :
    ∃ d, runs Dial.step (.init [10, 20]) refusedRun = some d ∧
      d.returned = some (.error (some "cannot connect to 20: no route")) ∧ d.Exhausted [10, 20] :=
  have run : runs Dial.step (.init [10, 20]) refusedRun = some _ := rfl
  ⟨_, run, rfl, ((dial_gives_up run).2.2 _ rfl).1.mpr rfl⟩

/-- The task of the first address fails before the stagger runs out: the second is never tried. -/
theorem second_address_stranded :
    ∃ d : Dial Nat Unit,
      runs Dial.step (.init [10, 20]) [.joined ⟨0, 10⟩ (.failed "task 1 panicked")] = some d ∧
      d.returned = some (.error (some "cannot connect: task 1 panicked")) ∧
      d.started.map Attempt.addr = [10] ∧ d.addresses = [20] ∧ ¬ d.Exhausted [10, 20] := by
  refine ⟨_, rfl, rfl, rfl, rfl, ?_⟩
  intro ex
  cases ex.tried

end Dial

end WebSocket.Net
