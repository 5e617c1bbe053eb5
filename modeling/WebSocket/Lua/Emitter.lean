import WebSocket.Lib.Transition
import Mathlib.Logic.Function.Basic
import Mathlib.Data.List.Basic

/-!
# Event listeners

`ws/emitter.lua`. A listener may do anything: register and remove listeners, emit again, return or
raise. So a run is a list of calls made by whoever is in control, together with the returns and errors
of the listeners; `frames` are the emits under way, the innermost first.

An `emit` with several listeners calls a copy of the list. A `once` wrapper takes itself off the live
list before it calls its function, but not off the copies: an emit inside an earlier listener of the
same event finds the wrapper still registered, and the outer emit calls it again. Without such emits
(`fair`) a wrapper is never both done and ahead, and its function runs once.
-/

namespace WebSocket.Lua

open Lib.Transition

/-- A function value in a list: what the application passed, or the closure made by the `id`-th call of
`once`, with what it has captured. -/
inductive Listener (Name Fn : Type) where
  | plain (fn : Fn)
  | wrapper (id : Nat) (name : Name) (fn : Fn)
  deriving DecidableEq

/-- An emit that is calling a listener, and the listeners of its copy that come next. -/
structure Frame (Name Fn : Type) where
  name : Name
  rest : List (Listener Name Fn)

/-- An object with its lists `_on`, the events of the `once` calls so far, the emits under way, and the
listeners that were called. -/
structure Emitter (Name Fn : Type) where
  on : Name → List (Listener Name Fn)
  onces : List Name
  frames : List (Frame Name Fn)
  ran : List (Listener Name Fn)

/-- What the code in control does next. -/
inductive EmitterLabel (Name Fn : Type) where
  | on (name : Name) (fn : Fn)
  | once (name : Name) (fn : Fn)
  | off (name : Name) (fn : Fn)
  | emit (name : Name)
  | return_
  | raise

variable {Name Fn : Type}

/-- It is the closure of the `id`-th `once`. -/
def Listener.is (id : Nat) : Listener Name Fn → Bool
  | .plain _ => false
  | .wrapper i _ _ => decide (i = id)

/-- `list[i] == fn or wrapped[list[i]] == fn`, for a function of the application. -/
def Listener.standsFor [DecidableEq Fn] (fn : Fn) : Listener Name Fn → Bool
  | .plain f => decide (f = fn)
  | .wrapper _ _ f => decide (f = fn)

/-- `table.remove` of the last element with `p`. -/
def removeLast {α : Type} (p : α → Bool) (l : List α) : List α := (l.reverse.eraseP p).reverse

namespace Emitter

def init : Emitter Name Fn := ⟨fun _ => [], [], [], []⟩

/-- The listeners that emits under way have still to call. -/
def ahead (e : Emitter Name Fn) : List (Listener Name Fn) := e.frames.flatMap Frame.rest

def push (e : Emitter Name Fn) (name : Name) (rest : List (Listener Name Fn)) : Emitter Name Fn :=
  { e with frames := ⟨name, rest⟩ :: e.frames }

variable [DecidableEq Name]

def setList (e : Emitter Name Fn) (name : Name) (list : List (Listener Name Fn)) : Emitter Name Fn :=
  { e with on := Function.update e.on name list }

def add (e : Emitter Name Fn) (name : Name) (fn : Listener Name Fn) : Emitter Name Fn :=
  e.setList name (e.on name ++ [fn])

def once (e : Emitter Name Fn) (name : Name) (fn : Fn) : Emitter Name Fn :=
  { e with onces := e.onces ++ [name] }.add name (.wrapper e.onces.length name fn)

def remove (e : Emitter Name Fn) (name : Name) (p : Listener Name Fn → Bool) : Emitter Name Fn :=
  e.setList name (removeLast p (e.on name))

/-- A listener is called. A wrapper removes itself, then calls its function. -/
def call (e : Emitter Name Fn) (l : Listener Name Fn) : Emitter Name Fn :=
  let e :=
    match l with
    | .plain _ => e
    | .wrapper id name _ => e.remove name (Listener.is id)
  { e with ran := e.ran ++ [l] }

def emit (e : Emitter Name Fn) (name : Name) : Emitter Name Fn :=
  match e.on name with
  | [] => e
  | [l] => (e.push name []).call l
  | l :: snapshot => (e.push name snapshot).call l

/-- One call, return or error. A name that is not one of `events` is an error of the caller's, and
changes nothing. An error leaves the emit it comes out of. -/
def step [DecidableEq Fn] (events : Name → Bool) (e : Emitter Name Fn) :
    EmitterLabel Name Fn → Option (Emitter Name Fn)
  | .on name fn => some (if events name then e.add name (.plain fn) else e)
  | .once name fn => some (if events name then e.once name fn else e)
  | .off name fn => some (if events name then e.remove name (Listener.standsFor fn) else e)
  | .emit name => some (e.emit name)
  | .return_ =>
    match e.frames with
    | [] => none
    | ⟨_, []⟩ :: frames => some { e with frames := frames }
    | ⟨name, l :: rest⟩ :: frames => some (call { e with frames := ⟨name, rest⟩ :: frames } l)
  | .raise =>
    match e.frames with
    | [] => none
    | _ :: frames => some { e with frames := frames }

/-- No emit of an event begins while another one of the same event has listeners ahead. -/
def fair (e : Emitter Name Fn) : EmitterLabel Name Fn → Bool
  | .emit name => e.frames.all fun f => decide (f.name ≠ name) || f.rest.isEmpty
  | _ => true

def fairStep [DecidableEq Fn] (events : Name → Bool) (e : Emitter Name Fn) (lab : EmitterLabel Name Fn) :
    Option (Emitter Name Fn) :=
  if e.fair lab then e.step events lab else none

end Emitter

/-! ## Lists -/

theorem removeLast_sublist {α : Type} (p : α → Bool) (l : List α) : List.Sublist (removeLast p l) l := by
  have h := (List.eraseP_sublist (p := p) (l := l.reverse)).reverse
  rwa [List.reverse_reverse] at h

theorem countP_eraseP {α : Type} (p : α → Bool) (l : List α) : (l.eraseP p).countP p = l.countP p - 1 := by
  induction l with
  | nil => rfl
  | cons a l ih =>
    by_cases h : p a = true
    · rw [List.eraseP_cons_of_pos h, List.countP_cons_of_pos h, Nat.add_sub_cancel]
    · rw [List.eraseP_cons_of_neg h, List.countP_cons_of_neg h, List.countP_cons_of_neg h, ih]

theorem countP_removeLast {α : Type} (p : α → Bool) (l : List α) : (removeLast p l).countP p = l.countP p - 1 := by
  rw [removeLast, List.countP_reverse, countP_eraseP, List.countP_reverse]

/-! ## Wrappers -/

/-- A wrapper among the listeners of `name` was made by a `once` for that event. -/
def Listener.fits (onces : List Name) (name : Name) : Listener Name Fn → Prop
  | .plain _ => True
  | .wrapper id n _ => n = name ∧ onces[id]? = some n

theorem Listener.fits_append {onces more : List Name} {name : Name} {l : Listener Name Fn} (h : l.fits onces name) :
    l.fits (onces ++ more) name := by
  cases l with
  | plain fn => trivial
  | wrapper id n fn =>
    refine ⟨h.1, ?_⟩
    rw [List.getElem?_append_left (List.getElem?_eq_some_iff.mp h.2).1]
    exact h.2

/-- The event of a wrapper that is in a list. -/
theorem name_of_count {onces : List Name} {name : Name} {ls : List (Listener Name Fn)} {id : Nat}
    (fits : ∀ l ∈ ls, l.fits onces name) (h : 0 < ls.countP (Listener.is id)) : onces[id]? = some name := by
  obtain ⟨l, mem, is⟩ := List.countP_pos_iff.mp h
  have hl := fits l mem
  cases l with
  | plain fn => cases is
  | wrapper i n fn =>
    have same : i = id := of_decide_eq_true is
    obtain ⟨rfl, hn⟩ := hl
    rw [← same]
    exact hn

/-- The lists and copies hold wrappers of their events, a list each at most once, and none that has run. -/
structure Filed (e : Emitter Name Fn) : Prop where
  here : ∀ name, ∀ l ∈ e.on name, l.fits e.onces name
  there : ∀ f ∈ e.frames, ∀ l ∈ f.rest, l.fits e.onces f.name
  old : ∀ id, 0 < e.ran.countP (Listener.is id) → id < e.onces.length
  live : ∀ name id, (e.on name).countP (Listener.is id) ≤ 1
  gone : ∀ id, 0 < e.ran.countP (Listener.is id) → ∀ name, (e.on name).countP (Listener.is id) = 0

/-- And no wrapper has both run and is ahead, or either of it twice. -/
structure Tidy (e : Emitter Name Fn) : Prop extends Filed e where
  once : ∀ id, e.ran.countP (Listener.is id) + e.ahead.countP (Listener.is id) ≤ 1

section Steps

variable {e e' : Emitter Name Fn}

theorem Emitter.ahead_push (e : Emitter Name Fn) (name : Name) (rest : List (Listener Name Fn)) :
    (e.push name rest).ahead = rest ++ e.ahead := rfl

/-- An emit ends. -/
theorem Tidy.pop {f : Frame Name Fn} {frames : List (Frame Name Fn)} (h : Tidy e) (hf : e.frames = f :: frames) :
    Tidy { e with frames := frames } := by
  refine ⟨⟨h.here, fun f' hf' => h.there f' ?_, h.old, h.live, h.gone⟩, fun id => ?_⟩
  · rw [hf]
    exact List.mem_cons_of_mem _ hf'
  · have once := h.once id
    rw [Emitter.ahead, hf, List.flatMap_cons, List.countP_append] at once
    show e.ran.countP _ + (frames.flatMap Frame.rest).countP _ ≤ 1
    omega

variable [DecidableEq Name]

theorem Emitter.on_setList (e : Emitter Name Fn) (name n : Name) (list : List (Listener Name Fn)) :
    (e.setList name list).on n = if n = name then list else e.on n := by
  by_cases h : n = name
  · rw [if_pos h, h]
    exact Function.update_self ..
  · rw [if_neg h]
    exact Function.update_of_ne h ..

/-- Listeners are taken off a list. -/
theorem Filed.shrink (h : Filed e) {name : Name} {list : List (Listener Name Fn)} (sub : List.Sublist list (e.on name)) :
    Filed (e.setList name list) := by
  refine ⟨fun n => ?_, h.there, h.old, fun n id => ?_, fun id ran n => ?_⟩
  · rw [Emitter.on_setList]
    split
    · rename_i same
      rw [same]
      exact fun l hl => h.here name l (sub.subset hl)
    · exact h.here n
  · rw [Emitter.on_setList]
    split
    · exact Nat.le_trans sub.countP_le (h.live name id)
    · exact h.live n id
  · rw [Emitter.on_setList]
    split
    · exact Nat.le_zero.mp (Nat.le_trans sub.countP_le (Nat.le_of_eq (h.gone id ran name)))
    · exact h.gone id ran n

theorem Filed.remove (h : Filed e) (name : Name) (p : Listener Name Fn → Bool) : Filed (e.remove name p) :=
  h.shrink (removeLast_sublist p _)

/-- A listener that no wrapper precedes is added. -/
theorem Filed.add (h : Filed e) {name : Name} {l : Listener Name Fn} (fits : l.fits e.onces name)
    (fresh : ∀ id, l.is id = true → (e.on name).countP (Listener.is id) = 0 ∧ e.ran.countP (Listener.is id) = 0) :
    Filed (e.add name l) := by
  refine ⟨fun n => ?_, h.there, h.old, fun n id => ?_, fun id ran n => ?_⟩
  · rw [Emitter.add, Emitter.on_setList]
    split
    · rename_i same
      rw [same]
      exact List.forall_mem_append.mpr ⟨h.here name, List.forall_mem_singleton.mpr fits⟩
    · exact h.here n
  · rw [Emitter.add, Emitter.on_setList]
    split
    · rw [List.countP_append, List.countP_singleton]
      split
      · rename_i is
        have none := (fresh id is).1
        omega
      · exact h.live name id
    · exact h.live n id
  · rw [Emitter.add, Emitter.on_setList]
    split
    · rw [List.countP_append, List.countP_singleton]
      split
      · rename_i is
        have none : (e.add name l).ran.countP (Listener.is id) = 0 := (fresh id is).2
        omega
      · exact h.gone id ran name
    · exact h.gone id ran n

/-- The new wrapper of a `once`. -/
theorem Tidy.once_ (h : Tidy e) (name : Name) (fn : Fn) : Tidy (e.once name fn) := by
  have grown : Filed { e with onces := e.onces ++ [name] } := by
    refine ⟨fun n l hl => Listener.fits_append (h.here n l hl), fun f hf l hl => Listener.fits_append (h.there f hf l hl),
      fun id ran => ?_, h.live, h.gone⟩
    rw [List.length_append]
    exact Nat.lt_add_right 1 (h.old id ran)
  refine ⟨grown.add ⟨rfl, List.getElem?_concat_length⟩ ?_, h.once⟩
  intro id is
  have same : e.onces.length = id := of_decide_eq_true is
  refine ⟨Nat.eq_zero_of_not_pos fun pos => ?_, Nat.eq_zero_of_not_pos fun pos => ?_⟩
  · have known := name_of_count (h.here name) pos
    have := (List.getElem?_eq_some_iff.mp known).1
    omega
  · have := h.old id pos
    omega

/-- A listener is called that no other emit has called or will call. -/
theorem Filed.call (h : Filed e) {l : Listener Name Fn} {name : Name} (fits : l.fits e.onces name)
    (once : ∀ id, (e.ran ++ [l]).countP (Listener.is id) + e.ahead.countP (Listener.is id) ≤ 1) : Tidy (e.call l) := by
  cases l with
  | plain fn =>
    have same (id : Nat) : (e.ran ++ [Listener.plain fn]).countP (Listener.is id) = e.ran.countP (Listener.is id) := by
      rw [List.countP_append]
      rfl
    refine ⟨⟨h.here, h.there, fun id ran => ?_, h.live, fun id ran => ?_⟩, once⟩
    · exact h.old id (same id ▸ ran)
    · exact h.gone id (same id ▸ ran)
  | wrapper i n fn =>
    obtain ⟨rfl, known⟩ := fits
    have removed := h.remove n (Listener.is i)
    have count (id : Nat) : (e.ran ++ [Listener.wrapper i n fn]).countP (Listener.is id) =
        e.ran.countP (Listener.is id) + if i = id then 1 else 0 := by
      rw [List.countP_append, List.countP_singleton]
      simp only [Listener.is, decide_eq_true_eq]
    refine ⟨⟨removed.here, h.there, fun id ran => ?_, removed.live, fun id ran m => ?_⟩, once⟩
    · rw [show ((e.call (.wrapper i n fn)).ran) = e.ran ++ [.wrapper i n fn] from rfl, count] at ran
      split at ran
      · rename_i same
        rw [← same]
        exact (List.getElem?_eq_some_iff.mp known).1
      · exact h.old id ran
    · rw [show ((e.call (.wrapper i n fn)).ran) = e.ran ++ [.wrapper i n fn] from rfl, count] at ran
      show ((e.remove n (Listener.is i)).on m).countP (Listener.is id) = 0
      split at ran
      · rename_i same
        subst same
        rw [Emitter.remove, Emitter.on_setList]
        split
        · have := h.live n i
          rw [countP_removeLast]
          omega
        · rename_i other
          -- the wrapper is in the list of its own event only
          apply Nat.eq_zero_of_not_pos
          intro pos
          have elsewhere := name_of_count (h.here m) pos
          rw [known] at elsewhere
          cases elsewhere
          exact other rfl
      · exact removed.gone id ran m

theorem Emitter.emit_cases (e : Emitter Name Fn) (name : Name) :
    e.emit name = e ∨ ∃ l rest, e.on name = l :: rest ∧ e.emit name = (e.push name rest).call l := by
  rw [Emitter.emit]
  split
  · exact .inl rfl
  · rename_i l on
    exact .inr ⟨l, [], on, rfl⟩
  · rename_i l rest _ on
    exact .inr ⟨l, rest, on, rfl⟩

/-- An emit that no other one of the event is ahead of. -/
theorem Tidy.emit {name : Name} (h : Tidy e) (fair : e.fair (.emit name) = true) : Tidy (e.emit name) := by
  rcases e.emit_cases name with same | ⟨l, rest, on, next⟩
  · rw [same]
    exact h
  · have here := h.here name
    have apart := List.all_eq_true.mp fair
    rw [next]
    rw [on, List.forall_mem_cons] at here
    have pushed : Filed (e.push name rest) :=
      ⟨h.here, List.forall_mem_cons.mpr ⟨here.2, h.there⟩, h.old, h.live, h.gone⟩
    refine pushed.call here.1 fun id => ?_
    · have live := h.live name id
      have once := h.once id
      have gone := h.gone id
      have sum : (e.ran ++ [l]).countP (Listener.is id) + (e.push name rest).ahead.countP (Listener.is id) =
          e.ran.countP (Listener.is id) + (e.on name).countP (Listener.is id) + e.ahead.countP (Listener.is id) := by
        rw [on, Emitter.ahead_push, List.countP_append, List.countP_append, List.countP_singleton, List.countP_cons]
        omega
      have clear : 0 < (e.on name).countP (Listener.is id) → e.ahead.countP (Listener.is id) = 0 := by
        intro pos
        apply Nat.eq_zero_of_not_pos
        intro later
        obtain ⟨l', mem, is⟩ := List.countP_pos_iff.mp later
        obtain ⟨f, hf, hl'⟩ := List.mem_flatMap.mp mem
        have other : f.name ≠ name := by
          have := apart f hf
          rw [Bool.or_eq_true, decide_eq_true_eq] at this
          refine this.resolve_right fun empty => ?_
          rw [List.isEmpty_iff.mp empty] at hl'
          cases hl'
        have there := name_of_count (h.there f hf) (List.countP_pos_iff.mpr ⟨l', hl', is⟩)
        rw [name_of_count (h.here name) pos] at there
        cases there
        exact other rfl
      rw [show (e.push name rest).ran = e.ran from rfl, sum]
      by_cases pos : 0 < (e.on name).countP (Listener.is id)
      · have unrun : e.ran.countP (Listener.is id) = 0 := by
          apply Nat.eq_zero_of_not_pos
          intro ran
          have := gone ran name
          omega
        have := clear pos
        omega
      · omega

/-- An emit calls its next listener. -/
theorem Tidy.next {name : Name} {l : Listener Name Fn} {rest : List (Listener Name Fn)} {frames : List (Frame Name Fn)}
    (h : Tidy e) (hf : e.frames = ⟨name, l :: rest⟩ :: frames) :
    Tidy (Emitter.call { e with frames := ⟨name, rest⟩ :: frames } l) := by
  have there := h.there
  rw [hf, List.forall_mem_cons] at there
  obtain ⟨mine, others⟩ := there
  rw [List.forall_mem_cons] at mine
  have left : Filed { e with frames := ⟨name, rest⟩ :: frames } :=
    ⟨h.here, List.forall_mem_cons.mpr ⟨mine.2, others⟩, h.old, h.live, h.gone⟩
  refine left.call mine.1 fun id => ?_
  have once := h.once id
  rw [Emitter.ahead, hf, List.flatMap_cons, List.cons_append, List.countP_cons] at once
  rw [List.countP_append, List.countP_singleton]
  show e.ran.countP _ + _ + (rest ++ frames.flatMap Frame.rest).countP _ ≤ 1
  omega

variable [DecidableEq Fn] {events : Name → Bool} {lab : EmitterLabel Name Fn}

theorem fairStep_some (h : e.fairStep events lab = some e') : e.fair lab = true ∧ e.step events lab = some e' := by
  rw [Emitter.fairStep] at h
  split at h
  · exact ⟨‹_›, h⟩
  · cases h

theorem Tidy.step (h : Tidy e) (hs : e.fairStep events lab = some e') : Tidy e' := by
  obtain ⟨fair, hs⟩ := fairStep_some hs
  cases lab with
  | on name fn =>
    cases hs
    split
    · have added : Filed (e.add name (.plain fn)) := h.toFiled.add trivial (fun id is => by cases is)
      exact ⟨added, h.once⟩
    · exact h
  | once name fn =>
    cases hs
    split
    · exact h.once_ name fn
    · exact h
  | off name fn =>
    cases hs
    split
    · exact ⟨h.toFiled.remove name _, h.once⟩
    · exact h
  | emit name =>
    cases hs
    exact h.emit fair
  | return_ =>
    rw [Emitter.step] at hs
    split at hs
    · cases hs
    · cases hs
      exact h.pop ‹_›
    · cases hs
      exact h.next ‹_›
  | raise =>
    rw [Emitter.step] at hs
    split at hs
    · cases hs
    · cases hs
      exact h.pop ‹_›

/-- **A `once` listener runs at most once**, in every run in which no emit of an event begins while another
one of it has listeners ahead. -/
theorem once_runs_once (h : Reachable (Emitter.fairStep events) .init e) (id : Nat) :
    e.ran.countP (Listener.is id) ≤ 1 := by
  have tidy : Tidy e := by
    refine h.invariant ⟨⟨?_, ?_, ?_, ?_, ?_⟩, ?_⟩ fun _ _ _ _ hu hv => hu.step hv
    · exact fun name l hl => by cases hl
    · exact fun f hf => by cases hf
    · exact fun id ran => by cases ran
    · exact fun name id => Nat.zero_le 1
    · exact fun id ran => by cases ran
    · exact fun id => Nat.zero_le 1
  exact Nat.le_trans (Nat.le_add_right _ _) (tidy.once id)

end Steps

/-- Two listeners of one event, a plain one and a `once`; the event is emitted twice, one after the other. -/
def emitTwice : List (EmitterLabel Unit Nat) :=
  [.on () 1, .once () 2, .emit (), .return_, .return_, .emit (), .return_]

/-- The second emit finds the wrapper gone. -/
theorem once_runs_once_twice :
    ∃ e, runs (Emitter.fairStep fun _ => true) .init emitTwice = some e ∧
      e.ran = [.plain 1, .wrapper 0 () 2, .plain 1] ∧ e.ran.countP (Listener.is 0) ≤ 1 :=
  have run : runs (Emitter.fairStep fun _ => true) .init emitTwice = some _ := rfl
  ⟨_, run, rfl, once_runs_once ⟨_, run⟩ 0⟩

/-- The plain listener emits the event again before the wrapper's turn. -/
def emitInside : List (EmitterLabel Unit Nat) :=
  [.on () 1, .once () 2, .emit (), .emit (), .return_, .return_, .return_]

/-- Inner and outer emit both call the wrapper, and its function runs twice. -/
theorem nested_emit_runs_twice :
    ∃ e, runs (Emitter.step fun _ => true) .init emitInside = some e ∧ e.onces = [()] ∧
      e.ran = [.plain 1, .plain 1, .wrapper 0 () 2, .wrapper 0 () 2] ∧ e.ran.countP (Listener.is 0) = 2 :=
  ⟨_, rfl, rfl, rfl, rfl⟩

end WebSocket.Lua
