import Mathlib.Algebra.BigOperators.Group.List.Basic
import Mathlib.Algebra.Order.Group.Multiset
import Mathlib.Tactic.Abel
import WebSocket.Net.Admission

/-!
# What the admission counters count

`Server.owned` collects, for each counter, the references to its permits that sit in some
variable: of the accept loop, of a task, of a slot, of an envelope. Every step of the server is
one of the moves of `Lib.RefCount` (`step_flow`), so the counters are sound in every reachable
state. `Tidy` says whose permits the slots and envelopes hold; together the two give what
`queue.rs` promises: a permit is held as long as its task or one of its envelopes is there, and no
longer.
-/

namespace WebSocket.Net.Admission

open Lib.RefCount

/-! ## The references -/

def Acceptor.owned : Acceptor → Gate → Multiset Nat
  | .acquired permit, .connections => {permit}
  | .acquiringPending permit _, .connections => {permit}
  | .spawning permit _, .connections => {permit}
  | .spawning _ pending, .pending => {pending}
  | _, _ => 0

def Queued.owned (q : Queued) (g : Gate) : Multiset Nat := (q.slot g).toList

def Worker.sent (w : Worker) (g : Gate) : Multiset Nat :=
  match w.sending with
  | none => 0
  | some x => x.queued.owned g

/-- The parameters of the task, the handshake's own clone, the slot and the open envelope. -/
def Worker.owned (w : Worker) : Gate → Multiset Nat
  | .connections => (if w.pc.runs then {w.permit} else 0) + w.slot.toList + w.sent .connections
  | .pending =>
    (if w.pc.shakes then {w.pending} else 0) + (if w.pc = .handshaking then {w.pending} else 0) + w.sent .pending

def Server.owned (s : Server) (g : Gate) : Multiset Nat :=
  s.acceptor.owned g + (s.workers.map (·.owned g)).sum + (s.queue.map (·.owned g)).sum

/-- The permits of a counter that still have a holder. -/
def Server.held (s : Server) (g : Gate) : Finset Nat := (s.pool g).held (s.owned g)

section Frame

variable {s : Server} {c : Nat} {w w' : Worker} {g : Gate}

@[simp] theorem Server.owned_setPool {P : Pool} {k : Gate} : (s.setPool k P).owned g = s.owned g := rfl

@[simp] theorem Server.owned_abandon {gone : Gate → List Nat} : (s.abandon gone).owned g = s.owned g := rfl

@[simp] theorem Server.pool_setWorker : (s.setWorker c w).pool g = s.pool g := rfl

@[simp] theorem Server.pool_abandon {gone : Gate → List Nat} :
    (s.abandon gone).pool g = (s.pool g).abandon (gone g) := rfl

@[simp] theorem Server.workers_setPool {P : Pool} {k : Gate} : (s.setPool k P).workers = s.workers := rfl

@[simp] theorem Server.workers_abandon {gone : Gate → List Nat} : (s.abandon gone).workers = s.workers := rfl

theorem sum_map_set {f : Worker → Multiset Nat} {l : List Worker} (w' : Worker) (h : l[c]? = some w) :
    ((l.set c w').map f).sum + f w = (l.map f).sum + f w' := by
  induction l generalizing c with
  | nil => simp at h
  | cons v l ih =>
    cases c with
    | zero =>
      cases Option.some.inj h
      simp only [List.set_cons_zero, List.map_cons, List.sum_cons]
      abel
    | succ c =>
      have := ih (c := c) h
      simp only [List.set_cons_succ, List.map_cons, List.sum_cons]
      rw [add_assoc, this]
      abel

theorem owned_setWorker (w' : Worker) (h : s.workers[c]? = some w) :
    (s.setWorker c w').owned g + w.owned g = s.owned g + w'.owned g := by
  have := sum_map_set (f := (·.owned g)) w' h
  simp only [Server.owned, Server.setWorker]
  calc _ = s.acceptor.owned g + (((s.workers.set c w').map (·.owned g)).sum + w.owned g)
        + (s.queue.map (·.owned g)).sum := by abel
    _ = _ := by rw [this]; abel

/-- The worker gives up `x`. -/
theorem owned_loses {x : Multiset Nat} (h : s.workers[c]? = some w) (hw : w.owned g = x + w'.owned g) :
    s.owned g = x + (s.setWorker c w').owned g := by
  have := owned_setWorker (g := g) w' h
  rw [hw] at this
  refine add_right_cancel (b := w'.owned g) ?_
  rw [← this]
  abel

/-- The worker comes to own `x`. -/
theorem owned_gains {x : Multiset Nat} (h : s.workers[c]? = some w) (hw : w'.owned g = x + w.owned g) :
    (s.setWorker c w').owned g = x + s.owned g := by
  have := owned_setWorker (g := g) w' h
  rw [hw] at this
  refine add_right_cancel (b := w.owned g) ?_
  rw [this]
  abel

theorem owned_keeps (h : s.workers[c]? = some w) (hw : w'.owned g = w.owned g) :
    (s.setWorker c w').owned g = s.owned g := by
  simpa using owned_gains (x := 0) h (by simpa using hw)

theorem owned_le (h : s.workers[c]? = some w) : w.owned g ≤ s.owned g := by
  let gone : Worker := ⟨0, 0, .ended, none, none, false, 0⟩
  have hgone : w.owned g = w.owned g + gone.owned g := by
    cases g <;> simp [gone, Worker.owned, Worker.sent, Pc.runs, Pc.shakes]
  exact Multiset.le_iff_exists_add.mpr ⟨_, owned_loses h hgone⟩

end Frame

/-! ## Whose permits they are -/

@[simp] theorem Pc.runs_sent (ok : Bool) (pc : Pc) : (pc.sent ok).runs = pc.runs := by
  cases pc <;> cases ok <;> rfl

@[simp] theorem Pc.shakes_sent (ok : Bool) (pc : Pc) : (pc.sent ok).shakes = pc.shakes := by
  cases pc <;> cases ok <;> rfl

@[simp] theorem Pc.sent_eq_handshaking (ok : Bool) (pc : Pc) : pc.sent ok = .handshaking ↔ pc = .handshaking := by
  cases pc <;> cases ok <;> decide

@[simp] theorem Pc.sent_eq_spawned (ok : Bool) (pc : Pc) : pc.sent ok = .spawned ↔ pc = .spawned := by
  cases pc <;> cases ok <;> decide

@[simp] theorem Pc.sent_eq_running (ok : Bool) (pc : Pc) : pc.sent ok = .running ↔ pc = .running := by
  cases pc <;> cases ok <;> decide

@[simp] theorem Pc.sent_eq_ended (ok : Bool) (pc : Pc) : pc.sent ok = .ended ↔ pc = .ended := by
  cases pc <;> cases ok <;> decide

def Worker.name (w : Worker) : Gate → Nat
  | .connections => w.permit
  | .pending => w.pending

def Acceptor.names : Acceptor → Gate → List Nat
  | .acquired permit, .connections => [permit]
  | .acquiringPending permit _, .connections => [permit]
  | .spawning permit _, .connections => [permit]
  | .spawning _ pending, .pending => [pending]
  | _, _ => []

/-- The permits a counter has given to the accept loop and to the workers. -/
def Server.names (s : Server) (g : Gate) : List Nat := s.acceptor.names g ++ s.workers.map (·.name g)

/-- An envelope that worker `c` sent. -/
structure Queued.Of (q : Queued) (c : Nat) (w : Worker) : Prop where
  source : q.source = some c
  permit : q.permit = some w.permit
  pending : q.event = .request → q.pending = some w.pending

/-- The slot holds the worker's permit from `admitted` until the task takes it along or a `Close`
empties it; only `send_pending` leaves an envelope open. -/
structure Worker.Tidy (c : Nat) (w : Worker) : Prop where
  slot : w.slot = if w.pc = .spawned ∨ w.pc = .ended ∨ w.closed = true then none else some w.permit
  closed : w.closed = true → w.pc = .running ∨ w.pc = .ended
  free : w.pc ≠ .requesting → w.pc ≠ .running → w.sending = none
  sending : ∀ x, w.sending = some x → x.queued.Of c w

structure Tidy (s : Server) : Prop where
  fresh : ∀ g, ∀ p ∈ s.names g, p < (s.pool g).next
  distinct : ∀ g, (s.names g).Nodup
  workers : ∀ (c : Nat) (w : Worker), s.workers[c]? = some w → w.Tidy c
  queue : ∀ q ∈ s.queue, (q.source = none ∧ q.permit = none) ∨ ∃ c w, s.workers[c]? = some w ∧ q.Of c w

section Tidy

variable {m : UInt64} {s s' : Server} {c : Nat} {w w' : Worker} {g : Gate}

/-- A guarded step of one worker. -/
theorem worker_step {f : Worker → Option Server} (h : (s.workers[c]?.bind f) = some s') :
    ∃ w, s.workers[c]? = some w ∧ f w = some s' :=
  Option.bind_eq_some_iff.mp h

theorem guard_step {p : Prop} [Decidable p] {t : Server} (h : (if p then some t else none) = some s') : p ∧ t = s' :=
  Option.ite_none_right_eq_some.mp h |>.imp_right Option.some.inj

theorem Tidy.new : Tidy .new where
  fresh g p hp := by cases g <;> simp [Server.names, Server.new, Acceptor.names] at hp
  distinct g := by cases g <;> exact List.nodup_nil
  workers c w h := by simp [Server.new] at h
  queue q hq := by simp [Server.new] at hq

/-- Moves of the pools that mint nothing. -/
theorem Tidy.pools (h : Tidy s) {pool : Gate → Pool} (hn : ∀ g, (pool g).next = (s.pool g).next) :
    Tidy { s with pool := pool } :=
  ⟨fun g p hp => by rw [hn]; exact h.fresh g p hp, h.distinct, h.workers, h.queue⟩

theorem Tidy.abandon (h : Tidy s) (gone : Gate → List Nat) : Tidy (s.abandon gone) := h.pools fun _ => rfl

theorem Tidy.setPool (h : Tidy s) {k : Gate} {P : Pool} (hn : P.next = (s.pool k).next) : Tidy (s.setPool k P) := by
  refine h.pools fun g => ?_
  by_cases hg : g = k
  · subst hg
    rw [Function.update_self, hn]
  · rw [Function.update_of_ne hg]

theorem Tidy.cloned (h : Tidy s) (k : Gate) (o : Option Nat) : Tidy (s.cloned k o) := by
  cases o with
  | none => exact h
  | some p => exact h.setPool rfl

theorem names_setWorker (hw : s.workers[c]? = some w) (hp : w'.permit = w.permit) (hq : w'.pending = w.pending) :
    (s.setWorker c w').names g = s.names g := by
  have hname : w'.name g = w.name g := by cases g <;> assumption
  unfold Server.names
  congr 1
  refine List.ext_getElem? fun i => ?_
  simp only [Server.setWorker, List.getElem?_map, List.getElem?_set]
  split
  · rename_i hi
    subst hi
    obtain ⟨hlt, hat⟩ := List.getElem?_eq_some_iff.mp hw
    simp [hlt, hat, hname]
  · rfl

theorem Queued.Of.congr {q : Queued} (h : q.Of c w) (hp : w'.permit = w.permit) (hq : w'.pending = w.pending) :
    q.Of c w' :=
  ⟨h.source, h.permit.trans (congrArg some hp.symm), fun he => (h.pending he).trans (congrArg some hq.symm)⟩

/-- A worker keeps its names, so the rest of the server does not notice. -/
theorem Tidy.setWorker (h : Tidy s) (hw : s.workers[c]? = some w) (hp : w'.permit = w.permit)
    (hq : w'.pending = w.pending) (ht : w'.Tidy c) : Tidy (s.setWorker c w') := by
  obtain ⟨hlt, -⟩ := List.getElem?_eq_some_iff.mp hw
  have hself : (s.setWorker c w').workers[c]? = some w' := by simp [Server.setWorker, hlt]
  have hother {i : Nat} (hi : c ≠ i) : (s.setWorker c w').workers[i]? = s.workers[i]? := by
    simp [Server.setWorker, List.getElem?_set_ne hi]
  refine ⟨fun g p hm => ?_, fun g => ?_, fun i v hv => ?_, fun q hm => ?_⟩
  · rw [names_setWorker hw hp hq] at hm
    exact h.fresh g p hm
  · rw [names_setWorker hw hp hq]
    exact h.distinct g
  · by_cases hi : c = i
    · subst hi
      cases hself.symm.trans hv
      exact ht
    · exact h.workers i v (hother hi ▸ hv)
  · rcases h.queue q hm with hq' | ⟨i, v, hv, hof⟩
    · exact .inl hq'
    · by_cases hi : c = i
      · subst hi
        cases hw.symm.trans hv
        exact .inr ⟨c, w', hself, hof.congr hp hq⟩
      · exact .inr ⟨i, v, (hother hi).trans hv, hof⟩

theorem Worker.Tidy.handles (h : w.Tidy c) (n : Nat) : Worker.Tidy c { w with handles := n } :=
  ⟨h.slot, h.closed, h.free, fun x hx => (h.sending x hx).congr rfl rfl⟩

/-- The envelope is out of the worker's hands. -/
theorem Worker.Tidy.delivered (h : w.Tidy c) (ok : Bool) :
    Worker.Tidy c { w with sending := none, pc := w.pc.sent ok } where
  slot := by simpa using h.slot
  closed hc := by simpa using h.closed hc
  free _ _ := rfl
  sending x hx := by cases hx

theorem Tidy.sendPending {event : Event} {pending : Option Nat} (h : Tidy s) (hw : s.workers[c]? = some w)
    (hp : w'.permit = w.permit) (hq : w'.pending = w.pending) (hslot : w'.slot = some w'.permit)
    (hpc : w'.pc = .requesting ∧ w'.closed = false ∨ w'.pc = .running) (hc : w'.closed = event.isClose)
    (hr : event = .request → pending = some w'.pending) : Tidy (s.sendPending c w' event pending) := by
  have hof (x : Sending) (hx : some (⟨⟨some c, event, w'.slot, pending⟩, false⟩ : Sending) = some x) :
      x.queued.Of c w' := by
    cases hx
    exact ⟨rfl, hslot, hr⟩
  have hopen : w'.pc ≠ .spawned ∧ w'.pc ≠ .ended := by
    rcases hpc with ⟨hpc, -⟩ | hpc <;> simp [hpc]
  have hfree : w'.pc ≠ .requesting → w'.pc ≠ .running → False := by
    rcases hpc with ⟨hpc, -⟩ | hpc
    · exact fun h _ => h hpc
    · exact fun _ h => h hpc
  unfold Server.sendPending
  split
  · rename_i hclose
    refine h.setWorker hw hp hq ⟨?_, fun _ => ?_, fun h1 h2 => (hfree h1 h2).elim, fun x hx => ?_⟩
    · simp [hc, hclose]
    · rcases hpc with ⟨-, hpc⟩ | hpc
      · simp [hc, hclose] at hpc
      · exact .inl hpc
    · exact (hof x hx).congr rfl rfl
  · rename_i hclose
    have hopen' : w'.closed = false := by simpa [hc] using hclose
    refine (h.cloned _ _).setWorker (s := s.cloned .connections w'.slot) ?_ hp hq
      ⟨?_, fun hx => ?_, fun h1 h2 => (hfree h1 h2).elim, fun x hx => (hof x hx).congr rfl rfl⟩
    · cases w'.slot <;> exact hw
    · simp [hopen', hopen, hslot]
    · simp [hopen'] at hx

theorem Tidy.refuse {q : Queued} (h : Tidy s) (hw : s.workers[c]? = some w) : Tidy (s.refuse c w q) :=
  (h.abandon _).setWorker (s := s.abandon _) hw rfl rfl ((h.workers c w hw).delivered false)

theorem Tidy.check (h : Tidy s) (hw : s.workers[c]? = some w) (hc : s.check c w = some s') : Tidy s' := by
  have ht := h.workers c w hw
  unfold Server.check at hc
  split at hc
  · rename_i q hs
    split at hc
    · cases hc
      exact h.refuse hw
    · cases hc
      refine h.setWorker hw rfl rfl ⟨ht.slot, ht.closed, fun h1 h2 => ?_, fun x hx => ?_⟩
      · cases hs.symm.trans (ht.free h1 h2)
      · cases hx
        exact (ht.sending _ hs).congr rfl rfl
  · cases hc

theorem Tidy.enqueue {q : Queued} (h : Tidy s)
    (hq : (q.source = none ∧ q.permit = none) ∨ ∃ c w, s.workers[c]? = some w ∧ q.Of c w) :
    Tidy { s with queue := s.queue ++ [q] } :=
  ⟨h.fresh, h.distinct, h.workers, List.forall_mem_append.mpr ⟨h.queue, List.forall_mem_singleton.mpr hq⟩⟩

theorem Tidy.push (h : Tidy s) (hw : s.workers[c]? = some w) (hp : s.push c w = some s') : Tidy s' := by
  have ht := h.workers c w hw
  unfold Server.push at hp
  split at hp
  · rename_i q hs
    split at hp
    · cases hp
      obtain ⟨hlt, -⟩ := List.getElem?_eq_some_iff.mp hw
      have hset : Tidy (s.setWorker c { w with sending := none, pc := w.pc.sent true }) :=
        h.setWorker hw rfl rfl (ht.delivered true)
      exact hset.enqueue (.inr ⟨c, _, List.getElem?_set_self hlt, (ht.sending _ hs).congr rfl rfl⟩)
    · cases hp
      exact h.refuse hw
  · cases hp

theorem Tidy.send {event : Net.Event} (h : Tidy s) (hw : s.workers[c]? = some w)
    (hs : s.send c w event = some s') : Tidy s' := by
  have hslot := (h.workers c w hw).slot
  unfold Server.send at hs
  split at hs
  · rename_i hfree
    split at hs
    · rename_i hstart
      cases hs
      refine h.sendPending hw rfl rfl ?_ (.inr rfl) ?_ nofun
      · simpa [hstart.1, hfree.2] using hslot
      · simp [hstart.2, hfree.2, Event.isClose]
    · split at hs
      · rename_i hrun
        cases hs
        refine h.sendPending hw rfl rfl ?_ (.inr hrun.1) rfl nofun
        simpa [hrun.1, hfree.2] using hslot
      · cases hs
  · cases hs

theorem Tidy.finish (h : Tidy s) (hw : s.workers[c]? = some w) (hf : s.finish c w = some s') : Tidy s' := by
  have ht := h.workers c w hw
  unfold Server.finish at hf
  cases hpc : w.pc
  all_goals simp only [hpc] at hf
  case requesting | starting | ended => cases hf
  case running =>
    obtain ⟨hend, rfl⟩ := guard_step hf
    refine (h.abandon _).setWorker (s := s.abandon _) hw rfl rfl
      ⟨?_, fun _ => .inr rfl, fun _ _ => hend.2, fun x hx => ?_⟩
    · simpa [hend.1] using ht.slot
    · cases hend.2.symm.trans hx
  all_goals
    have hfree := ht.free (by simp [hpc]) (by simp [hpc])
    cases hf
    refine (h.abandon _).setWorker (s := s.abandon _) hw rfl rfl
      ⟨by simp, fun _ => .inr rfl, fun _ _ => hfree, fun x hx => ?_⟩
    cases hfree.symm.trans hx

/-- The accept loop moves on with names it had. -/
theorem Tidy.acceptor {a : Acceptor} (h : Tidy s) (ha : ∀ g, (a.names g).Sublist (s.acceptor.names g)) :
    Tidy { s with acceptor := a } := by
  have hsub (g : Gate) : (Server.names { s with acceptor := a } g).Sublist (s.names g) :=
    (ha g).append (List.Sublist.refl _)
  exact ⟨fun g p hp => h.fresh g p ((hsub g).subset hp), fun g => (h.distinct g).sublist (hsub g), h.workers, h.queue⟩

theorem Tidy.mint {k : Gate} {a : Acceptor} (h : Tidy s)
    (hk : a.names k = (s.pool k).next :: s.acceptor.names k) (hg : ∀ g, g ≠ k → a.names g = s.acceptor.names g) :
    Tidy { s.setPool k (s.pool k).mint with acceptor := a } := by
  have hnames : Server.names { s with acceptor := a } k = (s.pool k).next :: s.names k := by
    simp [Server.names, hk]
  refine ⟨fun g p hp => ?_, fun g => ?_, h.workers, h.queue⟩
  · show p < (Function.update s.pool k _ g).next
    by_cases hgk : g = k
    · subst hgk
      rw [Function.update_self]
      rcases List.mem_cons.mp (hnames ▸ hp) with rfl | hp
      · exact Nat.lt_succ_self _
      · exact Nat.lt_succ_of_lt (h.fresh g p hp)
    · rw [Function.update_of_ne hgk]
      refine h.fresh g p ?_
      rwa [Server.names, ← hg g hgk]
  · show (Server.names { s with acceptor := a } g).Nodup
    by_cases hgk : g = k
    · subst hgk
      rw [hnames]
      exact List.nodup_cons.mpr ⟨fun hm => Nat.lt_irrefl _ (h.fresh g _ hm), h.distinct g⟩
    · rw [Server.names, hg g hgk]
      exact h.distinct g

theorem Tidy.turn {weak : Bool} (h : Tidy s) (ht : s.acceptTurn m weak = some s') : Tidy s' := by
  unfold Server.acceptTurn at ht
  cases hacc : s.acceptor
  all_goals simp only [hacc] at ht
  case acquiring n =>
    cases hturn : acquireTurn (s.pool .connections) m n weak
    all_goals
      simp only [hturn, Option.some.injEq] at ht
      subst ht
    case none => exact h.acceptor fun g => by cases g <;> simp [hacc, Acceptor.names]
    case again => exact h.acceptor fun g => by cases g <;> simp [hacc, Acceptor.names]
    case some => exact h.mint (by simp [hacc, Acceptor.names]) fun g hg => by cases g <;> simp_all [Acceptor.names]
  case acquiringPending permit n =>
    cases hturn : acquireTurn (s.pool .pending) MAX_PENDING n weak
    all_goals
      simp only [hturn, Option.some.injEq] at ht
      subst ht
    case none =>
      exact (h.abandon _).acceptor (s := s.abandon _) fun g => by cases g <;> simp [Server.abandon, hacc, Acceptor.names]
    case again => exact h.acceptor fun g => by cases g <;> simp [hacc, Acceptor.names]
    case some => exact h.mint (by simp [hacc, Acceptor.names]) fun g hg => by cases g <;> simp_all [Acceptor.names]
  all_goals cases ht

/-- Taking an event changes the handles of the workers and nothing else. -/
theorem getElem?_received (q : Queued) (i : Nat) :
    ∃ n : Worker → Nat, (s.received q)[i]? = s.workers[i]?.map fun w => { w with handles := n w } := by
  unfold Server.received
  split
  · rename_i c _ _
    by_cases hi : c = i
    · subst hi
      exact ⟨fun w => w.handles + 1, by rw [List.getElem?_modify_eq]; rfl⟩
    · exact ⟨Worker.handles, by simp [hi]⟩
  · exact ⟨Worker.handles, by simp⟩

theorem map_received {α : Type} {f : Worker → α} (hf : ∀ w n, f { w with handles := n } = f w) (q : Queued) :
    (s.received q).map f = s.workers.map f := by
  refine List.ext_getElem? fun i => ?_
  obtain ⟨n, hn⟩ := getElem?_received (s := s) q i
  rw [List.getElem?_map, hn, List.getElem?_map]
  cases s.workers[i]? with
  | none => rfl
  | some w => exact congrArg some (hf w _)

/-- The first envelope leaves the queue. -/
theorem Tidy.taken {q : Queued} {rest : List Queued} (h : Tidy s) (hq : s.queue = q :: rest) :
    Tidy { s with queue := rest } :=
  ⟨h.fresh, h.distinct, h.workers, fun x hx => h.queue x (hq ▸ List.mem_cons_of_mem _ hx)⟩

theorem Tidy.received (h : Tidy s) (q : Queued) : Tidy { s with workers := s.received q } := by
  have hnames (g : Gate) : Server.names { s with workers := s.received q } g = s.names g :=
    congrArg (s.acceptor.names g ++ ·) (map_received (fun w n => by cases g <;> rfl) q)
  refine ⟨fun g p hp => h.fresh g p (hnames g ▸ hp), fun g => (hnames g).symm ▸ h.distinct g, fun i v hv => ?_,
    fun x hx => ?_⟩
  · obtain ⟨n, hn⟩ := getElem?_received (s := s) q i
    obtain ⟨w, hw, rfl⟩ := Option.map_eq_some_iff.mp (hn.symm.trans hv)
    exact (h.workers i w hw).handles _
  · rcases h.queue x hx with hnone | ⟨i, w, hw, hof⟩
    · exact .inl hnone
    · obtain ⟨n, hn⟩ := getElem?_received (s := s) q i
      exact .inr ⟨i, _, hn.trans (congrArg _ hw), hof.congr rfl rfl⟩

theorem Tidy.spawn {permit pending : Nat} (h : Tidy s) (ha : s.acceptor = .spawning permit pending) :
    Tidy { s with acceptor := .waiting, workers := s.workers ++ [.new permit pending] } := by
  have hperm (g : Gate) : (Server.names { s with
      acceptor := .waiting, workers := s.workers ++ [.new permit pending] } g).Perm (s.names g) := by
    cases g <;> simp [Server.names, ha, Acceptor.names, Worker.new, Worker.name]
  refine ⟨fun g p hp => h.fresh g p ((hperm g).subset hp), fun g => (hperm g).nodup_iff.mpr (h.distinct g),
    fun i v hv => ?_, fun x hx => ?_⟩
  · dsimp only at hv
    rw [List.getElem?_append] at hv
    split at hv
    · exact h.workers i v hv
    · rw [List.getElem?_singleton] at hv
      obtain ⟨-, rfl⟩ := Option.ite_none_right_eq_some.mp hv |>.imp_right Option.some.inj
      exact ⟨rfl, nofun, fun _ _ => rfl, nofun⟩
  · rcases h.queue x hx with hnone | ⟨i, w, hw, hof⟩
    · exact .inl hnone
    · exact .inr ⟨i, w, List.getElem?_append_left (List.getElem?_eq_some_iff.mp hw).1 ▸ hw, hof⟩

theorem Worker.Tidy.open_early (h : w.Tidy c) (hr : w.pc ≠ .running) (he : w.pc ≠ .ended) : w.closed = false := by
  by_contra hc
  rcases h.closed (by simpa using hc) with hpc | hpc
  · exact hr hpc
  · exact he hpc

/-- The program points of the handshake at which nothing is being sent. -/
def Pc.quiet : Pc → Bool
  | .admitted | .handshaking | .deciding | .accepted | .leaving | .starting => true
  | .spawned | .requesting | .running | .ended => false

theorem Pc.quiet_ne {pc : Pc} (h : pc.quiet) :
    pc ≠ .spawned ∧ pc ≠ .requesting ∧ pc ≠ .running ∧ pc ≠ .ended := by
  cases pc <;> simp_all [Pc.quiet]

theorem Worker.Tidy.slot_eq (h : w.Tidy c) (hw : w.pc.quiet) : w.slot = some w.permit := by
  obtain ⟨hs, -, hr, he⟩ := Pc.quiet_ne hw
  simpa [hs, he, h.open_early hr he] using h.slot

theorem Worker.Tidy.moves {pc : Pc} (h : w.Tidy c) (hw : w.pc.quiet) (hp : pc.quiet) :
    Worker.Tidy c { w with pc := pc } := by
  obtain ⟨-, hq, hr, he⟩ := Pc.quiet_ne hw
  obtain ⟨hs', -, -, he'⟩ := Pc.quiet_ne hp
  have hopen := h.open_early hr he
  have hfree := h.free hq hr
  exact ⟨by simp [hs', he', hopen, h.slot_eq hw], by simp [hopen], fun _ _ => hfree, by simp [hfree]⟩

theorem step_tidy {lab : Label} (h : Tidy s) (hs : s.step m lab = some s') : Tidy s' := by
  cases lab
  case turn weak => exact h.turn hs
  case accept =>
    obtain ⟨ha, rfl⟩ := guard_step hs
    exact h.acceptor fun g => by cases g <;> simp [Acceptor.names]
  case load =>
    simp only [Server.step] at hs
    split at hs
    · rename_i ha
      cases hs
      exact h.acceptor fun g => by cases g <;> simp [ha, Acceptor.names]
    · cases hs
  case spawn =>
    simp only [Server.step] at hs
    split at hs
    · rename_i ha
      cases hs
      exact h.spawn ha
    · cases hs
  case leave =>
    obtain ⟨ha, rfl⟩ := guard_step hs
    exact h.acceptor fun g => by cases g <;> simp [Acceptor.names]
  case admitted c =>
    obtain ⟨w, hw, hs⟩ := worker_step hs
    obtain ⟨hpc, rfl⟩ := guard_step hs
    have ht := h.workers c w hw
    have hopen := ht.open_early (by simp [hpc]) (by simp [hpc])
    have hfree := ht.free (by simp [hpc]) (by simp [hpc])
    refine (h.cloned _ _).setWorker (s := s.cloned _ _) hw rfl rfl ⟨by simp [hopen], ?_, fun _ _ => hfree, ?_⟩
    · simp [hopen]
    · simp [hfree]
  case shake c =>
    obtain ⟨w, hw, hs⟩ := worker_step hs
    obtain ⟨hpc, rfl⟩ := guard_step hs
    exact (h.cloned _ _).setWorker (s := s.cloned _ _) hw rfl rfl
      ((h.workers c w hw).moves (by simp [hpc, Pc.quiet]) rfl)
  case request c =>
    obtain ⟨w, hw, hs⟩ := worker_step hs
    obtain ⟨hpc, rfl⟩ := guard_step hs
    have ht := h.workers c w hw
    exact h.sendPending hw rfl rfl (ht.slot_eq (by simp [hpc, Pc.quiet]))
      (.inl ⟨rfl, ht.open_early (by simp [hpc]) (by simp [hpc])⟩) (ht.open_early (by simp [hpc]) (by simp [hpc]))
      fun _ => rfl
  case decide c =>
    obtain ⟨w, hw, hs⟩ := worker_step hs
    obtain ⟨hpc, rfl⟩ := guard_step hs
    exact h.setWorker hw rfl rfl ((h.workers c w hw).moves (by simp [hpc, Pc.quiet]) rfl)
  case start c =>
    obtain ⟨w, hw, hs⟩ := worker_step hs
    obtain ⟨⟨hpc, -⟩, rfl⟩ := guard_step hs
    exact (h.abandon _).setWorker (s := s.abandon _) hw rfl rfl
      ((h.workers c w hw).moves (by simp [hpc, Pc.quiet]) rfl)
  case send c event =>
    obtain ⟨w, hw, hs⟩ := worker_step hs
    exact h.send hw hs
  case check c =>
    obtain ⟨w, hw, hs⟩ := worker_step hs
    exact h.check hw hs
  case push c =>
    obtain ⟨w, hw, hs⟩ := worker_step hs
    exact h.push hw hs
  case finish c =>
    obtain ⟨w, hw, hs⟩ := worker_step hs
    exact h.finish hw hs
  case retain c =>
    obtain ⟨w, hw, hs⟩ := worker_step hs
    obtain ⟨-, rfl⟩ := guard_step hs
    exact h.setWorker hw rfl rfl ((h.workers c w hw).handles _)
  case discard c =>
    obtain ⟨w, hw, hs⟩ := worker_step hs
    obtain ⟨-, rfl⟩ := guard_step hs
    exact h.setWorker hw rfl rfl ((h.workers c w hw).handles _)
  case unlink c =>
    obtain ⟨w, hw, hs⟩ := worker_step hs
    obtain ⟨⟨hpc, -⟩, rfl⟩ := guard_step hs
    have ht := h.workers c w hw
    exact (h.abandon _).setWorker (s := s.abandon _) hw rfl rfl
      ⟨by simp [hpc], ht.closed, ht.free, fun x hx => (ht.sending x hx).congr rfl rfl⟩
  case plain event =>
    obtain ⟨-, rfl⟩ := guard_step hs
    exact h.enqueue (.inl ⟨rfl, rfl⟩)
  case drain =>
    simp only [Server.step] at hs
    split at hs
    · rename_i q rest hq
      obtain ⟨-, rfl⟩ := guard_step hs
      exact ((h.abandon fun g => (q.slot g).toList).received q).taken hq
    · cases hs
  case purge =>
    simp only [Server.step] at hs
    split at hs
    · rename_i q rest hq
      obtain ⟨-, rfl⟩ := guard_step hs
      exact (h.abandon fun g => (q.slot g).toList).taken hq
    · cases hs
  case stop =>
    cases hs
    exact ⟨h.fresh, h.distinct, h.workers, h.queue⟩
  case closeHub =>
    cases hs
    exact ⟨h.fresh, h.distinct, h.workers, h.queue⟩
  case dropReceiver =>
    obtain ⟨-, rfl⟩ := guard_step hs
    exact ⟨h.fresh, h.distinct, h.workers, h.queue⟩
  case release k p =>
    obtain ⟨-, rfl⟩ := guard_step hs
    exact h.setPool rfl
  case settle k p =>
    obtain ⟨-, rfl⟩ := guard_step hs
    exact h.setPool rfl

end Tidy

/-! ## Every step is a move of the pools -/

section Flow

variable {m : UInt64} {s s' : Server} {c : Nat} {w w' : Worker} {g : Gate}

/-- What a step does to one counter and its references. -/
abbrev Flows (m : UInt64) (s s' : Server) (g : Gate) : Prop :=
  Flow (g.limit m) (s.pool g) (s.owned g) (s'.pool g) (s'.owned g)

theorem flows_keeps (h : s.workers[c]? = some w) (hw : w'.owned g = w.owned g) :
    Flows m s (s.setWorker c w') g := by
  rw [Flows, owned_keeps h hw]
  exact .stay

theorem flows_abandon {gone : Gate → List Nat} (h : s.workers[c]? = some w)
    (hw : w.owned g = gone g + w'.owned g) : Flows m s ((s.abandon gone).setWorker c w') g :=
  .abandon (gone g) (owned_loses h hw)

theorem flows_cloned {k : Gate} {o : Option Nat} (h : s.workers[c]? = some w) (ho : ∀ p ∈ o, p ∈ w.owned k)
    (hk : w'.owned k = o.toList + w.owned k) (hg : g ≠ k → w'.owned g = w.owned g) :
    Flows m s ((s.cloned k o).setWorker c w') g := by
  cases o with
  | none =>
    refine flows_keeps h ?_
    by_cases hgk : g = k
    · subst hgk
      simpa using hk
    · exact hg hgk
  | some p =>
    by_cases hgk : g = k
    · subst hgk
      have hp : p ∈ s.owned g := Multiset.mem_of_le (owned_le h) (ho p rfl)
      have hown := owned_gains (s := s) (x := {p}) h (by simpa using hk)
      rw [Multiset.singleton_add] at hown
      show Flow _ _ _ (Function.update s.pool g _ g) ((s.setWorker c w').owned g)
      rw [Function.update_self, hown]
      exact .clone p hp
    · show Flow _ _ _ (Function.update s.pool k _ g) ((s.setWorker c w').owned g)
      rw [Function.update_of_ne hgk]
      exact flows_keeps h (hg hgk)

/-- The locked part of a send, of a worker that differs from `w` in its program point only. -/
theorem flows_sendPending {event : Event} {pending : Option Nat} (h : s.workers[c]? = some w)
    (hs : w'.sending = none) (hc : w'.owned .connections = w.owned .connections)
    (hp : w.owned .pending = pending.toList + w'.owned .pending) :
    Flows m s (s.sendPending c w' event pending) g := by
  unfold Server.sendPending
  have hslot : ∀ p ∈ w'.slot, p ∈ w.owned .connections := by
    intro p hp
    rw [← hc]
    simp [Worker.owned, show w'.slot = some p from hp]
  have hc' : (if w'.pc.runs then {w'.permit} else 0) + (w'.slot.toList : Multiset Nat) = w.owned .connections := by
    rw [← hc]
    simp [Worker.owned, Worker.sent, hs]
  have hp' : (if w'.pc.shakes then {w'.pending} else 0) + (if w'.pc = .handshaking then {w'.pending} else 0)
      + (pending.toList : Multiset Nat) = w.owned .pending := by
    rw [hp]
    simp only [Worker.owned, Worker.sent, hs]
    abel
  split
  · refine flows_keeps h ?_
    cases g with
    | connections => simpa [Worker.owned, Worker.sent, Queued.owned, Queued.slot] using hc'
    | pending => simpa [Worker.owned, Worker.sent, Queued.owned, Queued.slot] using hp'
  · refine flows_cloned h hslot ?_ ?_
    · exact (congrArg (· + (w'.slot.toList : Multiset Nat)) hc').trans (add_comm _ _)
    · intro hg
      cases g with
      | connections => exact absurd rfl hg
      | pending => simpa [Worker.owned, Worker.sent, Queued.owned, Queued.slot] using hp'

theorem owned_sent {q : Queued} {b ok : Bool} (hs : w.sending = some ⟨q, b⟩) :
    w.owned g = (q.slot g).toList + Worker.owned { w with sending := none, pc := w.pc.sent ok } g := by
  cases g with
  | connections =>
    simp only [Worker.owned, Worker.sent, hs, Queued.owned, Pc.runs_sent]
    abel
  | pending =>
    simp only [Worker.owned, Worker.sent, hs, Queued.owned, Pc.shakes_sent, Pc.sent_eq_handshaking]
    abel

theorem flows_refuse {q : Queued} {b : Bool} (h : s.workers[c]? = some w) (hs : w.sending = some ⟨q, b⟩) :
    Flows m s (s.refuse c w q) g :=
  flows_abandon h (owned_sent hs)

theorem flows_check (h : s.workers[c]? = some w) (hc : s.check c w = some s') : Flows m s s' g := by
  unfold Server.check at hc
  split at hc
  · rename_i q hs
    split at hc
    · cases hc
      exact flows_refuse h hs
    · cases hc
      refine flows_keeps h ?_
      cases g <;> simp [Worker.owned, Worker.sent, hs]
  · cases hc

/-- An envelope goes from the sender's hands into the queue. -/
theorem flows_push (h : s.workers[c]? = some w) (hp : s.push c w = some s') : Flows m s s' g := by
  unfold Server.push at hp
  split at hp
  · rename_i q hs
    split at hp
    · cases hp
      have hown := owned_loses (s := s) h (@owned_sent w g q _ true hs)
      have heq : s.owned g
          = Server.owned { s.setWorker c { w with sending := none, pc := w.pc.sent true } with
              queue := s.queue ++ [q] } g := by
        rw [hown]
        simp only [Server.owned, Server.setWorker, List.map_append, List.map_cons, List.map_nil, List.sum_append,
          List.sum_cons, List.sum_nil, Queued.owned]
        abel
      rw [Flows, ← heq]
      exact .stay
    · cases hp
      exact flows_refuse h hs
  · cases hp

theorem flows_send {event : Net.Event} (h : s.workers[c]? = some w) (hs : s.send c w event = some s') :
    Flows m s s' g := by
  unfold Server.send at hs
  split at hs
  · rename_i hfree
    split at hs
    · rename_i hstart
      cases hs
      refine flows_sendPending h hfree.1 ?_ ?_
      · simp [Worker.owned, Worker.sent, hstart.1, Pc.runs]
      · simp [Worker.owned, Worker.sent, hstart.1, Pc.shakes]
    · split at hs
      · cases hs
        exact flows_sendPending h hfree.1 rfl (by simp [Worker.owned, Worker.sent])
      · cases hs
  · cases hs

theorem flows_finish (h : s.workers[c]? = some w) (hf : s.finish c w = some s') : Flows m s s' g := by
  unfold Server.finish at hf
  cases hpc : w.pc
  all_goals simp only [hpc] at hf
  case requesting | starting | ended => cases hf
  case running =>
    split at hf
    · cases hf
      refine flows_abandon h ?_
      cases g with
      | connections => simp [Worker.owned, Worker.sent, hpc, Pc.runs, -Multiset.cons_coe]
      | pending => simp [Worker.owned, Worker.sent, hpc, Pc.shakes]
    · cases hf
  case handshaking =>
    cases hf
    refine flows_abandon h ?_
    cases g with
    | connections => simp [Worker.owned, Worker.sent, hpc, Pc.runs]
    | pending =>
      have htwo : (↑[w.pending, w.pending] : Multiset Nat) = {w.pending} + {w.pending} := rfl
      simp [Worker.owned, Worker.sent, hpc, Pc.shakes, htwo]
  all_goals
    cases hf
    refine flows_abandon h ?_
    cases g <;> simp [Worker.owned, Worker.sent, hpc, Pc.runs, Pc.shakes]

theorem acquireTurn_some {P : Pool} {limit n : UInt64} {weak : Bool} (h : acquireTurn P limit n weak = .some) :
    P.count < limit := by
  unfold acquireTurn at h
  split at h
  · rename_i hlt
    split at h
    · rename_i heq
      exact heq.1 ▸ hlt
    · cases h
  · cases h

theorem flows_accepts {a : Acceptor} {gone : Gate → List Nat} (ha : s.acceptor.owned g = gone g + a.owned g) :
    Flows m s { s.abandon gone with acceptor := a } g := by
  refine .abandon (gone g) ?_
  simp only [Server.owned, Server.abandon, ha]
  abel

theorem flows_moves {a : Acceptor} (ha : a.owned g = s.acceptor.owned g) : Flows m s { s with acceptor := a } g :=
  @flows_accepts m s g a (fun _ => []) (by simp [ha])

theorem flows_mint {k : Gate} {a : Acceptor} (room : (s.pool k).count < k.limit m)
    (hk : a.owned k = {(s.pool k).next} + s.acceptor.owned k) (hg : g ≠ k → a.owned g = s.acceptor.owned g) :
    Flows m s { s.setPool k (s.pool k).mint with acceptor := a } g := by
  by_cases hgk : g = k
  · subst hgk
    have hown : Server.owned { s with acceptor := a } g = (s.pool g).next ::ₘ s.owned g := by
      simp only [Server.owned, hk, Multiset.singleton_add, Multiset.cons_add]
    show Flow _ _ _ (Function.update s.pool g _ g) (Server.owned { s with acceptor := a } g)
    rw [Function.update_self, hown]
    exact .mint room
  · show Flow _ _ _ (Function.update s.pool k _ g) (Server.owned { s with acceptor := a } g)
    rw [Function.update_of_ne hgk]
    exact flows_moves (hg hgk)

/-- The accept loop mints a permit, or drops the one it has. -/
theorem flows_turn {weak : Bool} (h : s.acceptTurn m weak = some s') : Flows m s s' g := by
  unfold Server.acceptTurn at h
  cases hacc : s.acceptor
  all_goals simp only [hacc] at h
  case acquiring n =>
    cases ht : acquireTurn (s.pool .connections) m n weak
    all_goals
      simp only [ht, Option.some.injEq] at h
      subst h
    case none => exact flows_moves (by cases g <;> simp [hacc, Acceptor.owned])
    case again => exact flows_moves (by cases g <;> simp [hacc, Acceptor.owned])
    case some =>
      refine flows_mint (acquireTurn_some ht) (by simp [hacc, Acceptor.owned]) fun hg => ?_
      cases g with
      | connections => exact absurd rfl hg
      | pending => simp [hacc, Acceptor.owned]
  case acquiringPending permit n =>
    cases ht : acquireTurn (s.pool .pending) MAX_PENDING n weak
    all_goals
      simp only [ht, Option.some.injEq] at h
      subst h
    case none => exact flows_accepts (by cases g <;> simp [hacc, Acceptor.owned])
    case again => exact flows_moves (by cases g <;> simp [hacc, Acceptor.owned])
    case some =>
      refine flows_mint (acquireTurn_some ht) (by simp [hacc, Acceptor.owned]) fun hg => ?_
      cases g with
      | connections => simp [hacc, Acceptor.owned]
      | pending => exact absurd rfl hg
  all_goals cases h

/-- The first envelope leaves the queue; whoever took it drops its permits. -/
theorem flows_taken {q : Queued} {rest : List Queued} {ws : List Worker} (hq : s.queue = q :: rest)
    (hw : ws.map (·.owned g) = s.workers.map (·.owned g)) :
    Flows m s { s.abandon (fun g => (q.slot g).toList) with queue := rest, workers := ws } g := by
  refine .abandon _ ?_
  simp only [Server.owned, Server.abandon, hq, hw, List.map_cons, List.sum_cons, Queued.owned]
  abel

theorem owned_handles (w : Worker) (n : Nat) : Worker.owned { w with handles := n } g = w.owned g := by
  cases g <;> rfl

theorem flows_setPool {k : Gate} {P : Pool} (hf : Flow (k.limit m) (s.pool k) (s.owned k) P (s.owned k)) :
    Flows m s (s.setPool k P) g := by
  show Flow _ _ _ (Function.update s.pool k P g) (s.owned g)
  by_cases hg : g = k
  · subst hg
    rw [Function.update_self]
    exact hf
  · rw [Function.update_of_ne hg]
    exact .stay

theorem owned_waiting : Acceptor.waiting.owned g = 0 := by cases g <;> rfl

theorem owned_new {permit pending : Nat} :
    (Worker.new permit pending).owned g = (Acceptor.spawning permit pending).owned g := by
  cases g <;> rfl

theorem step_flows {lab : Label} (hi : Tidy s) (h : s.step m lab = some s') (g : Gate) : Flows m s s' g := by
  cases lab
  case turn weak => exact flows_turn h
  case accept =>
    obtain ⟨ha, rfl⟩ := guard_step h
    exact flows_moves (by cases g <;> simp [ha, Acceptor.owned])
  case load =>
    simp only [Server.step] at h
    split at h
    · rename_i ha
      cases h
      exact flows_moves (by cases g <;> simp [ha, Acceptor.owned])
    · cases h
  case spawn =>
    simp only [Server.step] at h
    split at h
    · rename_i permit pending ha
      cases h
      have heq : s.owned g = Server.owned { s with
          acceptor := .waiting, workers := s.workers ++ [.new permit pending] } g := by
        simp only [Server.owned, ha, owned_waiting, List.map_append, List.map_cons, List.map_nil, List.sum_append,
          List.sum_cons, List.sum_nil, owned_new]
        abel
      rw [Flows, ← heq]
      exact .stay
    · cases h
  case leave =>
    obtain ⟨ha, rfl⟩ := guard_step h
    exact flows_moves (by cases g <;> simp [ha.1, Acceptor.owned])
  case admitted c =>
    obtain ⟨w, hw, h⟩ := worker_step h
    obtain ⟨hpc, rfl⟩ := guard_step h
    refine flows_cloned hw ?_ ?_ ?_
    · intro p hp
      cases hp
      simp [Worker.owned, hpc, Pc.runs]
    · have hslot := (hi.workers c w hw).slot
      simp only [hpc, true_or, if_true] at hslot
      simp [Worker.owned, Worker.sent, hpc, hslot, Pc.runs]
    · intro hg
      cases g with
      | connections => exact absurd rfl hg
      | pending => simp [Worker.owned, Worker.sent, hpc, Pc.shakes]
  case shake c =>
    obtain ⟨w, hw, h⟩ := worker_step h
    obtain ⟨hpc, rfl⟩ := guard_step h
    refine flows_cloned hw ?_ ?_ ?_
    · intro p hp
      cases hp
      simp [Worker.owned, hpc, Pc.shakes]
    · simp [Worker.owned, Worker.sent, hpc, Pc.shakes]
    · intro hg
      cases g with
      | connections => simp [Worker.owned, Worker.sent, hpc, Pc.runs]
      | pending => exact absurd rfl hg
  case request c =>
    obtain ⟨w, hw, h⟩ := worker_step h
    obtain ⟨hpc, rfl⟩ := guard_step h
    refine flows_sendPending hw ?_ ?_ ?_
    · exact (hi.workers c w hw).free (by simp [hpc]) (by simp [hpc])
    · simp [Worker.owned, Worker.sent, hpc, Pc.runs]
    · simp [Worker.owned, Worker.sent, hpc, Pc.shakes]
  case decide c =>
    obtain ⟨w, hw, h⟩ := worker_step h
    obtain ⟨hpc, rfl⟩ := guard_step h
    refine flows_keeps hw ?_
    cases g <;> simp [Worker.owned, Worker.sent, hpc, Pc.runs, Pc.shakes]
  case start c =>
    obtain ⟨w, hw, h⟩ := worker_step h
    obtain ⟨⟨hpc, -⟩, rfl⟩ := guard_step h
    refine flows_abandon hw ?_
    cases g <;> simp [Worker.owned, Worker.sent, hpc, Pc.runs, Pc.shakes]
  case send c event =>
    obtain ⟨w, hw, h⟩ := worker_step h
    exact flows_send hw h
  case check c =>
    obtain ⟨w, hw, h⟩ := worker_step h
    exact flows_check hw h
  case push c =>
    obtain ⟨w, hw, h⟩ := worker_step h
    exact flows_push hw h
  case finish c =>
    obtain ⟨w, hw, h⟩ := worker_step h
    exact flows_finish hw h
  case retain c =>
    obtain ⟨w, hw, h⟩ := worker_step h
    obtain ⟨-, rfl⟩ := guard_step h
    exact flows_keeps hw (owned_handles w _)
  case discard c =>
    obtain ⟨w, hw, h⟩ := worker_step h
    obtain ⟨-, rfl⟩ := guard_step h
    exact flows_keeps hw (owned_handles w _)
  case unlink c =>
    obtain ⟨w, hw, h⟩ := worker_step h
    obtain ⟨⟨hpc, -⟩, rfl⟩ := guard_step h
    refine flows_abandon hw ?_
    cases g <;> simp [Worker.owned, Worker.sent, hpc, Pc.runs, Pc.shakes]
  case plain event =>
    obtain ⟨-, rfl⟩ := guard_step h
    have heq : s.owned g = Server.owned { s with queue := s.queue ++ [⟨none, event, none, none⟩] } g := by
      cases g <;> simp [Server.owned, Queued.owned, Queued.slot]
    rw [Flows, ← heq]
    exact .stay
  case drain =>
    simp only [Server.step] at h
    split at h
    · rename_i q rest hq
      obtain ⟨-, rfl⟩ := guard_step h
      exact flows_taken hq (map_received (fun w n => owned_handles w n) q)
    · cases h
  case purge =>
    simp only [Server.step] at h
    split at h
    · rename_i q rest hq
      obtain ⟨-, rfl⟩ := guard_step h
      exact flows_taken hq rfl
    · cases h
  case stop =>
    cases h
    exact .stay
  case closeHub =>
    cases h
    exact .stay
  case dropReceiver =>
    obtain ⟨-, rfl⟩ := guard_step h
    exact .stay
  case release k p =>
    obtain ⟨hp, rfl⟩ := guard_step h
    exact flows_setPool (.release p hp)
  case settle k p =>
    obtain ⟨hp, rfl⟩ := guard_step h
    exact flows_setPool (.settle p hp)

end Flow

/-! ## The counters in a reachable state -/

structure Counted (m : UInt64) (s : Server) : Prop where
  tidy : Tidy s
  sound : ∀ g, Sound (s.pool g) (s.owned g)
  limit : ∀ g, (s.pool g).count ≤ g.limit m

section Counted

variable {m : UInt64} {s s' : Server} {c : Nat} {w : Worker} {g : Gate} {p : Nat}

theorem Counted.new : Counted m .new where
  tidy := .new
  sound g := by cases g <;> exact .empty
  limit g := by
    rw [UInt64.le_iff_toNat_le]
    exact Nat.zero_le _

theorem Counted.step {lab : Label} (h : Counted m s) (hs : s.step m lab = some s') : Counted m s' where
  tidy := step_tidy h.tidy hs
  sound g := (step_flows h.tidy hs g).sound (h.sound g)
  limit g := (step_flows h.tidy hs g).le_limit (h.sound g) (h.limit g)

theorem Counted.of_reachable (h : Reachable m s) : Counted m s :=
  Lib.Transition.Reachable.invariant h .new fun _ _ _ _ hc hs => hc.step hs

theorem mem_sum_map {α : Type} {f : α → Multiset Nat} {l : List α} : p ∈ (l.map f).sum ↔ ∃ a ∈ l, p ∈ f a := by
  induction l with
  | nil => simp
  | cons a l ih => simp [ih]

theorem Server.mem_owned : p ∈ s.owned g ↔
    p ∈ s.acceptor.owned g ∨ (∃ w ∈ s.workers, p ∈ w.owned g) ∨ ∃ q ∈ s.queue, p ∈ q.owned g := by
  rw [Server.owned, Multiset.mem_add, Multiset.mem_add, mem_sum_map, mem_sum_map, or_assoc]

theorem Queued.mem_owned {q : Queued} : p ∈ q.owned g ↔ q.slot g = some p := by
  cases h : q.slot g <;> simp [Queued.owned, h, eq_comm]

theorem Server.mem_held : p ∈ s.held g ↔ p ∈ s.owned g ∨ p ∈ (s.pool g).dying ∨ p ∈ (s.pool g).falling :=
  Pool.mem_held

theorem Tidy.workers_inj (h : Tidy s) {i : Nat} {v : Worker} (hv : s.workers[i]? = some v)
    (hw : s.workers[c]? = some w) (hn : v.name g = w.name g) : i = c := by
  have hnd := (List.nodup_append.mp (h.distinct g)).2.1
  have hlt : i < (s.workers.map (·.name g)).length := by
    simpa using (List.getElem?_eq_some_iff.mp hv).1
  refine (List.getElem?_inj hlt hnd).mp ?_
  simp [hv, hw, hn]

theorem Acceptor.mem_names {a : Acceptor} (hp : p ∈ a.owned g) : p ∈ a.names g := by
  cases a <;> cases g <;> simp_all [Acceptor.owned, Acceptor.names]

/-- A worker's references to connection permits are to its own, and it has none at its end. -/
theorem Worker.Tidy.eq_permit (h : w.Tidy c) (hp : p ∈ w.owned .connections) : p = w.permit ∧ w.pc ≠ .ended := by
  have hslot := h.slot
  have hone : p = w.permit := by
    rw [Worker.owned, Multiset.mem_add, Multiset.mem_add] at hp
    rcases hp with (hp | hp) | hp
    · split at hp
      · exact Multiset.mem_singleton.mp hp
      · cases hp
    · rw [hslot] at hp
      split at hp
      · cases hp
      · simpa using hp
    · cases hs : w.sending with
      | none => simp [Worker.sent, hs] at hp
      | some x =>
        simp only [Worker.sent, hs] at hp
        have := (h.sending x hs).permit.symm.trans (Queued.mem_owned.mp hp)
        exact (Option.some.inj this).symm
  refine ⟨hone, fun hend => ?_⟩
  have hfree := h.free (by simp [hend]) (by simp [hend])
  simp [hend] at hslot
  simp [Worker.owned, Worker.sent, hend, hslot, hfree, Pc.runs] at hp

/-- An envelope of connection `c` is one of its worker. -/
theorem Tidy.queued_of (h : Tidy s) {q : Queued} (hq : q ∈ s.queue) (hsrc : q.source = some c)
    (hw : s.workers[c]? = some w) : q.Of c w := by
  rcases h.queue q hq with ⟨hnone, -⟩ | ⟨i, v, hv, hof⟩
  · cases hnone.symm.trans hsrc
  · cases hof.source.symm.trans hsrc
    cases hv.symm.trans hw
    exact hof

theorem Tidy.owned_permit (h : Tidy s) (hw : s.workers[c]? = some w) :
    w.permit ∈ s.owned .connections ↔ w.pc ≠ .ended ∨ ∃ q ∈ s.queue, q.source = some c := by
  rw [Server.mem_owned]
  constructor
  · rintro (hp | ⟨v, hv, hp⟩ | ⟨q, hq, hp⟩)
    · -- what the accept loop has is not given to a worker yet
      have hdis := (List.nodup_append.mp (h.distinct .connections)).2.2
      exact absurd rfl (hdis _ (Acceptor.mem_names hp) w.permit
        (List.mem_map.mpr ⟨w, List.mem_of_getElem? hw, rfl⟩))
    · obtain ⟨i, hi⟩ := List.getElem?_of_mem hv
      obtain ⟨heq, hrun⟩ := (h.workers i v hi).eq_permit hp
      cases h.workers_inj (g := .connections) hi hw heq.symm
      cases hi.symm.trans hw
      exact .inl hrun
    · rcases h.queue q hq with ⟨-, hnone⟩ | ⟨i, v, hv, hof⟩
      · cases hnone.symm.trans (Queued.mem_owned.mp hp)
      · have heq := Option.some.inj (hof.permit.symm.trans (Queued.mem_owned.mp hp))
        cases h.workers_inj (g := .connections) hv hw heq
        exact .inr ⟨q, hq, hof.source⟩
  · rintro (hrun | ⟨q, hq, hsrc⟩)
    · refine .inr (.inl ⟨w, List.mem_of_getElem? hw, ?_⟩)
      have : w.pc.runs := by cases hpc : w.pc <;> simp_all [Pc.runs]
      simp [Worker.owned, this]
    · exact .inr (.inr ⟨q, hq, Queued.mem_owned.mpr (h.queued_of hq hsrc hw).permit⟩)

theorem Tidy.owned_pending (h : Tidy s) (hw : s.workers[c]? = some w)
    (hp : w.pc.shakes ∨ ∃ q ∈ s.queue, q.source = some c ∧ q.event = .request) : w.pending ∈ s.owned .pending := by
  rw [Server.mem_owned]
  rcases hp with hp | ⟨q, hq, hsrc, hreq⟩
  · exact .inr (.inl ⟨w, List.mem_of_getElem? hw, by simp [Worker.owned, hp]⟩)
  · exact .inr (.inr ⟨q, hq, Queued.mem_owned.mpr ((h.queued_of hq hsrc hw).pending hreq)⟩)

end Counted

/-- In every reachable state each counter is the number of permits with a holder, within its
limit, and is not zero when a drop is about to lower it; no two workers share a permit. A
connection's permit is held while its task runs or one of its events is queued, and after that,
once the drops under way are done, by nobody, whatever handles the application retains. A
pending permit is held until the handshake is over and its `Request` is out of the queue. -/
theorem admission_accounting {m : UInt64} {s : Server} (h : Reachable m s) :
    (∀ g, (s.pool g).count.toNat = (s.held g).card ∧ (s.pool g).count ≤ g.limit m ∧
      ((s.pool g).falling ≠ [] → 1 ≤ (s.pool g).count) ∧ (s.workers.map (·.name g)).Nodup) ∧
    ∀ c w, s.workers[c]? = some w →
      ((w.pc ≠ .ended ∨ ∃ q ∈ s.queue, q.source = some c) → w.permit ∈ s.held .connections) ∧
      (w.pc = .ended → (∀ q ∈ s.queue, q.source ≠ some c) →
        w.permit ∉ (s.pool .connections).dying → w.permit ∉ (s.pool .connections).falling →
        w.permit ∉ s.held .connections) ∧
      ((w.pc.shakes ∨ ∃ q ∈ s.queue, q.source = some c ∧ q.event = .request) → w.pending ∈ s.held .pending) := by
  obtain ⟨ht, hsound, hlimit⟩ := Counted.of_reachable h
  refine ⟨fun g => ⟨(hsound g).count, hlimit g, fun hf => ?_, (List.nodup_append.mp (ht.distinct g)).2.1⟩,
    fun c w hw => ⟨fun hp => ?_, fun hend hq hd hf hp => ?_, fun hp => ?_⟩⟩
  · obtain ⟨p, hp⟩ := List.exists_mem_of_ne_nil _ hf
    exact (hsound g).one_le (Server.mem_held.mpr (.inr (.inr hp)))
  · exact Server.mem_held.mpr (.inl ((ht.owned_permit hw).mpr hp))
  · rcases Server.mem_held.mp hp with hp | hp | hp
    · rcases (ht.owned_permit hw).mp hp with hrun | ⟨q, hm, hsrc⟩
      · exact hrun hend
      · exact hq q hm hsrc
    · exact hd hp
    · exact hf hp
  · exact Server.mem_held.mpr (.inl (ht.owned_pending hw hp))

/-- A connection from its accept to its last drop; the application keeps its handle. -/
def wholeLife : List Label :=
  [.accept, .turn true, .turn false, .load, .turn false, .spawn, .admitted 0, .shake 0,
    .request 0, .check 0, .push 0, .drain, .decide 0, .start 0,
    .send 0 .opened, .check 0, .push 0, .drain,
    .send 0 (.close 1006 .empty), .check 0, .push 0, .finish 0, .drain]
  ++ List.replicate 4 (.release .connections 0) ++ [.settle .connections 0]

/-- The server after `wholeLife`. -/
def outlived : Server := (Lib.Transition.runs (Server.step 1) .new wholeLife).getD .new

theorem admission_accounting_outlived : Reachable 1 outlived ∧
    (∃ w, outlived.workers[0]? = some w ∧ w.handles = 1 ∧ w.permit ∉ outlived.held .connections) ∧
    (outlived.pool .connections).count = 0 ∧ (outlived.held .connections).card = 0 := by
  have h : Reachable 1 outlived := ⟨wholeLife, rfl⟩
  obtain ⟨hcount, hworker⟩ := admission_accounting h
  have hw : outlived.workers[0]? = some ⟨0, 0, .ended, none, none, true, 1⟩ := rfl
  have hzero : (outlived.pool .connections).count = 0 := rfl
  refine ⟨h, ⟨_, hw, rfl, (hworker 0 _ hw).2.1 rfl ?_ ?_ ?_⟩, hzero, ?_⟩
  · intro q hq
    cases hq
  · exact List.not_mem_nil
  · exact List.not_mem_nil
  · rw [← (hcount .connections).1, hzero]
    rfl

end WebSocket.Net.Admission
