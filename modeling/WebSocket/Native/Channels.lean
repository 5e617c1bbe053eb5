import WebSocket.Native.Decision
import WebSocket.Native.Ownership

/-!
# The channels of the hubs

What a step does to the calls of a hub and to its channel, whoever takes it. Tasks send requests and events
(`arrives`), only the hub's own calls take them out, and a hub that is not made yet has none.
-/

namespace WebSocket.Native

open Lib.Transition Proto

/-- The request of a head that `serve` has read. -/
def readRequest (head : Bytes) (addr : SocketAddr) : Option Request :=
  match Handshake.request head with
  | .ok r => some ⟨r.target, r.headers, r.protocols, addr⟩
  | .error _ => none

def Event.sender : Event → Option ReplySender
  | request _ _ reply => some reply
  | _ => none

/-- An event goes to the log of its connection. -/
def Event.onto (e : Event) (log : Id → List Event) : Id → List Event :=
  match e.about with
  | some id => Function.update log id (log id ++ [e])
  | none => log

/-- The event that a task sends to a hub. -/
def Sys.arrives (s : Sys) (h : Id) : Label → Option Event
  | .ask server req reply => if s.objects server = some (.server h) then some (.request server req reply) else none
  | .emit id e => if (s.objects id).any fun o => o.hub = h then some e else none
  | _ => none

section Steps

variable {s s' : Sys} {lab : Label} {g : Id}

/-! ## What a step does -/

/-- A step of a call on a hub, of the registry alone, or of a task. -/
inductive Sys.Moved (s : Sys) : Label → Sys → Prop where
  | turn {lab : Label} {h : Id} {c : Call} {called : Bool} {reg : Registry} (actor : s.actor lab = some h)
      (quiet : ∀ g, s.arrives g lab = none ∧ lab ≠ .recv g) (next : s.reg.next ≤ reg.next) :
      s.Moved lab { (s.skip called).call h c with reg := reg }
  | reg {lab : Label} {reg : Registry} (quiet : ∀ g, s.arrives g lab = none ∧ lab ≠ .recv g)
      (next : s.reg.next ≤ reg.next) : s.Moved lab { s with reg := reg }
  | recv {h : Id} {e : Event} {rest : List Event} (waits : s.calls h = .waiting) :
      s.Moved (.recv h) { s.call h (.waited e) with queues := Function.update s.queues h rest }
  | made {lab : Label} {h : Id} {c : Call} {o : Object} (actor : s.actor lab = some h)
      (quiet : ∀ g, s.arrives g lab = none ∧ lab ≠ .recv g) : s.Moved lab ((s.number o).call h c)
  | accepted {server : Id} {o : Object} : s.Moved (.accepted server) (s.number o)
  | ask {server h : Id} {req : Request} {reply : ReplySender} (object : s.objects server = some (.server h)) :
      s.Moved (.ask server req reply) (s.push h (.request server req reply))
  | emit {id h : Id} {e : Event} {stage stage' : Stage} (object : s.objects id = some (.link h stage))
      (about : e.about = some id) (after : stage.after e = some stage') :
      s.Moved (.emit id e) { s.push h e with objects := Function.update s.objects id (some (.link h stage')) }

theorem Sys.moved (hs : s.step lab = some s') : s.Moved lab s' := by
  have begin {h : Id} {c : Call} {lab : Label} (hb : s.begin h c = some s') (actor : s.actor lab = some h)
      (quiet : ∀ g, s.arrives g lab = none ∧ lab ≠ .recv g) : s.Moved lab s' := by
    rw [Sys.begin] at hb
    split at hb
    · cases hb
      split
      · exact @Moved.turn s lab h c false s.reg actor quiet (Nat.le_refl _)
      · exact @Moved.reg s lab s.reg quiet (Nat.le_refl _)
    · cases hb
  cases lab with
  | wait h | connect h | listen h => exact begin hs rfl fun _ => ⟨rfl, by simp⟩
  | hub =>
    cases hs
    exact .reg (fun _ => ⟨rfl, by simp⟩) (Nat.le_succ _)
  | unlisten server | reply token =>
    cases hs
    exact .reg (fun _ => ⟨rfl, by simp⟩) (Nat.le_refl _)
  | recv h =>
    simp only [Sys.step] at hs
    split at hs
    · split at hs
      · cases hs
      · cases hs
        exact .recv ‹_›
    · cases hs
  | emit id e =>
    simp only [Sys.step] at hs
    split at hs
    · split at hs
      · obtain ⟨stage', after, rfl⟩ := Option.map_eq_some_iff.mp hs
        exact .emit ‹_› ‹_› after
      · cases hs
    · cases hs
  | flatten h =>
    simp only [Sys.step] at hs
    split at hs
    · rename_i e hc
      cases hs
      have next : s.reg.next ≤ (s.reg.flatten h e).1.next := by
        cases e with
        | request => exact Nat.le_succ _
        | _ => exact Nat.le_refl _
      exact @Moved.turn s _ h .idle false _ rfl (fun _ => ⟨rfl, by simp⟩) next
    · cases hs
  | _ =>
    simp only [Sys.step] at hs
    split at hs
    · cases hs
      first
        | exact @Moved.turn s _ _ _ _ s.reg rfl (fun _ => ⟨rfl, by simp⟩) (Nat.le_refl _)
        | exact @Moved.turn s _ _ _ false _ rfl (fun _ => ⟨rfl, by simp⟩) (Nat.le_refl _)
        | exact .reg (fun _ => ⟨rfl, by simp⟩) (Nat.le_refl _)
        | exact .made rfl fun _ => ⟨rfl, by simp⟩
        | exact .accepted
        | exact .ask ‹_›
    · cases hs

theorem arrives_emit {id h : Id} {e : Event} {stage : Stage} (ho : s.objects id = some (.link h stage)) :
    s.arrives g (.emit id e) = if g = h then some e else none := by
  by_cases hh : g = h
  · simp [Sys.arrives, ho, Object.hub, hh]
  · simp [Sys.arrives, ho, Object.hub, hh, Ne.symm hh]

/-- A channel is written by tasks, and read by the calls on its hub. -/
theorem queues_step (hs : s.step lab = some s') (hg : lab ≠ .recv g) :
    s'.queues g = s.queues g ++ (s.arrives g lab).toList := by
  cases Sys.moved hs with
  | turn _ quiet | reg quiet | made _ quiet => simp [(quiet g).1, Sys.skip, Sys.call, Sys.number]
  | accepted => simp [Sys.arrives]
  | @recv h =>
    have hne : g ≠ h := by
      rintro rfl
      exact hg rfl
    simp [Sys.arrives, hne]
  | @ask server h req reply ho =>
    by_cases hh : g = h
    · simp [Sys.push, Sys.arrives, ho, hh]
    · simp [Sys.push, Sys.arrives, ho, hh, Ne.symm hh]
  | @emit id h e stage stage' ho =>
    rw [arrives_emit ho]
    by_cases hh : g = h <;> simp [Sys.push, hh]

/-- A hub's calls and its channel change by its own steps, but for what tasks send. -/
theorem step_other (hs : s.step lab = some s') (hg : s.actor lab ≠ some g) :
    s'.calls g = s.calls g ∧ s'.queues g = s.queues g ++ (s.arrives g lab).toList := by
  refine ⟨?_, queues_step hs (by rintro rfl; exact hg rfl)⟩
  have other {h : Id} (actor : s.actor lab = some h) : g ≠ h := by
    rintro rfl
    exact hg actor
  cases Sys.moved hs with
  | turn actor | made actor => exact Function.update_of_ne (other actor) _ _
  | recv => exact Function.update_of_ne (other rfl) _ _
  | _ => rfl

/-- Objects are made at fresh numbers, and links move on by their events. -/
theorem Ok.objects_step (ok : Ok s) (hs : s.step lab = some s') (id : Id) :
    s'.objects id = s.objects id ∨ s.objects id = none ∨
      ∃ h stage e stage', lab = .emit id e ∧ s.objects id = some (.link h stage) ∧ e.about = some id ∧
        stage.after e = some stage' ∧ s'.objects id = some (.link h stage') := by
  have number (o : Object) : (s.number o).objects id = s.objects id ∨ s.objects id = none := by
    by_cases hid : id = s.nextId
    · exact .inr (ok.fresh id (Nat.le_of_eq hid.symm))
    · exact .inl (Function.update_of_ne hid _ _)
  cases Sys.moved hs with
  | made | accepted => exact (number _).imp_right .inl
  | @emit i h e stage stage' ho about after =>
    by_cases hid : id = i
    · subst hid
      exact .inr (.inr ⟨h, stage, e, stage', rfl, ho, about, after, Function.update_self _ _ _⟩)
    · exact .inl (Function.update_of_ne hid _ _)
  | _ => exact .inl rfl

/-- What a task sends to a hub: a request, or an event of one of the hub's connections. -/
theorem arrives_cases (hs : s.step lab = some s') :
    s.arrives g lab = none ∨ (∃ e, s.arrives g lab = some e ∧ e.about = none) ∨
      ∃ id e stage stage', s.arrives g lab = some e ∧ e.about = some id ∧ s.objects id = some (.link g stage) ∧
        stage.after e = some stage' ∧ s'.objects = Function.update s.objects id (some (.link g stage')) := by
  cases Sys.moved hs with
  | turn _ quiet | reg quiet | made _ quiet => exact .inl (quiet g).1
  | recv | accepted => exact .inl rfl
  | @ask server h req reply =>
    by_cases ho : s.objects server = some (.server g)
    · exact .inr (.inl ⟨_, if_pos ho, rfl⟩)
    · exact .inl (if_neg ho)
  | @emit id h e stage stage' ho about after =>
    rw [arrives_emit ho]
    by_cases hh : g = h
    · subst hh
      exact .inr (.inr ⟨id, e, stage, stage', if_pos rfl, about, ho, after, rfl⟩)
    · exact .inl (if_neg hh)

theorem next_step (hs : s.step lab = some s') : s.reg.next ≤ s'.reg.next := by
  cases Sys.moved hs with
  | turn _ _ next | reg _ next => exact next
  | _ => exact Nat.le_refl _

/-- Tasks send to hubs that were made. -/
theorem Ok.arrives_le (ok : Ok s) {e : Event} (h : s.arrives g lab = some e) : g ≤ s.reg.next := by
  cases lab with
  | ask server req reply =>
    simp only [Sys.arrives] at h
    split at h
    · exact ok.made server (.server g) ‹_›
    · cases h
  | emit id e =>
    simp only [Sys.arrives] at h
    split at h
    · rename_i hany
      obtain ⟨o, ho, rfl⟩ : ∃ o, s.objects id = some o ∧ o.hub = g := by simpa [Option.any_eq_true] using hany
      exact ok.made id o ho
    · cases h
  | _ => cases h

/-- The channel of a hub that is not made yet is empty. -/
theorem queues_new (h : Reachable Sys.properStep .init s) (hg : s.reg.next < g) : s.queues g = [] := by
  revert g
  apply h.invariant (I := fun u => ∀ {g}, u.reg.next < g → u.queues g = [])
  · intro g hg
    rfl
  · intro u lab v hu ih hv g hg
    have ok := Ok.of_reachable hu
    have hstep : u.step lab = some v := by
      rw [Sys.properStep] at hv
      split at hv
      · exact hv
      · cases hv
    have hlt : u.reg.next < g := Nat.lt_of_le_of_lt (next_step hstep) hg
    have hrecv : lab ≠ .recv g := by
      rintro rfl
      have hwaits : u.calls g = .waiting := by
        by_contra hne
        simp [Sys.step, hne] at hstep
      exact absurd (ok.hubs g (ok.calls g (by simp [hwaits]))) (Nat.not_le_of_lt hlt)
    have hnone : u.arrives g lab = none := by
      cases harr : u.arrives g lab with
      | none => rfl
      | some e => exact absurd (ok.arrives_le harr) (Nat.not_le_of_lt hlt)
    rw [queues_step hstep hrecv, hnone, ih hlt]
    rfl

end Steps

/-! ## Events to come -/

section Events

variable {e : Event} {id : Id}

theorem onto_self {log : Id → List Event} (ha : e.about = some id) : e.onto log id = log id ++ [e] := by
  simp [Event.onto, ha]

theorem onto_other {log : Id → List Event} {i : Id} (ha : e.about ≠ some i) : e.onto log i = log i := by
  unfold Event.onto
  cases hid : e.about with
  | none => rfl
  | some id =>
    have hne : i ≠ id := by
      rintro rfl
      exact ha hid
    exact Function.update_of_ne hne _ _

theorem onto_ne {log : Id → List Event} {i : Id} (ha : e.about = some id) (hi : i ≠ id) : e.onto log i = log i :=
  onto_other (by rw [ha]; simpa using Ne.symm hi)

theorem pending_tasks {s s' : Sys} {lab : Label} {g : Id} (hs : s.step lab = some s') (hg : s.actor lab ≠ some g) :
    s'.pending g = s.pending g ++ (s.arrives g lab).toList := by
  obtain ⟨hcalls, hqueues⟩ := step_other hs hg
  rw [Sys.pending, Sys.pending, hcalls, hqueues, List.append_assoc]

theorem mine_of_pending {s s' : Sys} {g : Id} (h : s'.pending g = s.pending g) : s'.mine g = s.mine g := by
  funext id
  rw [Sys.mine, Sys.mine, h]

theorem link_server {s : Sys} (ok : Ok s) {h id : Id} {stage : Stage} (ho : s.objects id = some (.link h stage)) :
    s.reg.servers id = none := by
  cases ok.entry id with
  | unused _ _ v => exact v
  | listening o => exact absurd (o.symm.trans ho) (by simp)
  | unlistened _ _ v => exact v
  | linked _ _ v => exact v
  | unlinked _ _ v => exact v

theorem server_conn {s : Sys} (ok : Ok s) {h id : Id} (ho : s.objects id = some (.server h)) : s.reg.conns id = none := by
  cases ok.entry id with
  | unused _ c => exact c
  | listening _ c => exact c
  | unlistened _ c => exact c
  | linked o => exact absurd (o.symm.trans ho) (by simp)
  | unlinked _ c => exact c

theorem pending_settle {s : Sys} {h : Id} (event : (s.calls h).event = []) (reg : Registry) :
    Sys.pending { s.call h .idle with reg := reg } h = s.pending h := by
  rw [Sys.pending, Sys.pending, event]
  simp [Call.event]

/-- The call of `ws_wait` has flattened its event. -/
def flattened (s : Sys) (h : Id) (e : Event) : Sys := { s.call h .idle with reg := (s.reg.flatten h e).1 }

theorem idle_flattened {s : Sys} {h : Id} : (flattened s h e).calls h = .idle := Function.update_self _ _ _

theorem pending_flattened {s : Sys} {h : Id} (hc : s.calls h = .waited e) : s.pending h = e :: (flattened s h e).pending h := by
  rw [Sys.pending, hc]
  simp [flattened, Sys.pending, Call.event]

theorem mine_flattened {s : Sys} {h : Id} (hc : s.calls h = .waited e) (i : Id) :
    s.mine h i = (if e.about = some i then [e] else []) ++ (flattened s h e).mine h i := by
  rw [Sys.mine, pending_flattened hc]
  by_cases ha : e.about = some i <;> simp [ha, Sys.mine]

end Events

end WebSocket.Native
