import WebSocket.Native.Registry

/-!
# The registry is consistent

Every numbered object stands in one of five ways to the registry (`Entry`). For a connection the
way fits its events that are still to be flattened (`Course`): before its `Connection`, or before
`ws_connect` has inserted it, it is not registered and nothing else of it comes first; from there
to its `Close` it is. `registry_consistent` reads the consistency of the five maps off these.

`ws_unlisten` takes an id out of `owners` without looking what it stands for, so this needs that
it is not called with the id of a connection: `unlisten_connection` is what happens otherwise.
-/

namespace WebSocket.Native

open Lib.Transition

/-! ## The events of one connection -/

def Event.ordinary (e : Event) : Bool := !e.isConnection && !e.isClose

/-- What is still to come of a connection that was announced. -/
inductive Tail : Stage → List Event → Prop where
  | live {p : List Event} (ordinary : ∀ e ∈ p, e.ordinary = true) : Tail .live p
  | closed {p : List Event} {c : Event} (ordinary : ∀ e ∈ p, e.ordinary = true) (close : c.isClose = true) :
      Tail .closed (p ++ [c])

/-- How the events to come fit the registry: whether the connection is registered, and whether a
call is about to register it. -/
inductive Course : Stage → Bool → Bool → List Event → Prop where
  | unannounced : Course .unannounced false false []
  | announced {stage : Stage} {e : Event} {p : List Event} (first : e.isConnection = true) (tail : Tail stage p) :
      Course stage false false (e :: p)
  | coming {stage : Stage} {p : List Event} (tail : Tail stage p) : Course stage false true p
  | registered {stage : Stage} {p : List Event} (tail : Tail stage p) : Course stage true false p
  | gone : Course .closed false false []

section Course

variable {stage stage' : Stage} {e : Event} {p : List Event} {registered coming : Bool}

theorem Tail.emit (h : Tail stage p) (after : stage.after e = some stage') : Tail stage' (p ++ [e]) := by
  cases h with
  | live ordinary =>
    rw [Stage.after] at after
    split at after
    · cases after
    · rename_i hconnection
      split at after
      · rename_i hclose
        cases after
        exact .closed ordinary hclose
      · rename_i hclose
        cases after
        refine .live (List.forall_mem_append.mpr ⟨ordinary, List.forall_mem_singleton.mpr ?_⟩)
        simp [Event.ordinary, hconnection, hclose]
  | closed => cases after

theorem Course.emit (h : Course stage registered coming p) (after : stage.after e = some stage') :
    Course stage' registered coming (p ++ [e]) := by
  cases h with
  | unannounced =>
    rw [Stage.after] at after
    split at after
    · rename_i hfirst
      cases after
      exact .announced hfirst (.live (by simp))
    · cases after
  | announced first tail => exact .announced first (tail.emit after)
  | coming tail => exact .coming (tail.emit after)
  | registered tail => exact .registered (tail.emit after)
  | gone => cases after

/-- The first event to come registers the connection. -/
theorem Course.announce (h : Course stage false false (e :: p)) : e.isConnection = true ∧ Course stage true false p := by
  cases h with
  | announced first tail => exact ⟨first, .registered tail⟩

/-- The next event of a registered connection: its last, or one that keeps it registered. -/
theorem Course.next (h : Course stage true coming (e :: p)) :
    e.isConnection = false ∧ (e.isClose = true → Course stage false coming p) ∧
      (e.isClose = false → Course stage true coming p) := by
  cases h with
  | registered tail =>
    generalize hq : e :: p = q at tail
    cases tail with
    | live ordinary =>
      subst hq
      rw [List.forall_mem_cons] at ordinary
      have he := ordinary.1
      simp only [Event.ordinary, Bool.and_eq_true, Bool.not_eq_true'] at he
      exact ⟨he.1, fun hc => absurd hc (by simp [he.2]), fun _ => .registered (.live ordinary.2)⟩
    | @closed q c ordinary close =>
      cases q with
      | nil =>
        cases hq
        refine ⟨?_, fun _ => .gone, fun hc => absurd close (by simp [hc])⟩
        cases e <;> first | rfl | cases close
      | cons a q =>
        cases hq
        rw [List.forall_mem_cons] at ordinary
        have he := ordinary.1
        simp only [Event.ordinary, Bool.and_eq_true, Bool.not_eq_true'] at he
        exact ⟨he.1, fun hc => absurd hc (by simp [he.2]), fun _ => .registered (.closed ordinary.2 close)⟩

end Course

/-! ## The entries -/

namespace Sys

/-- The events of a hub that are still to be flattened. -/
def pending (s : Sys) (h : Id) : List Event := (s.calls h).event ++ s.queues h

/-- Those about one connection. -/
def mine (s : Sys) (h id : Id) : List Event := (s.pending h).filter fun e => e.about = some id

end Sys

/-- How an id stands in the registry. -/
inductive Entry (s : Sys) (id : Id) : Prop where
  | unused (object : s.objects id = none) (conn : s.reg.conns id = none) (server : s.reg.servers id = none)
      (owner : s.reg.owners id = none)
  | listening {h : Id} (object : s.objects id = some (.server h)) (conn : s.reg.conns id = none)
      (server : s.reg.servers id = some ⟨id⟩) (owner : s.reg.owners id = some h) (hub : s.reg.hubs h = true)
  | unlistened {h : Id} (object : s.objects id = some (.server h)) (conn : s.reg.conns id = none)
      (server : s.reg.servers id = none) (owner : s.reg.owners id = none)
  | linked {h : Id} {stage : Stage} (object : s.objects id = some (.link h stage)) (conn : s.reg.conns id = some ⟨id⟩)
      (server : s.reg.servers id = none) (owner : s.reg.owners id = some h) (hub : s.reg.hubs h = true)
      (course : Course stage true (decide (s.calls h = .connected ⟨id⟩)) (s.mine h id))
  | unlinked {h : Id} {stage : Stage} (object : s.objects id = some (.link h stage)) (conn : s.reg.conns id = none)
      (server : s.reg.servers id = none) (owner : s.reg.owners id = none)
      (course : s.reg.hubs h = true → Course stage false (decide (s.calls h = .connected ⟨id⟩)) (s.mine h id))

structure Ok (s : Sys) : Prop where
  hubs : ∀ h, s.reg.hubs h = true → h ≤ s.reg.next
  made : ∀ id o, s.objects id = some o → o.hub ≤ s.reg.next
  replies : ∀ t h x, s.reg.replies t = some (h, x) → s.reg.hubs h = true ∧ t ≤ s.reg.next
  calls : ∀ h, s.calls h ≠ .idle → s.reg.hubs h = true
  connected : ∀ h c, s.calls h = .connected c → ∃ stage, s.objects c.id = some (.link h stage)
  listened : ∀ h v, s.calls h = .listened v → s.objects v.id = some (.server h)
  fresh : ∀ id, s.nextId ≤ id → s.objects id = none
  pending : ∀ h e id, e ∈ s.pending h → e.about = some id → ∃ stage, s.objects id = some (.link h stage)
  entry : ∀ id, Entry s id

section Steps

variable {s s' : Sys} {h id : Id} {c : Call} {e : Event}

/-- An entry looks at its object, its four places in the maps, and at the calls and events of the
object's hub. -/
theorem Entry.frame (he : Entry s id) (object : s'.objects id = s.objects id)
    (conn : s'.reg.conns id = s.reg.conns id) (server : s'.reg.servers id = s.reg.servers id)
    (owner : s'.reg.owners id = s.reg.owners id)
    (hub : ∀ o, s.objects id = some o → s'.reg.hubs o.hub = s.reg.hubs o.hub)
    (course : ∀ g stage, s.objects id = some (.link g stage) →
      (s'.calls g = .connected ⟨id⟩ ↔ s.calls g = .connected ⟨id⟩) ∧ s'.mine g id = s.mine g id) : Entry s' id := by
  cases he with
  | unused o c v w => exact .unused (object.trans o) (conn.trans c) (server.trans v) (owner.trans w)
  | listening o c v w live =>
    exact .listening (object.trans o) (conn.trans c) (server.trans v) (owner.trans w) ((hub _ o).trans live)
  | unlistened o c v w => exact .unlistened (object.trans o) (conn.trans c) (server.trans v) (owner.trans w)
  | linked o c v w live hc =>
    obtain ⟨hcall, hmine⟩ := course _ _ o
    refine .linked (object.trans o) (conn.trans c) (server.trans v) (owner.trans w) ((hub _ o).trans live) ?_
    rw [hmine, decide_eq_decide.mpr hcall]
    exact hc
  | unlinked o c v w hc =>
    obtain ⟨hcall, hmine⟩ := course _ _ o
    refine .unlinked (object.trans o) (conn.trans c) (server.trans v) (owner.trans w) fun live => ?_
    rw [hmine, decide_eq_decide.mpr hcall]
    exact hc ((hub _ o).symm.trans live)

/-- Between calls, or in the middle of one that holds nothing yet. -/
def Call.plain : Call → Bool
  | idle | waiting | connecting | listening => true
  | _ => false

theorem Call.event_of_plain (h : c.plain = true) : c.event = [] := by
  cases c <;> first | rfl | cases h

theorem Call.ne_connected (h : c.plain = true) (conn : Conn) : c ≠ .connected conn := by
  rintro rfl
  cases h

theorem Call.ne_listened (h : c.plain = true) (server : Server) : c ≠ .listened server := by
  rintro rfl
  cases h

theorem pending_call (hc : c.event = (s.calls h).event) (g : Id) : (s.call h c).pending g = s.pending g := by
  by_cases hg : g = h
  · subst hg
    simp [Sys.pending, Sys.call, hc]
  · simp [Sys.pending, Sys.call, hg]

theorem connected_call (old : ∀ conn, s.calls h ≠ .connected conn) (new : ∀ conn, c ≠ .connected conn) (g : Id)
    (conn : Conn) : (s.call h c).calls g = .connected conn ↔ s.calls g = .connected conn := by
  by_cases hg : g = h
  · subst hg
    simp [old conn, new conn]
  · simp [hg]

/-- A step that makes no object and no hub keeps everything but the entries, and those are asked for. -/
theorem Ok.moves (ok : Ok s) (objects : s'.objects = s.objects) (nextId : s.nextId ≤ s'.nextId)
    (hubs : s'.reg.hubs = s.reg.hubs) (next : s.reg.next ≤ s'.reg.next)
    (replies : ∀ t g x, s'.reg.replies t = some (g, x) → s.reg.hubs g = true ∧ t ≤ s'.reg.next)
    (calls : ∀ g, s'.calls g ≠ .idle → s.reg.hubs g = true)
    (connected : ∀ g conn, s'.calls g = .connected conn → s.calls g = .connected conn)
    (listened : ∀ g v, s'.calls g = .listened v → s.calls g = .listened v)
    (pending : ∀ g e, e ∈ s'.pending g → e ∈ s.pending g) (entry : ∀ id, Entry s' id) : Ok s' where
  hubs g hg := Nat.le_trans (ok.hubs g (by rw [← hubs]; exact hg)) next
  made id o ho := Nat.le_trans (ok.made id o (by rw [← objects]; exact ho)) next
  replies t g x hx := by
    rw [hubs]
    exact replies t g x hx
  calls g hg := by
    rw [hubs]
    exact calls g hg
  connected g conn hg := by
    rw [objects]
    exact ok.connected g conn (connected g conn hg)
  listened g v hg := by
    rw [objects]
    exact ok.listened g v (listened g v hg)
  fresh id hid := by
    rw [objects]
    exact ok.fresh id (Nat.le_trans nextId hid)
  pending g e id he ha := by
    rw [objects]
    exact ok.pending g e id (pending g e he) ha
  entry := entry

/-- A section that only moves a call on, with `next_id` drawn in vain or not. -/
theorem Ok.turn (ok : Ok s) (old : (s.calls h).plain = true) (new : c.plain = true)
    (live : c ≠ .idle → s.reg.hubs h = true) (called : Bool) : Ok ((s.skip called).call h c) := by
  have hevent : c.event = ((s.skip called).calls h).event := by
    rw [Call.event_of_plain new]
    exact (Call.event_of_plain old).symm
  have hconn := connected_call (s := s.skip called) (Call.ne_connected old) (Call.ne_connected new)
  have hpend : ∀ g, ((s.skip called).call h c).pending g = s.pending g := pending_call hevent
  refine ok.moves rfl (Nat.le_add_right _ _) rfl (Nat.le_refl _) ok.replies (fun g hg => ?_)
    (fun g conn => (hconn g conn).mp) (fun g v hg => ?_) (fun g e he => by rwa [hpend] at he) fun id => ?_
  · by_cases he : g = h
    · subst he
      refine live fun hi => hg ?_
      simpa using hi
    · exact ok.calls g (by simpa [he] using hg)
  · by_cases he : g = h
    · subst he
      exact absurd (by simpa using hg) (Call.ne_listened new v)
    · simpa [he] using hg
  · refine (ok.entry id).frame rfl rfl rfl rfl (fun _ _ => rfl) fun g stage _ => ⟨hconn g ⟨id⟩, ?_⟩
    rw [Sys.mine, hpend]
    rfl

theorem Ok.begin (ok : Ok s) (new : c.plain = true) (hs : s.begin h c = some s') : Ok s' := by
  rw [Sys.begin] at hs
  split at hs
  · rename_i hidle
    cases hs
    split
    · rename_i hlive
      exact ok.turn (by rw [hidle]; rfl) new (fun _ => hlive) false
    · exact ok
  · cases hs

theorem Ok.recv (ok : Ok s) {rest : List Event} (hc : s.calls h = .waiting) (hq : s.queues h = e :: rest) :
    Ok { s.call h (.waited e) with queues := Function.update s.queues h rest } := by
  have hpend : ∀ g, Sys.pending { s.call h (.waited e) with queues := Function.update s.queues h rest } g
      = s.pending g := by
    intro g
    by_cases hg : g = h
    · subst hg
      simp [Sys.pending, hc, hq, Call.event]
    · simp [Sys.pending, hg]
  have hconn := connected_call (s := s) (h := h) (c := .waited e) (by simp [hc]) (by simp)
  refine ok.moves rfl (Nat.le_refl _) rfl (Nat.le_refl _) ok.replies (fun g hg => ?_)
    (fun g conn => (hconn g conn).mp) (fun g v hg => ?_) (fun g e he => by rwa [hpend] at he) fun id => ?_
  · by_cases hh : g = h
    · subst hh
      exact ok.calls g (by simp [hc])
    · exact ok.calls g (by simpa [hh] using hg)
  · by_cases hh : g = h
    · subst hh
      simp at hg
    · simpa [hh] using hg
  · refine (ok.entry id).frame rfl rfl rfl rfl (fun _ _ => rfl) fun g stage _ => ⟨hconn g ⟨id⟩, ?_⟩
    rw [Sys.mine, hpend]
    rfl

/-! ### The end of a call -/

/-- The section that ends a call, from what it does to the registry. Entries of other objects
are kept where the registry is; of the call's own object, if it had one, is asked. -/
theorem Ok.ends (ok : Ok s) {reg : Registry} (own : Option Id)
    (hubs : reg.hubs = s.reg.hubs) (next : s.reg.next ≤ reg.next)
    (replies : ∀ t g x, reg.replies t = some (g, x) → s.reg.hubs g = true ∧ t ≤ reg.next)
    (kept : ∀ id, own ≠ some id → reg.conns id = s.reg.conns id ∧ reg.servers id = s.reg.servers id ∧
      reg.owners id = s.reg.owners id)
    (about : ∀ e ∈ (s.calls h).event, e.about = own)
    (object : ∀ conn, s.calls h = .connected conn → own = some conn.id)
    (entry : ∀ id, own = some id → Entry { s.call h .idle with reg := reg } id) :
    Ok { s.call h .idle with reg := reg } := by
  have hpend : ∀ g, s.pending g = (if g = h then (s.calls h).event else []) ++
      Sys.pending { s.call h .idle with reg := reg } g := by
    intro g
    by_cases hg : g = h
    · subst hg
      simp [Sys.pending, Call.event]
    · simp [Sys.pending, hg]
  refine ok.moves rfl (Nat.le_refl _) hubs next replies (fun g hg => ?_) (fun g conn hg => ?_) (fun g v hg => ?_)
    (fun g e he => ?_) fun id => ?_
  · by_cases hh : g = h
    · subst hh
      simp at hg
    · exact ok.calls g (by simpa [hh] using hg)
  · by_cases hh : g = h
    · subst hh
      simp at hg
    · simpa [hh] using hg
  · by_cases hh : g = h
    · subst hh
      simp at hg
    · simpa [hh] using hg
  · rw [hpend]
    exact List.mem_append_right _ he
  · by_cases hid : own = some id
    · exact entry id hid
    · obtain ⟨hc, hv, ho⟩ := kept id hid
      refine (ok.entry id).frame rfl hc hv ho (fun _ _ => by rw [hubs]) fun g stage _ => ⟨?_, ?_⟩
      · by_cases hh : g = h
        · subst hh
          refine ⟨fun hcall => by simp at hcall, fun hcall => absurd (object _ hcall) hid⟩
        · simp [hh]
      · rw [Sys.mine, Sys.mine, hpend g, List.filter_append]
        have hnone : (if g = h then (s.calls h).event else []).filter (fun e => decide (e.about = some id)) = [] := by
          refine List.filter_eq_nil_iff.mpr fun e he => ?_
          split at he
          · rw [about e he]
            simpa using hid
          · cases he
        rw [hnone, List.nil_append]

/-- What is still to come of a connection once the received event is flattened. -/
def Sys.rest (s : Sys) (h id : Id) : List Event := (s.queues h).filter fun e => e.about = some id

/-- The connection of a received event is registered, unless the event is the one to register it. -/
theorem Ok.front (ok : Ok s) (hc : s.calls h = .waited e) (ha : e.about = some id) :
    ∃ stage, s.objects id = some (.link h stage) ∧ s.reg.servers id = none ∧
      (s.reg.conns id = some ⟨id⟩ ∧ s.reg.owners id = some h ∧ e.isConnection = false ∧
          (e.isClose = true → Course stage false false (s.rest h id)) ∧
          (e.isClose = false → Course stage true false (s.rest h id)) ∨
        s.reg.conns id = none ∧ s.reg.owners id = none ∧ e.isConnection = true ∧
          Course stage true false (s.rest h id)) := by
  obtain ⟨stage, hobject⟩ := ok.pending h e id (by simp [Sys.pending, hc, Call.event]) ha
  have hcoming : decide (s.calls h = .connected ⟨id⟩) = false := by simp [hc]
  have hmine : s.mine h id = e :: s.rest h id := by simp [Sys.mine, Sys.pending, Sys.rest, hc, Call.event, ha]
  refine ⟨stage, hobject, ?_⟩
  cases ok.entry id with
  | unused o => exact absurd (o.symm.trans hobject) (by simp)
  | listening o => exact absurd (o.symm.trans hobject) (by simp)
  | unlistened o => exact absurd (o.symm.trans hobject) (by simp)
  | linked o c v w live course =>
    cases o.symm.trans hobject
    rw [hcoming, hmine] at course
    exact ⟨v, .inl ⟨c, w, course.next⟩⟩
  | unlinked o c v w course =>
    cases o.symm.trans hobject
    have course := course (ok.calls h (by simp [hc]))
    rw [hcoming, hmine] at course
    exact ⟨v, .inr ⟨c, w, course.announce⟩⟩

theorem mine_idle (reg : Registry) : Sys.mine { s.call h .idle with reg := reg } h id = s.rest h id := by
  simp [Sys.mine, Sys.pending, Sys.rest, Call.event]

theorem Ok.flatten (ok : Ok s) (hc : s.calls h = .waited e) :
    Ok { s.call h .idle with reg := (s.reg.flatten h e).1 } := by
  have hlive : s.reg.hubs h = true := ok.calls h (by simp [hc])
  -- an event that leaves the registry alone finds its connection registered and leaves it so
  have quiet {id : Id} (ha : e.about = some id) (hreg : (s.reg.flatten h e).1 = s.reg) (hn : e.isConnection = false)
      (hl : e.isClose = false) : Ok { s.call h .idle with reg := (s.reg.flatten h e).1 } := by
    rw [hreg]
    refine ok.ends (some id) rfl (Nat.le_refl _) ok.replies (fun _ _ => ⟨rfl, rfl, rfl⟩) (by simp [hc, Call.event, ha])
      (by simp [hc]) fun i hi => ?_
    cases hi
    obtain ⟨stage, ho, hv, ⟨hcn, hw, -, -, course⟩ | ⟨-, -, hf, -⟩⟩ := ok.front hc ha
    · refine .linked (h := h) ho hcn hv hw hlive ?_
      rw [mine_idle]
      simpa using course hl
    · exact absurd hf (by simp [hn])
  cases e with
  | request server req reply =>
    refine ok.ends none rfl (Nat.le_succ _) (fun t g x ht => ?_) (fun _ _ => ⟨rfl, rfl, rfl⟩)
      (by simp [hc, Call.event, Event.about]) (by simp [hc]) (by simp)
    by_cases he : t = s.reg.next + 1
    · subst he
      simp only [Registry.flatten, Registry.token, Function.update_self] at ht
      cases ht
      exact ⟨hlive, Nat.le_refl _⟩
    · simp only [Registry.flatten, Registry.token, Function.update_of_ne he] at ht
      exact ⟨(ok.replies t g x ht).1, Nat.le_succ_of_le (ok.replies t g x ht).2⟩
  | connection server conn req =>
    refine ok.ends (some conn.id) rfl (Nat.le_refl _) ok.replies (fun id hid => ?_)
      (by simp [hc, Call.event, Event.about]) (by simp [hc]) fun i hi => ?_
    · have hne : id ≠ conn.id := fun he => hid (by rw [he])
      simp [Registry.flatten, Registry.insertConn, hne]
    · cases hi
      obtain ⟨stage, ho, hv, ⟨-, -, hf, -⟩ | ⟨hcn, hw, -, course⟩⟩ := ok.front hc (rfl : _ = some conn.id)
      · cases hf
      · refine .linked (h := h) ho (by simp [Registry.flatten, Registry.insertConn]) hv
          (by simp [Registry.flatten, Registry.insertConn]) hlive ?_
        rw [mine_idle]
        simpa using course
  | close id code reason =>
    refine ok.ends (some id) rfl (Nat.le_refl _) ok.replies (fun i hid => ?_)
      (by simp [hc, Call.event, Event.about]) (by simp [hc]) fun i hi => ?_
    · have hne : i ≠ id := fun he => hid (by rw [he])
      simp [Registry.flatten, hne]
    · cases hi
      obtain ⟨stage, ho, hv, ⟨hcn, hw, -, course, -⟩ | ⟨-, -, hf, -⟩⟩ := ok.front hc (rfl : _ = some id)
      · refine .unlinked (h := h) ho (by simp [Registry.flatten]) hv (by simp [Registry.flatten]) fun _ => ?_
        rw [mine_idle]
        simpa using course rfl
      · cases hf
  | _ => exact quiet rfl rfl rfl rfl

theorem Ok.insertConn (ok : Ok s) {conn : Conn} (hc : s.calls h = .connected conn) :
    Ok { s.call h .idle with reg := s.reg.insertConn h conn } := by
  have hlive : s.reg.hubs h = true := ok.calls h (by simp [hc])
  refine ok.ends (some conn.id) rfl (Nat.le_refl _) ok.replies (fun id hid => ?_) (by simp [hc, Call.event])
    (by simp [hc]) fun i hi => ?_
  · have hne : id ≠ conn.id := fun he => hid (by rw [he])
    simp [Registry.insertConn, hne]
  · cases hi
    have hmine : s.mine h conn.id = s.rest h conn.id := by simp [Sys.mine, Sys.pending, Sys.rest, hc, Call.event]
    have hcoming : decide (s.calls h = .connected ⟨conn.id⟩) = true := by simp [hc]
    obtain ⟨stage, hobject⟩ := ok.connected h conn hc
    cases ok.entry conn.id with
    | unused o => exact absurd (o.symm.trans hobject) (by simp)
    | listening o => exact absurd (o.symm.trans hobject) (by simp)
    | unlistened o => exact absurd (o.symm.trans hobject) (by simp)
    | linked o c v w live course =>
      cases o.symm.trans hobject
      rw [hcoming] at course
      cases course
    | unlinked o c v w course =>
      cases o.symm.trans hobject
      have course := course hlive
      rw [hcoming, hmine] at course
      cases course with
      | coming tail =>
        refine .linked (h := h) hobject (by simp [Registry.insertConn]) v (by simp [Registry.insertConn]) hlive ?_
        rw [mine_idle]
        simpa using Course.registered tail

theorem Ok.insertServer (ok : Ok s) {server : Server} (hc : s.calls h = .listened server) :
    Ok { s.call h .idle with reg := s.reg.insertServer h server } := by
  have hlive : s.reg.hubs h = true := ok.calls h (by simp [hc])
  refine ok.ends (some server.id) rfl (Nat.le_refl _) ok.replies (fun id hid => ?_) (by simp [hc, Call.event])
    (by simp [hc]) fun i hi => ?_
  · have hne : id ≠ server.id := fun he => hid (by rw [he])
    simp [Registry.insertServer, hne]
  · cases hi
    have hobject := ok.listened h server hc
    have insert (hconn : s.reg.conns server.id = none) :
        Entry { s.call h .idle with reg := s.reg.insertServer h server } server.id :=
      .listening (h := h) hobject hconn (by simp [Registry.insertServer]) (by simp [Registry.insertServer]) hlive
    cases ok.entry server.id with
    | unused o => exact absurd (o.symm.trans hobject) (by simp)
    | listening o c => exact insert c
    | unlistened o c => exact insert c
    | linked o => exact absurd (o.symm.trans hobject) (by simp)
    | unlinked o => exact absurd (o.symm.trans hobject) (by simp)

/-! ### Calls of one section -/

theorem Ok.unlisten (ok : Ok s) (hconn : s.reg.conns id = none) : Ok { s with reg := s.reg.wsUnlisten id } := by
  refine ok.moves rfl (Nat.le_refl _) rfl (Nat.le_refl _) ok.replies ok.calls (fun _ _ hc => hc) (fun _ _ hc => hc)
    (fun _ _ he => he) fun i => ?_
  by_cases hi : i = id
  · subst hi
    have howner : (s.reg.wsUnlisten i).owners i = none := by simp [Registry.wsUnlisten]
    have hserver : (s.reg.wsUnlisten i).servers i = none := by simp [Registry.wsUnlisten]
    cases ok.entry i with
    | unused o c => exact .unused o c hserver howner
    | listening o c => exact .unlistened o c hserver howner
    | unlistened o c => exact .unlistened o c hserver howner
    | linked o c => exact absurd (hconn.symm.trans c) (by simp)
    | unlinked o c v w course => exact .unlinked o c hserver howner course
  · exact (ok.entry i).frame rfl rfl (by simp [Registry.wsUnlisten, hi]) (by simp [Registry.wsUnlisten, hi])
      (fun _ _ => rfl) fun _ _ _ => ⟨Iff.rfl, rfl⟩

theorem Ok.reply (ok : Ok s) (t : Id) : Ok { s with reg := (s.reg.takeReply t).1 } := by
  refine ok.moves rfl (Nat.le_refl _) rfl (Nat.le_refl _) (fun t' g x ht => ?_) ok.calls (fun _ _ hc => hc)
    (fun _ _ hc => hc) (fun _ _ he => he) fun i => ?_
  · by_cases he : t' = t
    · subst he
      simp [Registry.takeReply] at ht
    · exact ok.replies t' g x (by simpa [Registry.takeReply, he] using ht)
  · exact (ok.entry i).frame rfl rfl rfl rfl (fun _ _ => rfl) fun _ _ _ => ⟨Iff.rfl, rfl⟩

theorem Ok.hub (ok : Ok s) : Ok { s with reg := s.reg.wsHub.1 } := by
  have hhubs (g : Id) (hg : s.reg.hubs g = true) : s.reg.wsHub.1.hubs g = true := by
    by_cases he : g = s.reg.next + 1
    · subst he
      simp [Registry.wsHub, Registry.token]
    · simpa [Registry.wsHub, Registry.token, he] using hg
  refine ⟨fun g hg => ?_, fun id o ho => Nat.le_succ_of_le (ok.made id o ho), fun t g x ht => ?_,
    fun g hg => hhubs g (ok.calls g hg), ok.connected, ok.listened, ok.fresh, ok.pending, fun id => ?_⟩
  · by_cases he : g = s.reg.next + 1
    · exact Nat.le_of_eq he
    · refine Nat.le_succ_of_le (ok.hubs g ?_)
      simpa [Registry.wsHub, Registry.token, he] using hg
  · exact ⟨hhubs g (ok.replies t g x ht).1, Nat.le_succ_of_le (ok.replies t g x ht).2⟩
  · refine (ok.entry id).frame rfl rfl rfl rfl (fun o ho => ?_) fun _ _ _ => ⟨Iff.rfl, rfl⟩
    have hne : o.hub ≠ s.reg.next + 1 := Nat.ne_of_lt (Nat.lt_succ_of_le (ok.made id o ho))
    simp [Registry.wsHub, Registry.token, hne]

theorem Ok.shutdown (ok : Ok s) (hc : s.calls h = .idle) : Ok { s with reg := s.reg.wsShutdown h } := by
  have hhubs (g : Id) (hg : g ≠ h) : (s.reg.wsShutdown h).hubs g = s.reg.hubs g := by
    simp [Registry.wsShutdown, hg]
  have hown {i : Id} (howner : s.reg.owners i = some h) : (s.reg.wsShutdown h).owners i = none ∧
      (s.reg.wsShutdown h).conns i = none ∧ (s.reg.wsShutdown h).servers i = none := by
    simp [Registry.wsShutdown, howner]
  have hother {i : Id} (howner : s.reg.owners i ≠ some h) : (s.reg.wsShutdown h).owners i = s.reg.owners i ∧
      (s.reg.wsShutdown h).conns i = s.reg.conns i ∧ (s.reg.wsShutdown h).servers i = s.reg.servers i := by
    simp [Registry.wsShutdown, howner]
  have hdead : (s.reg.wsShutdown h).hubs h = false := by simp [Registry.wsShutdown]
  refine ⟨fun g hg => ?_, ok.made, fun t g x ht => ?_, fun g hg => ?_, ok.connected, ok.listened, ok.fresh,
    ok.pending, fun i => ?_⟩
  · by_cases he : g = h
    · subst he
      exact absurd (hdead.symm.trans hg) (by simp)
    · rw [hhubs g he] at hg
      exact ok.hubs g hg
  · obtain ⟨hr, hne⟩ := Option.filter_eq_some_iff.mp ht
    have hne : g ≠ h := by simpa using hne
    rw [hhubs g hne]
    exact ok.replies t g x hr
  · have hne : g ≠ h := by
      rintro rfl
      exact hg hc
    rw [hhubs g hne]
    exact ok.calls g hg
  · cases ok.entry i with
    | unused o c v w =>
      obtain ⟨hw, hn, hv⟩ := hother (i := i) (by simp [w])
      exact .unused o (hn.trans c) (hv.trans v) (hw.trans w)
    | @listening g o c v w live =>
      by_cases hg : g = h
      · subst hg
        obtain ⟨hw, hn, hv⟩ := hown w
        exact .unlistened o hn hv hw
      · obtain ⟨hw, hn, hv⟩ := hother (i := i) (by simpa [w] using hg)
        exact .listening o (hn.trans c) (hv.trans v) (hw.trans w) ((hhubs g hg).trans live)
    | unlistened o c v w =>
      obtain ⟨hw, hn, hv⟩ := hother (i := i) (by simp [w])
      exact .unlistened o (hn.trans c) (hv.trans v) (hw.trans w)
    | @linked g stage o c v w live course =>
      by_cases hg : g = h
      · subst hg
        obtain ⟨hw, hn, hv⟩ := hown w
        exact .unlinked o hn hv hw fun hl => absurd (hdead.symm.trans hl) (by simp)
      · obtain ⟨hw, hn, hv⟩ := hother (i := i) (by simpa [w] using hg)
        exact .linked o (hn.trans c) (hv.trans v) (hw.trans w) ((hhubs g hg).trans live) course
    | @unlinked g stage o c v w course =>
      obtain ⟨hw, hn, hv⟩ := hother (i := i) (by simp [w])
      refine .unlinked o (hn.trans c) (hv.trans v) (hw.trans w) fun hl => course ?_
      by_cases hg : g = h
      · subst hg
        exact absurd (hdead.symm.trans hl) (by simp)
      · exact (hhubs g hg).symm.trans hl

/-! ### New objects and events -/

/-- A new object, with the call that made it moved on or not. -/
theorem Ok.number (ok : Ok s) {o : Object} (hub : o.hub ≤ s.reg.next)
    (live : c ≠ .idle → s.reg.hubs h = true) (event : c.event = (s.calls h).event)
    (old : ∀ conn, s.calls h = .connected conn → c = .connected conn)
    (connected : ∀ conn, c = .connected conn → s.calls h = .connected conn ∨ conn.id = s.nextId ∧ o = .link h .live)
    (listened : ∀ v, c = .listened v → s.calls h = .listened v ∨ v.id = s.nextId ∧ o = .server h)
    (entry : ∀ g stage, o = .link g stage →
      Course stage false (decide ((Function.update s.calls h c) g = .connected ⟨s.nextId⟩)) []) :
    Ok ((s.number o).call h c) := by
  have hpend : ∀ g, ((s.number o).call h c).pending g = s.pending g := pending_call (s := s.number o) event
  have hnew : s.objects s.nextId = none := ok.fresh _ (Nat.le_refl _)
  have hkept {i : Id} (hi : i ≠ s.nextId) : ((s.number o).call h c).objects i = s.objects i :=
    Function.update_of_ne hi _ _
  have hmade {i : Id} {o' : Object} (hi : s.objects i = some o') : ((s.number o).call h c).objects i = some o' := by
    rw [hkept]
    · exact hi
    · rintro rfl
      exact absurd (hnew.symm.trans hi) (by simp)
  have hself : ((s.number o).call h c).objects s.nextId = some o := Function.update_self _ _ _
  refine ⟨ok.hubs, fun i o' hi => ?_, ok.replies, fun g hg => ?_, fun g conn hg => ?_, fun g v hg => ?_,
    fun i hi => ?_, fun g e i he ha => ?_, fun i => ?_⟩
  · by_cases he : i = s.nextId
    · subst he
      cases hself.symm.trans hi
      exact hub
    · exact ok.made i o' ((hkept he).symm.trans hi)
  · by_cases hh : g = h
    · subst hh
      exact live (by simpa using hg)
    · exact ok.calls g (by simpa [hh] using hg)
  · have hold (hc : s.calls g = .connected conn) :
        ∃ stage, ((s.number o).call h c).objects conn.id = some (.link g stage) := by
      obtain ⟨stage, ho⟩ := ok.connected g conn hc
      exact ⟨stage, hmade ho⟩
    by_cases hh : g = h
    · subst hh
      rcases connected conn (by simpa using hg) with hc | ⟨hi, ho⟩
      · exact hold hc
      · exact ⟨.live, by rw [hi, hself, ho]⟩
    · exact hold (by simpa [hh] using hg)
  · by_cases hh : g = h
    · subst hh
      rcases listened v (by simpa using hg) with hc | ⟨hi, ho⟩
      · exact hmade (ok.listened g v hc)
      · rw [hi, hself, ho]
    · exact hmade (ok.listened g v (by simpa [hh] using hg))
  · have hlt : s.nextId < i := hi
    rw [hkept (Nat.ne_of_gt hlt)]
    exact ok.fresh i (Nat.le_of_lt hlt)
  · rw [hpend] at he
    obtain ⟨stage, ho⟩ := ok.pending g e i he ha
    exact ⟨stage, hmade ho⟩
  · by_cases hi : i = s.nextId
    · subst hi
      have hnone : ∀ g, ((s.number o).call h c).mine g s.nextId = [] := by
        intro g
        rw [Sys.mine, hpend]
        refine List.filter_eq_nil_iff.mpr fun e he ha => ?_
        obtain ⟨stage, ho⟩ := ok.pending g e s.nextId he (by simpa using ha)
        exact absurd (hnew.symm.trans ho) (by simp)
      cases ok.entry s.nextId with
      | unused _ cn v w =>
        cases o with
        | server g => exact .unlistened hself cn v w
        | link g stage =>
          refine .unlinked hself cn v w fun _ => ?_
          rw [hnone]
          exact entry g stage rfl
      | listening ho => exact absurd (hnew.symm.trans ho) (by simp)
      | unlistened ho => exact absurd (hnew.symm.trans ho) (by simp)
      | linked ho => exact absurd (hnew.symm.trans ho) (by simp)
      | unlinked ho => exact absurd (hnew.symm.trans ho) (by simp)
    · refine (ok.entry i).frame (hkept hi) rfl rfl rfl (fun _ _ => rfl) fun g stage _ => ⟨?_, ?_⟩
      · by_cases hh : g = h
        · subst hh
          refine ⟨fun hg => ?_, fun hg => by simpa using old _ hg⟩
          rcases connected ⟨i⟩ (by simpa using hg) with hc | ⟨hid, -⟩
          · exact hc
          · exact absurd hid hi
        · simp [hh]
      · rw [Sys.mine, hpend]
        rfl

theorem pending_push (g : Id) : (s.push h e).pending g = s.pending g ++ if g = h then [e] else [] := by
  by_cases hg : g = h
  · subst hg
    simp [Sys.pending, Sys.push]
  · simp [Sys.pending, Sys.push, hg]

theorem mine_push (g : Id) :
    (s.push h e).mine g id = s.mine g id ++ if g = h ∧ e.about = some id then [e] else [] := by
  rw [Sys.mine, pending_push, List.filter_append]
  congr 1
  by_cases hg : g = h
  · by_cases ha : e.about = some id <;> simp [hg, ha]
  · simp [hg]

theorem Ok.ask (ok : Ok s) (ha : e.about = none) : Ok (s.push h e) := by
  refine ⟨ok.hubs, ok.made, ok.replies, ok.calls, ok.connected, ok.listened, ok.fresh, fun g e' i he hi => ?_,
    fun i => ?_⟩
  · rw [pending_push] at he
    rcases List.mem_append.mp he with he | he
    · exact ok.pending g e' i he hi
    · split at he
      · cases List.mem_singleton.mp he
        exact absurd (ha.symm.trans hi) (by simp)
      · cases he
  · refine (ok.entry i).frame rfl rfl rfl rfl (fun _ _ => rfl) fun g stage _ => ⟨Iff.rfl, ?_⟩
    simp [mine_push, ha]

theorem Ok.emit (ok : Ok s) {stage stage' : Stage} (ho : s.objects id = some (.link h stage))
    (ha : e.about = some id) (after : stage.after e = some stage') :
    Ok { s.push h e with objects := Function.update s.objects id (some (.link h stage')) } := by
  have hself : Function.update s.objects id (some (.link h stage')) id = some (.link h stage') :=
    Function.update_self _ _ _
  have hkept {i : Id} (hi : i ≠ id) : Function.update s.objects id (some (.link h stage')) i = s.objects i :=
    Function.update_of_ne hi _ _
  -- the object stays a link of its hub
  have hlink {i g : Id} {st : Stage} (hi : s.objects i = some (.link g st)) :
      ∃ st, Function.update s.objects id (some (.link h stage')) i = some (.link g st) := by
    by_cases he : i = id
    · subst he
      cases ho.symm.trans hi
      exact ⟨stage', hself⟩
    · exact ⟨st, (hkept he).trans hi⟩
  have hcourse {b : Bool} (hc : Course stage b (decide (s.calls h = .connected ⟨id⟩)) (s.mine h id)) :
      Course stage' b (decide (s.calls h = .connected ⟨id⟩)) ((s.push h e).mine h id) := by
    rw [mine_push, if_pos ⟨rfl, ha⟩]
    exact hc.emit after
  refine ⟨ok.hubs, fun i o hi => ?_, ok.replies, ok.calls, fun g conn hg => ?_, fun g v hg => ?_, fun i hi => ?_,
    fun g e' i he hi => ?_, fun i => ?_⟩
  · by_cases he : i = id
    · subst he
      cases hself.symm.trans hi
      exact ok.made i (.link h stage) ho
    · exact ok.made i o ((hkept he).symm.trans hi)
  · obtain ⟨st, hst⟩ := ok.connected g conn hg
    exact hlink hst
  · have hv := ok.listened g v hg
    have hne : v.id ≠ id := by
      intro he
      rw [he] at hv
      exact absurd (ho.symm.trans hv) (by simp)
    exact (hkept hne).trans hv
  · have hne : i ≠ id := by
      rintro rfl
      exact absurd (ho.symm.trans (ok.fresh i hi)) (by simp)
    exact (hkept hne).trans (ok.fresh i hi)
  · have he : e' ∈ (s.push h e).pending g := he
    rw [pending_push] at he
    rcases List.mem_append.mp he with he | he
    · obtain ⟨st, hst⟩ := ok.pending g e' i he hi
      exact hlink hst
    · split at he
      · rename_i hg
        cases List.mem_singleton.mp he
        cases ha.symm.trans hi
        exact ⟨stage', by rw [hg]; exact hself⟩
      · cases he
  · by_cases hi : i = id
    · subst hi
      cases ok.entry i with
      | unused o => exact absurd (o.symm.trans ho) (by simp)
      | listening o => exact absurd (o.symm.trans ho) (by simp)
      | unlistened o => exact absurd (o.symm.trans ho) (by simp)
      | linked o c v w live course =>
        cases o.symm.trans ho
        exact .linked (h := h) hself c v w live (hcourse course)
      | unlinked o c v w course =>
        cases o.symm.trans ho
        exact .unlinked (h := h) hself c v w fun live => hcourse (course live)
    · refine (ok.entry i).frame (hkept hi) rfl rfl rfl (fun _ _ => rfl) fun g st _ => ⟨Iff.rfl, ?_⟩
      have hne : e.about ≠ some i := by
        rw [ha]
        simpa using Ne.symm hi
      show (s.push h e).mine g i = s.mine g i
      simp [mine_push, hne]

end Steps

/-! ## Whole runs -/

/-- Calls of `ws_unlisten` that do not name a connection. -/
def Sys.proper (s : Sys) : Label → Bool
  | .unlisten server => (s.reg.conns server).isNone
  | _ => true

def Sys.properStep (s : Sys) (lab : Label) : Option Sys := if s.proper lab then s.step lab else none

theorem Ok.init : Ok Sys.init where
  hubs := by simp [Sys.init, Registry.default]
  made := by simp [Sys.init]
  replies := by simp [Sys.init, Registry.default]
  calls := by simp [Sys.init]
  connected := by simp [Sys.init]
  listened := by simp [Sys.init]
  fresh := by simp [Sys.init]
  pending := by simp [Sys.init, Sys.pending, Call.event]
  entry id := .unused rfl rfl rfl rfl

theorem Ok.step {s s' : Sys} {lab : Label} (ok : Ok s) (proper : s.proper lab = true) (hs : s.step lab = some s') :
    Ok s' := by
  have waits {h : Id} {c : Call} (hc : s.calls h = c) (hi : c ≠ .idle) : s.reg.hubs h = true :=
    ok.calls h (by rw [hc]; exact hi)
  cases lab with
  | hub =>
    cases hs
    exact ok.hub
  | wait h => exact ok.begin rfl hs
  | connect h => exact ok.begin rfl hs
  | listen h => exact ok.begin rfl hs
  | timeout h =>
    simp only [Sys.step] at hs
    split at hs
    · rename_i hc
      cases hs
      exact ok.turn (by rw [hc]; rfl) rfl (by simp) false
    · cases hs
  | refused h called =>
    simp only [Sys.step] at hs
    split at hs
    · rename_i hc
      cases hs
      exact ok.turn (by rw [hc]; rfl) rfl (by simp) called
    · cases hs
  | failed h called =>
    simp only [Sys.step] at hs
    split at hs
    · rename_i hc
      cases hs
      exact ok.turn (by rw [hc]; rfl) rfl (by simp) called
    · cases hs
  | recv h =>
    simp only [Sys.step] at hs
    split at hs
    · rename_i hc
      split at hs
      · cases hs
      · rename_i hq
        cases hs
        exact ok.recv hc hq
    · cases hs
  | flatten h =>
    simp only [Sys.step] at hs
    split at hs
    · rename_i hc
      cases hs
      exact ok.flatten hc
    · cases hs
  | connected h =>
    simp only [Sys.step] at hs
    split at hs
    · rename_i hc
      cases hs
      have hlive := waits hc (by simp)
      refine ok.number (ok.hubs h hlive) (fun _ => hlive) (by rw [hc]; rfl) (by simp [hc])
        (by rintro conn ⟨⟩; exact .inr ⟨rfl, rfl⟩) (by simp) ?_
      rintro g stage ⟨⟩
      simpa using Course.coming (.live (by simp))
    · cases hs
  | listened h =>
    simp only [Sys.step] at hs
    split at hs
    · rename_i hc
      cases hs
      have hlive := waits hc (by simp)
      refine ok.number (ok.hubs h hlive) (fun _ => hlive) (by rw [hc]; rfl) (by simp [hc]) (by simp)
        (by rintro v ⟨⟩; exact .inr ⟨rfl, rfl⟩) (by simp)
    · cases hs
  | insertConn h =>
    simp only [Sys.step] at hs
    split at hs
    · rename_i hc
      cases hs
      exact ok.insertConn hc
    · cases hs
  | insertServer h =>
    simp only [Sys.step] at hs
    split at hs
    · rename_i hc
      cases hs
      exact ok.insertServer hc
    · cases hs
  | unlisten server =>
    cases hs
    exact ok.unlisten (by simpa [Sys.proper] using proper)
  | reply token =>
    cases hs
    exact ok.reply token
  | shutdown h =>
    simp only [Sys.step] at hs
    split at hs
    · rename_i hc
      cases hs
      exact ok.shutdown hc
    · cases hs
  | ask server req reply =>
    simp only [Sys.step] at hs
    split at hs
    · cases hs
      exact ok.ask rfl
    · cases hs
  | accepted server =>
    simp only [Sys.step] at hs
    split at hs
    · rename_i h ho
      cases hs
      have hself : s.number (.link h .unannounced) = (s.number (.link h .unannounced)).call h (s.calls h) := by
        simp [Sys.call, Sys.number]
      rw [hself]
      refine ok.number (ok.made server (.server h) ho) (ok.calls h) rfl (fun _ hc => hc) (fun _ hc => .inl hc)
        (fun _ hc => .inl hc) ?_
      rintro g stage ⟨⟩
      have hne : s.calls h ≠ .connected ⟨s.nextId⟩ := by
        intro hc
        obtain ⟨stage, hlink⟩ := ok.connected h _ hc
        exact absurd ((ok.fresh s.nextId (Nat.le_refl _)).symm.trans hlink) (by simp)
      simpa [hne] using Course.unannounced
    · cases hs
  | emit id event =>
    simp only [Sys.step] at hs
    split at hs
    · rename_i h stage ho
      split at hs
      · rename_i ha
        obtain ⟨stage', after, heq⟩ := Option.map_eq_some_iff.mp hs
        cases heq
        exact ok.emit ho ha after
      · cases hs
    · cases hs

theorem Ok.of_reachable {s : Sys} (h : Reachable Sys.properStep .init s) : Ok s := by
  refine h.invariant .init fun u lab v _ ok hv => ?_
  rw [Sys.properStep] at hv
  split at hv
  · rename_i hp
    exact ok.step hp hv
  · cases hv

/-! ## What a step touches -/

/-- The hub that a step acts for; `ws_unlisten` and `ws_reply` act for the one whose entry they name. -/
def Sys.actor (s : Sys) : Label → Option Id
  | .hub => some (s.reg.next + 1)
  | .wait h | .timeout h | .recv h | .flatten h | .connect h | .refused h _ | .connected h | .insertConn h
  | .listen h | .failed h _ | .listened h | .insertServer h | .shutdown h => some h
  | .unlisten server => s.reg.owners server
  | .reply token => (s.reg.replies token).map (·.1)
  | .ask _ _ _ | .accepted _ | .emit _ _ => none

/-- All that two registries have for a hub is the same. -/
structure Registry.Same (h : Id) (reg reg' : Registry) : Prop where
  hub : reg'.hubs h = reg.hubs h
  owners : ∀ id, reg'.owners id = some h ↔ reg.owners id = some h
  entries : ∀ id, reg.owners id = some h → reg'.conns id = reg.conns id ∧ reg'.servers id = reg.servers id
  replies : ∀ t x, reg'.replies t = some (h, x) ↔ reg.replies t = some (h, x)

theorem Registry.Same.refl {h : Id} {reg : Registry} : reg.Same h reg :=
  ⟨rfl, fun _ => Iff.rfl, fun _ _ => ⟨rfl, rfl⟩, fun _ _ => Iff.rfl⟩

section Touch

variable {s s' : Sys} {g h id : Id} {reg : Registry}

/-- A change at one id, which was not the other hub's and is not now. -/
theorem Registry.Same.of_id (id : Id) (hub : reg.hubs g = s.reg.hubs g) (replies : reg.replies = s.reg.replies)
    (kept : ∀ i, i ≠ id → reg.conns i = s.reg.conns i ∧ reg.servers i = s.reg.servers i ∧
      reg.owners i = s.reg.owners i)
    (before : s.reg.owners id ≠ some g) (after : reg.owners id ≠ some g) : s.reg.Same g reg := by
  refine ⟨hub, fun i => ?_, fun i hi => ?_, fun _ _ => by rw [replies]⟩
  · by_cases he : i = id
    · subst he
      simp [before, after]
    · rw [(kept i he).2.2]
  · have he : i ≠ id := by
      rintro rfl
      exact before hi
    exact ⟨(kept i he).1, (kept i he).2.1⟩

theorem Ok.owner (ok : Ok s) {o : Object} (ho : s.objects id = some o) (hg : s.reg.owners id = some g) : g = o.hub := by
  cases ok.entry id with
  | unused o' _ _ w => exact absurd (w.symm.trans hg) (by simp)
  | listening o' _ _ w =>
    cases o'.symm.trans ho
    exact Option.some.inj (hg.symm.trans w)
  | unlistened _ _ _ w => exact absurd (w.symm.trans hg) (by simp)
  | linked o' _ _ w =>
    cases o'.symm.trans ho
    exact Option.some.inj (hg.symm.trans w)
  | unlinked _ _ _ w => exact absurd (w.symm.trans hg) (by simp)

theorem Ok.same_flatten (ok : Ok s) {e : Event} (hc : s.calls h = .waited e) (hg : g ≠ h) :
    s.reg.Same g (s.reg.flatten h e).1 := by
  have hne : some h ≠ some g := by simpa using Ne.symm hg
  have howner {id : Id} (ha : e.about = some id) : s.reg.owners id ≠ some g := by
    obtain ⟨stage, ho⟩ := ok.pending h e id (by simp [Sys.pending, hc, Call.event]) ha
    exact fun hw => hg (ok.owner ho hw)
  cases e with
  | request server req reply =>
    refine ⟨rfl, fun _ => Iff.rfl, fun _ _ => ⟨rfl, rfl⟩, fun t x => ?_⟩
    by_cases ht : t = s.reg.next + 1
    · subst ht
      have hnone : s.reg.replies (s.reg.next + 1) ≠ some (g, x) := fun hr =>
        absurd (ok.replies _ _ _ hr).2 (Nat.not_succ_le_self _)
      simp [Registry.flatten, Registry.token, hnone, Ne.symm hg]
    · simp [Registry.flatten, Registry.token, ht]
  | connection server conn req =>
    refine .of_id conn.id rfl rfl (fun i hi => ?_) (howner rfl) ?_
    · simp [Registry.flatten, Registry.insertConn, hi]
    · simp [Registry.flatten, Registry.insertConn, Ne.symm hg]
  | close id code reason =>
    refine .of_id id rfl rfl (fun i hi => ?_) (howner rfl) ?_
    · simp [Registry.flatten, hi]
    · simp [Registry.flatten]
  | _ => exact .refl

theorem Ok.same (ok : Ok s) {lab : Label} (hs : s.step lab = some s') (hg : s.actor lab ≠ some g) :
    s.reg.Same g s'.reg := by
  have begin {h : Id} {c : Call} (hb : s.begin h c = some s') : s.reg.Same g s'.reg := by
    rw [Sys.begin] at hb
    split at hb
    · cases hb
      split <;> exact .refl
    · cases hb
  have other {h : Id} (hh : some h ≠ some g) : g ≠ h := by simpa using Ne.symm hh
  cases lab with
  | hub =>
    cases hs
    exact ⟨Function.update_of_ne (other hg) _ _, fun _ => Iff.rfl, fun _ _ => ⟨rfl, rfl⟩, fun _ _ => Iff.rfl⟩
  | wait h => exact begin hs
  | connect h => exact begin hs
  | listen h => exact begin hs
  | flatten h =>
    simp only [Sys.step] at hs
    split at hs
    · rename_i hc
      cases hs
      exact ok.same_flatten hc (other hg)
    · cases hs
  | insertConn h =>
    simp only [Sys.step] at hs
    split at hs
    · rename_i conn hc
      cases hs
      obtain ⟨stage, ho⟩ := ok.connected h conn hc
      refine .of_id conn.id rfl rfl (fun i hi => ?_) (fun hw => other hg (ok.owner ho hw)) ?_
      · simp [Registry.insertConn, hi]
      · simpa [Registry.insertConn, Sys.actor] using hg
    · cases hs
  | insertServer h =>
    simp only [Sys.step] at hs
    split at hs
    · rename_i server hc
      cases hs
      refine .of_id server.id rfl rfl (fun i hi => ?_) (fun hw => other hg (ok.owner (ok.listened h server hc) hw)) ?_
      · simp [Registry.insertServer, hi]
      · simpa [Registry.insertServer, Sys.actor] using hg
    · cases hs
  | unlisten server =>
    cases hs
    refine .of_id server rfl rfl (fun i hi => ?_) hg ?_
    · simp [Registry.wsUnlisten, hi]
    · simp [Registry.wsUnlisten]
  | reply token =>
    cases hs
    refine ⟨rfl, fun _ => Iff.rfl, fun _ _ => ⟨rfl, rfl⟩, fun t x => ?_⟩
    by_cases ht : t = token
    · subst ht
      have hnone : s.reg.replies t ≠ some (g, x) := fun hr => hg (by simp [Sys.actor, hr])
      simp [Registry.takeReply, hnone]
    · simp [Registry.takeReply, ht]
  | shutdown h =>
    simp only [Sys.step] at hs
    split at hs
    · cases hs
      have hne := other hg
      refine ⟨Function.update_of_ne hne _ _, fun i => ?_, fun i hi => ?_, fun t x => ?_⟩
      · by_cases hw : s.reg.owners i = some h
        · simp [Registry.wsShutdown, hw, Ne.symm hne]
        · simp [Registry.wsShutdown, hw]
      · simp [Registry.wsShutdown, hi, hne]
      · show (s.reg.replies t).filter _ = some (g, x) ↔ _
        rw [Option.filter_eq_some_iff]
        simp [hne]
    · cases hs
  | ask server req reply =>
    simp only [Sys.step] at hs
    split at hs
    · cases hs
      exact .refl
    · cases hs
  | accepted server =>
    simp only [Sys.step] at hs
    split at hs
    · cases hs
      exact .refl
    · cases hs
  | emit id event =>
    simp only [Sys.step] at hs
    split at hs
    · split at hs
      · obtain ⟨stage', -, heq⟩ := Option.map_eq_some_iff.mp hs
        cases heq
        exact .refl
      · cases hs
    · cases hs
  | recv h =>
    simp only [Sys.step] at hs
    split at hs
    · split at hs
      · cases hs
      · cases hs
        exact .refl
    · cases hs
  | _ =>
    simp only [Sys.step] at hs
    split at hs
    · cases hs
      exact .refl
    · cases hs

end Touch

/-! ## The registry -/

/-- The maps of a registry fit each other. -/
structure Registry.Consistent (reg : Registry) : Prop where
  owned : ∀ id, (reg.owners id).isSome = true ↔ (reg.conns id).isSome = true ∨ (reg.servers id).isSome = true
  disjoint : ∀ id, ¬ ((reg.conns id).isSome = true ∧ (reg.servers id).isSome = true)
  owners : ∀ id h, reg.owners id = some h → reg.hubs h = true
  replies : ∀ t h x, reg.replies t = some (h, x) → reg.hubs h = true

theorem Ok.consistent {s : Sys} (ok : Ok s) : s.reg.Consistent where
  owned id := by
    cases ok.entry id with
    | unused _ c v w => simp [c, v, w]
    | listening _ c v w => simp [c, v, w]
    | unlistened _ c v w => simp [c, v, w]
    | linked _ c v w => simp [c, v, w]
    | unlinked _ c v w => simp [c, v, w]
  disjoint id := by
    cases ok.entry id with
    | unused _ c => simp [c]
    | listening _ c => simp [c]
    | unlistened _ c => simp [c]
    | linked _ _ v => simp [v]
    | unlinked _ c => simp [c]
  owners id h hw := by
    cases ok.entry id with
    | unused _ _ _ w => exact absurd (w.symm.trans hw) (by simp)
    | listening _ _ _ w live =>
      cases w.symm.trans hw
      exact live
    | unlistened _ _ _ w => exact absurd (w.symm.trans hw) (by simp)
    | linked _ _ _ w live =>
      cases w.symm.trans hw
      exact live
    | unlinked _ _ _ w => exact absurd (w.symm.trans hw) (by simp)
  replies t h x hr := (ok.replies t h x hr).1

/-- Data of a connection finds the connection to credit it to. -/
theorem Ok.credited {s : Sys} (ok : Ok s) {h id : Id} {e : Event} {data : Bytes} (hc : s.calls h = .waited e)
    (he : e.inbound = some (id, data)) : (s.reg.flatten h e).2.2 = some (⟨id⟩, data.length) := by
  have front (ha : e.about = some id) (hn : e.isConnection = false) : s.reg.conns id = some ⟨id⟩ := by
    obtain ⟨stage, -, -, ⟨hconn, -⟩ | ⟨-, -, hf, -⟩⟩ := ok.front hc ha
    · exact hconn
    · exact absurd hf (by simp [hn])
  cases e with
  | message | ping | pong =>
    cases he
    simp [Registry.flatten, Registry.take, front rfl rfl]
  | _ => cases he

/-- In every run where `ws_unlisten` does not name a connection, the registry is consistent, a
step leaves the entries of all hubs alone but that of its own, a hub that was shut down is not
referred to, and data that is handed over is credited to its connection. -/
theorem registry_consistent {s : Sys} (hr : Reachable Sys.properStep .init s) :
    s.reg.Consistent ∧
      ∀ lab s', s.properStep lab = some s' →
        (∀ h, s.actor lab ≠ some h → s.reg.Same h s'.reg) ∧
        (∀ h, lab = .shutdown h → s'.reg.hubs h = false ∧ (∀ id, s'.reg.owners id ≠ some h) ∧
          ∀ t x, s'.reg.replies t ≠ some (h, x)) ∧
        ∀ h e id data, lab = .flatten h → s.calls h = .waited e → e.inbound = some (id, data) →
          (s.reg.flatten h e).2.2 = some (⟨id⟩, data.length) := by
  have ok := Ok.of_reachable hr
  refine ⟨ok.consistent, fun lab s' hs => ?_⟩
  have hstep : s.step lab = some s' := by
    rw [Sys.properStep] at hs
    split at hs
    · exact hs
    · cases hs
  refine ⟨fun h => ok.same hstep, fun h hl => ?_, fun h e id data _ hc he => ok.credited hc he⟩
  subst hl
  have hnext := (Ok.of_reachable (hr.next hs)).consistent
  have hdead : s'.reg.hubs h = false := by
    simp only [Sys.step] at hstep
    split at hstep
    · cases hstep
      exact Function.update_self _ _ _
    · cases hstep
  refine ⟨hdead, fun id hw => ?_, fun t x hx => ?_⟩
  · exact absurd (hdead.symm.trans (hnext.owners id h hw)) (by simp)
  · exact absurd (hdead.symm.trans (hnext.replies t h x hx)) (by simp)

/-- A client that received a message, which `ws_wait` is about to flatten. -/
def messageRun : List Label :=
  [.hub, .connect 1, .connected 1, .insertConn 1, .emit 1 (.opened 1), .emit 1 (.message 1 [104] false),
    .wait 1, .recv 1, .flatten 1, .wait 1, .recv 1]

theorem registry_consistent_message :
    ∃ s, runs Sys.properStep .init messageRun = some s ∧ s.reg.Consistent ∧
      (s.reg.flatten 1 (.message 1 [104] false)).2.2 = some (⟨1⟩, 1) := by
  refine ⟨_, rfl, (registry_consistent ⟨messageRun, rfl⟩).1, ?_⟩
  exact ((registry_consistent ⟨messageRun, rfl⟩).2 (.flatten 1) _ rfl).2.2 1 _ 1 [104] rfl rfl rfl

/-- `ws_unlisten` with the id of a connection: the connection has no owner any more, and outlives
the shutdown of its hub. -/
theorem unlisten_connection :
    ∃ s, runs Sys.step .init [.hub, .connect 1, .connected 1, .insertConn 1, .unlisten 1] = some s ∧
      s.reg.conns 1 = some ⟨1⟩ ∧ s.reg.owners 1 = none ∧ ¬ s.reg.Consistent ∧
      ∃ s', s.step (.shutdown 1) = some s' ∧ s'.reg.conns 1 = some ⟨1⟩ := by
  refine ⟨_, rfl, rfl, rfl, fun hc => ?_, _, rfl, rfl⟩
  exact absurd ((hc.owned 1).mpr (.inl rfl)) Bool.false_ne_true

end WebSocket.Native
