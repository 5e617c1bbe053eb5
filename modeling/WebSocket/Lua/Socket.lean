import WebSocket.Net.Lifecycle

/-!
# The state of a socket

`state`, `Socket.new` and the handlers of `ws/socket.lua`, the `connection` handler of `ws/server.lua`, and
`ws_state` of `native/src/conn.rs`, over the link of `Net.System`: the network threads take its steps, the
loop takes its events from the hub one by one, and the application reads the state in between.

What `state` reports depends on three things that move at different times: the native state, the mark
`_opened`, and the place in `loop.sockets`. `report_le` says that it grows with each of them, and no step
moves one of them back while there is a socket to read.
-/

namespace WebSocket.Lua

open Net Lib.Transition

/-- A link, its entry in the registry, and the Lua socket for it with its mark `_opened`. The loop has taken
the first `delivered` of the link's events; `reads` has the values that were read, each with the events that
the loop had taken by then. -/
structure Endpoint where
  link : Sys
  hub : Bool
  conns : Bool
  delivered : Nat
  socket : Option Bool
  listed : Bool
  reads : List (State × List Event)

inductive EndpointLabel where
  | native (lab : Label)
  | connect
  | deliver (listening : Bool)
  | read
  | shutdown

/-- The branches of `state`: `listed` is `loop.sockets[s.id] == s`. -/
def report (listed : Bool) (native : State) (opened : Bool) : State :=
  if listed = false then .closed
  else if native = .closed then .closing
  else if native = .opened ∧ opened = false then .connecting
  else native

namespace Endpoint

def init (cfg : Config) : Endpoint := ⟨.init cfg, true, false, 0, none, false, []⟩

def heard (e : Endpoint) : List Event := e.link.sentEvents.take e.delivered

/-- `ws_state`. -/
def wsState (e : Endpoint) : State := if e.conns then e.link.state else .closed

/-- `state`, of a socket with that mark. -/
def state (e : Endpoint) (opened : Bool) : State := report e.listed e.wsState opened

/-- `ws_wait` flattens the event, and the loop calls its handler. A server's connection is entered into the
registry then, and its socket is made if the server is listening still. -/
def handle (cfg : Config) (e : Endpoint) (listening : Bool) : Event → Endpoint
  | .opened =>
    if cfg.server then
      if listening then { e with conns := true, socket := some true, listed := true } else { e with conns := true }
    else if e.listed then { e with socket := e.socket.map fun _ => true }
    else e
  | .close _ _ => { e with conns := false, listed := false }
  | _ => e

/-- `connect` makes the link and the socket before the loop can go on, so a client has its socket when the
first event is delivered. `ws_shutdown` takes the hub and its connections out of the registry. -/
def step (cfg : Config) (e : Endpoint) : EndpointLabel → Option Endpoint
  | .native lab => (e.link.step cfg lab).map fun link => { e with link := link }
  | .connect =>
    if cfg.server = false ∧ e.socket = none ∧ e.hub = true then
      some { e with conns := true, socket := some false, listed := true }
    else none
  | .deliver listening =>
    if e.hub = true ∧ (cfg.server = true ∨ e.socket ≠ none) then
      e.link.sentEvents[e.delivered]?.map fun event =>
        { e.handle cfg listening event with delivered := e.delivered + 1 }
    else none
  | .read => e.socket.map fun opened => { e with reads := e.reads ++ [(e.state opened, e.heard)] }
  | .shutdown => some { e with hub := false, conns := false }

end Endpoint

theorem Endpoint.link_handle (cfg : Config) (e : Endpoint) (listening : Bool) (x : Event) :
    (e.handle cfg listening x).link = e.link := by
  cases x with
  | opened =>
    unfold Endpoint.handle
    dsimp only
    split
    · split
      · rfl
      · rfl
    · split
      · rfl
      · rfl
  | _ => rfl

/-! ## What is reported -/

/-- The report grows with the native state and the mark, and it is last when the socket is not listed. -/
theorem report_le {listed listed' opened opened' : Bool} {native native' : State} (place : listed' = true → listed = true)
    (moves : native.rank ≤ native'.rank) (mark : opened = true → opened' = true) :
    (report listed native opened).rank ≤ (report listed' native' opened').rank := by
  cases listed' with
  | false =>
    show _ ≤ 3
    cases report listed native opened <;> decide
  | true =>
    rw [place rfl]
    revert moves mark
    cases native <;> cases native' <;> cases opened <;> cases opened' <;> decide

theorem report_eq_closed {listed opened : Bool} {native : State} : report listed native opened = .closed ↔ listed = false := by
  cases listed <;> cases native <;> cases opened <;> decide

theorem opened_of_report {listed opened : Bool} {native : State} (h : report listed native opened = .opened) :
    opened = true := by
  revert h
  cases listed <;> cases native <;> cases opened <;> decide

/-! ## Every state -/

/-- An event was taken after the ones before it. -/
def Honest (r : State × List Event) : Prop :=
  (r.1 = .opened → .opened ∈ r.2) ∧ (r.1 = .closed ↔ ∃ x ∈ r.2, x.isClose = true)

/-- Where the socket stands with the events that the loop has taken. -/
structure Follows (cfg : Config) (e : Endpoint) : Prop where
  bound : e.delivered ≤ e.link.sentEvents.length
  marked : e.socket = some true → .opened ∈ e.heard
  accepted : cfg.server = true → e.socket ≠ none → .opened ∈ e.heard
  dialed : cfg.server = false → e.socket = none → e.delivered = 0
  listed : e.socket ≠ none → (e.listed = false ↔ ∃ x ∈ e.heard, x.isClose = true)

/-- The values read so far are in order, and none is past what would be read now. -/
structure Reported (e : Endpoint) : Prop where
  sorted : e.reads.Pairwise fun a b => a.1.rank ≤ b.1.rank
  below : ∀ opened, e.socket = some opened → ∀ r ∈ e.reads, r.1.rank ≤ (e.state opened).rank
  honest : ∀ r ∈ e.reads, Honest r
  unread : e.socket = none → e.reads = []

section Steps

variable {cfg : Config} {e e' : Endpoint}

theorem Follows.honest (h : Follows cfg e) {opened : Bool} (socket : e.socket = some opened) :
    Honest (e.state opened, e.heard) := by
  have made : e.socket ≠ none := by
    rw [socket]
    exact Option.some_ne_none opened
  refine ⟨fun ho => h.marked ?_, ?_⟩
  · rw [socket, opened_of_report ho]
  · rw [← h.listed made]
    exact report_eq_closed

/-- Neither the socket nor what was taken changes. -/
theorem Follows.same (h : Follows cfg e) (link : e'.link = e.link) (delivered : e'.delivered = e.delivered)
    (socket : e'.socket = e.socket) (listed : e'.listed = e.listed) : Follows cfg e' := by
  have heard : e'.heard = e.heard := by rw [Endpoint.heard, link, delivered, Endpoint.heard]
  constructor
  · rw [link, delivered]
    exact h.bound
  · rw [socket, heard]
    exact h.marked
  · rw [socket, heard]
    exact h.accepted
  · rw [socket, delivered]
    exact h.dialed
  · rw [socket, listed, heard]
    exact h.listed

/-- The socket is read. -/
theorem Reported.read (h : Reported e) (follows : Follows cfg e) {opened : Bool} (socket : e.socket = some opened) :
    Reported { e with reads := e.reads ++ [(e.state opened, e.heard)] } := by
  constructor
  · refine List.pairwise_append.mpr ⟨h.sorted, List.pairwise_singleton .., ?_⟩
    intro r hr last hl
    rw [List.mem_singleton.mp hl]
    exact h.below opened socket r hr
  · intro opened' socket'
    rw [show e.socket = some opened' from socket'] at socket
    cases socket
    exact List.forall_mem_append.mpr ⟨h.below opened socket', List.forall_mem_singleton.mpr (Nat.le_refl _)⟩
  · exact List.forall_mem_append.mpr ⟨h.honest, List.forall_mem_singleton.mpr (follows.honest socket)⟩
  · intro none
    rw [show e.socket = Option.none from none] at socket
    cases socket

/-- Nothing is read, and what there is to read has not moved back. -/
theorem Reported.later (h : Reported e) (reads : e'.reads = e.reads)
    (forward : ∀ opened', e'.socket = some opened' → e.socket = none ∨
      ∃ opened, e.socket = some opened ∧ (e.state opened).rank ≤ (e'.state opened').rank)
    (stays : e'.socket = none → e.socket = none) : Reported e' := by
  constructor
  · rw [reads]
    exact h.sorted
  · intro opened' socket' r hr
    rw [reads] at hr
    rcases forward opened' socket' with unmade | ⟨opened, socket, le⟩
    · rw [h.unread unmade] at hr
      cases hr
    · exact Nat.le_trans (h.below opened socket r hr) le
  · rw [reads]
    exact h.honest
  · intro none
    rw [reads]
    exact h.unread (stays none)

/-- A socket that was there keeps its mark and its place, and the native state moves on. -/
theorem Reported.moves (h : Reported e) (reads : e'.reads = e.reads) (socket : e'.socket = e.socket)
    (place : e'.listed = true → e.listed = true) (native : e.wsState.rank ≤ e'.wsState.rank) : Reported e' := by
  refine h.later reads (fun opened' socket' => .inr ⟨opened', ?_, report_le place native fun mark => mark⟩) ?_
  · rw [← socket]
    exact socket'
  · rw [socket]
    exact fun none => none

/-! ## The network threads -/

theorem sentEvents_grow {s s' : Sys} {lab : Label} (h : s.step cfg lab = some s') : s.sentEvents <+: s'.sentEvents := by
  obtain ⟨used, new, effect⟩ := step_effect h
  rcases effect.lives.events with ⟨-, same⟩ | ⟨x, -, more⟩
  · exact ⟨[], (List.append_nil _).trans same.symm⟩
  · rw [more]
    exact List.prefix_append ..

theorem orderly_sentEvents {s : Sys} (h : Reachable (Sys.step cfg) (.init cfg) s) : Orderly s.sentEvents := by
  obtain ⟨rest, eq⟩ := (Taken.of_reachable h).isPrefix
  refine .of_append (t := rest) ?_
  rw [eq]
  exact (Handed.of_reachable h).orderly

theorem Follows.native (h : Follows cfg e) {link : Sys} (grows : e.link.sentEvents <+: link.sentEvents) :
    Follows cfg { e with link := link } := by
  have same : Endpoint.heard { e with link := link } = e.heard := by
    obtain ⟨t, eq⟩ := grows
    rw [Endpoint.heard, ← eq]
    exact List.take_append_of_le_length h.bound
  refine ⟨Nat.le_trans h.bound grows.length_le, ?_, ?_, h.dialed, ?_⟩
  · rw [same]
    exact h.marked
  · rw [same]
    exact h.accepted
  · rw [same]
    exact h.listed

/-! ## The loop -/

section Deliver

variable {x : Event}

theorem heard_deliver (event : e.link.sentEvents[e.delivered]? = some x) :
    e.link.sentEvents.take (e.delivered + 1) = e.heard ++ [x] := by
  rw [List.take_add_one, event]
  rfl

theorem orderly_deliver (h : Orderly e.link.sentEvents) (event : e.link.sentEvents[e.delivered]? = some x) :
    Orderly (e.heard ++ [x]) := by
  refine .of_append (t := e.link.sentEvents.drop (e.delivered + 1)) ?_
  rw [← heard_deliver event, List.take_append_drop]
  exact h

/-- The opening comes once. -/
theorem opened_not_mem (h : Orderly (e.heard ++ [.opened])) : .opened ∉ e.heard := by
  have once := h.opened_once
  rw [List.count_append, List.count_singleton_self] at once
  exact List.count_eq_zero.mp (by omega)

/-- One more event is taken. -/
theorem Follows.taken {w : Endpoint} (event : e.link.sentEvents[e.delivered]? = some x) (link : w.link = e.link)
    (marked : w.socket = some true → .opened ∈ e.heard ++ [x])
    (accepted : cfg.server = true → w.socket ≠ none → .opened ∈ e.heard ++ [x])
    (dialed : cfg.server = false → w.socket ≠ none)
    (listed : w.socket ≠ none → (w.listed = false ↔ ∃ y ∈ e.heard ++ [x], y.isClose = true)) :
    Follows cfg { w with delivered := e.delivered + 1 } := by
  have heard : Endpoint.heard { w with delivered := e.delivered + 1 } = e.heard ++ [x] := by
    rw [Endpoint.heard, link]
    exact heard_deliver event
  refine ⟨?_, ?_, ?_, fun client unmade => absurd unmade (dialed client), ?_⟩
  · rw [link]
    exact (List.getElem?_eq_some_iff.mp event).1
  · rw [heard]
    exact marked
  · rw [heard]
    exact accepted
  · rw [heard]
    exact listed

/-- An event that is not the close changes nothing about it. -/
theorem close_taken_iff {es : List Event} (h : x.isClose = false) :
    (∃ y ∈ es ++ [x], y.isClose = true) ↔ ∃ y ∈ es, y.isClose = true := by
  constructor
  · rintro ⟨y, mem, close⟩
    rcases List.mem_append.mp mem with old | new
    · exact ⟨y, old, close⟩
    · rw [List.mem_singleton.mp new, h] at close
      cases close
  · rintro ⟨y, mem, close⟩
    exact ⟨y, List.mem_append_left _ mem, close⟩

/-- An event that leaves the socket alone. -/
theorem Follows.passed (h : Follows cfg e) (event : e.link.sentEvents[e.delivered]? = some x) (plain : x.isClose = false)
    (ready : cfg.server = true ∨ e.socket ≠ none) : Follows cfg { e with delivered := e.delivered + 1 } := by
  refine Follows.taken event rfl ?_ ?_ ?_ ?_
  · exact fun mark => List.mem_append_left _ (h.marked mark)
  · exact fun server made => List.mem_append_left _ (h.accepted server made)
  · exact fun client => ready.resolve_left (by rw [client]; exact Bool.false_ne_true)
  · intro made
    rw [close_taken_iff plain]
    exact h.listed made

/-- The opening: the connection of a server that no socket was made for, or the mark of a client's socket. -/
theorem deliver_opened (follows : Follows cfg e) (reported : Reported e) (orderly : Orderly e.link.sentEvents)
    (event : e.link.sentEvents[e.delivered]? = some .opened) (ready : cfg.server = true ∨ e.socket ≠ none)
    (listening : Bool) :
    Follows cfg { e.handle cfg listening .opened with delivered := e.delivered + 1 } ∧
      Reported { e.handle cfg listening .opened with delivered := e.delivered + 1 } := by
  have order := orderly_deliver orderly event
  have mem : .opened ∈ e.heard ++ [.opened] := List.mem_append_right _ (List.mem_singleton_self _)
  have open_ : ¬ ∃ y ∈ e.heard ++ [.opened], y.isClose = true := by
    rw [close_taken_iff rfl]
    rintro ⟨y, hy, close⟩
    rw [order.not_isClose_of_snoc y hy] at close
    cases close
  unfold Endpoint.handle
  dsimp only
  split
  · rename_i server
    have unmade : e.socket = none := by
      apply Classical.byContradiction
      intro made
      exact opened_not_mem order (follows.accepted server made)
    have never : cfg.server ≠ false := by
      rw [server]
      exact Bool.noConfusion
    split
    · refine ⟨Follows.taken event rfl (fun _ => mem) (fun _ _ => mem) (fun client => absurd client never) ?_, ?_⟩
      · exact fun _ => iff_of_false Bool.noConfusion open_
      · exact reported.later rfl (fun _ _ => .inl unmade) fun _ => unmade
    · refine ⟨Follows.taken event rfl (fun _ => mem) (fun _ _ => mem) (fun client => absurd client never) ?_, ?_⟩
      · exact fun made => absurd unmade made
      · exact reported.later rfl (fun _ _ => .inl unmade) fun _ => unmade
  · rename_i client
    have made := ready.resolve_left client
    obtain ⟨opened, socket⟩ := Option.ne_none_iff_exists'.mp made
    split
    · rename_i listed
      refine ⟨Follows.taken event rfl (fun _ => mem) (fun _ _ => mem) (fun _ => ?_) ?_, ?_⟩
      · rw [socket]
        exact Option.some_ne_none _
      · rw [close_taken_iff rfl]
        exact fun _ => follows.listed made
      · refine reported.later rfl (fun opened' socket' => .inr ⟨opened, socket, ?_⟩) ?_
        · rw [socket] at socket'
          cases socket'
          exact report_le (fun place => place) (Nat.le_refl _) fun _ => rfl
        · exact fun none => Option.map_eq_none_iff.mp none
    · exact ⟨follows.passed event rfl ready, reported.moves rfl rfl (fun place => place) (Nat.le_refl _)⟩

theorem deliver_close (follows : Follows cfg e) (reported : Reported e) {code : UInt16} {reason : Str}
    (event : e.link.sentEvents[e.delivered]? = some (.close code reason)) (ready : cfg.server = true ∨ e.socket ≠ none) :
    Follows cfg { e with conns := false, listed := false, delivered := e.delivered + 1 } ∧
      Reported { e with conns := false, listed := false, delivered := e.delivered + 1 } := by
  refine ⟨?_, reported.moves rfl rfl (fun place => by cases place) ?_⟩
  · refine Follows.taken (w := { e with conns := false, listed := false }) event rfl ?_ ?_ ?_ ?_
    · exact fun mark => List.mem_append_left _ (follows.marked mark)
    · exact fun server made => List.mem_append_left _ (follows.accepted server made)
    · exact fun client => ready.resolve_left (by rw [client]; exact Bool.false_ne_true)
    · exact fun _ => iff_of_true rfl ⟨_, List.mem_append_right _ (List.mem_singleton_self _), rfl⟩
  · show _ ≤ 3
    cases e.wsState <;> decide

end Deliver

theorem deliver_kept (follows : Follows cfg e) (reported : Reported e) (orderly : Orderly e.link.sentEvents) {x : Event}
    (event : e.link.sentEvents[e.delivered]? = some x) (ready : cfg.server = true ∨ e.socket ≠ none) (listening : Bool) :
    Follows cfg { e.handle cfg listening x with delivered := e.delivered + 1 } ∧
      Reported { e.handle cfg listening x with delivered := e.delivered + 1 } := by
  have rest (plain : x.isClose = false) :
      Follows cfg { e with delivered := e.delivered + 1 } ∧ Reported { e with delivered := e.delivered + 1 } :=
    ⟨follows.passed event plain ready, reported.moves rfl rfl (fun place => place) (Nat.le_refl _)⟩
  cases x with
  | opened => exact deliver_opened follows reported orderly event ready listening
  | close code reason => exact deliver_close (e := e) follows reported event ready
  | message => exact rest rfl
  | ping => exact rest rfl
  | pong => exact rest rfl
  | error => exact rest rfl
  | drain => exact rest rfl

/-! ## Every interleaving -/

/-- What holds of an endpoint at any time. -/
structure Sound (cfg : Config) (e : Endpoint) : Prop where
  link : Reachable (Sys.step cfg) (.init cfg) e.link
  follows : Follows cfg e
  reported : Reported e

theorem Sound.native (h : Sound cfg e) {lab : Label} {link : Sys} (hs : e.link.step cfg lab = some link) :
    Sound cfg { e with link := link } := by
  refine ⟨h.link.next hs, h.follows.native (sentEvents_grow hs), h.reported.moves rfl rfl (fun place => place) ?_⟩
  obtain ⟨used, new, effect⟩ := step_effect hs
  rw [Endpoint.wsState, Endpoint.wsState]
  split
  · exact effect.lives.rank_le
  · exact Nat.le_refl _

theorem Sound.connect (h : Sound cfg e) (client : cfg.server = false) (unmade : e.socket = none) :
    Sound cfg { e with conns := true, socket := some false, listed := true } := by
  have start := h.follows.dialed client unmade
  refine ⟨h.link, ⟨h.follows.bound, ?_, ?_, ?_, fun _ => iff_of_false Bool.noConfusion ?_⟩, ?_⟩
  · exact fun mark => by cases mark
  · exact fun server => by rw [client] at server; cases server
  · exact fun _ made => by cases made
  · rintro ⟨x, mem, -⟩
    rw [Endpoint.heard, start] at mem
    cases mem
  · exact h.reported.later rfl (fun _ _ => .inl unmade) fun _ => unmade

theorem Sound.step {lab : EndpointLabel} (h : Sound cfg e) (hs : e.step cfg lab = some e') : Sound cfg e' := by
  cases lab with
  | native lab =>
    obtain ⟨link, next, rfl⟩ := Option.map_eq_some_iff.mp hs
    exact h.native next
  | connect =>
    obtain ⟨new, hs⟩ := Option.ite_none_right_eq_some.mp hs
    cases hs
    exact h.connect new.1 new.2.1
  | deliver listening =>
    obtain ⟨ready, hs⟩ := Option.ite_none_right_eq_some.mp hs
    obtain ⟨x, event, rfl⟩ := Option.map_eq_some_iff.mp hs
    obtain ⟨follows, reported⟩ :=
      deliver_kept h.follows h.reported (orderly_sentEvents h.link) event ready.2 listening
    refine ⟨?_, follows, reported⟩
    rw [show Endpoint.link { e.handle cfg listening x with delivered := e.delivered + 1 } = e.link from e.link_handle ..]
    exact h.link
  | read =>
    obtain ⟨opened, socket, rfl⟩ := Option.map_eq_some_iff.mp hs
    exact ⟨h.link, h.follows.same rfl rfl rfl rfl, h.reported.read h.follows socket⟩
  | shutdown =>
    cases hs
    refine ⟨h.link, h.follows.same rfl rfl rfl rfl, h.reported.moves rfl rfl (fun place => place) ?_⟩
    show _ ≤ 3
    cases e.wsState <;> decide

/-- **The state that a socket reports never goes back**, whatever the network threads do between the reads.
`opened` is read only after the opening was delivered, and `closed` exactly from the delivery of the close on. -/
theorem state_follows_events (h : Reachable (Endpoint.step cfg) (.init cfg) e) :
    (e.reads.Pairwise fun a b => a.1.rank ≤ b.1.rank) ∧
      (∀ r ∈ e.reads, (r.1 = .opened → .opened ∈ r.2) ∧ (r.1 = .closed ↔ ∃ x ∈ r.2, x.isClose = true)) ∧
      ∀ opened, e.socket = some opened →
        (∀ r ∈ e.reads, r.1.rank ≤ (e.state opened).rank) ∧ (e.state opened = .opened → .opened ∈ e.heard) ∧
          (e.state opened = .closed ↔ ∃ x ∈ e.heard, x.isClose = true) := by
  have sound : Sound cfg e := by
    refine h.invariant ⟨.refl _, ⟨Nat.zero_le _, ?_, ?_, ?_, ?_⟩, ⟨List.Pairwise.nil, ?_, ?_, ?_⟩⟩
      fun _ _ _ _ hu hv => hu.step hv
    · exact fun mark => by cases mark
    · exact fun _ made => absurd rfl made
    · exact fun _ _ => rfl
    · exact fun made => absurd rfl made
    · exact fun opened socket => by cases socket
    · exact fun r hr => by cases hr
    · exact fun _ => rfl
  refine ⟨sound.reported.sorted, sound.reported.honest, fun opened socket => ?_⟩
  exact ⟨sound.reported.below opened socket, sound.follows.honest socket⟩

end Steps

/-- A client's link opens and is terminated before the loop goes on; the socket is read before and after each
of its two events is delivered. -/
def endpointRun : List EndpointLabel :=
  [.connect, .read] ++ openRun.map .native ++ [.read, .deliver true, .read] ++
    [.native (.call .terminate), .native (.pool 0), .read, .deliver true, .read]

/-- The opening shows only when it is delivered, and so does the close. -/
theorem state_follows_events_terminated :
    ∃ e, runs (Endpoint.step .smallClient) (.init .smallClient) endpointRun = some e ∧
      e.reads.map Prod.fst = [.connecting, .connecting, .opened, .closing, .closed] ∧
      e.reads.Pairwise fun a b => a.1.rank ≤ b.1.rank :=
  have run : runs (Endpoint.step .smallClient) (.init .smallClient) endpointRun = some _ := rfl
  ⟨_, run, rfl, (state_follows_events ⟨_, run⟩).1⟩

end WebSocket.Lua
