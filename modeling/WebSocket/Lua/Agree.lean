import WebSocket.Lua.Tables

/-!
# Runs of the event loop

Where Lua is (`Shaped`) and which native call its hub is in (`Fits`) fit each other, and with them
the tables, the events and the requests are what they should be after every step (`Matched`).
-/

namespace WebSocket.Lua

open Proto Lib Lib.Transition Lib.Text Native

/-! ## The stack -/

def Layer.handles : Layer → Bool
  | request _ _ | emit _ => true
  | _ => false

def Layer.calls : Layer → Bool
  | connecting | listening _ => true
  | _ => false

theorem Layer.calls_of_handles {a : Layer} (h : a.handles = true) : a.calls = false := by
  cases a <;> first | rfl | cases h

def Phase.waits : Phase → Bool
  | wait _ => true
  | _ => false

/-- There is one loop at most, and in it one handler. -/
inductive Shaped : List Layer → Bool → Prop where
  | ended : Shaped [] false
  | main : Shaped [.app] false
  | poll (run : Bool) (phase : Phase) : Shaped [.poll run phase, .app] true
  | fire (run : Bool) {phase : Phase} (timers : phase.waits = false) : Shaped [.app, .poll run phase, .app] true
  | handler (run : Bool) (n : Nat) {a : Layer} (handles : a.handles = true) : Shaped [a, .poll run (.wait n), .app] true
  | callback (run : Bool) (n : Nat) {a : Layer} (handles : a.handles = true) :
      Shaped [.app, a, .poll run (.wait n), .app] true
  | call {a : Layer} {rest : List Layer} {running : Bool} (calls : a.calls = true) (below : Shaped (.app :: rest) running) :
      Shaped (a :: .app :: rest) running

/-- The call on the hub is the one that Lua is in. -/
def Fits : List Layer → Call → Prop
  | .connecting :: _, c => c = .connecting ∨ ∃ conn, c = .connected conn
  | .listening _ :: _, c => c = .listening ∨ ∃ server, c = .listened server
  | .poll _ (.wait n) :: _, c => c = .idle ∨ n < BATCH ∧ (c = .waiting ∨ ∃ e, c = .waited e)
  | _, c => c = .idle

/-- What `request` of `ws/server.lua` can read. -/
def Readable : Event → Prop
  | .request _ req _ | .connection _ _ req => (luaRequest (pack req)).isSome = true
  | _ => True

/-- What does not depend on where Lua is. -/
structure Synced (l : Loop) : Prop where
  ok : Ok l.native
  live : l.native.reg.hubs l.hub = true
  tables : Tables l.native.reg l.hub l.sockets l.servers l.declined l.told
  flow : Flow l.native.objects l.hub (l.native.mine l.hub) l.sent l.taken l.heard l.declined
  coming : ∀ conn, l.native.calls l.hub = .connected conn → l.taken conn.id = []
  readable : ∀ e ∈ l.native.pending l.hub, Readable e

/-- The requests that have no reply yet are those that handlers on the stack decide. -/
def Loop.Owes (l : Loop) (stack : List Layer) : Prop :=
  ∃ out, stack.filterMap Layer.token = out.map (·.1) ∧
    Owed l.native.reg l.hub out l.asked l.replies (l.native.pending l.hub)

structure Matched (l : Loop) : Prop extends Synced l where
  shaped : Shaped l.stack l.running
  fits : Fits l.stack (l.native.calls l.hub)
  owed : l.Owes l.stack

section Steps

variable {l l' : Loop}

/-! ### Tasks -/

theorem Matched.tasks (h : Matched l) {lab : Native.Label} (hs : l.tasks lab = some l')
    (hact : l.native.actor lab ≠ some l.hub) (proper : l.native.proper lab = true)
    (read : ∀ e, l.native.arrives l.hub lab = some e → Readable e) : Matched l' := by
  obtain ⟨native, hn, rfl⟩ := Option.map_eq_some_iff.mp hs
  have same := h.ok.same hn hact
  have hcalls := (step_other hn hact).1
  have hpending := pending_tasks hn hact
  refine ⟨⟨h.ok.step proper hn, same.hub.trans h.live, h.tables.same same, ?_, fun conn hc => ?_, fun e he => ?_⟩,
    h.shaped, ?_, ?_⟩
  · have hmine (i : Id) : native.mine l.hub i = l.native.mine l.hub i ++
        (l.native.arrives l.hub lab).toList.filter fun e => e.about = some i := by
      rw [Sys.mine, hpending, List.filter_append]
      rfl
    have quiet (he : ∀ e, l.native.arrives l.hub lab = some e → e.about = none) :
        Flow native.objects l.hub (native.mine l.hub) ((l.native.arrives l.hub lab).elim l.sent (·.onto l.sent)) l.taken
          l.heard l.declined := by
      have hkept : native.mine l.hub = l.native.mine l.hub := by
        funext i
        rw [hmine i, List.append_right_eq_self, List.filter_eq_nil_iff]
        intro e hmem
        simp [he e (Option.mem_toList.mp hmem)]
      have hsent : (l.native.arrives l.hub lab).elim l.sent (·.onto l.sent) = l.sent := by
        cases harr : l.native.arrives l.hub lab with
        | none => rfl
        | some e => simp [Event.onto, he e harr]
      rw [hkept, hsent]
      exact h.flow.step h.ok hn
    rcases arrives_cases (g := l.hub) hn with hnone | ⟨e, hsome, habout⟩ | ⟨id, e, stage, stage', harr, ha, ho, after, hobjects⟩
    · exact quiet (by simp [hnone])
    · exact quiet (by simpa [hsome] using habout)
    · show Flow native.objects _ _ _ _ _ _
      rw [hobjects, harr]
      refine h.flow.sends ho ha after fun i => ?_
      rw [hmine i, harr]
      by_cases hi : e.about = some i <;> simp [hi]
  · exact h.coming conn (hcalls.symm.trans hc)
  · have he : e ∈ native.pending l.hub := he
    rw [hpending] at he
    rcases List.mem_append.mp he with he | he
    · exact h.readable e he
    · exact read e (Option.mem_toList.mp he)
  · show Fits l.stack (native.calls l.hub)
    rw [hcalls]
    exact h.fits
  · obtain ⟨out, htokens, howed⟩ := h.owed
    refine ⟨out, htokens, (howed.same same).held, ?_⟩
    show _ = _ ++ (native.pending l.hub).filterMap Event.sender
    rw [hpending, howed.order, List.filterMap_append, List.append_assoc]
    cases l.native.arrives l.hub lab with
    | none => rfl
    | some e => cases hx : e.sender <;> simp [hx]

/-! ### Steps that leave the registry alone -/

theorem Synced.at (h : Synced l) {stack : List Layer} {running : Bool} : Synced { l with stack := stack, running := running } :=
  ⟨h.ok, h.live, h.tables, h.flow, h.coming, h.readable⟩

theorem Matched.moves (h : Matched l) {stack : List Layer} {running : Bool} (shaped : Shaped stack running)
    (fits : Fits stack (l.native.calls l.hub)) (tokens : stack.filterMap Layer.token = l.stack.filterMap Layer.token) :
    Matched { l with stack := stack, running := running } := by
  obtain ⟨out, htokens, howed⟩ := h.owed
  exact ⟨h.toSynced.at, shaped, fits, out, tokens.trans htokens, howed⟩

/-- The native state changes, and the tables with it, between two events. -/
theorem Matched.goes (h : Matched l) {native : Sys} {sockets : Id → Option Socket} {servers : Id → Option Server}
    {told : Id → Bool} {stack : List Layer} (ok : Ok native)
    (flow : Flow native.objects l.hub (l.native.mine l.hub) l.sent l.taken l.heard l.declined)
    (hubs : native.reg.hubs = l.native.reg.hubs) (replies : native.reg.replies = l.native.reg.replies)
    (pending : native.pending l.hub = l.native.pending l.hub)
    (tables : Tables native.reg l.hub sockets servers l.declined told) (shaped : Shaped stack l.running)
    (fits : Fits stack (native.calls l.hub)) (tokens : stack.filterMap Layer.token = l.stack.filterMap Layer.token)
    (coming : ∀ conn, native.calls l.hub = .connected conn → l.taken conn.id = []) :
    Matched { l with native := native, sockets := sockets, servers := servers, told := told, stack := stack } := by
  obtain ⟨out, htokens, howed⟩ := h.owed
  refine ⟨⟨ok, ?_, tables, ?_, coming, fun e he => ?_⟩, shaped, fits, out, tokens.trans htokens, ?_, ?_⟩
  · rw [hubs]
    exact h.live
  · show Flow _ _ (native.mine l.hub) _ _ _ _
    rw [mine_of_pending pending]
    exact flow
  · have he : e ∈ native.pending l.hub := he
    rw [pending] at he
    exact h.readable e he
  · rw [replies]
    exact howed.held
  · rw [pending]
    exact howed.order

/-- A native call goes on. -/
theorem Matched.turn (h : Matched l) {lab : Native.Label} {native : Sys} {stack : List Layer} (hn : l.native.step lab = some native)
    (proper : l.native.proper lab = true) (reg : native.reg = l.native.reg)
    (pending : native.pending l.hub = l.native.pending l.hub) (shaped : Shaped stack l.running)
    (fits : Fits stack (native.calls l.hub)) (tokens : stack.filterMap Layer.token = l.stack.filterMap Layer.token)
    (coming : ∀ conn, native.calls l.hub = .connected conn → l.taken conn.id = []) :
    Matched { l with native := native, stack := stack } :=
  h.goes (h.ok.step proper hn) (h.flow.step h.ok hn) (by rw [reg]) (by rw [reg]) pending (reg ▸ h.tables) shaped fits tokens coming

/-- The first section of a call, of a hub that is there. -/
theorem Matched.begins (h : Matched l) (c : Call) :
    l.native.begin l.hub c = if l.native.calls l.hub = .idle then some (l.native.call l.hub c) else none := by
  rw [Sys.begin, if_pos h.live]

/-- A call begins, makes its object, or ends with nothing. -/
theorem Matched.call (h : Matched l) {lab : Native.Label} {t : Sys} {c c' : Call} {stack : List Layer}
    (hs : l.calls lab stack = some l')
    (hstep : l.native.step lab = if l.native.calls l.hub = c then some (t.call l.hub c') else none)
    (same : t.reg = l.native.reg ∧ t.calls = l.native.calls ∧ t.queues = l.native.queues)
    (proper : l.native.proper lab = true) (plain : c.plain = true) (event : c'.event = [])
    (made : ∀ conn, c' = .connected conn → conn.id = l.native.nextId)
    (shaped : Shaped stack l.running) (fits : Fits stack c')
    (tokens : stack.filterMap Layer.token = l.stack.filterMap Layer.token) : Matched l' := by
  obtain ⟨native, hn, rfl⟩ := Option.map_eq_some_iff.mp hs
  have hcall := hstep.symm.trans hn
  split at hcall
  · rename_i hc
    cases hcall
    have hnew : (t.call l.hub c').calls l.hub = c' := Function.update_self _ _ _
    refine h.turn hn proper same.1 ?_ shaped ?_ tokens fun conn hconn => ?_
    · rw [pending_call]
      · rw [Sys.pending, Sys.pending, same.2.1, same.2.2]
      · rw [same.2.1, hc, Call.event_of_plain plain, event]
    · rw [hnew]
      exact fits
    · -- nothing was sent under a number that was not given out
      refine h.flow.taken_nil (h.flow.sent_nil fun stage => ?_)
      rw [made conn (hnew.symm.trans hconn), h.ok.fresh _ (Nat.le_refl _)]
      simp
  · cases hcall

theorem Matched.recv (h : Matched l) {run : Bool} {n : Nat} {rest : List Layer} (hstack : l.stack = .poll run (.wait n) :: rest)
    (hs : l.calls (.recv l.hub) l.stack = some l') : Matched l' := by
  obtain ⟨native, hn, rfl⟩ := Option.map_eq_some_iff.mp hs
  have hcall := hn
  simp only [Sys.step] at hcall
  split at hcall
  · rename_i hc
    split at hcall
    · cases hcall
    · rename_i e queue hq
      cases hcall
      have hfits := h.fits
      rw [hstack, hc] at hfits
      refine h.turn hn rfl rfl ?_ h.shaped ?_ rfl ?_
      · simp [Sys.pending, hc, hq, Call.event]
      · rw [hstack]
        simpa [Fits] using hfits
      · simp
  · cases hcall

/-! ### Connections and servers come, and servers go -/

theorem Shaped.caller {a : Layer} {rest : List Layer} {running : Bool} (h : Shaped (a :: rest) running) (calls : a.calls = true) :
    Shaped rest running ∧ ∃ more, rest = .app :: more := by
  cases h with
  | main | poll | fire | callback => cases calls
  | handler _ _ handles => exact absurd calls (by simp [Layer.calls_of_handles handles])
  | call _ below => exact ⟨below, _, rfl⟩

theorem Matched.insertConn (h : Matched l) {rest : List Layer} {conn : Conn} (hstack : l.stack = .connecting :: rest)
    (hc : l.native.calls l.hub = .connected conn)
    (hs : { l with sockets := Function.update l.sockets conn.id (some ⟨none, false⟩) }.calls (.insertConn l.hub) rest = some l') :
    Matched l' := by
  obtain ⟨native, hn, rfl⟩ := Option.map_eq_some_iff.mp hs
  simp only [Sys.step, hc] at hn
  cases hn
  have hshaped := h.shaped
  rw [hstack] at hshaped
  obtain ⟨below, more, rfl⟩ := hshaped.caller rfl
  obtain ⟨stage, ho⟩ := h.ok.connected _ conn hc
  have hd : l.declined conn.id = false := by
    cases hd : l.declined conn.id with
    | false => rfl
    | true => exact absurd (h.coming conn hc) (h.flow.declined _ hd)
  refine h.goes (h.ok.insertConn hc) h.flow rfl rfl (pending_settle (by rw [hc]; rfl) _)
    (h.tables.insertConn (link_server h.ok ho) hd (by simp)) below (Function.update_self _ _ _) ?_ (by simp)
  rw [hstack]
  rfl

theorem Matched.insertServer (h : Matched l) {rest : List Layer} {s : Server} {server : Native.Server}
    (hstack : l.stack = .listening s :: rest) (hc : l.native.calls l.hub = .listened server)
    (hs : { l with servers := Function.update l.servers server.id (some s) }.calls (.insertServer l.hub) rest = some l') :
    Matched l' := by
  obtain ⟨native, hn, rfl⟩ := Option.map_eq_some_iff.mp hs
  simp only [Sys.step, hc] at hn
  cases hn
  have hshaped := h.shaped
  rw [hstack] at hshaped
  obtain ⟨below, more, rfl⟩ := hshaped.caller rfl
  refine h.goes (h.ok.insertServer hc) h.flow rfl rfl (pending_settle (by rw [hc]; rfl) _)
    (h.tables.insertServer s (server_conn h.ok (h.ok.listened _ _ hc))) below (Function.update_self _ _ _) ?_ (by simp)
  rw [hstack]
  rfl

theorem Matched.close (h : Matched l) (server : Id) : Matched (l.close server) := by
  rw [Loop.close]
  split
  · exact h
  · rename_i s hs
    have hconn : l.native.reg.conns server = none := by
      have hserving := ((h.tables.serving server).mp (by rw [hs]; rfl)).2
      have hdisjoint := h.ok.consistent.disjoint server
      rw [hserving] at hdisjoint
      simpa using hdisjoint
    exact h.goes (h.ok.unlisten hconn) h.flow rfl rfl rfl (h.tables.unlisten hconn) h.shaped h.fits rfl h.coming

/-! ### Replies and errors -/

theorem Synced.reply (h : Synced l) (token : Id) (call : ReplyCall) : Synced (l.reply token call) where
  ok := h.ok.reply token
  live := h.live
  tables := ⟨h.tables.listed, h.tables.serving, h.tables.leaving, h.tables.refused⟩
  flow := h.flow
  coming := h.coming
  readable := h.readable

/-- A request that is decided, and the one request without a reply. -/
def Loop.Decides (l : Loop) (token : Id) : Prop :=
  ∃ x, Owed l.native.reg l.hub [(token, x)] l.asked l.replies (l.native.pending l.hub)

theorem Loop.Owes.decides {token server : Id} {rest : List Layer} (h : l.Owes (.request token server :: rest))
    (tokens : rest.filterMap Layer.token = []) : l.Decides token := by
  obtain ⟨out, htokens, howed⟩ := h
  have htokens : token :: rest.filterMap Layer.token = out.map (·.1) := htokens
  rw [tokens] at htokens
  match out, htokens with
  | [(_, x)], rfl => exact ⟨x, howed⟩

theorem Loop.Decides.reply {token : Id} {stack : List Layer} (h : l.Decides token) (call : ReplyCall)
    (tokens : stack.filterMap Layer.token = []) : (l.reply token call).Owes stack := by
  obtain ⟨x, howed⟩ := h
  exact ⟨[], tokens, howed.reply call⟩

/-- An error ends the handler and the loop, and the request that it decided is answered. -/
theorem Synced.unwind (h : Synced l) {a : Layer} {rest : List Layer} (idle : l.native.calls l.hub = .idle)
    (shaped : Shaped (a :: rest) l.running) (ha : a = .app ∨ a.handles = true) (owed : l.Owes rest) :
    Matched (l.unwind rest) := by
  -- where the loop ends, it leaves the application code that called it
  have ended {k : Loop} (hk : Synced k) (hidle : k.native.calls k.hub = .idle) (howed : k.Owes [.app]) :
      Matched { k with running := false, stack := [.app] } :=
    ⟨hk.at, .main, hidle, howed⟩
  generalize hr : l.running = running at shaped
  cases shaped with
  | main =>
    refine ⟨h.at, ?_, idle, owed⟩
    show Shaped [] l.running
    rw [hr]
    exact .ended
  | poll => rcases ha with ha | ha <;> cases ha
  | fire | handler run n handles => exact ended h idle owed
  | call calls =>
    rcases ha with rfl | ha
    · cases calls
    · exact absurd calls (by simp [Layer.calls_of_handles ha])
  | @callback run n b handles =>
    cases b with
    | emit fatal => exact ended h idle owed
    | request token server => exact ended (h.reply token _) idle ((owed.decides rfl).reply _ rfl)
    | _ => cases handles

/-- A reply is sent, in the loop with no other handler. -/
theorem Synced.answers (h : Synced l) {token : Id} {run : Bool} {phase : Phase} (decides : l.Decides token)
    (idle : l.native.calls l.hub = .idle) (hstack : l.stack = [.poll run phase, .app]) (running : l.running = true)
    (call : ReplyCall) : Matched (l.reply token call) := by
  refine ⟨h.reply token call, ?_, ?_, ?_⟩
  · show Shaped l.stack l.running
    rw [hstack, running]
    exact .poll run phase
  · show Fits l.stack (l.native.calls l.hub)
    rw [hstack, idle]
    cases phase with
    | wait n => exact .inl rfl
    | _ => rfl
  · refine decides.reply call ?_
    show l.stack.filterMap Layer.token = []
    rw [hstack]
    rfl

theorem Synced.accepts (h : Synced l) {token server : Id} {run : Bool} {phase : Phase} (decides : l.Decides token)
    (idle : l.native.calls l.hub = .idle) (hstack : l.stack = [.poll run phase, .app]) (running : l.running = true)
    (req : LuaRequest) : Matched (l.accepts token server req) := by
  rw [Loop.accepts]
  split <;> exact h.answers decides idle hstack running _

theorem Matched.decided (h : Matched l) {token server : Id} {rest : List Layer} (hstack : l.stack = .request token server :: rest)
    (req : LuaRequest) (refused : Option LuaStatus) : Matched (l.decided token server req rest refused) := by
  have hshaped := h.shaped
  have hidle := h.fits
  have howed := h.owed
  rw [hstack] at hshaped hidle howed
  generalize hr : l.running = running at hshaped
  cases hshaped with
  | call calls => cases calls
  | handler run n handles =>
    have hdecides := howed.decides rfl
    have hbelow : Synced { l with stack := [.poll run (.wait n), .app] } := h.toSynced.at
    cases refused with
    | none => exact hbelow.accepts hdecides hidle rfl hr req
    | some status =>
      rw [Loop.decided]
      split
      · refine (hbelow.reply token _).unwind hidle ?_ (.inr handles) (hdecides.reply _ rfl)
        show Shaped _ l.running
        rw [hr]
        exact .handler run n handles
      · exact hbelow.answers hdecides hidle rfl hr _

end Steps

/-! ### Events -/

/-- An event was taken, and its handler is about to be called. -/
def Loop.took (l : Loop) (run : Bool) (n : Nat) (e : Event) : Loop :=
  { l with taken := e.onto l.taken, native := flattened l.native l.hub e, stack := [.poll run (.wait (n + 1)), .app] }

section Events

variable {l : Loop} {run : Bool} {n : Nat} {rest : List Layer} {e : Event} {id : Id}

theorem sockets_took : (l.took run n e).sockets = l.sockets := rfl

theorem servers_took : (l.took run n e).servers = l.servers := rfl

/-- What is the same for all events. -/
theorem Matched.took (h : Matched l) (run : Bool) (n : Nat) (hc : l.native.calls l.hub = .waited e) {sockets : Id → Option Socket}
    {declined told : Id → Bool} {heard : Id → List Event}
    (tables : Tables (l.native.reg.flatten l.hub e).1 l.hub sockets l.servers declined told)
    (flow : Flow l.native.objects l.hub ((flattened l.native l.hub e).mine l.hub) l.sent (e.onto l.taken) heard declined) :
    Synced { l.took run n e with sockets := sockets, declined := declined, told := told, heard := heard } := by
  refine ⟨h.ok.flatten hc, ?_, tables, flow, fun conn hconn => ?_, fun e' he => ?_⟩
  · have hubs : (l.native.reg.flatten l.hub e).1.hubs = l.native.reg.hubs := by cases e <;> rfl
    show (l.native.reg.flatten l.hub e).1.hubs l.hub = true
    rw [hubs]
    exact h.live
  · exact absurd (idle_flattened.symm.trans hconn) (by simp)
  · refine h.readable e' ?_
    rw [pending_flattened hc]
    exact List.mem_cons_of_mem _ he

theorem Matched.shaped_poll (h : Matched l) {phase : Phase} (hstack : l.stack = .poll run phase :: rest) :
    rest = [.app] ∧ l.running = true := by
  have hshaped := h.shaped
  rw [hstack] at hshaped
  generalize l.running = running at hshaped
  cases hshaped with
  | poll => exact ⟨rfl, rfl⟩
  | handler _ _ handles => cases handles
  | call calls => cases calls

/-- No request is decided while the loop waits. -/
theorem Matched.free (h : Matched l) (hstack : l.stack = .poll run (.wait n) :: rest) :
    Owed l.native.reg l.hub [] l.asked l.replies (l.native.pending l.hub) := by
  obtain ⟨out, htokens, howed⟩ := h.owed
  rw [hstack, (h.shaped_poll hstack).1] at htokens
  have hout : out = [] := List.map_eq_nil_iff.mp htokens.symm
  rw [← hout]
  exact howed

theorem Matched.owes_took (h : Matched l) (hstack : l.stack = .poll run (.wait n) :: rest)
    (hc : l.native.calls l.hub = .waited e) (ha : e.about = some id) (stack : List Layer)
    (tokens : stack.filterMap Layer.token = []) : (l.took run n e).Owes stack := by
  obtain ⟨held, order⟩ := h.free hstack
  refine ⟨[], tokens, fun t x => ?_, ?_⟩
  · have hreplies : (l.native.reg.flatten l.hub e).1.replies = l.native.reg.replies := by
      cases e <;> first | rfl | cases ha
    show (l.native.reg.flatten l.hub e).1.replies t = _ ↔ _
    rw [hreplies]
    exact held t x
  · have hsender : e.sender = none := by cases e <;> first | rfl | cases ha
    rw [pending_flattened hc, List.filterMap_cons_none hsender] at order
    exact order

/-- An event is emitted on its socket, which may be new or gone now. -/
theorem Matched.emitted (h : Matched l) (hstack : l.stack = .poll run (.wait n) :: rest)
    (hc : l.native.calls l.hub = .waited e) (ha : e.about = some id) (hd : l.declined id = false)
    {sockets : Id → Option Socket}
    (tables : Tables (l.native.reg.flatten l.hub e).1 l.hub sockets l.servers l.declined l.told) (fatal : Bool) :
    Matched ({ l.took run n e with sockets := sockets }.emit e fatal) := by
  have hmine := mine_flattened hc
  have heard : e.onto l.heard id = if l.declined id then [] else l.taken id ++ [e] := by
    rw [onto_self ha, h.flow.heard id, hd]
    rfl
  have flow := h.flow.takes ha (by rw [hmine id, if_pos ha]; rfl) (fun i hi => ⟨?_, onto_ne ha hi, rfl⟩) heard
  · have hsynced := h.took run n hc tables flow
    refine ⟨hsynced.at, ?_, idle_flattened,
      h.owes_took hstack hc ha _ rfl⟩
    show Shaped _ l.running
    rw [(h.shaped_poll hstack).2]
    exact .handler run (n + 1) rfl
  · rw [hmine i, if_neg (by rw [ha]; simpa using Ne.symm hi), List.nil_append]

/-- An event of a connection without a socket. -/
theorem Matched.dropped (h : Matched l) (hstack : l.stack = .poll run (.wait n) :: rest)
    (hc : l.native.calls l.hub = .waited e) (ha : e.about = some id) {declined told : Id → Bool}
    (hd : declined id = true) (others : ∀ i, i ≠ id → declined i = l.declined i) (quiet : l.heard id = [])
    (tables : Tables (l.native.reg.flatten l.hub e).1 l.hub l.sockets l.servers declined told) :
    Matched { l.took run n e with declined := declined, told := told } := by
  have hmine := mine_flattened hc
  have flow := h.flow.takes ha (by rw [hmine id, if_pos ha]; rfl) (fun i hi => ⟨?_, rfl, others i hi⟩)
    (by rw [quiet, hd]; rfl)
  · refine ⟨h.took run n hc tables flow, ?_, .inl idle_flattened, h.owes_took hstack hc ha _ rfl⟩
    show Shaped _ l.running
    rw [(h.shaped_poll hstack).2]
    exact .poll run _
  · rw [hmine i, if_neg (by rw [ha]; simpa using Ne.symm hi), List.nil_append]

/-- A connection that is registered has its socket, unless it was declined. -/
theorem Matched.front (h : Matched l) (hc : l.native.calls l.hub = .waited e) (ha : e.about = some id)
    (hn : e.isConnection = false) :
    l.native.reg.servers id = none ∧
      ((l.sockets id).isSome = true ∧ l.declined id = false ∨ l.sockets id = none ∧ l.declined id = true ∧ l.heard id = []) := by
  obtain ⟨stage, -, hserver, ⟨hconn, howner, -⟩ | ⟨-, -, hf, -⟩⟩ := h.ok.front hc ha
  · refine ⟨hserver, ?_⟩
    have hlisted := h.tables.listed id
    rw [hconn, howner] at hlisted
    cases hd : l.declined id with
    | false => exact .inl ⟨hlisted.mpr ⟨rfl, rfl, hd⟩, rfl⟩
    | true =>
      refine .inr ⟨?_, rfl, ?_⟩
      · simpa [hd] using hlisted
      · rw [h.flow.heard id, hd]
        rfl
  · exact absurd hf (by simp [hn])

/-- An event that leaves the registry alone. -/
theorem Matched.quiet (h : Matched l) (hstack : l.stack = .poll run (.wait n) :: rest)
    (hc : l.native.calls l.hub = .waited e) (ha : e.about = some id) (hn : e.isConnection = false)
    (hreg : (l.native.reg.flatten l.hub e).1 = l.native.reg) :
    (∀ s fatal opened, l.sockets id = some s →
      Matched (((l.took run n e).list id (some { s with opened := opened })).emit e fatal)) ∧
    ((l.sockets id).isSome = true → ∀ fatal, Matched ((l.took run n e).emit e fatal)) ∧
    (l.sockets id = none → Matched (l.took run n e)) := by
  have htables : Tables (l.native.reg.flatten l.hub e).1 l.hub l.sockets l.servers l.declined l.told := by
    rw [hreg]
    exact h.tables
  obtain ⟨-, ⟨hsome, hd⟩ | ⟨hnone, hd, hquiet⟩⟩ := h.front hc ha hn
  · refine ⟨fun s fatal opened hs => ?_, fun _ fatal => ?_, fun hnone => ?_⟩
    · exact h.emitted hstack hc ha hd (htables.mark hs opened) fatal
    · exact h.emitted hstack hc ha hd htables fatal
    · rw [hnone] at hsome
      cases hsome
  · refine ⟨fun s _ _ hs => ?_, fun hsome => ?_, fun _ => ?_⟩
    · exact absurd (hnone.symm.trans hs) (by simp)
    · rw [hnone] at hsome
      cases hsome
    · exact h.dropped hstack hc ha hd (fun _ _ => rfl) hquiet htables

theorem Matched.listed_event (h : Matched l) (hstack : l.stack = .poll run (.wait n) :: rest)
    (hc : l.native.calls l.hub = .waited e) (ha : e.about = some id) (hn : e.isConnection = false)
    (hreg : (l.native.reg.flatten l.hub e).1 = l.native.reg) : Matched ((l.took run n e).emitListed id e) := by
  obtain ⟨-, emitted, dropped⟩ := h.quiet hstack hc ha hn hreg
  rw [Loop.emitListed, sockets_took]
  cases hs : l.sockets id with
  | none => exact dropped hs
  | some s => exact emitted (by simp [hs]) false

theorem Matched.close_event (h : Matched l) {code : UInt16} {reason : Bytes} (hstack : l.stack = .poll run (.wait n) :: rest)
    (hc : l.native.calls l.hub = .waited (.close id code reason)) (token : Id) :
    Matched ((l.took run n (.close id code reason)).handle token (.close id code reason)) := by
  rw [Loop.handle, sockets_took]
  obtain ⟨hserver, ⟨hsome, hd⟩ | ⟨hnone, hd, hquiet⟩⟩ := h.front hc rfl rfl
  · rw [if_pos hsome]
    exact h.emitted hstack hc rfl hd (h.tables.ends hserver) false
  · have hkept : Function.update l.sockets id none = l.sockets := by
      rw [← hnone]
      exact Function.update_eq_self _ _
    have htables : Tables (l.native.reg.flatten l.hub (.close id code reason)).1 l.hub (Function.update l.sockets id none) l.servers
        l.declined l.told := h.tables.ends hserver
    rw [hkept] at htables
    rw [if_neg (by simp [hnone])]
    exact h.dropped hstack hc rfl hd (fun _ _ => rfl) hquiet htables

theorem Matched.connection_event (h : Matched l) {server : Id} {conn : Conn} {req : Request}
    (hstack : l.stack = .poll run (.wait n) :: rest)
    (hc : l.native.calls l.hub = .waited (.connection server conn req)) (token : Id) :
    Matched ((l.took run n (.connection server conn req)).handle token (.connection server conn req)) := by
  obtain ⟨stage, -, hserver, ⟨-, -, hf, -⟩ | ⟨-, howner, -⟩⟩ := h.ok.front hc (rfl : _ = some conn.id)
  · cases hf
  · have hmine := mine_flattened hc conn.id
    rw [if_pos (by rfl)] at hmine
    obtain ⟨htaken, hd⟩ := h.flow.announced hmine rfl
    have hread : (luaRequest (pack req)).isSome = true :=
      h.readable (.connection server conn req) (by rw [pending_flattened hc]; exact List.mem_cons_self)
    simp only [Loop.handle, servers_took, hread, if_true]
    split
    · refine h.dropped hstack hc rfl (Function.update_self _ _ _) (fun i hi => Function.update_of_ne hi _ _) ?_
        (h.tables.decline hserver howner)
      rw [h.flow.heard conn.id, hd, htaken]
      rfl
    · rename_i s hs
      refine h.emitted hstack hc rfl hd (h.tables.insertConn hserver hd fun v hv => ?_) false
      cases hv
      simp [hs]

theorem Matched.request_event (h : Matched l) {server : Id} {req : Request} {reply : ReplySender}
    (hstack : l.stack = .poll run (.wait n) :: rest) (hc : l.native.calls l.hub = .waited (.request server req reply)) :
    Matched ((l.took run n (.request server req reply)).handle (l.native.reg.next + 1) (.request server req reply)) := by
  have hrunning := (h.shaped_poll hstack).2
  have hflow : Flow l.native.objects l.hub ((flattened l.native l.hub (.request server req reply)).mine l.hub) l.sent l.taken l.heard
      l.declined := by
    have hmine : (flattened l.native l.hub (.request server req reply)).mine l.hub = l.native.mine l.hub := by
      funext i
      rw [mine_flattened hc i, if_neg (by simp [Event.about])]
      rfl
    rw [hmine]
    exact h.flow
  have hsynced : Synced (l.took run n (.request server req reply)) :=
    h.took run n hc ⟨h.tables.listed, h.tables.serving, h.tables.leaving, h.tables.refused⟩ hflow
  have hdecides : (l.took run n (.request server req reply)).Decides (l.native.reg.next + 1) := by
    obtain ⟨held, order⟩ := h.free hstack
    refine ⟨reply, fun t x => ?_, ?_⟩
    · by_cases ht : t = l.native.reg.next + 1
      · subst ht
        simp [Loop.took, flattened, Registry.flatten, Registry.token, eq_comm]
      · have hnone := held t x
        simpa [Loop.took, flattened, Registry.flatten, Registry.token, ht] using hnone
    · rw [pending_flattened hc] at order
      simpa [Event.sender, Loop.took] using order
  have hread := h.readable (.request server req reply) (by rw [pending_flattened hc]; exact List.mem_cons_self)
  obtain ⟨table, htable⟩ := Option.isSome_iff_exists.mp hread
  simp only [Loop.handle, servers_took, htable]
  split
  · exact hsynced.answers hdecides idle_flattened rfl hrunning _
  · split
    · refine ⟨hsynced.at, ?_,
        idle_flattened, ?_⟩
      · show Shaped _ l.running
        rw [hrunning]
        exact .callback run (n + 1) rfl
      · obtain ⟨x, howed⟩ := hdecides
        exact ⟨[(_, x)], rfl, howed⟩
    · exact hsynced.accepts hdecides idle_flattened rfl hrunning _

theorem Matched.dispatch (h : Matched l) (hstack : l.stack = .poll run (.wait n) :: rest) (hc : l.native.calls l.hub = .waited e) :
    Matched ((l.took run n e).handle (l.took run n e).native.reg.next e) := by
  cases e with
  | request server req reply => exact h.request_event hstack hc
  | connection server conn req => exact h.connection_event hstack hc _
  | close id code reason => exact h.close_event hstack hc _
  | opened id =>
    obtain ⟨marked, -, dropped⟩ := h.quiet hstack hc rfl rfl rfl
    simp only [Loop.handle, sockets_took]
    split
    · exact marked _ _ _ ‹_›
    · exact dropped ‹_›
  | error id error =>
    obtain ⟨-, emitted, dropped⟩ := h.quiet hstack hc rfl rfl rfl
    simp only [Loop.handle, sockets_took]
    split
    · rename_i hs
      exact emitted (by simp [hs]) _
    · exact dropped ‹_›
  | _ => exact h.listed_event hstack hc rfl rfl rfl

end Events

/-! ## Whole runs -/

section Runs

variable {l l' : Loop} {native : Sys}

theorem Matched.ends (h : Matched l) {run : Bool} {phase : Phase} {rest : List Layer} (hstack : l.stack = .poll run phase :: rest)
    (idle : l.native.calls l.hub = .idle) (active : Bool) : Matched (l.ends run active rest) := by
  obtain ⟨rfl, hrunning⟩ := h.shaped_poll hstack
  rw [Loop.ends]
  split
  · refine h.moves ?_ idle (by rw [hstack]; rfl)
    rw [hrunning]
    exact .poll run .before
  · exact h.moves .main idle (by rw [hstack]; rfl)

theorem Matched.goOn (h : Matched l) {pending : Bool} (hs : l.goOn pending l.stack = some l') : Matched l' := by
  have hfits := h.fits
  have poll {run : Bool} {phase phase' : Phase} {rest : List Layer} (hstack : l.stack = .poll run phase :: rest)
      (fits : Fits [.poll run phase', .app] (l.native.calls l.hub)) : Matched { l with stack := .poll run phase' :: rest } := by
    obtain ⟨rfl, hrunning⟩ := h.shaped_poll hstack
    refine h.moves ?_ fits (by rw [hstack]; rfl)
    rw [hrunning]
    exact .poll run phase'
  generalize hstack : l.stack = stack at hs hfits
  unfold Loop.goOn at hs
  split at hs
  · split at hs
    · cases hs
      exact poll hstack (.inl hfits)
    · cases hs
      exact h.ends hstack hfits _
  · split at hs
    · rename_i hn
      cases hs
      refine poll hstack ?_
      rcases hfits with hidle | ⟨hlt, -⟩
      · exact hidle
      · exact absurd hn (Nat.ne_of_lt hlt)
    · cases hs
  · cases hs
    exact h.ends hstack hfits _
  · cases hs
    have hshaped := h.shaped
    rw [hstack] at hshaped
    generalize hr : l.running = running at hshaped
    cases hshaped with
    | call calls => cases calls
    | handler run n handles =>
      exact h.moves (.poll run _) (.inl hfits) (by rw [hstack]; rfl)
  · cases hs

/-- Application code is called by the loop. -/
theorem Matched.callback (h : Matched l) {a : Layer} {rest : List Layer} (hstack : l.stack = a :: rest)
    (ha : a.handles = true ∨ ∃ run phase, a = .poll run phase ∧ phase.waits = false) :
    Matched { l with stack := .app :: l.stack } := by
  have hshaped := h.shaped
  have hfits := h.fits
  rw [hstack] at hshaped hfits
  refine h.moves ?_ ?_ rfl
  · rw [hstack]
    generalize l.running = running at hshaped
    rcases ha with handles | ⟨run, phase, rfl, waits⟩
    · cases hshaped with
      | main | poll | fire | callback => cases handles
      | handler run n => exact .callback run n handles
      | call calls => exact absurd calls (by simp [Layer.calls_of_handles handles])
    · cases hshaped with
      | poll => exact .fire run waits
      | handler _ _ handles => cases handles
      | call calls => cases calls
  · rcases ha with handles | ⟨run, phase, rfl, waits⟩
    · cases a with
      | request | emit => exact hfits
      | _ => cases handles
    · cases phase with
      | wait => cases waits
      | _ => exact hfits

/-- Application code returns. -/
theorem Matched.returns (h : Matched l) {rest : List Layer} (hstack : l.stack = .app :: rest) : Matched { l with stack := rest } := by
  have hshaped := h.shaped
  have hidle := h.fits
  rw [hstack] at hshaped hidle
  generalize hr : l.running = running at hshaped
  refine h.moves ?_ ?_ (by rw [hstack]; rfl)
  · cases hshaped with
    | main => exact .ended
    | fire run => exact .poll run _
    | handler _ _ handles => cases handles
    | callback run n handles => exact .handler run n handles
    | call calls => cases calls
  · cases hshaped with
    | main => exact hidle
    | @fire run phase timers =>
      cases phase with
      | wait => cases timers
      | _ => exact hidle
    | handler _ _ handles => cases handles
    | @callback run n a handles =>
      cases a with
      | request | emit => exact hidle
      | _ => cases handles
    | call calls => cases calls

theorem readable_of_read {head : Bytes} {addr : SocketAddr} {req : Request} (h : readRequest head addr = some req) :
    (luaRequest (pack req)).isSome = true := by
  rw [readRequest] at h
  split at h
  · rename_i r hr
    cases h
    rw [luaRequest_pack hr]
    rfl
  · cases h

/-- Requests come from heads that were read. -/
theorem readable_foreign {lab : Native.Label} {e : Event} (hf : l.foreign lab = true) (hs : l.native.step lab = some native)
    (h : l.native.arrives l.hub lab = some e) : Readable e := by
  cases lab with
  | ask server req reply => cases hf
  | emit id e' =>
    simp only [Sys.arrives] at h
    split at h
    · cases h
      cases e with
      | connection server conn req => cases hf
      | request server req reply =>
        simp only [Sys.step] at hs
        split at hs <;> simp [Event.about] at hs
      | _ => trivial
    · cases h
  | _ => cases h

theorem foreign_spec {lab : Native.Label} (hf : l.foreign lab = true) :
    l.native.actor lab ≠ some l.hub ∧ l.native.proper lab = true := by
  unfold Loop.foreign at hf
  split at hf
  · cases hf
  · cases hf
  · simpa using hf

/-- A task has read a head, and sends what it read. -/
theorem Matched.reads (h : Matched l) {head : Bytes} {addr : SocketAddr} {lab : Request → Native.Label}
    (hs : ((readRequest head addr).bind fun req => l.tasks (lab req)) = some l')
    (hact : ∀ req, l.native.actor (lab req) = none ∧ l.native.proper (lab req) = true)
    (read : ∀ req e, l.native.arrives l.hub (lab req) = some e → (luaRequest (pack req)).isSome = true → Readable e) :
    Matched l' := by
  obtain ⟨req, hread, hs⟩ := Option.bind_eq_some_iff.mp hs
  refine h.tasks hs ?_ (hact req).2 fun e he => read req e he (readable_of_read hread)
  rw [(hact req).1]
  exact nofun

theorem Matched.idle (h : Matched l) {rest : List Layer} (hstack : l.stack = .app :: rest) : l.native.calls l.hub = .idle := by
  have hfits := h.fits
  rw [hstack] at hfits
  exact hfits

theorem Matched.calling (h : Matched l) {a : Layer} {rest : List Layer} (hstack : l.stack = .app :: rest) (ha : a.calls = true) :
    Shaped (a :: l.stack) l.running := by
  have hshaped := h.shaped
  rw [hstack] at hshaped ⊢
  exact .call ha hshaped

/-- A call that came to nothing returns to its caller. -/
theorem Matched.caller (h : Matched l) {a : Layer} {rest : List Layer} (hstack : l.stack = a :: rest) (ha : a.calls = true) :
    Shaped rest l.running ∧ Fits rest .idle ∧ rest.filterMap Layer.token = l.stack.filterMap Layer.token := by
  have hshaped := h.shaped
  rw [hstack] at hshaped
  obtain ⟨below, more, rfl⟩ := hshaped.caller ha
  refine ⟨below, rfl, ?_⟩
  rw [hstack]
  cases a with
  | connecting | listening => rfl
  | _ => cases ha

theorem Matched.step (h : Matched l) {lab : Step} (hs : l.step lab = some l') : Matched l' := by
  cases lab with
  | native lab =>
    simp only [Loop.step] at hs
    split at hs
    · rename_i hf
      obtain ⟨hact, proper⟩ := foreign_spec hf
      refine h.tasks hs hact proper fun e he => ?_
      obtain ⟨native, hn, -⟩ := Option.map_eq_some_iff.mp hs
      exact readable_foreign hf hn he
    · cases hs
  | ask | announce =>
    refine h.reads hs (fun req => ⟨rfl, rfl⟩) fun req e he hread => ?_
    simp only [Sys.arrives] at he
    split at he
    · cases he
      exact hread
    · cases he
  | start =>
    simp only [Loop.step] at hs
    split at hs
    · rename_i hstack
      cases hs
      have hshaped := h.shaped
      have hidle := h.fits
      rw [hstack] at hshaped hidle
      refine h.moves ?_ hidle (by rw [hstack]; rfl)
      generalize l.running = running at hshaped
      cases hshaped
      exact .main
    · cases hs
  | connect | listen =>
    simp only [Loop.step] at hs
    split at hs
    · rename_i hstack
      exact h.call hs (h.begins _) ⟨rfl, rfl, rfl⟩ rfl rfl rfl (by simp) (h.calling hstack rfl) (.inl rfl) rfl
    · cases hs
  | refused | failed =>
    simp only [Loop.step] at hs
    split at hs
    · rename_i hstack
      obtain ⟨shaped, fits, tokens⟩ := h.caller hstack rfl
      exact h.call hs rfl ⟨rfl, rfl, rfl⟩ rfl rfl rfl (by simp) shaped fits tokens
    · cases hs
  | connected | listened =>
    simp only [Loop.step] at hs
    split at hs
    · rename_i hstack
      refine h.call hs rfl ⟨rfl, rfl, rfl⟩ rfl rfl rfl (by rintro conn ⟨⟩ <;> rfl) h.shaped ?_ rfl
      rw [hstack]
      exact .inr ⟨_, rfl⟩
    · cases hs
  | insertConn =>
    simp only [Loop.step] at hs
    split at hs
    · exact h.insertConn ‹_› ‹_› hs
    · cases hs
  | insertServer =>
    simp only [Loop.step] at hs
    split at hs
    · exact h.insertServer ‹_› ‹_› hs
    · cases hs
  | close server =>
    simp only [Loop.step] at hs
    split at hs
    · cases hs
      exact h.close server
    · cases hs
  | poll run =>
    simp only [Loop.step] at hs
    split at hs
    · rename_i hstack
      split at hs
      · cases hs
        exact h
      · rename_i hr
        cases hs
        have hshaped := h.shaped
        rw [hstack, Bool.eq_false_of_not_eq_true hr] at hshaped
        refine h.moves ?_ (h.idle hstack) rfl
        rw [hstack]
        cases hshaped with
        | main => exact .poll run .before
        | call calls => cases calls
    · cases hs
  | callback =>
    simp only [Loop.step] at hs
    split at hs
    · cases hs
      exact h.callback ‹_› (.inr ⟨_, _, rfl, rfl⟩)
    · cases hs
      exact h.callback ‹_› (.inr ⟨_, _, rfl, rfl⟩)
    · cases hs
      exact h.callback ‹_› (.inl rfl)
    · cases hs
  | returns =>
    simp only [Loop.step] at hs
    split at hs
    · cases hs
      exact h.returns ‹_›
    · cases hs
  | raise =>
    have hshaped := h.shaped
    have howed := h.owed
    have hfits := h.fits
    simp only [Loop.step] at hs
    split at hs
    · rename_i hstack
      cases hs
      rw [hstack] at hshaped howed hfits
      exact h.toSynced.unwind hfits hshaped (.inl rfl) howed
    · rename_i hstack
      cases hs
      rw [hstack] at hshaped howed hfits
      exact h.toSynced.unwind hfits hshaped (.inr rfl) howed
    · cases hs
  | decide refused req =>
    simp only [Loop.step] at hs
    split at hs
    · cases hs
      exact h.decided ‹_› req refused
    · cases hs
  | go pending => exact h.goOn hs
  | wait =>
    simp only [Loop.step] at hs
    split at hs
    · rename_i hstack
      split at hs
      · rename_i hn
        refine h.call hs (h.begins _) ⟨rfl, rfl, rfl⟩ rfl rfl rfl (by simp) h.shaped ?_ rfl
        rw [hstack]
        exact .inr ⟨hn, .inl rfl⟩
      · cases hs
    · cases hs
  | timeout =>
    simp only [Loop.step] at hs
    split at hs
    · rename_i hstack
      obtain ⟨rfl, hrunning⟩ := h.shaped_poll hstack
      refine h.call hs rfl ⟨rfl, rfl, rfl⟩ rfl rfl rfl (by simp) ?_ rfl ?_
      · rw [hrunning]
        exact .poll _ _
      · rw [hstack]
        rfl
    · cases hs
  | recv =>
    simp only [Loop.step] at hs
    split at hs
    · exact h.recv ‹_› hs
    · cases hs
  | dispatch =>
    simp only [Loop.step] at hs
    split at hs
    · rename_i hstack hc
      obtain ⟨l₁, hcall, rfl⟩ := Option.map_eq_some_iff.mp hs
      obtain ⟨native, hn, rfl⟩ := Option.map_eq_some_iff.mp hcall
      simp only [Sys.step, hc] at hn
      cases hn
      obtain ⟨rfl, -⟩ := h.shaped_poll hstack
      exact h.dispatch hstack hc
    · cases hs

theorem Matched.init (h : Reachable Sys.properStep .init native) : Matched (.init native) := by
  have ok := Ok.of_reachable h
  -- nothing refers to a hub that was not made before
  have hnew : native.reg.hubs (native.reg.next + 1) ≠ true := fun hub =>
    absurd (ok.hubs _ hub) (Nat.not_succ_le_self _)
  have howner (id : Id) : native.reg.owners id ≠ some (native.reg.next + 1) := fun hown =>
    hnew (ok.consistent.owners id _ hown)
  have hidle : native.calls (native.reg.next + 1) = .idle := by
    by_contra hne
    exact hnew (ok.calls _ hne)
  have hpending : native.pending (native.reg.next + 1) = [] := by
    rw [Sys.pending, hidle, queues_new h (Nat.lt_succ_self _)]
    rfl
  have hnone (id : Id) : native.mine (native.reg.next + 1) id = [] := by
    rw [Sys.mine, hpending]
    rfl
  refine ⟨⟨ok.hub, Function.update_self _ _ _, ⟨fun id => ?_, fun id => ?_, by rintro _ _ _ ⟨⟩, by rintro _ ⟨⟩⟩, ⟨fun id => ?_, fun id hid => ?_,
    by rintro _ _ ⟨⟩, fun _ _ => rfl, fun _ => rfl, by rintro _ ⟨⟩⟩, fun _ _ => rfl, fun e he => ?_⟩, .main, hidle, [], rfl, fun t x => ?_, ?_⟩
  · exact ⟨by rintro ⟨⟩, fun hown => absurd hown.1 (howner id)⟩
  · exact ⟨by rintro ⟨⟩, fun hown => absurd hown.1 (howner id)⟩
  · exact (hnone id).symm
  · exact absurd rfl hid
  · have he : e ∈ native.pending (native.reg.next + 1) := he
    rw [hpending] at he
    cases he
  · exact ⟨fun ht => absurd (ok.replies t _ x ht).1 hnew, by rintro ⟨⟩⟩
  · show [] = [] ++ [] ++ (native.pending (native.reg.next + 1)).filterMap Event.sender
    rw [hpending]
    rfl

theorem Matched.of_reachable (hn : Reachable Sys.properStep .init native) (h : Reachable Loop.step (.init native) l) : Matched l := by
  apply h.invariant (.init hn)
  intro u lab v _ hu hv
  exact hu.step hv

theorem Matched.listed_iff (h : Matched l) :
    l.listed = true ↔ ∃ id, l.native.reg.owners id = some l.hub ∧ l.declined id = false := by
  have numbered {id : Id} (hown : l.native.reg.owners id = some l.hub) : id < l.native.nextId := by
    by_contra hle
    have hnone := h.ok.fresh id (Nat.le_of_not_lt hle)
    cases h.ok.entry id with
    | unused _ _ _ w => exact absurd (w.symm.trans hown) (by simp)
    | listening o | unlistened o | linked o | unlinked o => exact absurd (hnone.symm.trans o) (by simp)
  constructor
  · intro hl
    obtain ⟨id, -, hid⟩ := List.any_eq_true.mp hl
    rcases Bool.or_eq_true_iff.mp hid with hs | hs
    · obtain ⟨hown, -, hd⟩ := (h.tables.listed id).mp hs
      exact ⟨id, hown, hd⟩
    · obtain ⟨hown, hserver⟩ := (h.tables.serving id).mp hs
      refine ⟨id, hown, ?_⟩
      cases hd : l.declined id with
      | false => rfl
      | true =>
        -- what was declined had sent something, so it is a connection
        have hsent : l.sent id ≠ [] := fun hnil => h.flow.declined id hd (h.flow.taken_nil hnil)
        obtain ⟨stage, ho⟩ := h.flow.own id hsent
        rw [link_server h.ok ho] at hserver
        cases hserver
  · rintro ⟨id, hown, hd⟩
    refine List.any_eq_true.mpr ⟨id, List.mem_range.mpr (numbered hown), Bool.or_eq_true_iff.mpr ?_⟩
    rcases (h.ok.consistent.owned id).mp (by rw [hown]; rfl) with hc | hv
    · exact .inl ((h.tables.listed id).mpr ⟨hown, hc, hd⟩)
    · exact .inr ((h.tables.serving id).mpr ⟨hown, hv⟩)

end Runs

def visitHead : Bytes :=
  Handshake.clientRequest ⟨true, ascii "a.b", 444, ascii "/?q", ascii "a.b:444"⟩ (Base64.encode (List.replicate 16 0))
    [ascii "v2", ascii "v1"] [(ascii "X-Id", ascii " 7\t")]

/-- A server is closed when one client has asked and another one was let in, and the loop runs on for a connection
of its own. -/
def visitRun : List Step :=
  let addr : SocketAddr := ⟨.v4 127 0 0 1, 9001⟩
  [.listen ⟨false, fun _ => false⟩, .listened, .insertServer, .connect, .connected, .insertConn,
    .ask 1 visitHead addr ⟨7⟩, .native (.accepted 1), .announce 3 1 visitHead addr, .native (.emit 2 (.opened 2)),
    .ask 1 visitHead addr ⟨8⟩, .native (.emit 2 (.message 2 [104] false)), .close 1,
    .poll true, .go false, .wait, .recv, .dispatch, .wait, .recv, .dispatch, .wait, .recv, .dispatch]

theorem visit : ∃ l, runs Loop.step (.init .init) visitRun = some l ∧ l.hub = 1 ∧ (l.sockets 2).isSome = true ∧
    l.declined 3 = true ∧ l.native.reg.owners 3 = some 1 ∧ l.replies = [(⟨7⟩, ⟨503, none⟩)] ∧ l.asked = [⟨7⟩, ⟨8⟩] ∧
    l.heard 2 = [.opened 2] ∧ l.sent 2 = [.opened 2, .message 2 [104] false] := by
  have hrun : (runs Loop.step (.init .init) visitRun).any (fun l => decide (l.hub = 1 ∧ (l.sockets 2).isSome = true ∧
    l.declined 3 = true ∧ l.native.reg.owners 3 = some 1 ∧ l.replies = [(⟨7⟩, ⟨503, none⟩)] ∧ l.asked = [⟨7⟩, ⟨8⟩] ∧
    l.heard 2 = [.opened 2] ∧ l.sent 2 = [.opened 2, .message 2 [104] false])) = true := by decide +kernel
  obtain ⟨l, hl, hfacts⟩ := (Option.any_eq_true _ _).mp hrun
  exact ⟨l, hl, of_decide_eq_true hfacts⟩

section Results

variable {l : Loop} {native : Sys}

/-- In every run, `loop.sockets` has the connections that the registry has for the hub, but for those
that were declined, and `loop.servers` its servers; so `loop.run` goes on as long as the registry has anything
else for the hub. Connections of servers that were closed were told to go away. -/
theorem tables_agree (hn : Reachable Sys.properStep .init native) (h : Reachable Loop.step (.init native) l) :
    (∀ id, (l.sockets id).isSome = true ↔
      l.native.reg.owners id = some l.hub ∧ (l.native.reg.conns id).isSome = true ∧ l.declined id = false) ∧
    (∀ id, (l.servers id).isSome = true ↔ l.native.reg.owners id = some l.hub ∧ (l.native.reg.servers id).isSome = true) ∧
    (l.listed = true ↔ ∃ id, l.native.reg.owners id = some l.hub ∧ l.declined id = false) ∧
    (∀ id s v, l.sockets id = some s → s.server = some v → l.servers v = none → l.told id = true) ∧
    ∀ id, l.declined id = true → l.told id = true := by
  have agrees := Matched.of_reachable hn h
  exact ⟨agrees.tables.listed, agrees.tables.serving, agrees.listed_iff, agrees.tables.leaving, agrees.tables.refused⟩

theorem tables_agree_visit :
    ∃ l, runs Loop.step (.init .init) visitRun = some l ∧ l.native.reg.owners 2 = some l.hub ∧ l.listed = true ∧
      l.declined 3 = true ∧ l.told 3 = true := by
  obtain ⟨l, hl, -, hsocket, hdeclined, -⟩ := visit
  obtain ⟨sockets, -, listed, -, told⟩ := @tables_agree l .init (.refl _) ⟨visitRun, hl⟩
  obtain ⟨howner, -, hd⟩ := (sockets 2).mp hsocket
  exact ⟨l, hl, howner, listed.mpr ⟨2, howner, hd⟩, hdeclined, told 3 hdeclined⟩

/-- In every run, the loop takes the events of each connection once each, in the order in which the connection
sent them, and emits all of them, unless the connection's server was closed before it was announced. -/
theorem events_delivered (hn : Reachable Sys.properStep .init native) (h : Reachable Loop.step (.init native) l) (id : Id) :
    l.sent id = l.taken id ++ l.native.mine l.hub id ∧ l.heard id = if l.declined id then [] else l.taken id := by
  have agrees := Matched.of_reachable hn h
  exact ⟨agrees.flow.split id, agrees.flow.heard id⟩

theorem events_delivered_visit :
    ∃ l, runs Loop.step (.init .init) visitRun = some l ∧ l.heard 2 = [.opened 2] ∧
      l.sent 2 = l.taken 2 ++ l.native.mine l.hub 2 ∧ l.heard 3 = [] := by
  obtain ⟨l, hl, -, -, hdeclined, -, -, -, hheard, -⟩ := visit
  have second := @events_delivered l .init (.refl _) ⟨visitRun, hl⟩ 2
  have third := @events_delivered l .init (.refl _) ⟨visitRun, hl⟩ 3
  rw [hdeclined] at third
  exact ⟨l, hl, hheard, second.1, third.2⟩

end Results

end WebSocket.Lua
