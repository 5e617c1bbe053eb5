import WebSocket.Lua.Loop

/-!
# Lua and the registry agree

The tables of `ws/loop.lua` are kept by hand: `loop.sockets` and `loop.servers` are written by the calls and the
handlers, while the registry changes under the native calls. Here they are compared, over every
run of the application and the tasks.

Three things are kept apart. `Tables` is what Lua has against what the registry has for the hub. `Flow` follows
the events of each connection, from its task through the channel of the hub to the handlers. `Owed` follows
the requests to their replies.
-/

namespace WebSocket.Lua

open Proto Lib Lib.Transition Lib.Text Native

/-! ## The events of each connection -/

/-- `mine` are the events of each connection that wait in the channel of the hub, or in a call that has
received them. -/
structure Flow (objects : Id → Option Object) (hub : Id) (mine sent taken heard : Id → List Event)
    (declined : Id → Bool) : Prop where
  split : ∀ id, sent id = taken id ++ mine id
  own : ∀ id, sent id ≠ [] → ∃ stage, objects id = some (.link hub stage)
  first : ∀ id, ∀ e ∈ (sent id).tail, e.isConnection = false
  unannounced : ∀ id, objects id = some (.link hub .unannounced) → sent id = []
  heard : ∀ id, heard id = if declined id then [] else taken id
  declined : ∀ id, declined id = true → taken id ≠ []

section Flow

variable {objects objects' : Id → Option Object} {hub id : Id} {mine mine' sent taken heard heard' : Id → List Event}
  {declined declined' : Id → Bool} {e : Event} {rest : List Event}

variable (h : Flow objects hub mine sent taken heard declined)

include h

theorem Flow.sent_nil
    (ho : ∀ stage, objects id ≠ some (.link hub stage)) : sent id = [] := by
  by_contra hs
  obtain ⟨stage, hstage⟩ := h.own id hs
  exact ho stage hstage

theorem Flow.taken_nil (hs : sent id = []) : taken id = [] := by
  have hsplit := h.split id
  rw [hs] at hsplit
  exact (List.append_eq_nil_iff.mp hsplit.symm).1

/-- New objects, or links that moved on. -/
theorem Flow.moves
    (stay : ∀ i stage, objects i = some (.link hub stage) → ∃ stage', objects' i = some (.link hub stage'))
    (fresh : ∀ i, objects' i = some (.link hub .unannounced) → objects i = objects' i ∨ objects i = none) :
    Flow objects' hub mine sent taken heard declined := by
  refine ⟨h.split, fun i hi => ?_, h.first, fun i hi => ?_, h.heard, h.declined⟩
  · obtain ⟨stage, hstage⟩ := h.own i hi
    exact stay i stage hstage
  · rcases fresh i hi with heq | hnone
    · exact h.unannounced i (heq.trans hi)
    · exact h.sent_nil (by simp [hnone])

omit h in
/-- `Flow.moves`, for the steps there are. -/
theorem Flow.step {s s' : Sys} {lab : Native.Label} (h : Flow s.objects hub mine sent taken heard declined) (ok : Ok s)
    (hs : s.step lab = some s') : Flow s'.objects hub mine sent taken heard declined := by
  refine h.moves (fun i stage hi => ?_) fun i hi => ?_
  · rcases ok.objects_step hs i with heq | hnone | ⟨g, stage₁, e, stage', -, ho, -, -, ho'⟩
    · exact ⟨stage, heq.trans hi⟩
    · exact absurd (hnone.symm.trans hi) (by simp)
    · cases ho.symm.trans hi
      exact ⟨stage', ho'⟩
  · rcases ok.objects_step hs i with heq | hnone | ⟨g, stage, e, stage', -, -, -, after, ho'⟩
    · exact .inl heq.symm
    · exact .inr hnone
    · cases ho'.symm.trans hi
      cases stage <;> cases e <;> cases after

/-- A connection of the hub sends an event. -/
theorem Flow.sends {stage stage' : Stage}
    (ho : objects id = some (.link hub stage)) (ha : e.about = some id) (after : stage.after e = some stage')
    (more : ∀ i, mine' i = mine i ++ if e.about = some i then [e] else []) :
    Flow (Function.update objects id (some (.link hub stage'))) hub mine' (e.onto sent) taken heard declined := by
  refine ⟨fun i => ?_, fun i hi => ?_, fun i => ?_, fun i hi => ?_, h.heard, h.declined⟩
  · by_cases hid : e.about = some i
    · rw [onto_self hid, more i, if_pos hid, h.split i, List.append_assoc]
    · rw [onto_other hid, more i, if_neg hid, h.split i, List.append_nil]
  · by_cases hid : i = id
    · subst hid
      exact ⟨stage', Function.update_self _ _ _⟩
    · rw [onto_ne ha hid] at hi
      rw [Function.update_of_ne hid]
      exact h.own i hi
  · by_cases hid : e.about = some i
    · cases ha.symm.trans hid
      rw [onto_self ha]
      cases stage with
      | unannounced => simp [h.unannounced id ho]
      | closed => cases after
      | live =>
        have hplain : e.isConnection = false := by
          cases hc : e.isConnection with
          | false => rfl
          | true => simp [Stage.after, hc] at after
        intro e' he'
        cases hsent : sent id with
        | nil => simp [hsent] at he'
        | cons a p =>
          rw [hsent, List.cons_append, List.tail_cons] at he'
          rcases List.mem_append.mp he' with he' | he'
          · exact h.first id e' (by rw [hsent]; exact he')
          · cases List.mem_singleton.mp he'
            exact hplain
    · rw [onto_other hid]
      exact h.first i
  · have hid : i ≠ id := by
      rintro rfl
      rw [Function.update_self] at hi
      cases hi
      cases stage <;> cases e <;> cases after
    rw [onto_ne ha hid]
    rw [Function.update_of_ne hid] at hi
    exact h.unannounced i hi

/-- The announcement is the first event of a connection. -/
theorem Flow.announced (hmine : mine id = e :: rest)
    (hc : e.isConnection = true) : taken id = [] ∧ declined id = false := by
  have htaken : taken id = [] := by
    cases ht : taken id with
    | nil => rfl
    | cons a p =>
      have hmem : e ∈ (sent id).tail := by
        rw [h.split id, ht, hmine]
        simp
      exact absurd (h.first id e hmem) (by simp [hc])
  refine ⟨htaken, ?_⟩
  cases hd : declined id with
  | false => rfl
  | true => exact absurd htaken (h.declined id hd)

/-- The loop takes an event; the connection hears of it, unless it is declined now. -/
theorem Flow.takes (ha : e.about = some id) (hmine : mine id = e :: mine' id)
    (others : ∀ i, i ≠ id → mine' i = mine i ∧ heard' i = heard i ∧ declined' i = declined i)
    (told : heard' id = if declined' id then [] else taken id ++ [e]) :
    Flow objects hub mine' sent (e.onto taken) heard' declined' := by
  refine ⟨fun i => ?_, h.own, h.first, h.unannounced, fun i => ?_, fun i hi => ?_⟩
  · by_cases hid : i = id
    · subst hid
      rw [onto_self ha, h.split i, hmine, List.append_assoc, List.singleton_append]
    · rw [onto_ne ha hid, (others i hid).1]
      exact h.split i
  · by_cases hid : i = id
    · subst hid
      rw [onto_self ha]
      exact told
    · rw [onto_ne ha hid, (others i hid).2.1, (others i hid).2.2]
      exact h.heard i
  · by_cases hid : i = id
    · subst hid
      rw [onto_self ha]
      simp
    · rw [onto_ne ha hid]
      rw [(others i hid).2.2] at hi
      exact h.declined i hi

end Flow

/-! ## The requests -/

/-- `out` are the requests that were taken and have no reply yet, with their tokens. -/
structure Owed (reg : Registry) (hub : Id) (out : List (Id × ReplySender)) (asked : List ReplySender)
    (replies : List (ReplySender × ReplyCall)) (pending : List Event) : Prop where
  held : ∀ t x, reg.replies t = some (hub, x) ↔ (t, x) ∈ out
  order : asked = replies.map (·.1) ++ out.map (·.2) ++ pending.filterMap Event.sender

/-! ## The tables -/

structure Tables (reg : Registry) (hub : Id) (sockets : Id → Option Socket) (servers : Id → Option Server)
    (declined told : Id → Bool) : Prop where
  listed : ∀ id, (sockets id).isSome = true ↔
    reg.owners id = some hub ∧ (reg.conns id).isSome = true ∧ declined id = false
  serving : ∀ id, (servers id).isSome = true ↔ reg.owners id = some hub ∧ (reg.servers id).isSome = true
  leaving : ∀ id s v, sockets id = some s → s.server = some v → servers v = none → told id = true
  refused : ∀ id, declined id = true → told id = true

section Tables

variable {reg reg' : Registry} {hub id : Id} {out : List (Id × ReplySender)} {asked : List ReplySender}
  {replies : List (ReplySender × ReplyCall)} {pending : List Event} {sockets : Id → Option Socket}
  {servers : Id → Option Server} {declined told : Id → Bool}

theorem Owed.same (h : Owed reg hub out asked replies pending) (same : reg.Same hub reg') :
    Owed reg' hub out asked replies pending :=
  ⟨fun t x => (same.replies t x).trans (h.held t x), h.order⟩

theorem Owed.reply {token : Id} {x : ReplySender} (h : Owed reg hub [(token, x)] asked replies pending)
    (call : ReplyCall) :
    Owed (reg.takeReply token).1 hub [] asked (replies ++ (reg.takeReply token).2.toList.map fun x => (x, call)) pending := by
  have hx : reg.replies token = some (hub, x) := (h.held token x).mpr (by simp)
  refine ⟨fun t y => ?_, ?_⟩
  · by_cases ht : t = token
    · subst ht
      simp [Registry.takeReply]
    · have hy := h.held t y
      simp only [List.mem_singleton, Prod.mk.injEq, ht, false_and, iff_false] at hy
      simpa [Registry.takeReply, ht] using hy
  · rw [h.order]
    simp [Registry.takeReply, hx]

variable (h : Tables reg hub sockets servers declined told)

include h

theorem Tables.same (same : reg.Same hub reg') :
    Tables reg' hub sockets servers declined told := by
  refine ⟨fun id => ?_, fun id => ?_, h.leaving, h.refused⟩
  · rw [h.listed id, same.owners id]
    refine and_congr_right fun hown => ?_
    rw [(same.entries id hown).1]
  · rw [h.serving id, same.owners id]
    refine and_congr_right fun hown => ?_
    rw [(same.entries id hown).2]

theorem Tables.not_serving (hserver : reg.servers id = none) :
    servers id = none := by
  have hserving := h.serving id
  simpa [hserver] using hserving

theorem Tables.not_listed
    (hconn : reg.owners id = none ∨ reg.conns id = none) : sockets id = none := by
  have hlisted := h.listed id
  rcases hconn with howner | hconn
  · simpa [howner] using hlisted
  · simpa [hconn] using hlisted

/-- A connection is registered and gets its socket. -/
theorem Tables.insertConn {conn : Conn} {s : Socket}
    (hserver : reg.servers conn.id = none) (hd : declined conn.id = false)
    (hs : ∀ v, s.server = some v → servers v ≠ none) :
    Tables (reg.insertConn hub conn) hub (Function.update sockets conn.id (some s)) servers declined told := by
  refine ⟨fun id => ?_, fun id => ?_, fun id s' v => ?_, h.refused⟩
  · by_cases hid : id = conn.id
    · subst hid
      simp [Registry.insertConn, hd]
    · simpa [Registry.insertConn, hid] using h.listed id
  · by_cases hid : id = conn.id
    · subst hid
      simp [Registry.insertConn, hserver, h.not_serving hserver]
    · simpa [Registry.insertConn, hid] using h.serving id
  · by_cases hid : id = conn.id
    · subst hid
      rw [Function.update_self]
      rintro ⟨⟩ hv hnone
      exact absurd hnone (hs v hv)
    · rw [Function.update_of_ne hid]
      exact h.leaving id s' v

/-- A connection is registered, of a server that is gone. -/
theorem Tables.decline {conn : Conn}
    (hserver : reg.servers conn.id = none) (howner : reg.owners conn.id = none) :
    Tables (reg.insertConn hub conn) hub sockets servers (Function.update declined conn.id true)
      (Function.update told conn.id (told conn.id || ((reg.insertConn hub conn).conns conn.id).isSome)) := by
  have hfound : ((reg.insertConn hub conn).conns conn.id).isSome = true := by simp [Registry.insertConn]
  have hnone : sockets conn.id = none := h.not_listed (.inl howner)
  rw [hfound, Bool.or_true]
  refine ⟨fun id => ?_, fun id => ?_, fun id s' v hs hv hn => ?_, fun id hid => ?_⟩
  · by_cases hid : id = conn.id
    · subst hid
      simp [hnone]
    · simpa [Registry.insertConn, hid] using h.listed id
  · by_cases hid : id = conn.id
    · subst hid
      simp [Registry.insertConn, hserver, h.not_serving hserver]
    · simpa [Registry.insertConn, hid] using h.serving id
  · have hid : id ≠ conn.id := by
      rintro rfl
      exact absurd (hnone.symm.trans hs) (by simp)
    rw [Function.update_of_ne hid]
    exact h.leaving id s' v hs hv hn
  · by_cases he : id = conn.id
    · subst he
      exact Function.update_self _ _ _
    · rw [Function.update_of_ne he]
      rw [Function.update_of_ne he] at hid
      exact h.refused id hid

/-- A connection ends. -/
theorem Tables.ends (hserver : reg.servers id = none) {code : UInt16}
    {reason : Bytes} : Tables (reg.flatten hub (.close id code reason)).1 hub (Function.update sockets id none) servers declined told := by
  refine ⟨fun i => ?_, fun i => ?_, fun i s' v hs hv hn => ?_, h.refused⟩
  · by_cases hid : i = id
    · subst hid
      simp [Registry.flatten]
    · simpa [Registry.flatten, hid] using h.listed i
  · by_cases hid : i = id
    · subst hid
      simp [Registry.flatten, h.not_serving hserver]
    · simpa [Registry.flatten, hid] using h.serving i
  · have hid : i ≠ id := by
      rintro rfl
      simp at hs
    rw [Function.update_of_ne hid] at hs
    exact h.leaving i s' v hs hv hn

/-- A socket is marked. -/
theorem Tables.mark {s : Socket} (hs : sockets id = some s) (opened : Bool) :
    Tables reg hub (Function.update sockets id (some { s with opened := opened })) servers declined told := by
  refine ⟨fun i => ?_, h.serving, fun i s' v hi hv hn => ?_, h.refused⟩
  · by_cases hid : i = id
    · subst hid
      have hlisted := h.listed i
      rw [hs] at hlisted
      simpa using hlisted
    · rw [Function.update_of_ne hid]
      exact h.listed i
  · by_cases hid : i = id
    · subst hid
      rw [Function.update_self] at hi
      cases hi
      exact h.leaving i s v hs hv hn
    · rw [Function.update_of_ne hid] at hi
      exact h.leaving i s' v hi hv hn

theorem Tables.insertServer {server : Native.Server} (s : Server)
    (hconn : reg.conns server.id = none) :
    Tables (reg.insertServer hub server) hub sockets (Function.update servers server.id (some s)) declined told := by
  refine ⟨fun id => ?_, fun id => ?_, fun id s' v hs hv hn => ?_, h.refused⟩
  · by_cases hid : id = server.id
    · subst hid
      simp [Registry.insertServer, hconn, h.not_listed (.inr hconn)]
    · simpa [Registry.insertServer, hid] using h.listed id
  · by_cases hid : id = server.id
    · subst hid
      simp [Registry.insertServer]
    · simpa [Registry.insertServer, hid] using h.serving id
  · by_cases hid : v = server.id
    · subst hid
      simp at hn
    · rw [Function.update_of_ne hid] at hn
      exact h.leaving id s' v hs hv hn

/-- `Server:close` tells the sockets of the server. -/
theorem Tables.unlisten {server : Id} (hconn : reg.conns server = none) :
    Tables (reg.wsUnlisten server) hub sockets (Function.update servers server none) declined fun id =>
      told id || ((sockets id).any fun s => s.server = some server) && (reg.conns id).isSome := by
  refine ⟨fun id => ?_, fun id => ?_, fun id s' v hs hv hn => ?_, fun id hid => ?_⟩
  · by_cases hid : id = server
    · subst hid
      simp [Registry.wsUnlisten, h.not_listed (.inr hconn)]
    · simpa [Registry.wsUnlisten, hid] using h.listed id
  · by_cases hid : id = server
    · subst hid
      simp [Registry.wsUnlisten]
    · simpa [Registry.wsUnlisten, hid] using h.serving id
  · by_cases hid : v = server
    · subst hid
      have hfound := ((h.listed id).mp (by rw [hs]; rfl)).2.1
      simp [hs, hv, hfound]
    · rw [Function.update_of_ne hid] at hn
      simp [h.leaving id s' v hs hv hn]
  · simp [h.refused id hid]

end Tables

end WebSocket.Lua
