import WebSocket.Net.Owed

/-!
# One heartbeat at a time

`heartbeat` pings again only after the last ping was transmitted, which the writer notes
in the ping's cell when it has counted the frame's last byte. So of the heartbeats in the
queue and the writer's batch at most one has bytes that are not written: its cell is
empty and it is the one the reader remembers.
-/

namespace WebSocket.Net

open Proto Lib.Transition

def Item.sent? : Item → Option Nat
  | .heartbeat _ sent => some sent
  | _ => none

def Section.sent? : Section → Option Nat
  | .pushHeartbeat sent => some sent
  | _ => none

/-- The cell of the heartbeat being written. -/
def Cur.cell (c : Cur) : List Nat := c.sent.toList

/-- The same, while some of its bytes are not counted. -/
def Cur.pending (c : Cur) : List Nat := if c.pos < c.data.length then c.sent.toList else []

namespace Out

/-- The cells of the heartbeats behind the writer's cursor. -/
def behind (o : Out) : List Nat := o.batch.filterMap Item.sent? ++ o.box.queue.items.filterMap Item.sent?

/-- The cells of all heartbeats the writer has not finished. -/
def cells (o : Out) : List Nat := (o.cur.map Cur.cell).getD [] ++ o.behind

/-- The cells of the heartbeats with bytes to write. -/
def pending (o : Out) : List Nat := (o.cur.map Cur.pending).getD [] ++ o.behind

end Out

namespace Sys

/-- The cells in use, with that of a heartbeat about to be enqueued. -/
def cells (s : Sys) : List Nat := s.link.out.cells ++ s.link.hold.filterMap Section.sent?

def pendingCells (s : Sys) : List Nat := s.link.out.pending ++ s.link.hold.filterMap Section.sent?

end Sys

theorem Cur.pending_sublist (c : Cur) : c.pending.Sublist c.cell := by
  rw [Cur.pending, Cur.cell]
  split
  · exact .refl _
  · exact List.nil_sublist _

theorem Out.pending_sublist (o : Out) : o.pending.Sublist o.cells := by
  rw [Out.pending, Out.cells]
  cases o.cur with
  | none => exact .refl _
  | some c => exact c.pending_sublist.append_right _

theorem Sys.pendingCells_sublist (s : Sys) : s.pendingCells.Sublist s.cells :=
  s.link.out.pending_sublist.append_right _

/-! ## Steps of the outbound side -/

section Out

variable {cfg : Config} {o o' : Out}

/-- Data joins data: the heartbeats of the queue stay. -/
theorem Outbox.sent_pushBack {items : List Item} {joins : Bytes → Bool} {extend : Bytes → Bytes} {fresh : Bytes} :
    (pushBack items joins extend fresh).filterMap Item.sent? = items.filterMap Item.sent? := by
  have fresh_ : (items ++ [Item.data fresh]).filterMap Item.sent? = items.filterMap Item.sent? := by
    rw [List.filterMap_append]
    exact List.append_nil _
  rw [pushBack]
  split
  · rename_i last hlast
    split
    · obtain ⟨init, rfl⟩ := List.getLast?_eq_some_iff.mp hlast
      rw [List.dropLast_concat, List.filterMap_append, List.filterMap_append]
      rfl
    · exact fresh_
  · exact fresh_

theorem Outbox.sent_pushFrame (b : Outbox) (op : UInt8) (payload : Bytes) (key : Key) :
    (b.pushFrame cfg op payload key).queue.items.filterMap Item.sent? = b.queue.items.filterMap Item.sent? := by
  unfold pushFrame
  dsimp only
  split
  · rw [push]
    split
    · rw [enqueue]
      split
      · rfl
      · dsimp only
        split
        · rfl
        · exact sent_pushBack
    · rfl
  · split
    · rfl
    · split
      · rfl
      · exact sent_pushBack

theorem Out.behind_pushFrame (o : Out) (kind : Kind) (op : UInt8) (payload : Bytes) (key : Key) :
    (o.pushFrame cfg kind op payload key).behind = o.behind :=
  congrArg (_ ++ ·) (Outbox.sent_pushFrame o.box op payload key)

theorem Out.behind_pushShutdown (o : Out) : o.pushShutdown.behind = o.behind := by
  refine congrArg (_ ++ ·) ?_
  cases hl : o.box.live with
  | true =>
    simp only [Out.pushShutdown, Outbox.pushShutdown_live hl, List.filterMap_append]
    exact List.append_nil _
  | false => simp only [Out.pushShutdown, Outbox.pushShutdown_dead hl]

/-- The cells a step of the outbound side leaves were there; a heartbeat's own enqueue apart. -/
theorem OutStep.cells (h : OutStep cfg o o') :
    (o'.cells.Sublist o.cells ∧ o'.pending.Sublist o.pending) ∨ ∃ sent key, o' = o.pushHeartbeat cfg sent key := by
  have same (cur : o'.cur = o.cur) (behind : o'.behind = o.behind) :
      (o'.cells.Sublist o.cells ∧ o'.pending.Sublist o.pending) ∨ ∃ sent key, o' = o.pushHeartbeat cfg sent key := by
    rw [Out.cells, Out.pending, cur, behind]
    exact .inl ⟨.refl _, .refl _⟩
  cases h with
  | frame => exact same rfl (o.behind_pushFrame ..)
  | heartbeat => exact .inr ⟨_, _, rfl⟩
  | shutdown => exact same rfl o.behind_pushShutdown
  | pong => exact same rfl rfl
  | register => exact same rfl rfl
  | io => exact same rfl rfl
  | endShutdown => exact same rfl rfl
  | stop =>
    have behind : o.stopWriter.behind.Sublist o.behind := (List.Sublist.refl _).append (List.nil_sublist _)
    exact .inl ⟨(List.Sublist.refl _).append behind, (List.Sublist.refl _).append behind⟩
  | swap live hs =>
    obtain ⟨hbatch, hc, rfl⟩ := Out.swap_some hs
    refine same rfl ?_
    simp [Out.behind, hbatch]
  | pop hs =>
    obtain ⟨hc, item, t, hbatch, rfl⟩ := Out.pop_some hs
    left
    simp only [Out.cells, Out.pending, Out.behind, hc, hbatch, Option.map_none, Option.getD_none, List.nil_append]
    cases item with
    | data b =>
      simp only [Item.start, Option.map_some, Option.getD_some]
      exact ⟨.refl _, by rw [Cur.pending]; split <;> exact .refl _⟩
    | heartbeat b sent =>
      simp only [Item.start, Option.map_some, Option.getD_some]
      refine ⟨.refl _, ?_⟩
      rw [Cur.pending]
      split
      · exact .refl _
      · exact List.sublist_cons_self ..
    | shutdown => exact ⟨.refl _, .refl _⟩
  | write hs =>
    obtain ⟨c, hc, -, -, -, rfl⟩ := Out.write_some hs
    left
    simp only [Out.cells, Out.pending, hc]
    exact ⟨.refl _, .refl _⟩
  | progress hs =>
    obtain ⟨c, hc, -, -, rfl⟩ := Out.progress_some hs
    left
    simp only [Out.cells, Out.pending, Out.behind, hc, Outbox.progress_eq, Option.map_some, Option.getD_some]
    refine ⟨.refl _, List.Sublist.append_right ?_ _⟩
    simp only [Cur.pending]
    split
    · rw [if_pos (by omega)]
    · exact List.nil_sublist _
  | finish hs =>
    obtain ⟨c, hc, -, -, rfl⟩ := Out.finish_some hs
    exact .inl ⟨List.sublist_append_right .., List.sublist_append_right ..⟩

/-- An enqueued heartbeat comes last, or is dropped. -/
theorem cells_pushHeartbeat (sent : Nat) (key : Key) :
    (o.pushHeartbeat cfg sent key).cells.Sublist (o.cells ++ [sent]) ∧
      (o.pushHeartbeat cfg sent key).pending.Sublist (o.pending ++ [sent]) := by
  cases hl : o.box.live with
  | true =>
    simp only [Out.cells, Out.pending, Out.behind, Out.pushHeartbeat, Outbox.pushHeartbeat_live hl,
      List.filterMap_append, ← List.append_assoc]
    exact ⟨.refl _, .refl _⟩
  | false =>
    simp only [Out.cells, Out.pending, Out.behind, Out.pushHeartbeat, Outbox.pushHeartbeat_dead hl]
    exact ⟨List.sublist_append_left .., List.sublist_append_left ..⟩

end Out

/-! ## Steps of the connection -/

section Steps

variable {cfg : Config} {s s' : Sys} {lab : Label} {used new : List Op}

theorem OutStep.cells_of_log {o o' : Out} (h : OutStep cfg o o') (log : o'.log = o.log) :
    o'.cells.Sublist o.cells ∧ o'.pending.Sublist o.pending := by
  rcases h.cells with h | ⟨sent, key, rfl⟩
  · exact h
  · have dead : o.box.live = false := by
      rw [Out.log_pushHeartbeat] at log
      refine Bool.eq_false_iff.mpr fun hl => ?_
      rw [if_pos hl] at log
      exact absurd log (by simp)
    simp only [Out.cells, Out.pending, Out.behind, Out.pushHeartbeat, Outbox.pushHeartbeat_dead dead]
    exact ⟨.refl _, .refl _⟩

/-- The heartbeat a function leaves under `flags`: only the reader's ping leaves one. -/
theorem Locked.probe (h : Locked cfg s s' used) :
    s'.link.hold.filterMap Section.sent? = [] ∨ s'.link.hold = s.link.hold ∨
      (∃ key x rest, s.link.hold = x :: rest ∧
        s'.link = { (s.link.execSection cfg key x).1 with hold := (s.link.execSection cfg key x).2 ++ rest }) ∨
      s.link.hold = [] ∧ s'.link = { s.link with
        hold := [.pushHeartbeat s.link.cells.length], cells := s.link.cells ++ [none] } := by
  have closes (sent : Bool) (payload : Bytes) (shutdown : Bool) :
      (Link.closeSections sent payload shutdown).filterMap Section.sent? = [] := by
    cases sent <;> cases shutdown <;> rfl
  cases h with
  | other flags hold => exact .inr (.inl hold)
  | turns free turns => exact .inr (.inl turns.hold)
  | held hold link => exact .inr (.inr (.inl ⟨_, _, _, hold, link⟩))
  | sent free legal link =>
    rw [Link.send] at link
    split at link
    · exact .inr (.inl (by rw [link]; rfl))
    · split at link <;> exact .inl (by rw [link]; rfl)
  | close free link =>
    unfold Link.close at link
    dsimp only at link
    split at link
    · exact .inr (.inl (by rw [link]; rfl))
    · exact .inl (by rw [link]; rfl)
    · exact .inr (.inl (by rw [link]; rfl))
  | @took op free hused takes link =>
    cases op with
    | handle m =>
      cases m with
      | ping data =>
        rw [Link.exec, Link.handle, Link.handlePing] at link
        dsimp only at link
        split at link
        · refine .inl ?_
          rw [link]
          dsimp only
          split <;> rfl
        · exact .inr (.inl (by rw [link]))
      | close status =>
        rw [Link.exec, Link.handle, Link.closing] at link
        dsimp only at link
        split at link
        · exact .inr (.inl (by rw [link]))
        · exact .inl (by rw [link]; exact closes ..)
      | _ => exact .inr (.inl (by rw [link]; rfl))
    | violation f =>
      rw [Link.exec, Link.violate] at link
      dsimp only at link
      split at link
      · exact .inr (.inl (by rw [link]))
      · exact .inl (by rw [link]; exact closes ..)
    | _ => cases takes
  | flushPong free run pc link =>
    unfold Link.flushPong at link
    dsimp only at link
    split at link
    · split at link
      · exact .inl (by rw [link]; rfl)
      · exact .inr (.inl (by rw [link]))
    · exact .inr (.inl (by rw [link]))
  | ping free state link => exact .inr (.inr (.inr ⟨free, link⟩))

/-- A section under `flags` moves its heartbeat from there to the end of the queue. -/
theorem cells_held {key : Key} {x : Section} {rest : List Section} (hold : s.link.hold = x :: rest)
    (link : s'.link = { (s.link.execSection cfg key x).1 with hold := (s.link.execSection cfg key x).2 ++ rest }) :
    s'.cells.Sublist s.cells ∧ s'.pendingCells.Sublist s.pendingCells := by
  have same (cur : s'.link.out.cur = s.link.out.cur) (behind : s'.link.out.behind = s.link.out.behind)
      (hhold : s'.link.hold.filterMap Section.sent? = s.link.hold.filterMap Section.sent?) :
      s'.cells.Sublist s.cells ∧ s'.pendingCells.Sublist s.pendingCells := by
    rw [Sys.cells, Sys.pendingCells, Out.cells, Out.pending, cur, behind, hhold]
    exact ⟨.refl _, .refl _⟩
  cases x with
  | pushFrame kind op payload =>
    rw [Link.execSection] at link
    dsimp only at link
    split at link
    · exact same (by rw [link]; rfl) (by rw [link]; exact Out.behind_pushFrame ..) (by rw [link, hold]; rfl)
    · exact same (by rw [link]; rfl) (by rw [link]; exact Out.behind_pushFrame ..) (by rw [link, hold]; rfl)
  | recheck op payload =>
    rw [Link.execSection] at link
    dsimp only at link
    split at link
    · exact same (by rw [link]) (by rw [link]) (by rw [link, hold]; rfl)
    · exact same (by rw [link]; rfl) (by rw [link]; rfl) (by rw [link, hold]; rfl)
  | pushHeartbeat sent =>
    obtain ⟨h1, h2⟩ := @cells_pushHeartbeat cfg s.link.out sent key
    have hout : s'.link.out = s.link.out.pushHeartbeat cfg sent key := by rw [link]; rfl
    have hhold : s'.link.hold = rest := by rw [link]; rfl
    rw [Sys.cells, Sys.pendingCells, hout, hhold, Sys.cells, Sys.pendingCells, hold]
    have split (l : List Nat) : l ++ (Section.pushHeartbeat sent :: rest).filterMap Section.sent? =
        l ++ [sent] ++ rest.filterMap Section.sent? := by
      rw [List.append_assoc]
      rfl
    rw [split, split]
    exact ⟨h1.append_right _, h2.append_right _⟩
  | pushShutdown =>
    exact same (by rw [link]; rfl) (by rw [link]; exact Out.behind_pushShutdown _) (by rw [link, hold]; rfl)
  | clearPong => exact same (by rw [link]; rfl) (by rw [link]; rfl) (by rw [link, hold]; rfl)
  | deferPong data => exact same (by rw [link]; rfl) (by rw [link]; rfl) (by rw [link, hold]; rfl)

/-- No step brings a cell into use, apart from the reader's ping. -/
theorem Effect.cells (h : Effect cfg s lab s' used new) (sane : Sane cfg s) :
    s'.cells.Sublist s.cells ∧ s'.pendingCells.Sublist s.pendingCells ∨
      s.link.hold = [] ∧ s'.link = { s.link with
        hold := [.pushHeartbeat s.link.cells.length], cells := s.link.cells ++ [none] } := by
  have out (log : s'.link.out.log = s.link.out.log) :
      s'.link.out.cells.Sublist s.link.out.cells ∧ s'.link.out.pending.Sublist s.link.out.pending := by
    rcases h.out sane.link.hold with ho | ho
    · rw [ho]
      exact ⟨.refl _, .refl _⟩
    · exact ho.cells_of_log log
  have link (log : s'.link.out.log = s.link.out.log)
      (hold : (s'.link.hold.filterMap Section.sent?).Sublist (s.link.hold.filterMap Section.sent?)) :
      s'.cells.Sublist s.cells ∧ s'.pendingCells.Sublist s.pendingCells :=
    ⟨(out log).1.append hold, (out log).2.append hold⟩
  rcases h.locked.log with log | ⟨key, x, rest, hold, heq⟩
  · rcases h.locked.probe with hold | hold | ⟨key, x, rest, hold, heq⟩ | ⟨free, heq⟩
    · exact .inl (link log (by rw [hold]; exact List.nil_sublist _))
    · exact .inl (link log (by rw [hold]))
    · exact .inl (cells_held hold heq)
    · exact .inr ⟨free, heq⟩
  · exact .inl (cells_held hold heq)

/-- What a step does to the cells and to the ping the reader remembers. -/
inductive Beats (cfg : Config) (s s' : Sys) : Prop where
  | keeps (cells : s'.link.cells = s.link.cells) (ping : s'.rd.alive.ping = s.rd.alive.ping)
      (pinging : s'.rd.pc = .pinging → s.rd.pc = .pinging ∨
        ∃ interval, (s.rd.alive.refresh cfg s.link.received).verdict cfg s.link interval = .ping)
  | stamps {t : Instant} (sys : s' = s.stampProbe t)
  | pings (pc : s.rd.pc = .pinging) (cells : s'.link.cells = s.link.cells ++ [none])
      (ping : s'.rd.alive.ping.map Probe.sent = some s.link.cells.length) (pc' : s'.rd.pc = .top)

theorem refresh_ping (a : Alive) (received : Nat) : (a.refresh cfg received).ping = a.ping := by
  rw [Alive.refresh]
  split <;> rfl

theorem Effect.beats (h : Effect cfg s lab s' used new) : Beats cfg s s' := by
  cases h with
  | env q => exact .keeps q.cells rfl .inl
  | left q => exact .keeps q.cells rfl .inl
  | sent => exact .keeps (steady_send ..).cells rfl .inl
  | close => exact .keeps (steady_close ..).cells rfl .inl
  | held h => exact .keeps (steady_holdStep h).cells rfl .inl
  | flushPong => exact .keeps (steady_flushPong _).cells rfl .inl
  | execPool => exact .keeps (steady_exec ..).cells rfl .inl
  | execReader => exact .keeps (steady_exec ..).cells rfl .inl
  | execWriter => exact .keeps (steady_exec ..).cells rfl .inl
  | reading run idle h =>
    cases h with
    | goto h =>
      refine .keeps rfl rfl fun pc => ?_
      cases h <;> first | exact .inl pc | cases pc
    | silent =>
      refine .keeps rfl rfl fun pc => ?_
      rw [Sys.afterDispatch] at pc
      dsimp only at pc
      split at pc <;> cases pc
    | stop =>
      refine .keeps rfl rfl fun pc => ?_
      rw [Sys.afterDispatch] at pc
      dsimp only at pc
      split at pc <;> cases pc
    | quiet => exact .keeps rfl (refresh_ping ..) (by simp)
    | probe pc verdict => exact .keeps rfl (refresh_ping ..) fun _ => .inr ⟨_, verdict⟩
    | dead => exact .keeps rfl (refresh_ping ..) (by simp)
    | _ => exact .keeps rfl rfl (by simp)
  | decoded => exact .keeps rfl rfl (by simp)
  | failed => exact .keeps rfl rfl (by simp)
  | ping run idle free state pc => exact .pings pc rfl rfl rfl
  | stamp => exact .stamps rfl
  | _ => exact .keeps rfl rfl .inl

/-- The heartbeats' cells are distinct, and the one with bytes to write is the reader's last ping,
not transmitted yet. -/
structure Probing (s : Sys) : Prop where
  nodup : s.cells.Nodup
  known : ∀ id ∈ s.cells, id < s.link.cells.length
  last : ∀ id ∈ s.pendingCells, s.link.cells.getD id none = none ∧ s.rd.alive.ping.map Probe.sent = some id
  pinging : s.rd.pc = .pinging → s.pendingCells = []

/-- A verdict to ping says that the last ping was transmitted. -/
theorem transmitted_of_ping {a : Alive} {l : Link} {interval : Nat} (h : a.verdict cfg l interval = .ping) {id : Nat}
    (hid : a.ping.map Probe.sent = some id) : l.cells.getD id none ≠ none := by
  rw [Alive.verdict] at h
  split at h
  · split at h <;> cases h
  · rename_i hnone
    intro hc
    cases hp : a.ping with
    | none =>
      rw [hp] at hid
      cases hid
    | some p =>
      rw [hp] at hid
      cases hid
      exact hnone p hp (by rw [Alive.transmitted, hp]; exact hc)

/-- The stamp of a written heartbeat leaves the cells of the others alone. -/
theorem Probing.stamped (h : Probing s) (t : Instant) {id : Nat} (hid : id ∈ s.pendingCells) :
    (s.stampProbe t).link.cells.getD id none = s.link.cells.getD id none := by
  rw [Sys.stampProbe]
  dsimp only
  split
  · rename_i data pos flying sent hcur
    split
    · rename_i hpos
      -- the written heartbeat is not pending, so its cell is none of these
      have hne : sent ≠ id := by
        rintro rfl
        have hnodup := h.nodup
        rw [Sys.cells, Out.cells, hcur, List.append_assoc] at hnodup
        rw [Sys.pendingCells, Out.pending, hcur, List.append_assoc] at hid
        simp only [Option.map_some, Option.getD_some, Cur.cell, Cur.pending, hpos, Nat.lt_irrefl, if_false,
          Option.toList_some, List.nil_append, List.singleton_append, List.nodup_cons] at hnodup hid
        exact hnodup.1 hid
      rw [List.getD_eq_getElem?_getD, List.getElem?_set_ne hne, ← List.getD_eq_getElem?_getD]
    · rfl
  · rfl

theorem length_stampProbe (s : Sys) (t : Instant) : (s.stampProbe t).link.cells.length = s.link.cells.length := by
  rw [Sys.stampProbe]
  dsimp only
  split
  · split
    · exact List.length_set
    · rfl
  · rfl

theorem Probing.step (h : Probing s) (sane : Sane cfg s) (he : Effect cfg s lab s' used new) : Probing s' := by
  rcases he.cells sane with ⟨hcells, hpend⟩ | ⟨free, link⟩
  · cases he.beats with
    | keeps cells ping pinging =>
      refine ⟨h.nodup.sublist hcells, fun id hid => ?_, fun id hid => ?_, fun pc => ?_⟩
      · rw [cells]
        exact h.known id (hcells.subset hid)
      · rw [cells, ping]
        exact h.last id (hpend.subset hid)
      · rcases pinging pc with pc | ⟨interval, verdict⟩
        · exact List.sublist_nil.mp (h.pinging pc ▸ hpend)
        · refine List.eq_nil_iff_forall_not_mem.mpr fun id hid => ?_
          obtain ⟨hnone, hlast⟩ := h.last id (hpend.subset hid)
          exact transmitted_of_ping verdict (by rw [refresh_ping]; exact hlast) hnone
    | @stamps t sys =>
      subst sys
      refine ⟨h.nodup, fun id hid => ?_, fun id hid => ?_, h.pinging⟩
      · rw [length_stampProbe]
        exact h.known id hid
      · rw [h.stamped t hid]
        exact h.last id hid
    | pings pc cells ping pc' =>
      rw [h.pinging pc, List.sublist_nil] at hpend
      refine ⟨h.nodup.sublist hcells, fun id hid => ?_, fun id hid => ?_, fun hpc => ?_⟩
      · rw [cells, List.length_append]
        exact Nat.lt_add_right _ (h.known id (hcells.subset hid))
      · rw [hpend] at hid
        cases hid
      · rw [pc'] at hpc
        cases hpc
  · cases he.beats with
    | keeps cells =>
      rw [link] at cells
      exact absurd cells (by simp)
    | stamps sys =>
      have hold : s'.link.hold = s.link.hold := by rw [sys]; rfl
      rw [link, free] at hold
      cases hold
    | pings pc cells ping pc' =>
      -- nothing was pending, and the new cell is behind all others
      have hp := h.pinging pc
      rw [Sys.pendingCells, free, List.filterMap_nil, List.append_nil] at hp
      have hcells : s'.cells = s.cells ++ [s.link.cells.length] := by
        rw [Sys.cells, Sys.cells, link, free, List.filterMap_nil, List.append_nil]
        rfl
      have hpend : s'.pendingCells = [s.link.cells.length] := by
        rw [Sys.pendingCells, link, hp]
        rfl
      refine ⟨?_, fun id hid => ?_, fun id hid => ?_, fun hpc => ?_⟩
      · rw [hcells, List.nodup_append]
        refine ⟨h.nodup, List.pairwise_singleton .., fun a ha b hb => ?_⟩
        rw [List.mem_singleton.mp hb]
        exact Nat.ne_of_lt (h.known a ha)
      · rw [cells, List.length_append]
        rw [hcells] at hid
        rcases List.mem_append.mp hid with hid | hid
        · exact Nat.lt_add_right _ (h.known id hid)
        · rw [List.mem_singleton.mp hid]
          exact Nat.lt_succ_self _
      · rw [hpend] at hid
        rw [List.mem_singleton.mp hid, cells]
        exact ⟨by simp, ping⟩
      · rw [pc'] at hpc
        cases hpc

theorem Probing.of_reachable (h : Reachable (Sys.step cfg) (.init cfg) s) : Probing s := by
  refine h.invariant ⟨.nil, fun _ h => (nomatch h), fun _ h => (nomatch h), nofun⟩ ?_
  intro u l v hu hI hv
  obtain ⟨used, new, he⟩ := step_effect hv
  exact hI.step (.of_reachable hu) he

/-- At most one heartbeat has bytes to write. -/
theorem Probing.length_le (h : Probing s) : s.pendingCells.length ≤ 1 := by
  have nodup := h.nodup.sublist s.pendingCells_sublist
  match hp : s.pendingCells with
  | [] => exact Nat.zero_le 1
  | [_] => exact Nat.le_refl 1
  | a :: b :: t =>
    rw [hp, List.nodup_cons] at nodup
    have ha := (h.last a (by rw [hp]; exact List.mem_cons_self)).2
    have hb := (h.last b (by rw [hp]; simp)).2
    rw [ha] at hb
    cases hb
    exact absurd List.mem_cons_self nodup.1

end Steps

/-! ## Its bytes -/

/-- A heartbeat is at most this long: two bytes, a key and the token. -/
def HEARTBEAT_LENGTH : Nat := 14

/-- An item is no heartbeat, or a short one. -/
def Item.Short (i : Item) : Prop := i.sent?.isSome = true → i.bytes.length ≤ HEARTBEAT_LENGTH

/-- Heartbeats are short wherever they are. -/
structure ShortBeats (o : Out) : Prop where
  cur : ∀ c, o.cur = some c → c.sent.isSome = true → c.data.length ≤ HEARTBEAT_LENGTH
  batch : ∀ i ∈ o.batch, i.Short
  items : ∀ i ∈ o.box.queue.items, i.Short

section Bytes

variable {cfg : Config} {o o' : Out}

theorem Outbox.short_pushBack {items : List Item} {joins : Bytes → Bool} {extend : Bytes → Bytes} {fresh : Bytes}
    (h : ∀ i ∈ items, i.Short) : ∀ i ∈ pushBack items joins extend fresh, i.Short := by
  have data (b : Bytes) : (Item.data b).Short := fun h => nomatch h
  have fresh_ : ∀ i ∈ items ++ [Item.data fresh], i.Short :=
    List.forall_mem_append.mpr ⟨h, List.forall_mem_singleton.mpr (data _)⟩
  rw [pushBack]
  split
  · split
    · exact List.forall_mem_append.mpr
        ⟨fun i hi => h i (List.dropLast_subset _ hi), List.forall_mem_singleton.mpr (data _)⟩
    · exact fresh_
  · exact fresh_

theorem Outbox.short_pushFrame {b : Outbox} {op : UInt8} {payload : Bytes} {key : Key}
    (h : ∀ i ∈ b.queue.items, i.Short) : ∀ i ∈ (b.pushFrame cfg op payload key).queue.items, i.Short := by
  unfold pushFrame
  dsimp only
  split
  · rw [push]
    split
    · rw [enqueue]
      split
      · exact h
      · dsimp only
        split
        · exact h
        · exact short_pushBack h
    · exact h
  · split
    · exact h
    · split
      · exact h
      · exact short_pushBack h

theorem length_frame_ping (cfg : Config) (key : Key) :
    (Outbox.frame cfg PING cfg.token key).length ≤ HEARTBEAT_LENGTH := by
  rw [Outbox.frame, length_encode (by rw [cfg.token_length]; decide), cfg.token_length]
  cases (cfg.mask key).isSome <;> decide

theorem ShortBeats.step (h : ShortBeats o) (hs : OutStep cfg o o') : ShortBeats o' := by
  cases hs with
  | frame => exact ⟨h.cur, h.batch, Outbox.short_pushFrame h.items⟩
  | @heartbeat sent key =>
    refine ⟨h.cur, h.batch, ?_⟩
    cases hl : o.box.live with
    | true =>
      simp only [Out.pushHeartbeat, Outbox.pushHeartbeat_live hl]
      exact List.forall_mem_append.mpr ⟨h.items, List.forall_mem_singleton.mpr fun _ => length_frame_ping cfg key⟩
    | false =>
      simp only [Out.pushHeartbeat, Outbox.pushHeartbeat_dead hl]
      exact h.items
  | shutdown =>
    refine ⟨h.cur, h.batch, ?_⟩
    cases hl : o.box.live with
    | true =>
      simp only [Out.pushShutdown, Outbox.pushShutdown_live hl]
      exact List.forall_mem_append.mpr ⟨h.items, List.forall_mem_singleton.mpr fun h => by cases h⟩
    | false =>
      simp only [Out.pushShutdown, Outbox.pushShutdown_dead hl]
      exact h.items
  | pong => exact ⟨h.cur, h.batch, h.items⟩
  | register => exact ⟨h.cur, h.batch, h.items⟩
  | io => exact ⟨h.cur, h.batch, h.items⟩
  | endShutdown => exact ⟨h.cur, h.batch, h.items⟩
  | stop => exact ⟨h.cur, h.batch, fun _ h => by cases h⟩
  | swap live hs =>
    obtain ⟨hbatch, hc, rfl⟩ := Out.swap_some hs
    exact ⟨h.cur, h.items, fun _ h => by cases h⟩
  | pop hs =>
    obtain ⟨hc, item, t, hbatch, rfl⟩ := Out.pop_some hs
    have hb := h.batch
    rw [hbatch, List.forall_mem_cons] at hb
    refine ⟨fun c hcur hsent => ?_, hb.2, h.items⟩
    cases item with
    | data b => cases hcur; cases hsent
    | heartbeat b sent => cases hcur; exact hb.1 rfl
    | shutdown => cases hcur
  | write hs =>
    obtain ⟨c, hc, -, -, -, rfl⟩ := Out.write_some hs
    exact ⟨fun c' hcur hsent => by cases hcur; exact h.cur c hc hsent, h.batch, h.items⟩
  | progress hs =>
    obtain ⟨c, hc, -, -, rfl⟩ := Out.progress_some hs
    refine ⟨fun c' hcur hsent => by cases hcur; exact h.cur c hc hsent, h.batch, ?_⟩
    simp only [Outbox.progress_eq]
    exact h.items
  | finish hs =>
    obtain ⟨c, hc, -, -, rfl⟩ := Out.finish_some hs
    exact ⟨fun _ h => (by cases h), h.batch, h.items⟩

theorem ShortBeats.of_reachable {s : Sys} (h : Reachable (Sys.step cfg) (.init cfg) s) : ShortBeats s.link.out := by
  refine h.invariant (I := fun s => ShortBeats s.link.out)
    ⟨fun _ h => (nomatch h), fun _ h => (nomatch h), fun _ h => (nomatch h)⟩ ?_
  intro u l v hu hI hv
  obtain ⟨used, new, he⟩ := step_effect hv
  rcases he.out (Sane.of_reachable hu).link.hold with ho | ho
  · rw [ho]
    exact hI
  · exact hI.step ho

/-- Whether a token is a byte of a heartbeat. -/
def Token.beat? : Token → Option Bool
  | .byte _ beat => some beat
  | .shutdown => none

/-- Which bytes of a stream belong to heartbeats. -/
def marks (ts : List Token) : List Bool := ts.filterMap Token.beat?

theorem marks_append (a b : List Token) : marks (a ++ b) = marks a ++ marks b := List.filterMap_append

theorem marks_tokens (beat : Bool) (b : Bytes) : marks (tokens beat b) = List.replicate b.length beat := by
  induction b with
  | nil => rfl
  | cons x t ih => exact congrArg (beat :: ·) ih

theorem length_marks (ts : List Token) : (marks ts).length = (tokenBytes ts).length := by
  induction ts with
  | nil => rfl
  | cons t ts ih =>
    cases t with
    | byte b beat => exact congrArg (· + 1) ih
    | shutdown => exact ih

theorem marks_entryTokens (es : List Entry) : marks (entryTokens es) = (kinds es).map (· == .heartbeat) := by
  induction es with
  | nil => rfl
  | cons e es ih =>
    rw [entryTokens, List.flatMap_cons, marks_append, kinds, List.flatMap_cons, List.map_append]
    rw [show es.flatMap Entry.tokens = entryTokens es from rfl, ih]
    cases e with
    | frame kind w => rw [Entry.tokens, marks_tokens, List.map_replicate]; rfl
    | shutdown => rfl

/-- The items hold at most `HEARTBEAT_LENGTH` heartbeat bytes for each cell. -/
theorem count_marks_items {items : List Item} (h : ∀ i ∈ items, i.Short) :
    (marks (itemTokens items)).count true ≤ HEARTBEAT_LENGTH * (items.filterMap Item.sent?).length := by
  induction items with
  | nil => exact Nat.zero_le _
  | cons i items ih =>
    rw [List.forall_mem_cons] at h
    rw [itemTokens, List.flatMap_cons, marks_append, List.count_append]
    rw [show items.flatMap Item.tokens = itemTokens items from rfl]
    have hi := ih h.2
    cases i with
    | data b =>
      rw [Item.tokens, marks_tokens, List.count_replicate, if_neg (by decide), Nat.zero_add]
      exact hi
    | heartbeat b sent =>
      have hb : b.length ≤ HEARTBEAT_LENGTH := h.1 rfl
      rw [Item.tokens, marks_tokens, List.count_replicate_self]
      simp only [Item.sent?, List.filterMap_cons, List.length_cons, Nat.mul_add, Nat.mul_one]
      omega
    | shutdown =>
      rw [show marks Item.shutdown.tokens = [] from rfl, List.count_nil, Nat.zero_add]
      exact hi

theorem count_marks_cur {c : Cur} (h : c.sent.isSome = true → c.data.length ≤ HEARTBEAT_LENGTH) :
    (marks c.tokens).count true ≤ HEARTBEAT_LENGTH * c.pending.length := by
  rw [Cur.tokens, marks_tokens, List.length_drop, Cur.pending]
  cases hs : c.sent with
  | none => simp [List.count_replicate]
  | some sent =>
    have hl := h (by rw [hs]; rfl)
    rw [Option.isSome_some, List.count_replicate_self]
    split
    · rw [Option.toList_some, List.length_singleton, Nat.mul_one]
      omega
    · omega

end Bytes

/-- **At most one heartbeat's bytes are buffered.** -/
theorem count_heartbeat_le {cfg : Config} {s : Sys} (h : Reachable (Sys.step cfg) (.init cfg) s)
    (live : s.link.out.box.queue.done = false) : s.link.out.owed.count .heartbeat ≤ HEARTBEAT_LENGTH := by
  have carried := Carried.of_reachable h
  have short := ShortBeats.of_reachable h
  obtain ⟨pre, hpre, -⟩ := carried.batch
  -- the marks of what is owed are those of the writer's batch and of the queue
  have hmarks : s.link.out.owed.map (· == .heartbeat) =
      marks s.link.out.left ++ marks (itemTokens s.link.out.box.queue.items) := by
    have hlen : (marks s.link.out.left).length = s.link.out.batchRest.length := by
      rw [length_marks, Out.tokenBytes_left]
    have hall := marks_entryTokens s.link.out.inBatch
    rw [hpre, marks_append] at hall
    have hkinds : (kinds s.link.out.inBatch).length = (marks pre).length + s.link.out.batchRest.length := by
      rw [← hlen, ← List.length_append, hall, List.length_map]
    rw [Out.owed, List.map_append, List.rtake, List.map_drop, ← hall, ← marks_entryTokens,
      ← carried.queue live, hkinds, Nat.add_sub_cancel, List.drop_left]
  have hcur : (marks s.link.out.left).count true ≤ HEARTBEAT_LENGTH *
      (((s.link.out.cur.map Cur.pending).getD []).length + (s.link.out.batch.filterMap Item.sent?).length) := by
    rw [Out.left, marks_append, List.count_append, Nat.mul_add]
    refine Nat.add_le_add ?_ (count_marks_items short.batch)
    cases hc : s.link.out.cur with
    | none => exact Nat.zero_le _
    | some c => exact count_marks_cur (short.cur c hc)
  have hitems := count_marks_items short.items
  have hone := (Probing.of_reachable h).length_le
  rw [Sys.pendingCells, Out.pending, Out.behind] at hone
  simp only [List.length_append] at hone
  have hcount : s.link.out.owed.count .heartbeat = (s.link.out.owed.map (· == .heartbeat)).count true := by
    rw [List.count, List.count, List.countP_map]
    congr 1
    funext k
    exact (beq_true _).symm
  rw [hcount, hmarks, List.count_append]
  unfold HEARTBEAT_LENGTH at *
  omega

end WebSocket.Net
