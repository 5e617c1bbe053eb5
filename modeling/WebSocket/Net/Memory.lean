import WebSocket.Net.Probes

/-!
# Outbound memory is bounded

Every unsent byte belongs to a frame of some kind. Application frames and immediate pongs
keep to a budget, because their producers look at `buffered` before they enqueue and hold
`flags` until they have (`Budget`). Of the other kinds only few frames can be unsent: two
deferred pongs, one in the writer's batch and one behind it (`Deferral`), one heartbeat
(`Probing`) and one close frame (`Discipline`).
-/

namespace WebSocket.Net

open Proto Lib.Transition

/-! ## Deferred pongs -/

def Entry.isDeferred : Entry → Bool
  | .frame .deferred _ => true
  | _ => false

def Section.isDeferred : Section → Bool
  | .pushFrame .deferred _ _ => true
  | _ => false

/-- Deferred pongs in the queue or about to get there. -/
def Link.deferred (l : Link) : Nat := l.out.queued.countP Entry.isDeferred + l.hold.countP Section.isDeferred

/-- The writer flushes the deferred pong once for each batch, and waits until it is queued. -/
structure Deferral (s : Sys) : Prop where
  queued : s.link.deferred ≤ 1
  batch : s.link.out.inBatch.countP Entry.isDeferred ≤ 1
  flushing : s.wr.pc = .flushPong → s.link.deferred = 0
  waiting : s.link.hold.countP Section.isDeferred ≠ 0 → s.wr.ops = [.released]

namespace Deferral

variable {cfg : Config} {s s' : Sys} {lab : Label} {used new : List Op}

theorem idle (h : Deferral s) (hw : s.wr.ops = []) : s.link.hold.countP Section.isDeferred = 0 := by
  refine Classical.not_not.mp fun hne => ?_
  rw [h.waiting hne] at hw
  cases hw

/-- The writer did not move, or no deferred pong is about to be queued and it does not flush one. -/
def Keeps (s s' : Sys) : Prop :=
  s'.wr = s.wr ∨
    s.link.hold.countP Section.isDeferred = 0 ∧ (s'.wr.pc = .flushPong → s.wr.pc = .flushPong)

/-- A step that brings no deferred pong. -/
theorem next (h : Deferral s) (sum : s'.link.deferred ≤ s.link.deferred)
    (hold : s'.link.hold.countP Section.isDeferred ≤ s.link.hold.countP Section.isDeferred)
    (batch : s'.link.out.inBatch = s.link.out.inBatch) (wr : Keeps s s') : Deferral s' := by
  refine ⟨sum.trans h.queued, by rw [batch]; exact h.batch, fun pc => ?_, fun hne => ?_⟩
  · have pc : s.wr.pc = .flushPong := by
      rcases wr with wr | ⟨-, hpc⟩
      · exact wr ▸ pc
      · exact hpc pc
    exact Nat.le_zero.mp (h.flushing pc ▸ sum)
  · rcases wr with wr | ⟨hw, -⟩
    · rw [wr]
      exact h.waiting fun h0 => hne (Nat.le_zero.mp (h0 ▸ hold))
    · exact absurd (Nat.le_zero.mp (hw ▸ hold)) hne

/-- Nothing of the outbound side changed but what the writer has taken. -/
theorem same (h : Deferral s) (queued : s'.link.out.queued = s.link.out.queued)
    (hold : s'.link.hold = s.link.hold) (batch : s'.link.out.inBatch = s.link.out.inBatch)
    (wr : Keeps s s') : Deferral s' :=
  h.next (by rw [Link.deferred, queued, hold, Link.deferred]) (by rw [hold]) batch wr

/-- `flags` was taken for something else. -/
theorem taken (h : Deferral s) (out : s'.link.out = s.link.out)
    (hold : s'.link.hold = s.link.hold ∨ s'.link.hold.countP Section.isDeferred = 0)
    (wr : Keeps s s') : Deferral s' := by
  rcases hold with hold | hold
  · exact h.same (by rw [out]) hold (by rw [out]) wr
  · refine h.next ?_ (by rw [hold]; exact Nat.zero_le _) (by rw [out]) wr
    rw [Link.deferred, out, hold]
    exact Nat.le_add_right ..

theorem hold_exec (l : Link) (op : Op) :
    (l.exec cfg op).1.hold = l.hold ∨ (l.exec cfg op).1.hold.countP Section.isDeferred = 0 := by
  have closes (sent : Bool) (payload : Bytes) (shutdown : Bool) :
      (Link.closeSections sent payload shutdown).countP Section.isDeferred = 0 := by
    cases sent <;> cases shutdown <;> rfl
  cases op with
  | emit e =>
    rw [Link.exec]
    dsimp only
    split <;> exact .inl rfl
  | finish code reason =>
    rw [Link.exec]
    split <;> exact .inl rfl
  | handle m =>
    cases m with
    | ping data =>
      rw [Link.exec, Link.handle, Link.handlePing]
      dsimp only
      split
      · dsimp only
        split <;> exact .inr rfl
      · exact .inl rfl
    | close status =>
      rw [Link.exec, Link.handle, Link.closing]
      dsimp only
      split
      · exact .inl rfl
      · exact .inr (closes ..)
    | _ => exact .inl rfl
  | violation f =>
    rw [Link.exec, Link.violate]
    dsimp only
    split
    · exact .inl rfl
    · exact .inr (closes ..)
  | _ => exact .inl rfl

theorem exec (h : Deferral s) {op : Op} (link : s'.link = (s.link.exec cfg op).1)
    (wr : Keeps s s') : Deferral s' := by
  rcases exec_out cfg s.link op with ho | ⟨rfl, ho⟩
  · exact h.taken (by rw [link, ho]) (by rw [link]; exact hold_exec ..) wr
  · exact h.same (by rw [link]; rfl) (by rw [link]; rfl) (by rw [link]; rfl) wr

theorem countP_record (o : Out) (e : Entry) :
    (o.record e).countP Entry.isDeferred ≤ o.queued.countP Entry.isDeferred + [e].countP Entry.isDeferred := by
  rw [Out.record]
  split
  · rw [List.countP_append]
  · exact Nat.le_add_right ..

/-- A section under `flags` enqueues the deferred pong it stands for. -/
theorem held (h : Deferral s) {key : Key} {x : Section} {rest : List Section} (hold : s.link.hold = x :: rest)
    (link : s'.link = { (s.link.execSection cfg key x).1 with hold := (s.link.execSection cfg key x).2 ++ rest })
    (wr : s'.wr = s.wr) : Deferral s' := by
  have split : s.link.hold.countP Section.isDeferred = [x].countP Section.isDeferred + rest.countP Section.isDeferred := by
    rw [hold, ← List.countP_append]
    rfl
  have push {e : Entry} (hq : s'.link.out.queued = s.link.out.record e) (hh : s'.link.hold = rest)
      (he : [e].countP Entry.isDeferred = [x].countP Section.isDeferred)
      (batch : s'.link.out.inBatch = s.link.out.inBatch) : Deferral s' := by
    refine h.next ?_ (by rw [hh, split]; exact Nat.le_add_left ..) batch (.inl wr)
    have := countP_record s.link.out e
    rw [Link.deferred, Link.deferred, hq, hh, split]
    omega
  have skip {more : List Section} (hq : s'.link.out.queued = s.link.out.queued) (hh : s'.link.hold = more ++ rest)
      (hm : more.countP Section.isDeferred = 0) (batch : s'.link.out.inBatch = s.link.out.inBatch) : Deferral s' := by
    have hle : s'.link.hold.countP Section.isDeferred ≤ s.link.hold.countP Section.isDeferred := by
      rw [hh, split, List.countP_append, hm]
      omega
    refine h.next ?_ hle batch (.inl wr)
    rw [Link.deferred, Link.deferred, hq]
    exact Nat.add_le_add_left hle _
  cases x with
  | pushFrame kind op payload =>
    rw [Link.execSection] at link
    dsimp only at link
    have he : [Entry.frame kind ⟨true, op, payload, cfg.mask key⟩].countP Entry.isDeferred =
        [Section.pushFrame kind op payload].countP Section.isDeferred := by
      cases kind <;> rfl
    split at link <;>
      exact push (by rw [link]; rfl) (by rw [link]; rfl) he (by rw [link]; rfl)
  | recheck op payload =>
    rw [Link.execSection] at link
    dsimp only at link
    split at link
    · exact skip (by rw [link]) (by rw [link]) rfl (by rw [link])
    · exact skip (by rw [link]; rfl) (by rw [link]) rfl (by rw [link]; rfl)
  | pushHeartbeat sent => exact push (by rw [link]; rfl) (by rw [link]; rfl) rfl (by rw [link]; rfl)
  | pushShutdown => exact push (by rw [link]; rfl) (by rw [link]; rfl) rfl (by rw [link]; rfl)
  | clearPong => exact skip (by rw [link]; rfl) (by rw [link]) rfl (by rw [link]; rfl)
  | deferPong data => exact skip (by rw [link]; rfl) (by rw [link]) rfl (by rw [link]; rfl)

theorem step (h : Deferral s) (he : Effect cfg s lab s' used new) : Deferral s' := by
  have writer (idle : s.wr.ops = []) (hpc : s'.wr.pc ≠ .flushPong) : Keeps s s' :=
    .inr ⟨h.idle idle, fun hp => absurd hp hpc⟩
  cases he with
  | env q => exact h.same (by rw [q.out]) q.hold (by rw [q.out]) (.inl rfl)
  | left q => exact h.same (by rw [Sys.spawn, q.out]) q.hold (by rw [Sys.spawn, q.out]) (.inl rfl)
  | sent free legal =>
    refine h.taken (out_send ..) ?_ (.inl rfl)
    rw [Link.send]
    split
    · exact .inl rfl
    · split <;> exact .inr rfl
  | refused => exact h.same rfl rfl rfl (.inl rfl)
  | close =>
    refine h.taken (out_close ..) ?_ (.inl rfl)
    rw [Sys.spawn]
    unfold Link.close
    dsimp only
    split
    · exact .inl rfl
    · exact .inr rfl
    · exact .inl rfl
  | terminate => exact h.same rfl rfl rfl (.inl rfl)
  | held hstep =>
    obtain ⟨x, rest, hold, rfl⟩ := Link.holdStep_some hstep
    exact h.held hold rfl rfl
  | execPool ops free => exact h.exec rfl (.inl rfl)
  | execReader run ops free => exact h.exec rfl (.inl rfl)
  | execWriter run ops free =>
    refine h.exec rfl (.inr ⟨?_, id⟩)
    -- the section behind which a deferred pong is queued waits for `flags`
    refine Classical.not_not.mp fun hne => ?_
    have hw := h.waiting hne
    rw [ops] at hw
    cases hw
    rw [free rfl] at hne
    exact hne rfl
  | connected => exact h.same rfl rfl rfl (.inl rfl)
  | opened => exact h.same rfl rfl rfl (.inl rfl)
  | started => exact h.same rfl rfl rfl (.inl rfl)
  | reading => exact h.same rfl rfl rfl (.inl rfl)
  | decoded => exact h.same rfl rfl rfl (.inl rfl)
  | failed => exact h.same rfl rfl rfl (.inl rfl)
  | ping => exact h.taken rfl (.inr rfl) (.inl rfl)
  | writing run idle hw =>
    refine h.same rfl rfl rfl (.inr ⟨h.idle idle, fun hp => ?_⟩)
    cases hw <;> cases hp
  | swap run idle at_ live hs goes =>
    -- the queue becomes the batch, and nothing of it waits under `flags`
    obtain ⟨-, -, rfl⟩ := Out.swap_some hs
    have none := h.idle idle
    have queued := h.queued
    rw [Link.deferred, none] at queued
    have empty : Link.deferred { s.link with out := { s.link.out with
        box := { s.link.out.box with queue := { s.link.out.box.queue with items := [] } }
        batch := s.link.out.box.queue.items, gone := s.link.out.gone ++ s.link.out.inBatch
        inBatch := s.link.out.queued, queued := [] } } = 0 := by
      rw [Link.deferred, none]
      rfl
    exact ⟨by rw [empty]; exact Nat.zero_le 1, queued, fun _ => empty, fun hne => absurd none hne⟩
  | flushPong run idle pc free =>
    have fresh := h.flushing pc
    have out := out_flushPong s.link
    have hold : s.link.flushPong.hold.countP Section.isDeferred ≤ 1 := by
      unfold Link.flushPong
      dsimp only
      split
      · split
        · exact Nat.le_refl 1
        · rw [free]; exact Nat.zero_le 1
      · rw [free]; exact Nat.zero_le 1
    have sum : s.link.flushPong.deferred ≤ 1 := by
      rw [Link.deferred] at fresh
      rw [Link.deferred, out, show (s.link.out.setPong none).queued = s.link.out.queued from rfl]
      omega
    refine ⟨sum, ?_, (by simp), fun _ => rfl⟩
    rw [out]
    exact h.batch
  | pop run idle at_ hs goes =>
    obtain ⟨-, item, t, -, rfl⟩ := Out.pop_some hs
    exact h.same rfl rfl rfl (writer idle (by rcases goes with rfl | rfl <;> simp))
  | write run idle pc hs =>
    obtain ⟨c, -, -, -, -, rfl⟩ := Out.write_some hs
    exact h.same rfl rfl rfl (writer idle (by simp))
  | progress run idle pc hs =>
    obtain ⟨c, -, -, -, rfl⟩ := Out.progress_some hs
    exact h.same rfl rfl rfl (writer idle (by simp))
  | drain run idle pc hs =>
    obtain ⟨c, -, -, -, rfl⟩ := Out.progress_some hs
    exact h.same rfl rfl rfl (writer idle (by simp))
  | stamp run idle pc => exact h.same rfl rfl rfl (writer idle fun hc => by cases hc)
  | finish run idle pc hs =>
    obtain ⟨c, -, -, -, rfl⟩ := Out.finish_some hs
    exact h.same rfl rfl rfl (writer idle (by simp))
  | endShutdown run idle pc => exact h.same rfl rfl rfl (writer idle (by simp))

theorem of_reachable (h : Reachable (Sys.step cfg) (.init cfg) s) : Deferral s := by
  refine h.invariant ⟨Nat.zero_le 1, Nat.zero_le 1, nofun, fun hne => absurd rfl hne⟩ ?_
  intro u l v hu hI hv
  obtain ⟨used, new, he⟩ := step_effect hv
  exact hI.step he

end Deferral

/-! ## The budget -/

/-- The payload of a `send` that `fits` let pass in the step from `s` to `t`. -/
def Sys.passes (s t : Sys) : Option Bytes :=
  if t.link.hold = s.link.hold then none
  else match t.link.hold with
    | [.pushFrame .app _ payload] => some payload
    | _ => none

/-- The encoded length of the frame a `send` was let pass with while nothing was buffered, or 0. -/
def Sys.alone (cfg : Config) (s t : Sys) : Nat :=
  if s.link.out.box.buffered = 0 then
    ((s.passes t).map fun payload => encodedLen payload.length (!cfg.server)).getD 0
  else 0

/-- The largest encoded length of a frame that was accepted along a run while nothing was buffered. -/
def largestAlone (cfg : Config) : Sys → List Label → Nat
  | _, [] => 0
  | s, lab :: labs =>
    match s.step cfg lab with
    | none => 0
    | some t => max (s.alone cfg t) (largestAlone cfg t labs)

/-- Sections whose producers did not look at `buffered`. -/
def Section.unbudgeted : Section → Bool
  | .pushFrame .app _ _ | .pushFrame .pong _ _ | .recheck _ _ => false
  | _ => true

/-- What `b` buffered bytes leave for the sections under `flags`, when frames of up to `m` bytes were
accepted alone. -/
inductive Room (cfg : Config) (m b : Nat) : List Section → Prop where
  | app {op payload} (fits : b + encodedLen payload.length (!cfg.server) ≤ max cfg.buffer m) :
      Room cfg m b [.pushFrame .app op payload]
  | recheck {op payload} : Room cfg m b [.recheck op payload]
  | pong {op data} (few : b < PONG_LIMIT) : Room cfg m b [.pushFrame .pong op data]
  | reply {op data} (few : b < PONG_LIMIT) : Room cfg m b [.clearPong, .pushFrame .pong op data]
  | other {hold} (h : ∀ x ∈ hold, x.unbudgeted = true) : Room cfg m b hold

/-- The budget: what the application may have buffered, or a last immediate pong. -/
def budget (cfg : Config) (m : Nat) : Nat := max (max cfg.buffer m) (2 ^ 20 + 130)

structure Budget (cfg : Config) (m : Nat) (s : Sys) : Prop where
  room : Room cfg m s.link.out.box.buffered s.link.hold
  kept : s.link.out.budgeted ≤ budget cfg m

section Budget

variable {cfg : Config} {m : Nat} {s s' : Sys} {lab : Label} {used new : List Op}

theorem Room.mono {b b' : Nat} {hold : List Section} (h : Room cfg m b hold) (hb : b' ≤ b) : Room cfg m b' hold := by
  cases h with
  | app fits => exact .app (by omega)
  | recheck => exact .recheck
  | pong few => exact .pong (by omega)
  | reply few => exact .reply (by omega)
  | other h => exact .other h

/-- `fits` keeps the application within its limit, or lets a frame pass alone. -/
theorem add_le_of_fits {o : Outbox} {len : Nat} (word : cfg.buffer < usizeMax) (h : o.fits cfg len = true)
    (alone : o.buffered = 0 → len ≤ m) : o.buffered + len ≤ max cfg.buffer m := by
  rw [Outbox.fits, Outbox.room, Bool.or_eq_true, beq_iff_eq, decide_eq_true_eq, saturatingAdd] at h
  rcases h with h | h
  · have := alone h
    omega
  · omega

theorem Room.closeSections (sent : Bool) (payload : Bytes) (shutdown : Bool) {b : Nat} :
    Room cfg m b (Link.closeSections sent payload shutdown) := by
  refine .other ?_
  cases sent <;> cases shutdown <;> simp [Link.closeSections, Section.unbudgeted]

/-- The length of a frame let pass while nothing is buffered. -/
theorem alone_eq {op : UInt8} {payload : Bytes} (h0 : s.link.out.box.buffered = 0)
    (hold : s'.link.hold = [.pushFrame .app op payload]) (changed : s'.link.hold ≠ s.link.hold) :
    s.alone cfg s' = encodedLen payload.length (!cfg.server) := by
  rw [Sys.alone, if_pos h0, Sys.passes, if_neg changed, hold]
  rfl

/-- Whoever takes `flags` to enqueue within the budget has room for it. -/
theorem Locked.room (h : Locked cfg s s' used) (room : Room cfg m s.link.out.box.buffered s.link.hold)
    (word : cfg.buffer < usizeMax) (alone : s.alone cfg s' ≤ m)
    (le : s'.link.out.box.buffered ≤ s.link.out.box.buffered) :
    Room cfg m s'.link.out.box.buffered s'.link.hold ∨
      ∃ key x rest, s.link.hold = x :: rest ∧
        s'.link = { (s.link.execSection cfg key x).1 with hold := (s.link.execSection cfg key x).2 ++ rest } := by
  have same (hold : s'.link.hold = s.link.hold) : Room cfg m s'.link.out.box.buffered s'.link.hold :=
    hold ▸ room.mono le
  cases h with
  | other flags hold => exact .inl (same hold)
  | turns free turns => exact .inl (same turns.hold)
  | held hold link => exact .inr ⟨_, _, _, hold, link⟩
  | @sent op payload free legal link =>
    left
    rw [Link.send] at link
    split at link
    · exact same (by rw [link]; rfl)
    · split at link
      · rename_i hfits
        have hold : s'.link.hold = [.pushFrame .app op payload] := by rw [link]
        rw [hold]
        refine Room.mono (.app (add_le_of_fits word hfits fun h0 => ?_)) le
        rw [← alone_eq h0 hold (by rw [hold, free]; simp)]
        exact alone
      · rw [link]
        exact .recheck
  | close free link =>
    left
    unfold Link.close at link
    dsimp only at link
    split at link
    · exact same (by rw [link]; rfl)
    · rw [link]
      exact .other (List.forall_mem_singleton.mpr rfl)
    · exact same (by rw [link]; rfl)
  | @took op free hused takes link =>
    left
    cases op with
    | handle msg =>
      cases msg with
      | ping data =>
        rw [Link.exec, Link.handle, Link.handlePing] at link
        dsimp only at link
        split at link
        · rw [link]
          dsimp only
          split
          · rename_i few
            exact .reply few
          · exact .other (List.forall_mem_singleton.mpr rfl)
        · exact same (by rw [link])
      | close status =>
        rw [Link.exec, Link.handle, Link.closing] at link
        dsimp only at link
        split at link
        · exact same (by rw [link])
        · rw [link]
          exact .closeSections ..
      | _ => exact same (by rw [link]; rfl)
    | violation f =>
      rw [Link.exec, Link.violate] at link
      dsimp only at link
      split at link
      · exact same (by rw [link])
      · rw [link]
        exact .closeSections ..
    | _ => cases takes
  | flushPong free run pc link =>
    left
    unfold Link.flushPong at link
    dsimp only at link
    split at link
    · split at link
      · rw [link]
        exact .other (List.forall_mem_singleton.mpr rfl)
      · exact same (by rw [link])
    · exact same (by rw [link])
  | ping free state link =>
    left
    rw [link]
    exact .other (List.forall_mem_singleton.mpr rfl)

/-- An immediate pong, or any control frame, is at most 131 bytes long. -/
theorem encodedLen_control {n : Nat} (h : n ≤ 125) (masked : Bool) : encodedLen n masked ≤ 131 := by
  rw [encodedLen, if_pos h]
  refine (Nat.min_le_left ..).trans ?_
  split <;> omega

theorem budgeted_le_buffered (h : Reachable (Sys.step cfg) (.init cfg) s) (live : s.link.out.box.queue.done = false) :
    s.link.out.budgeted ≤ s.link.out.box.buffered := by
  rw [← length_owed (.of_reachable h) (.of_reachable h) live]
  exact List.countP_le_length

/-- The enqueue of a budgeted frame that found room keeps to the budget. -/
theorem Budget.pushed {kind : Kind} {op : UInt8} {payload : Bytes} {key : Key}
    (h : Reachable (Sys.step cfg) (.init cfg) s) (kept : s.link.out.budgeted ≤ budget cfg m)
    (legal : Legal kind op payload)
    (fits : s.link.out.box.buffered + encodedLen payload.length (!cfg.server) ≤ budget cfg m) :
    (s.link.out.pushFrame cfg kind op payload key).budgeted ≤ budget cfg m := by
  have hp : (s.link.out.pushFrame cfg kind op payload key).budgeted ≤ _ :=
    budgeted_record (o := s.link.out) (e := .frame kind ⟨true, op, payload, cfg.mask key⟩) rfl rfl rfl
  have hlen : (kinds [.frame kind ⟨true, op, payload, cfg.mask key⟩]).countP Kind.budgeted ≤
      encodedLen payload.length (!cfg.server) := by
    refine List.countP_le_length.trans ?_
    rw [kinds_frame, List.length_replicate, Wire.length_bytes op _ legal.bound, isSome_mask]
  cases hl : s.link.out.box.live with
  | true =>
    rw [Outbox.live, Bool.and_eq_true, Bool.not_eq_true'] at hl
    have := budgeted_le_buffered h hl.2
    omega
  | false =>
    have queued : (s.link.out.pushFrame cfg kind op payload key).queued = s.link.out.queued := by
      rw [Out.pushFrame, Out.record, hl]
      rfl
    have hle : (s.link.out.pushFrame cfg kind op payload key).budgeted ≤ s.link.out.budgeted :=
      budgeted_le rfl queued (Nat.le_refl _)
    exact hle.trans kept

theorem Budget.held {key : Key} {x : Section} {rest : List Section} (h : Budget cfg m s)
    (hs : Reachable (Sys.step cfg) (.init cfg) s) (word : cfg.buffer < usizeMax) (alone : s.alone cfg s' ≤ m)
    (hold : s.link.hold = x :: rest)
    (link : s'.link = { (s.link.execSection cfg key x).1 with hold := (s.link.execSection cfg key x).2 ++ rest }) :
    Budget cfg m s' := by
  have kept := h.kept
  have room := h.room
  have legal := (Sane.of_reachable hs).link.hold x (by rw [hold]; exact List.mem_cons_self)
  have le_budget {n : Nat} (hn : n ≤ max cfg.buffer m) : n ≤ budget cfg m := hn.trans (Nat.le_max_left ..)
  have quiet {hold : List Section} {b : Nat} (h : ∀ y ∈ hold, y.unbudgeted = true) : Room cfg m b hold := .other h
  have nil {b : Nat} : Room cfg m b [] := .other fun _ h => by cases h
  have out {o : Out} (ho : s'.link.out = o) (hb : o.budgeted ≤ budget cfg m) : s'.link.out.budgeted ≤ budget cfg m :=
    ho ▸ hb
  rw [hold] at room
  cases room with
  | @app op payload fits =>
    exact ⟨by rw [link]; exact nil, out (by rw [link]; rfl) (Budget.pushed hs kept legal.2 (le_budget fits))⟩
  | @recheck op payload =>
    rw [Link.execSection] at link
    dsimp only at link
    split at link
    · rename_i hfits
      refine ⟨?_, out (by rw [link]) kept⟩
      have hold' : s'.link.hold = [.pushFrame .app op payload] := by rw [link]; rfl
      have out' : s'.link.out = s.link.out := by rw [link]
      rw [hold', out']
      refine .app (add_le_of_fits word hfits fun h0 => ?_)
      rw [← alone_eq h0 hold' (by rw [hold', hold]; simp)]
      exact alone
    · exact ⟨by rw [link]; exact nil, out (o := s.link.out.register _) (by rw [link]; rfl) kept⟩
  | @pong op data few =>
    have hlen := encodedLen_control legal.2.2 (!cfg.server)
    refine ⟨by rw [link]; exact nil, out (by rw [link]; rfl) (Budget.pushed hs kept legal.2 ?_)⟩
    unfold PONG_LIMIT at few
    exact Nat.le_trans (by omega) (Nat.le_max_right ..)
  | reply few => exact ⟨by rw [link]; exact .pong few, out (o := s.link.out.setPong none) (by rw [link]; rfl) kept⟩
  | other hother =>
    rw [List.forall_mem_cons] at hother
    have pushed {e : Entry} (batch : s'.link.out.inBatch = s.link.out.inBatch)
        (hrest : s'.link.out.batchRest = s.link.out.batchRest) (queued : s'.link.out.queued = s.link.out.record e)
        (he : (kinds [e]).countP Kind.budgeted = 0) : s'.link.out.budgeted ≤ budget cfg m := by
      have := budgeted_record batch hrest queued
      omega
    have unmarked {k : Kind} {w : Wire} (hk : k.budgeted = false) :
        (kinds [.frame k w]).countP Kind.budgeted = 0 := by
      rw [kinds_frame, List.countP_replicate, hk]
      rfl
    cases x with
    | pushFrame kind op payload =>
      have hk : kind.budgeted = false := by
        cases kind <;> first | rfl | exact absurd hother.1 Bool.false_ne_true
      rw [Link.execSection] at link
      dsimp only at link
      rw [if_neg (by rintro rfl; cases hk)] at link
      exact ⟨by rw [link]; exact quiet hother.2, pushed (by rw [link]; rfl) (by rw [link]; rfl) (by rw [link]; rfl) (unmarked hk)⟩
    | recheck op payload => exact absurd hother.1 Bool.false_ne_true
    | pushHeartbeat sent =>
      exact ⟨by rw [link]; exact quiet hother.2,
        pushed (by rw [link]; rfl) (by rw [link]; rfl) (by rw [link]; rfl) (unmarked rfl)⟩
    | pushShutdown =>
      exact ⟨by rw [link]; exact quiet hother.2,
        pushed (e := .shutdown) (by rw [link]; rfl) (by rw [link]; rfl) (by rw [link]; rfl) rfl⟩
    | clearPong => exact ⟨by rw [link]; exact quiet hother.2, out (o := s.link.out.setPong none) (by rw [link]; rfl) kept⟩
    | deferPong data =>
      exact ⟨by rw [link]; exact quiet hother.2, out (o := s.link.out.setPong (some data)) (by rw [link]; rfl) kept⟩

theorem Budget.step (h : Budget cfg m s) (hs : Reachable (Sys.step cfg) (.init cfg) s) (word : cfg.buffer < usizeMax)
    (alone : s.alone cfg s' ≤ m) (he : Effect cfg s lab s' used new) : Budget cfg m s' := by
  rcases he.locked.log with log | ⟨key, x, rest, hold, link⟩
  · have le : s'.link.out.budgeted ≤ s.link.out.budgeted ∧ s'.link.out.box.buffered ≤ s.link.out.box.buffered := by
      rcases he.out (Sane.of_reachable hs).link.hold with ho | ho
      · rw [ho]
        exact ⟨Nat.le_refl _, Nat.le_refl _⟩
      · exact ho.not_grows (.of_reachable hs) log
    rcases he.locked.room h.room word alone le.2 with room | ⟨key, x, rest, hold, link⟩
    · exact ⟨room, le.1.trans h.kept⟩
    · exact h.held hs word alone hold link
  · exact h.held hs word alone hold link

theorem Budget.init (cfg : Config) (m : Nat) : Budget cfg m (.init cfg) :=
  ⟨.other (fun _ h => nomatch h), Nat.zero_le _⟩

end Budget

/-! ## The bound -/

/-- What the kinds without a budget can add: two deferred pongs, a heartbeat and a close frame. -/
def EXTRA : Nat := 2 * 131 + 14 + 131

/-- Every byte has one kind. -/
theorem length_eq_sum (l : List Kind) :
    l.length = l.countP Kind.budgeted + l.count .deferred + l.count .heartbeat + l.count .close := by
  induction l with
  | nil => rfl
  | cons k l ih =>
    cases k <;> simp only [List.length_cons, List.countP_cons, List.count_cons, ih] <;> simp [Kind.budgeted] <;> omega

def Entry.hasKind (k : Kind) : Entry → Bool
  | .frame kind _ => kind == k
  | .shutdown => false

/-- The bytes of one kind, by the number of its frames. -/
theorem count_kinds_le {k : Kind} {n : Nat} {es : List Entry}
    (h : ∀ w, .frame k w ∈ es → w.bytes.length ≤ n) : (kinds es).count k ≤ n * es.countP (Entry.hasKind k) := by
  induction es with
  | nil => exact Nat.zero_le _
  | cons e es ih =>
    have ih := ih fun w hw => h w (List.mem_cons_of_mem _ hw)
    rw [kinds, List.flatMap_cons, List.count_append, show es.flatMap _ = kinds es from rfl, List.countP_cons]
    cases e with
    | frame kind w =>
      dsimp only
      rw [List.count_replicate]
      by_cases hk : kind = k
      · subst hk
        have hw := h w List.mem_cons_self
        simp only [Entry.hasKind, beq_self_eq_true, if_true, Nat.mul_add, Nat.mul_one]
        omega
      · have hk' : (kind == k) = false := beq_eq_false_iff_ne.mpr hk
        simp only [Entry.hasKind, hk', Bool.false_eq_true, if_false, Nat.add_zero, Nat.zero_add]
        exact ih
    | shutdown => simpa [Entry.hasKind] using ih

section Bound

variable {cfg : Config} {s s' : Sys}

/-- Control frames are short. -/
theorem control_length {kind : Kind} {w : Wire} (h : (Entry.frame kind w).Legal cfg)
    (hk : kind = .deferred ∨ kind = .close) : w.bytes.length ≤ 131 := by
  obtain ⟨hfin, hmask, hlegal⟩ := h
  have hlen : w.payload.length ≤ 125 := by
    rcases hk with rfl | rfl
    · exact hlegal.2
    · exact hlegal.2.1
  rw [Wire.bytes, if_pos hfin, length_encode hlegal.bound]
  exact encodedLen_control hlen _

theorem count_owed_le (o : Out) (k : Kind) : o.owed.count k ≤ (kinds o.inBatch).count k + (kinds o.queued).count k := by
  rw [Out.owed, List.count_append]
  exact Nat.add_le_add_right ((List.drop_sublist ..).count_le k) _

theorem count_deferred_le (h : Reachable (Sys.step cfg) (.init cfg) s) : s.link.out.owed.count .deferred ≤ 2 * 131 := by
  have d := Deferral.of_reachable h
  have legal := (Sane.of_reachable h).link.log
  have same (es : List Entry) : es.countP (Entry.hasKind .deferred) = es.countP Entry.isDeferred := by
    refine List.countP_congr fun e _ => ?_
    cases e with
    | frame kind w => cases kind <;> exact Iff.rfl
    | shutdown => exact Iff.rfl
  have hb := @count_kinds_le .deferred 131 s.link.out.inBatch fun w hw =>
    control_length (legal _ (by rw [Out.log]; simp [hw])) (.inl rfl)
  have hq := @count_kinds_le .deferred 131 s.link.out.queued fun w hw =>
    control_length (legal _ (by rw [Out.log]; simp [hw])) (.inl rfl)
  have h1 := d.batch
  have h2 := d.queued
  rw [Link.deferred] at h2
  rw [same] at hb hq
  have := count_owed_le s.link.out .deferred
  omega

theorem count_close_le (h : Reachable (Sys.step cfg) (.init cfg) s) : s.link.out.owed.count .close ≤ 131 := by
  have legal := (Sane.of_reachable h).link.log
  have once : s.link.out.log.countP (Entry.hasKind .close) ≤ 1 := by
    refine Lib.History.countP_le_one ((Discipline.of_reachable h).log.imp fun {a b} hab ha => ?_)
    have hc : a.isClose = true := by
      cases a with
      | frame kind w => cases kind <;> first | rfl | cases ha
      | shutdown => cases ha
    rcases hab.2 hc with hr | rfl
    · cases b with
      | frame kind w => cases kind <;> first | rfl | cases hr
      | shutdown => rfl
    · rfl
  have hall := @count_kinds_le .close 131 s.link.out.log fun w hw => control_length (legal _ hw) (.inr rfl)
  rw [Out.log, kinds_append, kinds_append, List.count_append, List.count_append, ← Out.log] at hall
  have := count_owed_le s.link.out .close
  omega

/-- While the writer runs, the counter is the budgeted bytes and few others. -/
theorem buffered_le_of_live {m : Nat} (h : Reachable (Sys.step cfg) (.init cfg) s) (budgeted : Budget cfg m s)
    (live : s.link.out.box.queue.done = false) : s.link.out.box.buffered ≤ budget cfg m + EXTRA := by
  have hb : s.link.out.owed.countP Kind.budgeted ≤ budget cfg m := budgeted.kept
  have hd := count_deferred_le h
  have hh := count_heartbeat_le h live
  have hc := count_close_le h
  rw [← length_owed (.of_reachable h) (.of_reachable h) live, length_eq_sum]
  unfold HEARTBEAT_LENGTH at hh
  unfold EXTRA
  omega

/-- Once the writer is stopped the counter does not grow. -/
theorem OutStep.buffered_of_done {o o' : Out} (h : OutStep cfg o o') (done : o'.box.queue.done = true) :
    o'.box.buffered ≤ o.box.buffered := by
  have stopped (hl : o.box.live = true) : o.box.queue.done = false := by
    rw [Outbox.live, Bool.and_eq_true, Bool.not_eq_true'] at hl
    exact hl.2
  cases h with
  | @frame kind op payload key other legal =>
    cases hl : o.box.live with
    | true =>
      obtain ⟨items, -, hp⟩ := Outbox.pushFrame_live cfg op key hl legal.bound
      rw [Out.pushFrame, hp] at done
      exact absurd done (by simp [stopped hl])
    | false => rw [Out.pushFrame, Outbox.pushFrame_dead hl]
  | heartbeat =>
    cases hl : o.box.live with
    | true =>
      rw [Out.pushHeartbeat, Outbox.pushHeartbeat_live hl] at done
      exact absurd done (by simp [stopped hl])
    | false => rw [Out.pushHeartbeat, Outbox.pushHeartbeat_dead hl]
  | shutdown =>
    cases hl : o.box.live with
    | true =>
      rw [Out.pushShutdown, Outbox.pushShutdown_live hl] at done
      exact absurd done (by simp [stopped hl])
    | false => rw [Out.pushShutdown, Outbox.pushShutdown_dead hl]
  | swap live hs =>
    obtain ⟨-, -, rfl⟩ := Out.swap_some hs
    exact Nat.le_refl _
  | pop hs =>
    obtain ⟨-, item, t, -, rfl⟩ := Out.pop_some hs
    exact Nat.le_refl _
  | write hs =>
    obtain ⟨c, -, -, -, -, rfl⟩ := Out.write_some hs
    exact Nat.le_refl _
  | progress hs =>
    obtain ⟨c, -, -, -, rfl⟩ := Out.progress_some hs
    simp only [Outbox.progress_eq]
    exact Nat.sub_le ..
  | finish hs =>
    obtain ⟨c, -, -, -, rfl⟩ := Out.finish_some hs
    exact Nat.le_refl _
  | _ => exact Nat.le_refl _

/-- The budget and the bound hold along a run in which no frame longer than `m` was accepted alone. -/
theorem bounded_run {m : Nat} (word : cfg.buffer < usizeMax) : ∀ (labs : List Label) {s t : Sys},
    Reachable (Sys.step cfg) (.init cfg) s → Budget cfg m s → s.link.out.box.buffered ≤ budget cfg m + EXTRA →
    largestAlone cfg s labs ≤ m → runs (Sys.step cfg) s labs = some t →
    t.link.out.box.buffered ≤ budget cfg m + EXTRA
  | [], _, _, _, _, bound, _, h => by
    cases h
    exact bound
  | lab :: labs, s, t, hs, budgeted, bound, alone, h => by
    obtain ⟨u, hu, ht⟩ := runs_cons_iff.mp h
    rw [largestAlone, hu] at alone
    dsimp only at alone
    obtain ⟨used, new, he⟩ := step_effect hu
    have reach := hs.next hu
    have kept := budgeted.step hs word ((Nat.le_max_left ..).trans alone) he
    refine bounded_run word labs reach kept ?_ ((Nat.le_max_right ..).trans alone) ht
    cases done : u.link.out.box.queue.done with
    | false => exact buffered_le_of_live reach kept done
    | true =>
      refine Nat.le_trans ?_ bound
      rcases he.out (Sane.of_reachable hs).link.hold with ho | ho
      · rw [ho]
      · exact ho.buffered_of_done done

/-- **Outbound memory is bounded**, whatever the peer sends and however the writer stalls. With `m`
the largest encoded length of a frame that was accepted while nothing was buffered, the counter
exceeds the larger of the limit, `m` and one pong above `PONG_LIMIT` by two deferred pongs, a
heartbeat and a close frame at most. The counter is a machine word, so a limit of `usize::MAX`
bounds it by itself. -/
theorem buffered_le {labs : List Label} (h : runs (Sys.step cfg) (.init cfg) labs = some s) :
    (cfg.buffer < usizeMax → s.link.out.box.buffered ≤
      max (max cfg.buffer (largestAlone cfg (.init cfg) labs)) (2 ^ 20 + 130) + 2 * 131 + 14 + 131) ∧
    s.link.out.box.buffered % 2 ^ 64 ≤
      max (max cfg.buffer (largestAlone cfg (.init cfg) labs)) (2 ^ 20 + 130) + 2 * 131 + 14 + 131 := by
  have bound (word : cfg.buffer < usizeMax) : s.link.out.box.buffered ≤
      max (max cfg.buffer (largestAlone cfg (.init cfg) labs)) (2 ^ 20 + 130) + 2 * 131 + 14 + 131 := by
    have := bounded_run word labs (.refl _) (.init cfg _) (Nat.zero_le _) (Nat.le_refl _) h
    rwa [budget, EXTRA, ← Nat.add_assoc, ← Nat.add_assoc] at this
  refine ⟨bound, ?_⟩
  by_cases word : cfg.buffer < usizeMax
  · exact (Nat.mod_le ..).trans (bound word)
  · have := Nat.mod_lt s.link.out.box.buffered (show 2 ^ 64 > 0 by decide)
    unfold usizeMax at word
    omega

end Bound

/-- A frame of four bytes is accepted while nothing is buffered; the limit is six bytes. -/
theorem buffered_le_alone :
    ∃ s, runs (Sys.step .small) (.init .small) (openRun ++ sendRun) = some s ∧ s.link.out.box.buffered = 4 ∧
      largestAlone .small (.init .small) (openRun ++ sendRun) = 4 ∧
      4 ≤ max (max 6 (largestAlone .small (.init .small) (openRun ++ sendRun))) (2 ^ 20 + 130) + 2 * 131 + 14 + 131 :=
  have run : runs (Sys.step .small) (.init .small) (openRun ++ sendRun) = some _ := rfl
  ⟨_, run, rfl, rfl, (buffered_le run).1 (by decide)⟩

end WebSocket.Net
