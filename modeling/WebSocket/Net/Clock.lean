import WebSocket.Net.System

/-!
# The heartbeat's timer

`heartbeat` says what is to be done for a quiet peer, and `heartbeat_deadline` of `clock.rs` says
when: `read_loop` sleeps until then. The two read the same clocks in two case analyses of
their own. `verdict_wait_iff` is what they have in common: there is nothing to do up to one
interval after `last`, the time that the deadline is counted from.
-/

namespace WebSocket.Net

open Proto Lib.Transition

/-! ## `heartbeat/clock.rs` -/

namespace Alive

/-- What the next interval is counted from. -/
def last (cfg : Config) (l : Link) (a : Alive) : Instant :=
  let seen := match l.received with
    | 0 => a.seen
    | ns + 1 => max a.seen (cfg.born + ns)
  match a.ping with
  | some ping =>
    match l.cells.getD ping.sent none with
    | some sent => if seen ≤ sent then sent else seen
    | none => max (max seen (cfg.born + l.written)) ping.queued
  | none => seen

/-- `Instant::checked_add` on a clock that ends at `limit`. -/
def checkedAdd (limit t : Instant) (d : Nat) : Option Instant := if t + d ≤ limit then some (t + d) else none

def heartbeatDeadline (cfg : Config) (limit : Instant) (l : Link) (a : Alive) : Option Instant :=
  cfg.heartbeat.bind fun interval => checkedAdd limit (a.last cfg l) interval

section Verdict

variable {cfg : Config} {l : Link} {a : Alive} {interval : Nat}

theorem checkedAdd_some {limit t d : Nat} {at_ : Instant} (h : checkedAdd limit t d = some at_) : at_ = t + d := by
  rw [checkedAdd] at h
  split at h
  · exact (Option.some.inj h).symm
  · cases h

theorem deadline_some {limit d : Instant} (beats : cfg.heartbeat = some interval)
    (h : a.heartbeatDeadline cfg limit l = some d) : d = a.last cfg l + interval := by
  rw [heartbeatDeadline, beats] at h
  exact checkedAdd_some h

theorem refresh_eq (a : Alive) (received : Nat) :
    a.refresh cfg received = ⟨match received with
      | 0 => a.seen
      | ns + 1 => max a.seen (cfg.born + ns), a.ping⟩ := by
  cases received <;> rfl

/-! The three cases of `heartbeat`: no ping yet, a ping that did not leave yet, a transmitted one. -/

theorem verdict_unasked (hp : a.ping = none) :
    a.verdict cfg l interval = if interval ≤ l.now - a.seen then .ping else .wait := by
  simp only [verdict, transmitted, hp, Option.bind_none, Alive.decide]

theorem verdict_unsent {p : Probe} (hp : a.ping = some p) (hs : l.cells.getD p.sent none = none) :
    a.verdict cfg l interval =
      if l.now - max (max a.seen (cfg.born + l.written)) p.queued < interval then .wait else .dead := by
  simp only [verdict, transmitted, hp, Option.bind_some, hs]

theorem verdict_sent {p : Probe} {sent : Instant} (hp : a.ping = some p) (hs : l.cells.getD p.sent none = some sent) :
    a.verdict cfg l interval =
      if a.seen ≤ sent then (if interval ≤ l.now - sent then .dead else .wait)
      else if interval ≤ l.now - a.seen then .ping else .wait := by
  simp only [verdict, transmitted, hp, Option.bind_some, hs, Alive.decide]

/-- Who decides to drop the peer has waited for the last ping: for its answer, or for it to leave. -/
theorem verdict_dead (h : a.verdict cfg l interval = .dead) : ∃ p, a.ping = some p ∧
    ((∃ sent, l.cells.getD p.sent none = some sent ∧ a.seen ≤ sent ∧ interval ≤ l.now - sent) ∨
      l.cells.getD p.sent none = none ∧
        interval ≤ l.now - max (max a.seen (cfg.born + l.written)) p.queued) := by
  cases hp : a.ping with
  | none =>
    rw [verdict_unasked hp] at h
    split at h <;> cases h
  | some p =>
    refine ⟨p, rfl, ?_⟩
    cases hs : l.cells.getD p.sent none with
    | none =>
      rw [verdict_unsent hp hs] at h
      split at h
      · cases h
      · exact .inr ⟨rfl, Nat.not_lt.mp ‹_›⟩
    | some sent =>
      rw [verdict_sent hp hs] at h
      split at h
      · rename_i early
        split at h
        · exact .inl ⟨sent, rfl, early, ‹_›⟩
        · cases h
      · split at h <;> cases h

/-- Who decides to ping has seen nothing for an interval, and the answer to the ping before. -/
theorem verdict_ping (h : a.verdict cfg l interval = .ping) : interval ≤ l.now - a.seen ∧
    ∀ p, a.ping = some p → ∃ sent, l.cells.getD p.sent none = some sent ∧ sent < a.seen := by
  cases hp : a.ping with
  | none =>
    rw [verdict_unasked hp] at h
    split at h
    · exact ⟨‹_›, fun p hp => by cases hp⟩
    · cases h
  | some p =>
    cases hs : l.cells.getD p.sent none with
    | none =>
      rw [verdict_unsent hp hs] at h
      split at h <;> cases h
    | some sent =>
      rw [verdict_sent hp hs] at h
      split at h
      · split at h <;> cases h
      · rename_i late
        split at h
        · refine ⟨‹_›, fun q hq => ?_⟩
          cases hq
          exact ⟨sent, hs, Nat.not_le.mp late⟩
        · cases h

/-- There is nothing to do before one interval after `last` has passed, and something from then on. -/
theorem verdict_wait_iff (pos : 0 < interval) :
    (a.refresh cfg l.received).verdict cfg l interval = .wait ↔ l.now < a.last cfg l + interval := by
  rw [refresh_eq, last]
  generalize (match l.received with
    | 0 => a.seen
    | ns + 1 => max a.seen (cfg.born + ns)) = seen
  -- a difference of times that was cut at zero is below the interval too
  have cut (now t : Nat) : interval ≤ now - t ↔ ¬ now < t + interval := by omega
  cases hp : a.ping with
  | none =>
    rw [verdict_unasked rfl]
    simp only [cut]
    split <;> simp_all
  | some p =>
    cases hs : l.cells.getD p.sent none with
    | none =>
      rw [verdict_unsent rfl hs]
      simp only [← Nat.not_le, cut, hs]
      split <;> simp_all
    | some sent =>
      rw [verdict_sent rfl hs]
      simp only [cut, hs]
      split
      · split <;> simp_all
      · split <;> simp_all

end Verdict

end Alive

/-- A server's link with small limits and a heartbeat. -/
def Config.beating : Config :=
  { Config.small with
    heartbeat := some 5
    heartbeat_pos := fun _ h => by cases h; decide }

/-! ## The check against its timer -/

namespace Sys

/-- A whole call of `heartbeat`, from `read_loop`'s `select!` back to the head of the loop. -/
def heartbeat (cfg : Config) (s : Sys) : Sys :=
  match cfg.heartbeat with
  | none => { s with rd := { s.rd with pc := .top } }
  | some interval =>
    if s.link.flags.state ≠ .opened then { s with rd := { s.rd with pc := .top } }
    else if (s.beat cfg interval).rd.pc = .pinging then (s.beat cfg interval).sendPing
    else s.beat cfg interval

/-- The call from `s` to `s'` queued a ping. -/
def Pinged (s s' : Sys) : Prop :=
  s'.link.hold = [.pushHeartbeat s.link.cells.length] ∧
    s'.rd.alive.ping = some ⟨s.link.now, s.link.cells.length⟩

/-- The call that ended in `s'` dropped the peer. -/
def Dropped (s' : Sys) : Prop := s'.rd.ops = Link.fail "heartbeat timed out"

section Heartbeat

variable {cfg : Config} {s : Sys} {interval : Nat}

theorem heartbeat_opened (beats : cfg.heartbeat = some interval) (opened : s.link.flags.state = .opened) :
    s.heartbeat cfg =
      if (s.beat cfg interval).rd.pc = .pinging then (s.beat cfg interval).sendPing else s.beat cfg interval := by
  simp only [heartbeat, beats, opened, ne_eq, not_true_eq_false, if_false]

/-! The three ways a check goes. -/

theorem beat_wait (h : (s.rd.alive.refresh cfg s.link.received).verdict cfg s.link interval = .wait) :
    s.beat cfg interval =
      { s with rd := { s.rd with alive := s.rd.alive.refresh cfg s.link.received, pc := .top } } := by
  simp only [beat, h]

theorem beat_ping (h : (s.rd.alive.refresh cfg s.link.received).verdict cfg s.link interval = .ping) :
    s.beat cfg interval =
      { s with rd := { s.rd with alive := s.rd.alive.refresh cfg s.link.received, pc := .pinging } } := by
  simp only [beat, h]

theorem beat_dead (h : (s.rd.alive.refresh cfg s.link.received).verdict cfg s.link interval = .dead) :
    s.beat cfg interval =
      { s with rd := { s.rd with
        alive := s.rd.alive.refresh cfg s.link.received
        ops := Link.fail "heartbeat timed out"
        pc := .leave } } := by
  simp only [beat, h]

theorem sendPing_opened (opened : s.link.flags.state = .opened) :
    s.sendPing =
      { s with
        link := { s.link with hold := [.pushHeartbeat s.link.cells.length], cells := s.link.cells ++ [none] }
        rd := { s.rd with
          alive := { s.rd.alive with ping := some ⟨s.link.now, s.link.cells.length⟩ }
          ops := [.released]
          pc := .top } } := by
  rw [sendPing, if_neg (by simpa using opened)]

/-- The steps of the reader when the timer of a read is up make this call. -/
theorem heartbeat_reachable (run : s.task = .running) (idle : s.rd.ops = []) (pc : s.rd.pc = .read)
    (free : s.link.hold = []) : Reachable (step cfg) s (s.heartbeat cfg) := by
  have woken {t : Sys} (ht : s.timer cfg = some t) : Reachable (step cfg) s t :=
    (Reachable.refl s).next (l := .timer) (by simp only [step, onRunning, run, if_true, ht])
  cases beats : cfg.heartbeat with
  | none =>
    rw [heartbeat, beats]
    exact woken (by simp [timer, idle, pc, beats])
  | some interval =>
    by_cases opened : s.link.flags.state = .opened
    · rw [heartbeat_opened beats opened]
      have timed := woken (t := { s with rd := { s.rd with pc := .beat interval } })
        (by simp [timer, idle, pc, beats, free, opened])
      have beaten : Reachable (step cfg) s (s.beat cfg interval) :=
        timed.next (l := .reader) (by simp [step, onRunning, run, readerStep, idle, readPc, beat])
      cases hv : (s.rd.alive.refresh cfg s.link.received).verdict cfg s.link interval with
      | wait =>
        rw [beat_wait hv] at beaten ⊢
        exact beaten
      | dead =>
        rw [beat_dead hv] at beaten ⊢
        exact beaten
      | ping =>
        rw [beat_ping hv] at beaten ⊢
        rw [if_pos rfl]
        exact beaten.next (l := .reader) (by simp [step, onRunning, run, readerStep, idle, readPc, free])
    · rw [heartbeat, beats]
      simp only [ne_eq, opened, not_false_eq_true, if_true]
      exact woken (by simp [timer, idle, pc, beats, free, opened])

/-- `heartbeat` acts exactly when `heartbeat_deadline` has passed, and the deadline after a ping lies ahead. -/
theorem acts_iff_due {limit d : Instant} (beats : cfg.heartbeat = some interval)
    (opened : s.link.flags.state = .opened) (free : s.link.hold = []) (idle : s.rd.ops = [])
    (due : s.rd.alive.heartbeatDeadline cfg limit s.link = some d) :
    (s.Pinged (s.heartbeat cfg) ∨ (s.heartbeat cfg).Dropped ↔ d ≤ s.link.now) ∧
      (s.Pinged (s.heartbeat cfg) → ∀ d',
        (s.heartbeat cfg).rd.alive.heartbeatDeadline cfg limit (s.heartbeat cfg).link = some d' →
          s.link.now < d') := by
  have hwait := @Alive.verdict_wait_iff cfg s.link s.rd.alive interval (cfg.heartbeat_pos interval beats)
  have late {v : Action} (hv : (s.rd.alive.refresh cfg s.link.received).verdict cfg s.link interval = v)
      (hne : v ≠ .wait) : s.rd.alive.last cfg s.link + interval ≤ s.link.now :=
    Nat.not_lt.mp fun h => hne (hv.symm.trans (hwait.mpr h))
  rw [Alive.deadline_some beats due, heartbeat_opened beats opened]
  cases hv : (s.rd.alive.refresh cfg s.link.received).verdict cfg s.link interval with
  | wait =>
    have idles : ¬ (s.Pinged (s.beat cfg interval) ∨ (s.beat cfg interval).Dropped) := by
      rw [beat_wait hv]
      simp [Pinged, Dropped, free, idle, Link.fail]
    rw [if_neg (by rw [beat_wait hv]; simp)]
    exact ⟨⟨fun h => absurd h idles, fun h => absurd (hwait.mp hv) (Nat.not_lt.mpr h)⟩,
      fun h => absurd (.inl h) idles⟩
  | dead =>
    have drops : (s.beat cfg interval).Dropped := by rw [beat_dead hv, Dropped]
    have unasked : ¬ s.Pinged (s.beat cfg interval) := by
      rw [beat_dead hv]
      simp [Pinged, free]
    rw [if_neg (by rw [beat_dead hv]; simp)]
    exact ⟨⟨fun _ => late hv (by simp), fun _ => .inr drops⟩, fun h => absurd h unasked⟩
  | ping =>
    rw [if_pos (by rw [beat_ping hv]), beat_ping hv, sendPing_opened (by exact opened)]
    refine ⟨⟨fun _ => late hv (by simp), fun _ => .inl ⟨rfl, rfl⟩⟩, fun _ d' due' => ?_⟩
    -- the new ping did not leave yet: its interval is counted from now at the earliest
    have unsent : (s.link.cells ++ [none]).getD s.link.cells.length none = none := by
      rw [List.getD_eq_getElem?_getD, List.getElem?_concat_length, Option.getD_some]
    rw [Alive.deadline_some beats due', Alive.last]
    simp only [unsent]
    exact Nat.lt_of_le_of_lt (Nat.le_max_right ..) (Nat.lt_add_of_pos_right (cfg.heartbeat_pos interval beats))

end Heartbeat

/-- An open link that has been quiet for nine units of time. -/
def quietLink : Sys :=
  { init .beating with link := { Link.new 0 with flags := { Flags.new with state := .opened }, now := 9 } }

theorem acts_iff_due_quietLink : quietLink.Pinged (quietLink.heartbeat .beating) ∨
    (quietLink.heartbeat .beating).Dropped :=
  (@acts_iff_due .beating quietLink 5 100 5 rfl rfl rfl rfl rfl).1.mpr (by decide)

end Sys

end WebSocket.Net
