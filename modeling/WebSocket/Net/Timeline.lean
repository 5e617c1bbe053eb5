import WebSocket.Lib.History
import WebSocket.Net.Clock

/-!
# What a heartbeat may conclude

A heartbeat seen from outside: bytes arrive and leave, the writer completes a ping, and
`heartbeat` queues the next ping or drops the peer. `Justified` says what the history must
have been for each of these. `Pulse` is what the heartbeat reads and writes of a connection,
three clocks and the cells among it; `Beat` is everything that may happen to that, and
`Kept.beat` proves that it justifies all its signs.

Time is one number. Two things that happen at the same time are told apart by their order in
the history only: an answer has to be later than the ping by the clock.
-/

namespace WebSocket.Net

open Lib.History

/-! ## The history -/

/-- What can be seen of a heartbeat. A ping is named by its cell. -/
inductive Sign where
  | arrived (t : Instant)
  | progressed (t : Instant)
  | transmitted (cell : Nat) (t : Instant)
  | queued (cell : Nat) (t : Instant)
  | dropped (t : Instant)
  deriving DecidableEq

/-- Whether the sign tells of a ping. -/
def Sign.ofPing : Sign → Bool
  | .transmitted .. | .queued .. => true
  | _ => false

/-- Nothing of this kind happened in `(a, b]`. -/
def NoneIn (kind : Instant → Sign) (past : List Sign) (a b : Int) : Prop :=
  ∀ x : Instant, kind x ∈ past → ¬ (a < (x : Int) ∧ (x : Int) ≤ b)

theorem NoneIn.of_le {kind : Instant → Sign} {past : List Sign} {a b : Nat}
    (h : ∀ x : Nat, kind x ∈ past → x ≤ a) : NoneIn kind past a b := by
  intro (x : Nat) hx
  have := h x hx
  omega

theorem NoneIn.of_add_le {kind : Instant → Sign} {past : List Sign} {t d : Nat}
    (h : ∀ x : Nat, kind x ∈ past → x + d ≤ t) : NoneIn kind past (t - d) t := by
  intro (x : Nat) hx
  have := h x hx
  omega

/-- The last ping that was queued, and when. -/
def Current (past : List Sign) (cell : Nat) (t : Instant) : Prop :=
  ∃ a b, past = a ++ .queued cell t :: b ∧ ∀ c u, Sign.queued c u ∉ b

/-- The ping was queued and is not transmitted yet, or nothing arrived after it was. -/
def Outstanding (past : List Sign) (cell : Nat) : Prop :=
  (∃ t, .queued cell t ∈ past) ∧
    ((∀ s, Sign.transmitted cell s ∉ past) ∨
      ∃ s, .transmitted cell s ∈ past ∧ ∀ x, .arrived x ∈ past → x ≤ s)

/-- What the history says for each sign. -/
def Justified (interval : Nat) (past : List Sign) : Sign → Prop
  | .arrived _ | .progressed _ => True
  | .transmitted cell s =>
    .progressed s ∈ past ∧ (∀ x, .progressed x ∈ past → x ≤ s) ∧ ∃ t, .queued cell t ∈ past ∧ t ≤ s
  | .queued _ t => NoneIn .arrived past (t - interval) t ∧ ∀ c, ¬ Outstanding past c
  | .dropped t =>
    ∃ cell q, Current past cell q ∧
      ((∃ s : Instant, .transmitted cell s ∈ past ∧ (s : Int) ≤ t - interval ∧ NoneIn .arrived past s t) ∨
        ((q : Int) ≤ t - interval ∧ (∀ s, Sign.transmitted cell s ∉ past) ∧
          NoneIn .arrived past (t - interval) t ∧ NoneIn .progressed past (t - interval) t))

/-! ## The clocks behind it -/

/-- What a heartbeat lives on. `sending` is the ping being written, `stamping` its time on the
way to its cell, `pinging` says that the reader has decided to ping, and `moved` that bytes
left since the writer took its item. -/
structure Pulse where
  now : Instant
  written : Nat
  received : Nat
  cells : List (Option Instant)
  alive : Alive
  sending : Option Nat
  stamping : Option Instant
  pinging : Bool
  moved : Bool

namespace Pulse

/-- The last sign of life, as the next check will see it. -/
def seen (cfg : Config) (p : Pulse) : Instant := (p.alive.refresh cfg p.received).seen

/-- When the ping with this cell was transmitted. -/
def sentAt (p : Pulse) (cell : Nat) : Option Instant := p.cells.getD cell none

end Pulse

/-- Everything that can happen to a heartbeat, and what can be seen of it. -/
inductive Beat (cfg : Config) (interval : Nat) (p : Pulse) : List Sign → Pulse → Prop where
  | rest : Beat cfg interval p [] p
  | tick {d} : Beat cfg interval p [] { p with now := p.now + d }
  | arrive (quiet : p.pinging = false) :
      Beat cfg interval p [.arrived p.now] { p with received := p.now - cfg.born + 1 }
  | flow (idle : p.stamping = none) :
      Beat cfg interval p [.progressed p.now] { p with written := p.now - cfg.born, moved := true }
  | start (unasked : p.alive.ping = none) :
      Beat cfg interval p [] { p with alive := { p.alive with seen := p.now } }
  | read (quiet : p.pinging = false) :
      Beat cfg interval p [.arrived p.now] { p with alive := { p.alive with seen := p.now } }
  | wait : Beat cfg interval p [] { p with alive := p.alive.refresh cfg p.received }
  | ask (late : interval ≤ p.now - p.seen cfg)
      (answered : ∀ q, p.alive.ping = some q → ∃ s, p.sentAt q.sent = some s ∧ s < p.seen cfg) :
      Beat cfg interval p [] { p with alive := p.alive.refresh cfg p.received, pinging := true }
  | drop {q} (ping : p.alive.ping = some q)
      (why : (∃ s, p.sentAt q.sent = some s ∧ p.seen cfg ≤ s ∧ interval ≤ p.now - s) ∨
        p.sentAt q.sent = none ∧ interval ≤ p.now - max (max (p.seen cfg) (cfg.born + p.written)) q.queued) :
      Beat cfg interval p [.dropped p.now] { p with alive := p.alive.refresh cfg p.received }
  | unsent : Beat cfg interval p [] { p with pinging := false }
  | ping (pinging : p.pinging = true) :
      Beat cfg interval p [.queued p.cells.length p.now]
        { p with
          cells := p.cells ++ [none]
          alive := { p.alive with ping := some ⟨p.now, p.cells.length⟩ }
          pinging := false }
  | take {id} (known : ∀ c, id = some c → c < p.cells.length) (idle : p.stamping = none) :
      Beat cfg interval p [] { p with sending := id, moved := false }
  | finish (idle : p.stamping = none) : Beat cfg interval p [] { p with sending := none }
  | count (moved : p.moved = true) (unsent : ∀ c, p.sending = some c → p.sentAt c = none) :
      Beat cfg interval p [] { p with stamping := some (cfg.born + p.written) }
  | stamp {t c} (stamping : p.stamping = some t) (sending : p.sending = some c) :
      Beat cfg interval p [.transmitted c t] { p with cells := p.cells.set c (some t), stamping := none }
  | skip : Beat cfg interval p [] { p with stamping := none }

/-! ## What holds along -/

/-- The clocks bound what happened: `heard` and `flowed` are why a late check misses nothing. -/
structure Clocks (cfg : Config) (p : Pulse) (log : List Sign) : Prop where
  born : cfg.born ≤ p.now
  seen_le : p.seen cfg ≤ p.now
  written_le : cfg.born + p.written ≤ p.now
  queued_le : ∀ q, p.alive.ping = some q → q.queued ≤ p.now
  heard : ∀ x, .arrived x ∈ log → x ≤ p.seen cfg
  flowed : ∀ x, .progressed x ∈ log → x ≤ cfg.born + p.written
  life : ∀ q, p.alive.ping = some q → q.queued < p.seen cfg → .arrived (p.seen cfg) ∈ log

/-- The cells agree with the history, and every ping but the last was answered. -/
structure Cells (interval : Nat) (p : Pulse) (log : List Sign) : Prop where
  sent : ∀ c s, p.sentAt c = some s ↔ .transmitted c s ∈ log
  queued : ∀ c, c < p.cells.length ↔ ∃ t, .queued c t ∈ log
  current : ∀ q, p.alive.ping = some q → Current log q.sent q.queued
  answered : ∀ c, c < p.cells.length → (∃ q, p.alive.ping = some q ∧ q.sent = c) ∨
    ∃ s x, p.sentAt c = some s ∧ .arrived x ∈ log ∧ s < x
  pinging : p.pinging = true → (∀ x, .arrived x ∈ log → x + interval ≤ p.now) ∧
    ∀ q, p.alive.ping = some q → ∃ s x, p.sentAt q.sent = some s ∧ .arrived x ∈ log ∧ s < x

/-- A stamp is the time of the last progress, and not before the ping was queued. -/
structure Stamps (cfg : Config) (p : Pulse) (log : List Sign) : Prop where
  known : ∀ c, p.sending = some c → c < p.cells.length
  moved : p.moved = true → .progressed (cfg.born + p.written) ∈ log ∧
    ∀ q, p.alive.ping = some q → p.sending = some q.sent → q.queued ≤ cfg.born + p.written
  stamping : ∀ t, p.stamping = some t → t = cfg.born + p.written ∧ p.moved = true ∧
    ∀ c, p.sending = some c → p.sentAt c = none
  order : ∀ q s, p.alive.ping = some q → p.sentAt q.sent = some s → q.queued ≤ s

/-! ### Steps -/

section Seen

variable {cfg : Config} {now born : Instant} {a : Alive} {received : Nat}

theorem Alive.le_refresh (a : Alive) (received : Nat) : a.seen ≤ (a.refresh cfg received).seen := by
  rw [refresh]
  split
  · exact Nat.le_refl _
  · exact Nat.le_max_left ..

theorem Alive.refresh_refresh (a : Alive) (received : Nat) :
    (a.refresh cfg received).refresh cfg received = a.refresh cfg received := by
  simp only [refresh]
  split
  · rfl
  · simp only [Nat.max_assoc, Nat.max_self]

theorem Alive.seen_ping (a : Alive) (ping : Option Probe) (received : Nat) :
    ({ a with ping := ping }.refresh cfg received).seen = (a.refresh cfg received).seen := by
  rw [refresh_eq, refresh_eq]

/-- Something arrives. -/
theorem Alive.seen_arrived (born : cfg.born ≤ now) (h : a.seen ≤ now) :
    (a.refresh cfg (now - cfg.born + 1)).seen = now := by
  rw [refresh_eq]
  dsimp only
  rw [Nat.add_sub_cancel' born]
  exact Nat.max_eq_right h

/-- A read returns, after all that arrived. -/
theorem Alive.seen_read (h : (a.refresh cfg received).seen ≤ now) :
    ({ a with seen := now }.refresh cfg received).seen = now := by
  rw [refresh_eq] at h ⊢
  cases received with
  | zero => rfl
  | succ ns => exact Nat.max_eq_left (Nat.le_trans (Nat.le_max_right ..) h)

end Seen

theorem getD_snoc_none (cells : List (Option Instant)) (c : Nat) :
    (cells ++ [none]).getD c none = cells.getD c none := by
  rw [List.getD_eq_getElem?_getD, List.getD_eq_getElem?_getD, List.getElem?_append]
  split
  · rfl
  · rename_i hc
    rw [List.getElem?_eq_none (Nat.not_lt.mp hc)]
    cases c - cells.length <;> rfl

theorem getD_stamped {cells : List (Option Instant)} {c : Nat} (hc : c < cells.length) (t : Instant) :
    (cells.set c (some t)).getD c none = some t := by
  rw [List.getD_eq_getElem?_getD, List.getElem?_set_self hc, Option.getD_some]

theorem getD_stamped_ne {c d : Nat} (hd : d ≠ c) (cells : List (Option Instant)) (t : Instant) :
    (cells.set c (some t)).getD d none = cells.getD d none := by
  rw [List.getD_eq_getElem?_getD, List.getElem?_set_ne (Ne.symm hd), ← List.getD_eq_getElem?_getD]

section Steps

variable {cfg : Config} {interval : Nat} {p p' : Pulse} {log signs : List Sign}

/-- Time may pass as long as nothing is seen. -/
theorem Clocks.keep {log' : List Sign} (h : Clocks cfg p log) (now : p.now ≤ p'.now) (written : p'.written = p.written)
    (seen : p'.seen cfg = p.seen cfg) (ping : p'.alive.ping = p.alive.ping)
    (arrived : ∀ x, .arrived x ∈ log' ↔ .arrived x ∈ log)
    (progressed : ∀ x, .progressed x ∈ log' ↔ .progressed x ∈ log) : Clocks cfg p' log' where
  born := Nat.le_trans h.born now
  seen_le := seen ▸ Nat.le_trans h.seen_le now
  written_le := written ▸ Nat.le_trans h.written_le now
  queued_le q hq := Nat.le_trans (h.queued_le q (ping ▸ hq)) now
  heard x hx := seen ▸ h.heard x ((arrived x).mp hx)
  flowed x hx := written ▸ h.flowed x ((progressed x).mp hx)
  life q hq hlt := by
    rw [seen] at hlt ⊢
    exact (arrived _).mpr (h.life q (ping ▸ hq) hlt)

/-- Something was seen just now. -/
theorem Clocks.see (h : Clocks cfg p log) (now : p'.now = p.now) (written : p'.written = p.written)
    (seen : p'.seen cfg = p.now) (ping : p'.alive.ping = p.alive.ping) :
    Clocks cfg p' (log ++ [.arrived p.now]) where
  born := now ▸ h.born
  seen_le := Nat.le_of_eq (seen.trans now.symm)
  written_le := by rw [written, now]; exact h.written_le
  queued_le q hq := now ▸ h.queued_le q (ping ▸ hq)
  heard x hx := by
    rw [seen]
    rcases List.mem_append.mp hx with hx | hx
    · exact Nat.le_trans (h.heard x hx) h.seen_le
    · cases List.mem_singleton.mp hx
      exact Nat.le_refl _
  flowed x hx := by
    rw [written]
    exact h.flowed x (by simpa using hx)
  life q hq hlt := by
    rw [seen]
    exact List.mem_append_right _ (List.mem_singleton_self _)

theorem Clocks.beat (h : Clocks cfg p log) (hb : Beat cfg interval p signs p') : Clocks cfg p' (log ++ signs) := by
  have seen_le : p.alive.seen ≤ p.now := Nat.le_trans (p.alive.le_refresh _) h.seen_le
  have refreshed : ({ p with alive := p.alive.refresh cfg p.received } : Pulse).seen cfg = p.seen cfg :=
    congrArg Alive.seen (p.alive.refresh_refresh _)
  have ping : (p.alive.refresh cfg p.received).ping = p.alive.ping := by rw [Alive.refresh_eq]
  cases hb with
  | tick => exact h.keep (Nat.le_add_right ..) rfl rfl rfl (by simp) (by simp)
  | arrive quiet => exact h.see rfl rfl (Alive.seen_arrived h.born seen_le) rfl
  | read quiet => exact h.see rfl rfl (Alive.seen_read h.seen_le) rfl
  | flow idle =>
    have written : cfg.born + (p.now - cfg.born) = p.now := Nat.add_sub_cancel' h.born
    refine ⟨h.born, h.seen_le, Nat.le_of_eq written, h.queued_le, fun x hx => h.heard x (by simpa using hx), ?_, ?_⟩
    · intro x hx
      rw [written]
      rcases List.mem_append.mp hx with hx | hx
      · exact Nat.le_trans (h.flowed x hx) h.written_le
      · cases List.mem_singleton.mp hx
        exact Nat.le_refl _
    · intro q hq hlt
      exact List.mem_append_left _ (h.life q hq hlt)
  | start unasked =>
    have seen : _ = p.now := Alive.seen_read h.seen_le
    refine ⟨h.born, Nat.le_of_eq seen, h.written_le, h.queued_le, ?_, by simpa using h.flowed, ?_⟩
    · intro x hx
      refine Nat.le_trans (h.heard x (by simpa using hx)) ?_
      exact Nat.le_trans h.seen_le (Nat.le_of_eq seen.symm)
    · intro q hq
      rw [unasked] at hq
      cases hq
  | wait => exact h.keep (Nat.le_refl _) rfl refreshed ping (by simp) (by simp)
  | ask => exact h.keep (Nat.le_refl _) rfl refreshed ping (by simp) (by simp)
  | drop => exact h.keep (Nat.le_refl _) rfl refreshed ping (by simp) (by simp)
  | ping =>
    have seen : _ = p.seen cfg := p.alive.seen_ping (some ⟨p.now, p.cells.length⟩) p.received
    have seen_le := Nat.le_trans (Nat.le_of_eq seen) h.seen_le
    refine ⟨h.born, seen_le, h.written_le, ?_, ?_, fun x hx => h.flowed x (by simpa using hx), ?_⟩
    · rintro q ⟨⟩
      exact Nat.le_refl _
    · intro x hx
      exact Nat.le_trans (h.heard x (by simpa using hx)) (Nat.le_of_eq seen.symm)
    · rintro q ⟨⟩ hlt
      exact absurd hlt (Nat.not_lt.mpr seen_le)
  | _ => exact h.keep (Nat.le_refl _) rfl rfl rfl (by simp) (by simp)

theorem Sign.mem_append_plain {z : Sign} (plain : ∀ z ∈ signs, z.ofPing = false) (hz : z.ofPing = true) :
    z ∈ log ++ signs ↔ z ∈ log := by
  refine ⟨fun h => ?_, List.mem_append_left _⟩
  rcases List.mem_append.mp h with h | h
  · exact h
  · rw [plain z h] at hz
    cases hz

/-- Nothing happens to a ping; and nothing arrives while one is being sent. -/
theorem Cells.keep (h : Cells interval p log) (now : p.now ≤ p'.now) (cells : p'.cells = p.cells)
    (ping : p'.alive.ping = p.alive.ping) (plain : ∀ z ∈ signs, z.ofPing = false)
    (pinging : p'.pinging = true → p.pinging = true ∧ ∀ x, Sign.arrived x ∉ signs) :
    Cells interval p' (log ++ signs) := by
  have sentAt (c : Nat) : p'.sentAt c = p.sentAt c := by rw [Pulse.sentAt, cells, Pulse.sentAt]
  refine ⟨fun c s => ?_, fun c => ?_, fun q hq => ?_, fun c hc => ?_, fun hp => ?_⟩
  · rw [sentAt, h.sent, Sign.mem_append_plain plain rfl]
  · rw [cells, h.queued]
    exact exists_congr fun t => (Sign.mem_append_plain plain rfl).symm
  · obtain ⟨a, b, rfl, hb⟩ := h.current q (ping ▸ hq)
    refine ⟨a, b ++ signs, by simp, fun c u hu => hb c u ?_⟩
    exact (Sign.mem_append_plain plain rfl).mp hu
  · rw [cells] at hc
    simp only [ping, sentAt]
    exact (h.answered c hc).imp_right fun ⟨s, x, hs, hx, hlt⟩ => ⟨s, x, hs, List.mem_append_left _ hx, hlt⟩
  · obtain ⟨hp, silent⟩ := pinging hp
    obtain ⟨late, answered⟩ := h.pinging hp
    simp only [ping, sentAt]
    refine ⟨fun x hx => ?_, fun q hq => ?_⟩
    · rcases List.mem_append.mp hx with hx | hx
      · exact Nat.le_trans (late x hx) now
      · exact absurd hx (silent x)
    · obtain ⟨s, x, hs, hx, hlt⟩ := answered q hq
      exact ⟨s, x, hs, List.mem_append_left _ hx, hlt⟩

theorem Cells.beat (h : Cells interval p log) (clocks : Clocks cfg p log) (stamps : Stamps cfg p log)
    (hb : Beat cfg interval p signs p') : Cells interval p' (log ++ signs) := by
  have ping : (p.alive.refresh cfg p.received).ping = p.alive.ping := by rw [Alive.refresh_eq]
  cases hb with
  | tick => exact h.keep (Nat.le_add_right ..) rfl rfl (by simp) (by simp)
  | arrive quiet => exact h.keep (Nat.le_refl _) rfl rfl (by simp [Sign.ofPing]) (by simp [quiet])
  | read quiet => exact h.keep (Nat.le_refl _) rfl rfl (by simp [Sign.ofPing]) (by simp [quiet])
  | flow idle => exact h.keep (Nat.le_refl _) rfl rfl (by simp [Sign.ofPing]) (by simp)
  | wait => exact h.keep (Nat.le_refl _) rfl ping (by simp) (by simp)
  | drop => exact h.keep (Nat.le_refl _) rfl ping (by simp [Sign.ofPing]) (by simp)
  | unsent => exact h.keep (Nat.le_refl _) rfl rfl (by simp) (by simp)
  | ask late answered =>
    have same : Cells interval { p with alive := p.alive.refresh cfg p.received, pinging := false } (log ++ []) :=
      h.keep (Nat.le_refl _) rfl ping (by simp) (by simp)
    refine ⟨same.sent, same.queued, same.current, same.answered, fun _ => ⟨fun x hx => ?_, fun q hq => ?_⟩⟩
    · have heard := clocks.heard x (by simpa using hx)
      have := Nat.add_le_of_le_sub clocks.seen_le late
      exact Nat.le_trans (Nat.add_le_add_right heard _) (by rw [Nat.add_comm]; exact this)
    · -- what was seen after the ping was transmitted arrived after the ping was queued
      rw [ping] at hq
      obtain ⟨s, hs, hlt⟩ := answered q hq
      have queued := Nat.lt_of_le_of_lt (stamps.order q s hq hs) hlt
      exact ⟨s, p.seen cfg, hs, by simpa using clocks.life q hq queued, hlt⟩
  | ping pinging =>
    obtain ⟨-, replied⟩ := h.pinging pinging
    have sentAt (c : Nat) : (p.cells ++ [none]).getD c none = p.sentAt c := getD_snoc_none ..
    refine ⟨fun c s => ?_, fun c => ?_, ?_, fun c hc => ?_, by simp⟩
    · rw [Pulse.sentAt, sentAt, h.sent]
      simp
    · rw [List.length_append, List.length_singleton]
      simp only [List.mem_append, List.mem_singleton, Sign.queued.injEq, exists_or, ← h.queued]
      constructor
      · intro hc
        rcases Nat.lt_succ_iff_lt_or_eq.mp hc with hc | rfl
        · exact .inl hc
        · exact .inr ⟨_, rfl, rfl⟩
      · rintro (hc | ⟨_, rfl, rfl⟩)
        · exact Nat.lt_succ_of_lt hc
        · exact Nat.lt_succ_self _
    · rintro q ⟨⟩
      exact ⟨log, [], rfl, by simp⟩
    · rw [List.length_append, List.length_singleton] at hc
      rcases Nat.lt_succ_iff_lt_or_eq.mp hc with hc | rfl
      · right
        obtain ⟨s, x, hs, hx, hlt⟩ : ∃ s x, p.sentAt c = some s ∧ .arrived x ∈ log ∧ s < x := by
          rcases h.answered c hc with ⟨q, hq, rfl⟩ | h
          · exact replied q hq
          · exact h
        exact ⟨s, x, (sentAt c).trans hs, List.mem_append_left _ hx, hlt⟩
      · exact .inl ⟨_, rfl, rfl⟩
  | @stamp t c stamping sending =>
    obtain ⟨-, -, unsent⟩ := stamps.stamping t stamping
    have stamped := getD_stamped (stamps.known c sending) t
    -- the cells of the pings that were transmitted before stay
    have stays {d : Nat} {s : Instant} (hs : p.sentAt d = some s) : (p.cells.set c (some t)).getD d none = some s := by
      refine (getD_stamped_ne ?_ ..).trans hs
      rintro rfl
      rw [unsent _ sending] at hs
      cases hs
    refine ⟨fun d s => ?_, fun d => ?_, fun q hq => ?_, fun d hd => ?_, fun hp => ?_⟩
    · rw [Pulse.sentAt, List.mem_append, List.mem_singleton, ← h.sent]
      constructor
      · intro hs
        by_cases hd : d = c
        · subst hd
          rw [stamped] at hs
          cases hs
          exact .inr rfl
        · exact .inl ((getD_stamped_ne hd ..).symm.trans hs)
      · rintro (hs | hs)
        · exact stays hs
        · cases hs
          exact stamped
    · rw [List.length_set, h.queued]
      simp
    · obtain ⟨a, b, rfl, hb⟩ := h.current q hq
      exact ⟨a, b ++ [.transmitted c t], by simp, by simpa using hb⟩
    · rw [List.length_set] at hd
      refine (h.answered d hd).imp_right ?_
      rintro ⟨s, x, hs, hx, hlt⟩
      exact ⟨s, x, stays hs, List.mem_append_left _ hx, hlt⟩
    · obtain ⟨late, answered⟩ := h.pinging hp
      refine ⟨fun x hx => late x (by simpa using hx), fun q hq => ?_⟩
      obtain ⟨s, x, hs, hx, hlt⟩ := answered q hq
      exact ⟨s, x, stays hs, List.mem_append_left _ hx, hlt⟩
  | _ => exact h.keep (Nat.le_refl _) rfl rfl (by simp) (by simp)

theorem Stamps.keep (h : Stamps cfg p log) (written : p'.written = p.written) (cells : p'.cells = p.cells)
    (ping : p'.alive.ping = p.alive.ping) (sending : p'.sending = p.sending) (moved : p'.moved = p.moved)
    (stamping : p'.stamping = p.stamping) : Stamps cfg p' (log ++ signs) := by
  have sentAt (c : Nat) : p'.sentAt c = p.sentAt c := by rw [Pulse.sentAt, cells, Pulse.sentAt]
  refine ⟨?_, ?_, ?_, ?_⟩
  · simpa only [cells, sending] using h.known
  · simp only [moved, written, ping, sending]
    exact fun hm => (h.moved hm).imp_left (List.mem_append_left _)
  · simpa only [written, moved, stamping, sending, sentAt] using h.stamping
  · simpa only [ping, sentAt] using h.order

theorem Stamps.beat (h : Stamps cfg p log) (clocks : Clocks cfg p log) (hb : Beat cfg interval p signs p') :
    Stamps cfg p' (log ++ signs) := by
  have ping : (p.alive.refresh cfg p.received).ping = p.alive.ping := by rw [Alive.refresh_eq]
  cases hb with
  | flow idle =>
    have written : cfg.born + (p.now - cfg.born) = p.now := Nat.add_sub_cancel' clocks.born
    refine ⟨h.known, fun _ => ⟨?_, fun q hq _ => ?_⟩, fun t ht => ?_, h.order⟩
    · rw [written]
      exact List.mem_append_right _ (List.mem_singleton_self _)
    · rw [written]
      exact clocks.queued_le q hq
    · rw [idle] at ht
      cases ht
  | wait => exact h.keep rfl rfl ping rfl rfl rfl
  | ask => exact h.keep rfl rfl ping rfl rfl rfl
  | drop => exact h.keep rfl rfl ping rfl rfl rfl
  | ping pinging =>
    have sentAt (c : Nat) : (p.cells ++ [none]).getD c none = p.sentAt c := getD_snoc_none ..
    refine ⟨fun c hc => ?_, fun hm => ⟨?_, ?_⟩, fun t ht => ?_, ?_⟩
    · rw [List.length_append]
      exact Nat.lt_add_right _ (h.known c hc)
    · exact List.mem_append_left _ (h.moved hm).1
    · rintro q ⟨⟩ hs
      exact absurd (h.known _ hs) (Nat.lt_irrefl _)
    · obtain ⟨h1, h2, h3⟩ := h.stamping t ht
      exact ⟨h1, h2, fun c hc => (sentAt c).trans (h3 c hc)⟩
    · rintro q s ⟨⟩ hs
      rw [Pulse.sentAt, sentAt, Pulse.sentAt, List.getD_eq_getElem?_getD, List.getElem?_eq_none (Nat.le_refl _)] at hs
      cases hs
  | take known idle =>
    refine ⟨known, by simp, fun t ht => ?_, h.order⟩
    rw [idle] at ht
    cases ht
  | finish idle =>
    refine ⟨by simp, fun hm => ⟨List.mem_append_left _ (h.moved hm).1, by simp⟩, fun t ht => ?_, h.order⟩
    rw [idle] at ht
    cases ht
  | count moved unsent =>
    refine ⟨h.known, fun hm => (h.moved hm).imp_left (List.mem_append_left _), ?_, h.order⟩
    rintro t ⟨⟩
    exact ⟨rfl, moved, unsent⟩
  | @stamp t c stamping sending =>
    obtain ⟨rfl, moved, -⟩ := h.stamping t stamping
    refine ⟨?_, fun hm => (h.moved hm).imp_left (List.mem_append_left _), by simp, fun q s hq hs => ?_⟩
    · simpa only [List.length_set] using h.known
    · by_cases hc : q.sent = c
      · subst hc
        rw [Pulse.sentAt, getD_stamped (h.known _ sending)] at hs
        cases hs
        exact (h.moved moved).2 q hq sending
      · rw [Pulse.sentAt, getD_stamped_ne hc] at hs
        exact h.order q s hq hs
  | skip => exact ⟨h.known, fun hm => (h.moved hm).imp_left (List.mem_append_left _), by simp, h.order⟩
  | _ => exact h.keep rfl rfl rfl rfl rfl rfl

theorem Cells.not_outstanding (h : Cells interval p log) {c : Nat} {s x : Instant} (hs : p.sentAt c = some s)
    (hx : .arrived x ∈ log) (hlt : s < x) : ¬ Outstanding log c := by
  rintro ⟨-, out | ⟨s', hs', out⟩⟩
  · exact out s ((h.sent c s).mp hs)
  · -- it has one time only
    have same := hs.symm.trans ((h.sent c s').mpr hs')
    cases same
    exact absurd (out x hx) (Nat.not_le.mpr hlt)

/-- A ping that is outstanding is the last one. -/
theorem Cells.last_of_outstanding (h : Cells interval p log) {c : Nat} (hc : Outstanding log c) :
    ∃ q, p.alive.ping = some q ∧ q.sent = c := by
  rcases h.answered c ((h.queued c).mpr hc.1) with last | ⟨s, x, hs, hx, hlt⟩
  · exact last
  · exact absurd hc (h.not_outstanding hs hx hlt)

/-- A time that an interval has passed since. -/
theorem add_le_of_passed {t d now : Nat} (pos : 0 < d) (h : d ≤ now - t) : t + d ≤ now := by omega

/-- Every sign is justified by what came before. -/
theorem justified_of_beat (clocks : Clocks cfg p log) (cells : Cells interval p log) (stamps : Stamps cfg p log)
    (pos : 0 < interval) (hb : Beat cfg interval p signs p') : ∀ z ∈ signs, Justified interval log z := by
  cases hb with
  | arrive => simp [Justified]
  | flow => simp [Justified]
  | read => simp [Justified]
  | @drop q ping why =>
    rw [List.forall_mem_singleton]
    refine ⟨q.sent, q.queued, cells.current q ping, ?_⟩
    rcases why with ⟨s, hs, seen, late⟩ | ⟨unsent, late⟩
    · have passed := add_le_of_passed pos late
      refine .inl ⟨s, (cells.sent ..).mp hs, Int.le_sub_right_of_add_le (Int.ofNat_le.mpr passed), ?_⟩
      exact .of_le fun x hx => Nat.le_trans (clocks.heard x hx) seen
    · -- the interval is counted from the latest of three times
      have passed {t : Nat} (ht : t ≤ max (max (p.seen cfg) (cfg.born + p.written)) q.queued) :
          t + interval ≤ p.now := Nat.le_trans (Nat.add_le_add_right ht _) (add_le_of_passed pos late)
      have seen := Nat.le_trans (Nat.le_max_left (p.seen cfg) (cfg.born + p.written)) (Nat.le_max_left _ q.queued)
      have written := Nat.le_trans (Nat.le_max_right (p.seen cfg) (cfg.born + p.written)) (Nat.le_max_left _ q.queued)
      refine .inr ⟨Int.le_sub_right_of_add_le (Int.ofNat_le.mpr (passed (Nat.le_max_right ..))), fun s hs => ?_, ?_, ?_⟩
      · rw [(cells.sent ..).mpr hs] at unsent
        cases unsent
      · exact .of_add_le fun x hx => passed (Nat.le_trans (clocks.heard x hx) seen)
      · exact .of_add_le fun x hx => passed (Nat.le_trans (clocks.flowed x hx) written)
  | ping pinging =>
    rw [List.forall_mem_singleton]
    obtain ⟨late, answered⟩ := cells.pinging pinging
    refine ⟨.of_add_le late, fun c hc => ?_⟩
    obtain ⟨q, hq, rfl⟩ := cells.last_of_outstanding hc
    obtain ⟨s, x, hs, hx, hlt⟩ := answered q hq
    exact cells.not_outstanding hs hx hlt hc
  | @stamp t c stamping sending =>
    rw [List.forall_mem_singleton]
    obtain ⟨rfl, moved, unsent⟩ := stamps.stamping t stamping
    obtain ⟨progressed, queued⟩ := stamps.moved moved
    refine ⟨progressed, clocks.flowed, ?_⟩
    -- a ping that was not transmitted yet is the last one
    rcases cells.answered c (stamps.known c sending) with ⟨q, hq, rfl⟩ | ⟨s, x, hs, -, -⟩
    · obtain ⟨a, b, hlog, -⟩ := cells.current q hq
      exact ⟨q.queued, by rw [hlog]; simp, queued q hq sending⟩
    · rw [unsent c sending] at hs
      cases hs
  | _ => simp

end Steps

/-! ### Runs -/

structure Kept (cfg : Config) (interval : Nat) (p : Pulse) (log : List Sign) : Prop where
  clocks : Clocks cfg p log
  cells : Cells interval p log
  stamps : Stamps cfg p log
  justified : Always (Justified interval) log

theorem Beat.signs_cases {cfg : Config} {interval : Nat} {p p' : Pulse} {signs : List Sign}
    (h : Beat cfg interval p signs p') : signs = [] ∨ ∃ z, signs = [z] := by
  cases h <;> simp

theorem Kept.beat {cfg : Config} {interval : Nat} {p p' : Pulse} {log signs : List Sign} (h : Kept cfg interval p log)
    (pos : 0 < interval) (hb : Beat cfg interval p signs p') : Kept cfg interval p' (log ++ signs) := by
  refine ⟨h.clocks.beat hb, h.cells.beat h.clocks h.stamps hb, h.stamps.beat h.clocks hb, ?_⟩
  have just := justified_of_beat h.clocks h.cells h.stamps pos hb
  rcases hb.signs_cases with rfl | ⟨z, rfl⟩
  · simpa using h.justified
  · exact h.justified.snoc (just z (List.mem_singleton_self z))

/-- At most one ping is outstanding. -/
theorem Kept.outstanding_unique {cfg : Config} {interval : Nat} {p : Pulse} {log : List Sign} (h : Kept cfg interval p log)
    {a b : Nat} (ha : Outstanding log a) (hb : Outstanding log b) : a = b := by
  obtain ⟨q, hq, rfl⟩ := h.cells.last_of_outstanding ha
  obtain ⟨r, hr, rfl⟩ := h.cells.last_of_outstanding hb
  rw [hq] at hr
  cases hr
  rfl

end WebSocket.Net
