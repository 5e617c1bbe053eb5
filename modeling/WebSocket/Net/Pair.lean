import WebSocket.Net.Inbound
import WebSocket.Net.Spent
import Mathlib.Logic.Function.Basic

/-!
# Two links and the bytes between them

A client's link and a server's link, each run by its own threads, joined by two byte
streams: what one end has written and the other has not read yet is on its way. A read gets
the next bytes of what the peer has written, cut anywhere, and the end of the stream comes
behind all of them, once the peer has shut its sending side down.

`Tied` is what an end can say of itself in such a pair. The point is that it never meets the
end of the stream before the peer's close frame: a sending side is shut down behind
everything that was enqueued (`Spent`), and an end only finishes once it has the peer's
close frame and has sent its own (`Tied.step`, field `ended`).
-/

namespace WebSocket.Net

open Proto Lib.Incremental Lib.Transition

/-! ## The pair -/

inductive Side where
  | client
  | server
  deriving DecidableEq

def Side.other : Side → Side
  | .client => .server
  | .server => .client

/-- How the two ends are configured. -/
structure Couple where
  config : Side → Config
  roles : ∀ x, (config x).server = decide (x = .server)

/-- The link at each end. -/
abbrev Pair := Side → Sys

namespace Sys

/-- The step is the close deadline's: the reader's loop looks at it, and `flush_close` waits for it. -/
def timesOut (s : Sys) : Label → Bool
  | .reader => decide (s.rd.pc = .check) && s.link.flags.deadline.any (· ≤ s.link.now)
  | .timer =>
    match s.rd.pc with
    | .flushing _ => true
    | _ => false
  | _ => false

/-- The peer may see the end of the stream: the writer has shut down the sending side, or the link is closed.
`finish` shuts the socket down right behind that, and the task drops it at its end. -/
def shut (s : Sys) : Bool := s.wr.outShut || decide (s.state = .closed)

/-- An undisturbed step in time that reads what comes next from `peer`. -/
def fair (cfg : Config) (s peer : Sys) (lab : Label) : Bool :=
  s.peaceful cfg lab && !s.timesOut lab && match lab with
    | .establish rest => rest.isPrefixOf peer.link.out.wire
    | .input bytes => (s.rd.inn ++ bytes).isPrefixOf peer.link.out.wire
    | .eof => decide (s.rd.inn = peer.link.out.wire) && peer.shut
    | _ => true

/-- A step of the end `s`. -/
def fairStep (cfg : Config) (peer s : Sys) (lab : Label) : Option Sys :=
  if s.fair cfg peer lab then s.step cfg lab else none

end Sys

namespace Pair

def init (c : Couple) : Pair := fun x => .init (c.config x)

/-- One end takes a step. -/
def step (c : Couple) (p : Pair) (l : Side × Label) : Option Pair :=
  (Sys.fairStep (c.config l.1) (p l.1.other) (p l.1) l.2).map (Function.update p l.1)

/-- No message was accepted that is above the peer's limit. -/
def Within (c : Couple) (p : Pair) : Prop :=
  ∀ x, ∀ m ∈ (p x).accepted, m.1 ≠ PING → m.2.length ≤ (c.config x.other).max

end Pair

theorem Side.other_ne (x : Side) : x.other ≠ x := by cases x <;> decide

theorem Side.eq_or_other (x y : Side) : y = x ∨ y = x.other := by
  cases x <;> cases y <;> decide

@[simp] theorem Side.other_other (x : Side) : x.other.other = x := by cases x <;> rfl

theorem Couple.opposite (c : Couple) (x : Side) : (c.config x).server = !(c.config x.other).server := by
  rw [c.roles, c.roles]
  cases x <;> rfl

/-! ## What an end hears -/

section Hearing

variable {cfg : Config} {s : Sys} {tail : List Event} {ws : List Wire}

/-- A link that reads a beginning of whole frames decodes a beginning of their messages. -/
theorem Heard.frames (h : Heard cfg s tail) (whole : ∀ w ∈ ws, w.Whole cfg.server cfg.max)
    (inn : s.rd.inn <+: ws.flatMap Wire.bytes) : tail = [] ∧ s.decoded <+: ws.map Wire.msg := by
  obtain ⟨u, hu⟩ := inn
  obtain ⟨rest, all⟩ := drain_all whole
  have hw : s.whole cfg u = (ws.map Wire.msg, .ok (none, rest)) := by rw [Sys.whole, hu, all]
  cases h with
  | parsing parses here plain h =>
    rw [h u] at hw
    exact ⟨rfl, _, congrArg Prod.fst hw⟩
  | closing silent plain decoded h =>
    have := h u
    rw [hw] at this
    exact ⟨rfl, this⟩
  | failing silent plain h =>
    rw [h u] at hw
    cases congrArg Prod.snd hw
  | ended parses past plain h =>
    obtain ⟨left, h⟩ := h
    rw [Sys.whole, List.append_nil] at h
    rw [Sys.whole, Decoder.drain_append, h] at hw
    exact ⟨rfl, _, congrArg Prod.fst hw⟩

end Hearing

/-- An end of a pair whose peer has written `b`. -/
structure Tied (cfg : Config) (b : Bytes) (s : Sys) : Prop where
  course : Course cfg s
  account : Account cfg s
  rest : ∀ rest, s.task = .starting rest ∨ s.task = .opening rest → rest <+: b
  inn : s.rd.inn <+: b
  left : s.rd.pc.left = true → s.link.flags.recorded = false → ∃ m ∈ (s.whole cfg []).1, Sys.isClose m = true
  ended : s.rd.pc = .ending ∨ s.rd.pc = .finished → Spent s

section Tied

variable {cfg cfg' : Config} {b b' : Bytes} {s s' t : Sys} {lab : Label} {used new : List Op}

theorem Tied.grow (h : Tied cfg b s) (hb : b <+: b') : Tied cfg b' s :=
  ⟨h.course, h.account, fun rest ht => (h.rest rest ht).trans hb, h.inn.trans hb, h.left, h.ended⟩

theorem Tied.init (cfg : Config) : Tied cfg [] (.init cfg) :=
  ⟨.init cfg, .init cfg, fun _ h => h.elim nofun nofun, List.nil_prefix, nofun, fun h => h.elim nofun nofun⟩

/-- What is known of the peer: its steps are those of a link of the other role, its messages are within the limit,
and the end of its stream is behind everything. -/
structure Peer (cfg cfg' : Config) (t : Sys) : Prop where
  role : cfg.server = !cfg'.server
  reach : Reachable (Sys.step cfg') (.init cfg') t
  limit : ∀ m ∈ t.accepted, m.1 ≠ PING → m.2.length ≤ cfg.max
  spent : t.shut = true → Spent t

theorem Peer.whole (h : Peer cfg cfg' t) : ∀ w ∈ t.frames, w.Whole cfg.server cfg.max := by
  rw [h.role]
  refine whole_frames h.reach fun w hw hop => h.limit (w.op, w.payload) ?_ hop
  rw [← accepted_of_reachable h.reach]
  exact List.mem_filterMap.mpr ⟨_, hw, rfl⟩

/-- What an end has decoded is a beginning of what its peer has enqueued, and no violation. -/
theorem Tied.decoded (h : Tied cfg t.link.out.wire s) (peer : Peer cfg cfg' t) :
    ∃ tail, Heard cfg s tail ∧ Told cfg s tail ∧ tail = [] ∧ s.decoded <+: t.frames.map Wire.msg := by
  obtain ⟨tail, heard, told⟩ := h.account
  obtain ⟨none, decoded⟩ := heard.frames peer.whole (h.inn.trans (wire_beginning peer.reach))
  exact ⟨tail, heard, told, none, decoded⟩

theorem left_of_past {pc : ReadPc} (h : pc.past = true) : pc.left = true := by
  cases pc <;> first | rfl | cases h

/-- An end that is past its loop has recorded the close it was sent. -/
theorem Tied.received (h : Tied cfg t.link.out.wire s) (peer : Peer cfg cfg' t) (single : Single s)
    (past : s.rd.pc.past = true) (none : ∀ op ∈ s.rd.ops, op.ends = false) :
    ∃ ms status, s.decoded = ms ++ [.close status] ∧ (∀ m ∈ ms, Sys.isClose m = false) ∧
      s.link.flags.received = some (closeStatus status) := by
  obtain ⟨tail, heard, -, notail, -⟩ := h.decoded peer
  cases heard with
  | parsing parses here => rw [past] at here; cases here
  | closing silent plain decoded whole record =>
    refine ⟨_, _, decoded, plain, record.resolve_left fun ho => ?_⟩
    cases none _ ho.1
  | failing => cases notail
  | ended parses past plain whole =>
    -- it left its loop behind a close frame, which it would have decoded
    obtain ⟨left, whole⟩ := whole
    obtain ⟨m, hm, hclose⟩ := h.left (left_of_past past) (single.fresh parses).2
    rw [whole] at hm
    rw [plain m hm] at hclose
    cases hclose

/-! ## A step of an end -/

theorem peaceful_of_fair (h : s.fair cfg t lab = true) : s.peaceful cfg lab = true :=
  (Bool.and_eq_true_iff.mp (Bool.and_eq_true_iff.mp h).1).1

theorem intime_of_fair (h : s.fair cfg t lab = true) : s.timesOut lab = false := by
  simpa using (Bool.and_eq_true_iff.mp (Bool.and_eq_true_iff.mp h).1).2

theorem isClose_msg {server : Bool} {max : Nat} {w : Wire} (h : w.Whole server max) (hop : w.op = CLOSE) :
    Sys.isClose w.msg = true := by
  rcases h.kind with ⟨ho | ho, -⟩ | ⟨-, -, status, hs⟩ | ⟨ho | ho, -⟩
  · exact absurd (ho.symm.trans hop) (by decide)
  · exact absurd (ho.symm.trans hop) (by decide)
  · rw [Wire.msg_close hop hs]
    rfl
  · exact absurd (ho.symm.trans hop) (by decide)
  · exact absurd (ho.symm.trans hop) (by decide)

theorem Tied.rest_step (h : Tied cfg t.link.out.wire s) (he : Effect cfg s lab s' used new)
    (fair : s.fair cfg t lab = true) (rest : Bytes) (ht : s'.task = .starting rest ∨ s'.task = .opening rest) :
    rest <+: t.link.out.wire := by
  rcases he.rest ht with ht | hlab
  · exact h.rest rest ht
  · rw [hlab] at fair
    exact List.isPrefixOf_iff_prefix.mp (Bool.and_eq_true_iff.mp fair).2

theorem Tied.inn_step (h : Tied cfg t.link.out.wire s) (he : Effect cfg s lab s' used new)
    (fair : s.fair cfg t lab = true) : s'.rd.inn <+: t.link.out.wire := by
  rcases he.inn with inn | ⟨bytes, hlab, inn⟩ | task
  · rw [inn]
    exact h.inn
  · rw [hlab] at fair
    rw [inn]
    exact List.isPrefixOf_iff_prefix.mp (Bool.and_eq_true_iff.mp fair).2
  · exact h.rest _ (.inr task)

/-- The reader meets the end of the stream behind the peer's close frame. -/
theorem Tied.left_step (h : Tied cfg t.link.out.wire s) (peer : Peer cfg cfg' t) (he : Effect cfg s lab s' used new)
    (fair : s.fair cfg t lab = true) (hl : s'.rd.pc.left = true) (hr' : s'.link.flags.recorded = false) :
    ∃ m ∈ (s'.whole cfg []).1, Sys.isClose m = true := by
  have hr : s.link.flags.recorded = false :=
    Bool.eq_false_iff.mpr fun ht => Bool.eq_false_iff.mp hr' (he.locked.stays_recorded ht)
  obtain ⟨inn, why⟩ := he.leaves h.course (peaceful_of_fair fair) hl
  have whole : s'.whole cfg [] = s.whole cfg [] := by rw [Sys.whole, inn, Sys.whole]
  rw [whole]
  rcases why with left | hlab | ⟨hlab, pc, late⟩
  · exact h.left left hr
  · rw [hlab] at fair
    obtain ⟨read, shut⟩ := Bool.and_eq_true_iff.mp (Bool.and_eq_true_iff.mp fair).2
    have spent := peer.spent shut
    obtain ⟨rest, all⟩ := drain_all peer.whole
    obtain ⟨w, hw, hop⟩ := spent.close
    rw [Sys.whole, List.append_nil, of_decide_eq_true read, spent.wire, all]
    exact ⟨w.msg, List.mem_map_of_mem hw, isClose_msg (peer.whole w hw) hop⟩
  · have intime := intime_of_fair fair
    rw [hlab, Sys.timesOut, pc, late] at intime
    cases intime

theorem Effect.finished_from (he : Effect cfg s lab s' used new) (pc : s'.rd.pc = .finished) :
    s.rd.pc = .ending ∨ s.rd.pc = .finished := by
  cases he with
  | reading run idle hr =>
    cases hr with
    | ending at_ => exact .inl at_
    | goto hn => cases hn <;> cases pc
    | silent =>
      rw [Sys.afterDispatch] at pc
      dsimp only at pc
      split at pc <;> cases pc
    | stop =>
      rw [Sys.afterDispatch] at pc
      dsimp only at pc
      split at pc <;> cases pc
    | _ => cases pc
  | decoded => cases pc
  | failed => cases pc
  | ping => cases pc
  | _ => exact .inr pc

/-- An end goes on to `end` with the peer's close frame in hand and its own written. -/
theorem Tied.ended_step (h : Tied cfg t.link.out.wire s) (peer : Peer cfg cfg' t)
    (reach : Reachable (Sys.step cfg) (.init cfg) s) (hs : s.step cfg lab = some s') (fair : s.fair cfg t lab = true)
    (pc : s'.rd.pc = .ending ∨ s'.rd.pc = .finished) : Spent s' := by
  obtain ⟨used, new, he⟩ := step_effect hs
  by_cases before : s.rd.pc = .ending ∨ s.rd.pc = .finished
  · exact (h.ended before).step reach hs
  · have passed := pc.resolve_right fun pc => before (he.finished_from pc)
    have before' : s.rd.pc ≠ .ending := fun pc => before (.inl pc)
    obtain ⟨idle, -, hn⟩ := he.passes before' passed
    have at_ : s.rd.pc = .flush ∨ ∃ d, s.rd.pc = .flushing d := by
      cases hn with
      | unrecorded pc => exact .inl pc
      | flushed pc => exact .inr ⟨_, pc⟩
    have past : s.rd.pc.past = true := by rcases at_ with pc | ⟨d, pc⟩ <;> rw [pc] <;> rfl
    have intime : lab ≠ .timer := by
      rintro rfl
      have waits := (woken_step hs rfl nofun).2
      have late := intime_of_fair fair
      rcases at_ with pc | ⟨d, pc⟩
      · rw [pc] at waits
        cases waits
      · rw [Sys.timesOut, pc] at late
        cases late
    obtain ⟨ms, status, -, -, received⟩ := h.received peer (.of_reachable reach) past (by rw [idle]; exact nofun)
    refine spent_of_passed reach hs intime before' passed (by rw [Flags.recorded, received]; rfl) fun hc => ?_
    exact before (.inr (h.course.closed hc))

theorem Tied.step (h : Tied cfg t.link.out.wire s) (peer : Peer cfg cfg' t)
    (reach : Reachable (Sys.step cfg) (.init cfg) s) (hs : s.step cfg lab = some s')
    (fair : s.fair cfg t lab = true) : Tied cfg t.link.out.wire s' := by
  obtain ⟨used, new, he⟩ := step_effect hs
  have peace := peaceful_of_fair fair
  exact ⟨h.course.step he peace, h.account.step h.course reach he peace, h.rest_step he fair, h.inn_step he fair,
    h.left_step peer he fair, h.ended_step peer reach hs fair⟩

/-- A tied end that is shut has left nothing behind. -/
theorem Tied.spent (h : Tied cfg b s) (reach : Reachable (Sys.step cfg) (.init cfg) s) (shut : s.shut = true) :
    Spent s := by
  rcases Bool.or_eq_true_iff.mp shut with hs | hs
  · exact spent_of_parting reach (.inr (.inr hs))
  · exact h.ended (.inr (h.course.closed (of_decide_eq_true hs)))

end Tied

/-! ## The whole pair -/

namespace Pair

variable {c : Couple} {p p' : Pair} {x : Side} {lab : Label}

theorem step_some (h : p.step c (x, lab) = some p') :
    (p x).fair (c.config x) (p x.other) lab = true ∧
      ∃ s', (p x).step (c.config x) lab = some s' ∧ p' = Function.update p x s' := by
  obtain ⟨s', moved, rfl⟩ := Option.map_eq_some_iff.mp h
  obtain ⟨fair, hs⟩ := Option.ite_none_right_eq_some.mp moved
  exact ⟨fair, s', hs, rfl⟩

/-- Each end takes steps of a link. -/
theorem side_reachable (h : Reachable (Pair.step c) (.init c) p) (x : Side) :
    Reachable (Sys.step (c.config x)) (.init (c.config x)) (p x) := by
  refine h.invariant (I := fun p => Reachable (Sys.step (c.config x)) (.init (c.config x)) (p x)) (.refl _) ?_
  intro u l v hu hI hv
  obtain ⟨-, s', hs, rfl⟩ := step_some hv
  by_cases hx : x = l.1
  · subst hx
    rw [Function.update_self]
    exact hI.next hs
  · rw [Function.update_of_ne hx]
    exact hI

/-- What was accepted stays accepted. -/
theorem Within.of_step (h : p.step c (x, lab) = some p') (within : p'.Within c) : p.Within c := by
  obtain ⟨-, s', hs, rfl⟩ := step_some h
  intro y m hm hop
  refine within y m ?_ hop
  by_cases hy : y = x
  · subst hy
    rw [Function.update_self]
    obtain ⟨used, new, he⟩ := step_effect hs
    rw [Sys.accepted] at hm ⊢
    rcases he.trace with ht | ⟨o, ht, -⟩
    · rw [ht]
      exact hm
    · rw [ht, List.filterMap_append]
      exact List.mem_append_left _ hm
  · rwa [Function.update_of_ne hy]

/-- Both ends are tied to each other. -/
def Joined (c : Couple) (p : Pair) : Prop := ∀ x, Tied (c.config x) (p x.other).link.out.wire (p x)

theorem Joined.peer (h : p.Joined c) (reach : Reachable (Pair.step c) (.init c) p) (within : p.Within c) (x : Side) :
    Peer (c.config x) (c.config x.other) (p x.other) where
  role := c.opposite x
  reach := side_reachable reach x.other
  limit := by
    have limit := within x.other
    rwa [Side.other_other] at limit
  spent := (h x.other).spent (side_reachable reach x.other)

theorem Joined.step (h : p.Joined c) (reach : Reachable (Pair.step c) (.init c) p) (within : p.Within c)
    (hstep : p.step c (x, lab) = some p') : p'.Joined c := by
  obtain ⟨fair, s', hs, rfl⟩ := step_some hstep
  have sreach := side_reachable reach x
  intro y
  rcases x.eq_or_other y with rfl | rfl
  · rw [Function.update_self, Function.update_of_ne y.other_ne]
    exact (h y).step (h.peer reach within y) sreach hs fair
  · -- the other end only sees more written
    rw [Side.other_other, Function.update_self, Function.update_of_ne x.other_ne]
    obtain ⟨used, new, he⟩ := step_effect hs
    have tied := h x.other
    rw [Side.other_other] at tied
    exact tied.grow (he.wire_grow (.of_reachable sreach))

theorem Joined.of_reachable (h : Reachable (Pair.step c) (.init c) p) (within : p.Within c) : p.Joined c := by
  refine h.invariant (I := fun p => p.Within c → p.Joined c) (fun _ x => .init _) ?_ within
  rintro u ⟨x, lab⟩ v hu hI hv within
  have before := within.of_step hv
  exact (hI before).step hu before hv

/-! ## One end at a time -/

/-- One end moves on while the other stands still. -/
theorem alone {s' : Sys}
    (h : Reachable (Sys.fairStep (c.config x) (p x.other)) (p x) s') :
    Reachable (Pair.step c) p (Function.update p x s') := by
  refine h.invariant (I := fun s' => Reachable (Pair.step c) p (Function.update p x s')) ?_ ?_
  · rw [Function.update_eq_self]
    exact .refl _
  · intro u l v _ hI hv
    refine hI.next (l := (x, l)) ?_
    rw [Pair.step, Function.update_self, Function.update_of_ne x.other_ne, hv, Option.map_some, Function.update_idem]

/-- The pair of two ends. -/
def of (a b : Sys) : Pair
  | .client => a
  | .server => b

theorem of_client {a a' b : Sys} (h : Reachable (Sys.fairStep (c.config .client) b) a a') :
    Reachable (Pair.step c) (.of a b) (.of a' b) := by
  have move : Function.update (Pair.of a b) .client a' = Pair.of a' b := by funext y; cases y <;> rfl
  exact move ▸ Pair.alone (p := .of a b) (x := .client) h

theorem of_server {a b b' : Sys} (h : Reachable (Sys.fairStep (c.config .server) a) b b') :
    Reachable (Pair.step c) (.of a b) (.of a b') := by
  have move : Function.update (Pair.of a b) .server b' = Pair.of a b' := by funext y; cases y <;> rfl
  exact move ▸ Pair.alone (p := .of a b) (x := .server) h

theorem init_of (c : Couple) : init c = of (.init (c.config .client)) (.init (c.config .server)) := by
  funext y
  cases y <;> rfl

end Pair

/-- A small client and a small server. -/
def Couple.small : Couple where
  config
    | .client => .smallClient
    | .server => .small
  roles x := by cases x <;> rfl

end WebSocket.Net
