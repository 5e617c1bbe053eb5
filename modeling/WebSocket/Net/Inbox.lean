import WebSocket.Net.Burst
import WebSocket.Net.Head
import WebSocket.Net.Threads

/-!
# The inbox

`deliver` charges the inbox before it hands an event over, and `consumed` gives the charge back
once the application has taken the event. So the inbox always covers the events on their way.

What keeps it bounded is spread over the reader. While the link is open, no read is issued at or
above `INBOX_LIMIT`; the inbox, what the reader's call may still add and what the reader has ahead
stay together below one bound, which a read sets up (`burst_push_le`) and everything else keeps.
Once the link is closing the reader reads on, and `deliver` drops what comes at or above the limit.
-/

namespace WebSocket.Net

open Proto Lib.Incremental Lib.Transition

/-! ## Charges -/

/-- Sections on the way of a message to the application. -/
def Op.carries : Op → Bool
  | .handle _ | .deliver _ | .deliverOpen _ | .deliverNow _ => true
  | .emit e => e.inbound
  | _ => false

/-- What a section may still add to the inbox. -/
def Op.brings : Op → Nat
  | .handle m => charge m
  | .deliver e | .deliverOpen e | .deliverNow e => e.size + EVENT_COST
  | _ => 0

/-- What it adds in any case. -/
def Op.adds : Op → Nat
  | .deliverNow e => e.size + EVENT_COST
  | _ => 0

/-- What was charged for the event it hands over. -/
def Op.hands : Op → Nat
  | .emit e => if e.inbound then e.size + EVENT_COST else 0
  | _ => 0

def total (f : Op → Nat) (ops : List Op) : Nat := (ops.map f).sum

@[simp] theorem total_nil (f : Op → Nat) : total f [] = 0 := rfl

@[simp] theorem total_cons (f : Op → Nat) (op : Op) (ops : List Op) : total f (op :: ops) = f op + total f ops :=
  List.sum_cons

@[simp] theorem total_append (f : Op → Nat) (a b : List Op) : total f (a ++ b) = total f a + total f b := by
  rw [total, List.map_append, List.sum_append, total, total]

theorem total_eq_zero {f : Op → Nat} {ops : List Op} (h : ∀ op ∈ ops, f op = 0) : total f ops = 0 := by
  induction ops with
  | nil => rfl
  | cons op ops ih =>
    rw [List.forall_mem_cons] at h
    rw [total_cons, h.1, ih h.2]

theorem total_le {f f' : Op → Nat} (h : ∀ op, f op ≤ f' op) (ops : List Op) : total f ops ≤ total f' ops := by
  induction ops with
  | nil => exact Nat.le_refl _
  | cons op ops ih =>
    rw [total_cons, total_cons]
    exact Nat.add_le_add (h op) ih

theorem Op.adds_le_brings (op : Op) : op.adds ≤ op.brings := by
  cases op with
  | deliverNow e => exact Nat.le_refl _
  | _ => exact Nat.zero_le _

theorem Op.idle_of_carries {op : Op} (h : op.carries = false) : op.brings = 0 ∧ op.adds = 0 ∧ op.hands = 0 := by
  cases op with
  | emit e => exact ⟨rfl, rfl, by rw [Op.hands, show e.inbound = false from h]; rfl⟩
  | handle m => cases h
  | deliver e => cases h
  | deliverOpen e => cases h
  | deliverNow e => cases h
  | _ => exact ⟨rfl, rfl, rfl⟩

theorem Op.carries_of_plain {op : Op} (h : op.plain = true) : op.carries = false := by
  cases op with
  | emit e => cases e <;> first | rfl | cases h
  | handle m => cases h
  | deliver e => cases h
  | deliverOpen e => cases h
  | deliverNow e => cases h
  | _ => rfl

section Sections

variable {cfg : Config}

/-- What a section does to the inbox, and what its function runs next. -/
inductive Charged (cfg : Config) (l : Link) (op : Op) : Prop where
  | adds {e} (hop : op = .deliverNow e)
      (inbox : (l.exec cfg op).1.inbox = (l.inbox + (e.size + EVENT_COST)) % 2 ^ 64) (new : (l.exec cfg op).2 = [.emit e])
  | settles {e} (inbox : (l.exec cfg op).1.inbox = l.inbox) (brings : op.brings = e.size + EVENT_COST)
      (new : (l.exec cfg op).2 = [.deliverNow e]) (why : l.inbox < INBOX_LIMIT ∨ l.flags.state = .opened)
  | keeps (inbox : (l.exec cfg op).1.inbox = l.inbox) (brings : total Op.brings (l.exec cfg op).2 ≤ op.brings)
      (adds : total Op.adds (l.exec cfg op).2 = 0) (hands : total Op.hands (l.exec cfg op).2 = 0)

variable {l : Link} {op : Op}

theorem Charged.quiet (inbox : (l.exec cfg op).1.inbox = l.inbox) (quiet : ∀ o ∈ (l.exec cfg op).2, o.carries = false) :
    Charged cfg l op := by
  refine .keeps inbox ?_ (total_eq_zero fun o ho => (Op.idle_of_carries (quiet o ho)).2.1)
    (total_eq_zero fun o ho => (Op.idle_of_carries (quiet o ho)).2.2)
  rw [total_eq_zero fun o ho => (Op.idle_of_carries (quiet o ho)).1]
  exact Nat.zero_le _

/-- The message of a data or pong frame, unless it is not for the application. -/
theorem Charged.delivers {c : Bool} {e : Event} (inbox : (l.exec cfg op).1.inbox = l.inbox)
    (new : (l.exec cfg op).2 = if c then [] else [.deliver e]) (brings : op.brings = e.size + EVENT_COST) :
    Charged cfg l op := by
  cases c with
  | true =>
    refine .quiet inbox ?_
    rw [new]
    exact fun o ho => by cases ho
  | false =>
    refine .keeps inbox ?_ ?_ ?_ <;> rw [new]
    · exact Nat.le_of_eq brings.symm
    · rfl
    · rfl

theorem charged_exec (l : Link) (op : Op) : Charged cfg l op := by
  cases op with
  | emit e =>
    refine .quiet ?_ (List.forall_mem_singleton.mpr rfl)
    rw [Link.exec]
    dsimp only
    split <;> rfl
  | checkHub =>
    refine .quiet rfl fun o ho => ?_
    rw [Link.exec] at ho
    dsimp only at ho
    split at ho
    · exact Op.carries_of_plain (plain_terminate o ho)
    · cases ho
  | finish code reason =>
    by_cases hc : l.flags.state = .closed
    · have same : l.exec cfg (.finish code reason) = (l, []) := if_pos hc
      refine .quiet (by rw [same]) ?_
      rw [same]
      exact fun o ho => by cases ho
    · refine .quiet ?_ ?_ <;> rw [Link.exec, if_neg hc]
      · rfl
      · dsimp only
        decide
  | handle m =>
    cases m with
    | text data => exact .delivers rfl rfl rfl
    | binary data => exact .delivers rfl rfl rfl
    | ping data =>
      refine .keeps ?_ ?_ rfl rfl
      · rw [Link.exec, Link.handle, Link.handlePing]
        dsimp only
        split <;> rfl
      · show 0 + (data.length + EVENT_COST + 0) ≤ data.length + EVENT_COST
        omega
    | pong data =>
      refine .delivers (c := decide (data = cfg.token)) (e := .pong data) rfl ?_ rfl
      rw [Link.exec, Link.handle]
      simp only [decide_eq_true_eq]
    | close status =>
      refine .quiet ?_ (List.forall_mem_singleton.mpr rfl)
      rw [Link.exec, Link.handle, Link.closing]
      dsimp only
      split <;> rfl
  | deliver e =>
    by_cases full : INBOX_LIMIT ≤ l.inbox
    · have next : (l.exec cfg (.deliver e)).2 = [.deliverOpen e] := if_pos full
      exact .keeps rfl (by rw [next]; exact Nat.le_refl _) (by rw [next]; rfl) (by rw [next]; rfl)
    · exact .settles rfl rfl (if_neg full) (.inl (Nat.lt_of_not_le full))
  | deliverOpen e =>
    by_cases opened : l.flags.state = .opened
    · exact .settles rfl rfl (if_pos opened) (.inr opened)
    · have next : (l.exec cfg (.deliverOpen e)).2 = [] := if_neg opened
      exact .quiet rfl (by rw [next]; exact fun o ho => by cases ho)
  | deliverNow e => exact .adds rfl rfl rfl
  | violation f =>
    refine .quiet ?_ (List.forall_mem_singleton.mpr rfl)
    rw [Link.exec, Link.violate]
    dsimp only
    split <;> rfl
  | endLink => exact .quiet rfl (List.forall_mem_singleton.mpr rfl)
  | _ => exact .quiet rfl fun o ho => by cases ho

/-- One message at a time. -/
theorem carries_exec (l : Link) (op : Op) : (l.exec cfg op).2.countP Op.carries ≤ op.carries.toNat := by
  have one {c : Prop} [Decidable c] (o : Op) : (if c then [] else [o]).countP Op.carries ≤ 1 := by
    split
    · exact Nat.zero_le _
    · exact List.countP_le_length
  cases op with
  | checkHub =>
    rw [Link.exec]
    dsimp only
    split <;> exact Nat.le_refl _
  | finish code reason =>
    rw [Link.exec]
    split <;> exact Nat.le_refl _
  | handle m =>
    cases m with
    | text data => exact one _
    | binary data => exact one _
    | ping data => exact Nat.le_refl _
    | pong data => exact one _
    | close status => exact Nat.zero_le _
  | deliver e =>
    rw [Link.exec]
    dsimp only
    split <;> exact Nat.le_refl _
  | deliverOpen e =>
    rw [Link.exec]
    dsimp only
    split
    · exact Nat.le_refl _
    · exact Nat.zero_le _
  | deliverNow e => exact List.countP_le_length
  | _ => exact Nat.zero_le _

/-- What does not carry a message starts nothing that does. -/
theorem exec_carries (l : Link) (op : Op) (h : op.carries = false) : ∀ o ∈ (l.exec cfg op).2, o.carries = false := by
  have none := @carries_exec cfg l op
  rw [h] at none
  intro o ho
  exact Bool.eq_false_iff.mpr (List.countP_eq_zero.mp (Nat.le_zero.mp none) o ho)

end Sections

/-! ## Events on their way -/

namespace Sys

/-- The sizes of the inbound events the hub took, in order. -/
def delivered (s : Sys) : List Nat := (s.sentEvents.filter Event.inbound).map Event.size

/-- The reader's vectors, its open message and the one in hand, hold at most `isize::MAX` bytes. -/
def vectors (s : Sys) : Bool :=
  decide (openSize s.rd.reader.partialMsg ≤ isizeMax) &&
    s.rd.ops.all fun op => decide (op.brings ≤ isizeMax + EVENT_COST)

/-- The reader's next section does not wrap the inbox around. -/
def counts (s : Sys) : Bool := decide (s.link.inbox + (s.rd.ops.head?.map Op.adds).getD 0 < 2 ^ 64)

/-- What the reader can still decode costs. -/
def coming (s : Sys) : Nat := if s.rd.parses then burst (s.rd.reader.ahead []).1 else 0

end Sys

/-- A connection, and the sizes of the events that were delivered and not consumed yet. -/
structure Ledger where
  sys : Sys
  due : List Nat

namespace Ledger

def init (cfg : Config) : Ledger := ⟨.init cfg, []⟩

/-- `consumed` is called for an event that was delivered, and what `read_head` leaves over is part of
its last chunk (`length_rest_of_readHead`). The inbox is a natural number: no step wraps it around. -/
def allows (g : Ledger) : Label → Bool
  | .call (.consumed bytes) => g.due.contains bytes
  | .establish rest => decide (rest.length ≤ HEAD_CHUNK)
  | .reader => g.sys.counts
  | _ => true

/-- The charges of the events that were not consumed yet. -/
def owed (g : Ledger) : Nat := (g.due.map (· + EVENT_COST)).sum

def settle (g : Ledger) (lab : Label) (s' : Sys) : List Nat :=
  (match lab with
    | .call (.consumed bytes) => g.due.erase bytes
    | _ => g.due) ++ s'.delivered.drop g.sys.delivered.length

/-- A step of the connection, if its vectors can exist. -/
def step (cfg : Config) (g : Ledger) (lab : Label) : Option Ledger :=
  if g.allows lab then
    match g.sys.step cfg lab with
    | some s' => if s'.vectors then some ⟨s', g.settle lab s'⟩ else none
    | none => none
  else none

end Ledger

section Steps

variable {cfg : Config} {s s' : Sys} {lab : Label} {used new : List Op} {g g' : Ledger}

theorem ledger_step (h : g.step cfg lab = some g') :
    g.allows lab = true ∧ g.sys.step cfg lab = some g'.sys ∧ g'.sys.vectors = true ∧ g'.due = g.settle lab g'.sys := by
  rw [Ledger.step] at h
  split at h
  · rename_i allows
    split at h
    · rename_i s' hs
      split at h
      · rename_i vectors
        cases h
        exact ⟨allows, hs, vectors, rfl⟩
      · cases h
    · cases h
  · cases h

theorem ledger_reachable (h : Reachable (Ledger.step cfg) (.init cfg) g) : Reachable (Sys.step cfg) (.init cfg) g.sys :=
  h.invariant (I := fun g => Reachable (Sys.step cfg) (.init cfg) g.sys) (.refl _)
    fun _ _ _ _ hu hv => hu.next (ledger_step hv).2.1

theorem vectors_of_reachable (h : Reachable (Ledger.step cfg) (.init cfg) g) : g.sys.vectors = true :=
  h.invariant (I := fun g => g.sys.vectors = true) rfl fun _ _ _ _ _ hv => (ledger_step hv).2.2.1

theorem sole_carries (h : Reachable (Sys.step cfg) (.init cfg) s) : Sole Op.carries s :=
  .of_reachable (fun _ => Op.carries_of_plain) rfl exec_carries h

/-! ## What a step does to the inbox -/

theorem untouched_inbox : Untouched Link.inbox :=
  ⟨fun _ _ => rfl, fun _ _ => rfl, fun _ _ => rfl, fun _ _ => rfl, fun _ _ => rfl, fun _ _ => rfl⟩

/-- Beside `consumed`, only the reader's `deliver` changes the inbox. -/
theorem inbox_step (sole : Sole Op.carries s) (h : s.step cfg lab = some s')
    (hlab : ∀ bytes, lab ≠ .call (.consumed bytes)) :
    s'.link.inbox = s.link.inbox ∨
      ∃ e rest, s.rd.ops = .deliverNow e :: rest ∧ s'.rd.ops = .emit e :: rest ∧
        s'.link.inbox = (s.link.inbox + (e.size + EVENT_COST)) % 2 ^ 64 := by
  cases outer : lab.outer with
  | true =>
    left
    cases lab with
    | closeHub => cases h; rfl
    | tick d => cases h; rfl
    | activity inbound =>
      obtain ⟨-, h⟩ := Option.ite_none_right_eq_some.mp h
      cases h
      cases inbound <;> rfl
    | call c =>
      cases c with
      | consumed bytes => exact absurd rfl (hlab bytes)
      | _ => cases outer
    | _ => cases outer
  | false =>
    have still {op : Op} (link : s'.link = (s.link.exec cfg op).1) (idle : op.carries = false) :
        s'.link.inbox = s.link.inbox := by
      rw [link]
      cases @charged_exec cfg s.link op with
      | adds hop => rw [hop] at idle; cases idle
      | settles inbox => exact inbox
      | keeps inbox => exact inbox
    rcases untouched_inbox.step h outer with same | ⟨op, ran⟩
    · exact .inl same
    · cases ran with
      | reader ops link ops' =>
        cases @charged_exec cfg s.link op with
        | adds hop inbox new =>
          rw [new] at ops'
          rw [hop] at ops
          exact .inr ⟨_, _, ops, ops', by rw [link, inbox]⟩
        | settles inbox => exact .inl (by rw [link, inbox])
        | keeps inbox => exact .inl (by rw [link, inbox])
      | writer ops link => exact .inl (still link (sole.writer op (by rw [ops]; exact List.mem_cons_self)))
      | pool ops link =>
        have mem := List.mem_of_getElem? (getElem?_of_getD ops)
        exact .inl (still link (sole.pool op (List.mem_flatten.mpr ⟨_, mem, List.mem_cons_self⟩)))

theorem delivered_append {t : List Obs} (h : s'.link.trace = s.link.trace ++ t) :
    s'.delivered = s.delivered ++ ((t.filterMap Obs.accepted?).filter Event.inbound).map Event.size := by
  rw [Sys.delivered, Sys.sentEvents, h, List.filterMap_append, List.filter_append, List.map_append]
  rfl

/-- Only `emit` delivers. -/
theorem Effect.delivered (he : Effect cfg s lab s' used new) :
    s'.delivered = s.delivered ∨
      ∃ e, used = [.emit e] ∧ e.inbound = true ∧ s'.delivered = s.delivered ++ [e.size] := by
  have quietly {t : List Obs} (trace : s'.link.trace = s.link.trace ++ t) (quiet : ∀ o ∈ t, o.event? = none) :
      s'.delivered = s.delivered := by
    have none : t.filterMap Obs.accepted? = [] := by
      refine List.filterMap_eq_nil_iff.mpr fun o ho => ?_
      have := quiet o ho
      cases o with
      | event e accepted => cases this
      | _ => rfl
    rw [delivered_append trace, none]
    exact List.append_nil _
  have other {e : Event} (trace : s'.link.trace = s.link.trace ++ [.event e (!s.link.hubClosed)])
      (outbound : e.inbound = false) : s'.delivered = s.delivered := by
    rw [delivered_append trace]
    cases s.link.hubClosed <;> simp [Obs.accepted?, outbound]
  cases he.lives with
  | keeps state trace quiet => exact .inl (quietly trace quiet)
  | @emits e op state alive trace =>
    cases inbound : e.inbound with
    | false => exact .inl (other trace inbound)
    | true =>
      cases hub : s.link.hubClosed with
      | true =>
        rw [hub] at trace
        exact .inl (by rw [delivered_append trace]; exact List.append_nil _)
      | false =>
        rw [hub] at trace
        refine .inr ⟨e, op, inbound, ?_⟩
        rw [delivered_append trace]
        simp [Obs.accepted?, inbound]
  | opens task state state' trace => exact .inl (other trace rfl)
  | closes alive state' why trace quiet => exact .inl (quietly trace quiet)
  | finishes op alive state' trace => exact .inl (other trace rfl)

/-! ## The reader between two reads -/

/-- Where the reader has no message and has not read yet. -/
def ReadPc.still : ReadPc → Bool
  | .check | .checkInbox _ | .read => true
  | _ => false

/-- The reader has not started. -/
def Task.early : Task → Bool
  | .connecting | .starting _ | .opening _ => true
  | _ => false

theorem Task.ne_running {t : Task} (h : t.early = true) : t ≠ .running := by
  rintro rfl
  cases h

theorem Task.early_of_rest {t : Task} {rest : Bytes} (h : t = .starting rest ∨ t = .opening rest) : t.early = true := by
  rcases h with rfl | rfl <;> rfl

theorem State.two_le_rank {st : State} (h : st ≠ .connecting) (h' : st ≠ .opened) : 2 ≤ st.rank := by
  revert h h'
  cases st <;> decide

/-- The bound on the inbox: the limit, a message, and what one read can hold. -/
def inboxBound (cfg : Config) : Nat := 2 ^ 20 + cfg.max + 16509 + 64 * 8193

/-- What keeps the inbox bounded, with a bound for a link that is open, and one for a link that is closing. -/
structure Margin (cfg : Config) (s : Sys) : Prop where
  one : s.rd.ops.countP Op.carries ≤ 1
  sized : ∀ op ∈ s.rd.ops, op.brings ≤ cfg.max + 125 + EVENT_COST
  fits : s.rd.parses = true → Fits cfg.max s.rd.reader.partialMsg
  waits : s.rd.ok = true → s.rd.pc.still = true →
    nextFrame cfg.server cfg.max s.rd.reader.partialMsg s.rd.reader.unread = .more
  checked : ∀ state, s.rd.pc = .checkInbox state → state ≠ .opened → 2 ≤ s.state.rank
  read : s.rd.pc = .read → s.rd.ops = [] ∧ (2 ≤ s.state.rank ∨ s.link.inbox < INBOX_LIMIT)
  early : s.task.early = true → s.rd = (Sys.init cfg).rd ∧ s.link.inbox < INBOX_LIMIT
  rest : ∀ rest, s.task = .starting rest ∨ s.task = .opening rest → rest.length ≤ HEAD_CHUNK
  bound : s.link.inbox + total Op.brings s.rd.ops + s.coming < inboxBound cfg ∨
    2 ≤ s.state.rank ∧ s.link.inbox + total Op.adds s.rd.ops < inboxBound cfg

/-- What the step was checked for. -/
structure Checks (s : Sys) (lab : Label) (s' : Sys) : Prop where
  inbox : s'.link.inbox ≤ s.link.inbox ∨ ∃ e rest, s.rd.ops = .deliverNow e :: rest ∧ s'.rd.ops = .emit e :: rest
  read : ∀ state, s.rd.pc = .checkInbox state → s'.rd.pc = .read → state ≠ .opened ∨ s.link.inbox < INBOX_LIMIT
  chunk : ∀ bytes, lab = .input bytes → bytes.length ≤ READ_CHUNK
  rest : ∀ rest, lab = .establish rest → rest.length ≤ HEAD_CHUNK

theorem Margin.inbox_lt (h : Margin cfg s) : s.link.inbox < inboxBound cfg := by
  rcases h.bound with hb | ⟨-, hb⟩ <;> omega

/-- A step that does not move the reader. -/
theorem Margin.aside (h : Margin cfg s) (checks : Checks s lab s') (rd : s'.rd = s.rd)
    (rank : s.state.rank ≤ s'.state.rank) (early : s'.task.early = true → s.task.early = true)
    (rest : ∀ rest, s'.task = .starting rest ∨ s'.task = .opening rest → rest.length ≤ HEAD_CHUNK) : Margin cfg s' := by
  have inbox : s'.link.inbox ≤ s.link.inbox := by
    rcases checks.inbox with same | ⟨e, rest, ops, ops'⟩
    · exact same
    · rw [rd, ops] at ops'
      cases ops'
  have coming : s'.coming = s.coming := by rw [Sys.coming, rd, Sys.coming]
  refine ⟨?_, ?_, ?_, ?_, ?_, ?_, ?_, rest, ?_⟩
  · rw [rd]; exact h.one
  · rw [rd]; exact h.sized
  · rw [rd]; exact h.fits
  · rw [rd]; exact h.waits
  · rw [rd]; exact fun state pc hs => Nat.le_trans (h.checked state pc hs) rank
  · rw [rd]
    intro pc
    obtain ⟨idle, hr⟩ := h.read pc
    exact ⟨idle, hr.imp (fun hr => Nat.le_trans hr rank) fun hr => Nat.lt_of_le_of_lt inbox hr⟩
  · intro ht
    obtain ⟨fresh, hl⟩ := h.early (early ht)
    exact ⟨rd.trans fresh, Nat.lt_of_le_of_lt inbox hl⟩
  · rw [coming, rd]
    rcases h.bound with hb | ⟨hr, hb⟩
    · exact .inl (by omega)
    · exact .inr ⟨Nat.le_trans hr rank, by omega⟩

theorem le_total (f : Op → Nat) {op : Op} {ops : List Op} (h : op ∈ ops) : f op ≤ total f ops := by
  induction ops with
  | nil => cases h
  | cons o ops ih =>
    rw [total_cons]
    rcases List.mem_cons.mp h with rfl | h
    · exact Nat.le_add_right _ _
    · exact Nat.le_add_left_of_le (ih h)

/-- What a section's function runs next brings no more than the section. -/
theorem Charged.brings_le {l : Link} {op o : Op} (h : Charged cfg l op) (ho : o ∈ (l.exec cfg op).2) :
    o.brings ≤ op.brings := by
  cases h with
  | adds hop inbox new =>
    rw [new] at ho
    cases List.mem_singleton.mp ho
    exact Nat.zero_le _
  | settles inbox brings new =>
    rw [new] at ho
    cases List.mem_singleton.mp ho
    exact Nat.le_of_eq brings.symm
  | keeps inbox brings => exact Nat.le_trans (le_total _ ho) brings

theorem Margin.count (h : Margin cfg s) {op : Op} {rest : List Op} (ops : s.rd.ops = op :: rest) :
    op.carries.toNat + rest.countP Op.carries ≤ 1 := by
  have one := h.one
  rw [ops, List.countP_cons] at one
  cases hc : op.carries <;> rw [hc] at one <;> simpa [Nat.add_comm] using one

/-- Beside a section with a charge the reader's call has no other. -/
theorem Margin.alone (h : Margin cfg s) {op : Op} {rest : List Op} (ops : s.rd.ops = op :: rest) {n : Nat}
    (brings : op.brings = n + EVENT_COST) : total Op.adds rest = 0 := by
  have carries : op.carries = true := by
    refine Bool.of_not_eq_false fun idle => ?_
    rw [(Op.idle_of_carries idle).1] at brings
    unfold EVENT_COST at brings
    omega
  have count := h.count ops
  rw [carries, Bool.toNat_true] at count
  have none : rest.countP Op.carries = 0 := by omega
  refine total_eq_zero fun o ho => (Op.idle_of_carries ?_).2.1
  exact Bool.eq_false_iff.mpr (List.countP_eq_zero.mp none o ho)

theorem Margin.bound_exec {op : Op} {rest : List Op} (h : Margin cfg s) (ops : s.rd.ops = op :: rest)
    (link : s'.link = (s.link.exec cfg op).1) (ops' : s'.rd.ops = (s.link.exec cfg op).2 ++ rest)
    (coming : s'.coming = s.coming) (rank : s.state.rank ≤ s'.state.rank) :
    s'.link.inbox + total Op.brings s'.rd.ops + s'.coming < inboxBound cfg ∨
      2 ≤ s'.state.rank ∧ s'.link.inbox + total Op.adds s'.rd.ops < inboxBound cfg := by
  have bound := h.bound
  have rest_le := h.sized op (by rw [ops]; exact List.mem_cons_self)
  rw [ops, total_cons, total_cons] at bound
  rw [link, ops', coming, total_append, total_append]
  generalize s.coming = coming at bound ⊢
  cases @charged_exec cfg s.link op with
  | @adds e hop inbox new =>
    have wraps := Nat.mod_le (s.link.inbox + (e.size + EVENT_COST)) (2 ^ 64)
    have brings : op.brings = e.size + EVENT_COST := by rw [hop]; rfl
    have adds : op.adds = e.size + EVENT_COST := by rw [hop]; rfl
    have none : total Op.brings [.emit e] = 0 ∧ total Op.adds [.emit e] = 0 := ⟨rfl, rfl⟩
    rw [inbox, new, none.1, none.2]
    rcases bound with hb | ⟨hr, hb⟩
    · exact .inl (by omega)
    · exact .inr ⟨Nat.le_trans hr rank, by omega⟩
  | @settles e inbox brings new why =>
    have same : total Op.brings [.deliverNow e] = e.size + EVENT_COST ∧ total Op.adds [.deliverNow e] = e.size + EVENT_COST :=
      ⟨rfl, rfl⟩
    rw [inbox, new, same.1, same.2]
    rcases bound with hb | ⟨hr, hb⟩
    · exact .inl (by omega)
    · -- the link is closing: the inbox is below the limit, or the event had been dropped
      have below : s.link.inbox < INBOX_LIMIT := by
        refine why.resolve_right fun opened => ?_
        rw [Sys.state, opened] at hr
        exact absurd hr (by decide)
      have alone := h.alone ops brings
      refine .inr ⟨Nat.le_trans hr rank, ?_⟩
      rw [brings] at rest_le
      unfold INBOX_LIMIT at below
      unfold EVENT_COST at rest_le ⊢
      unfold inboxBound
      omega
  | keeps inbox brings adds hands =>
    rw [inbox, adds]
    rcases bound with hb | ⟨hr, hb⟩
    · exact .inl (by omega)
    · exact .inr ⟨Nat.le_trans hr rank, by omega⟩

/-- A section of the reader's call. -/
theorem Margin.exec {op : Op} {rest : List Op} (h : Margin cfg s) (run : s'.task = .running)
    (ops : s.rd.ops = op :: rest) (link : s'.link = (s.link.exec cfg op).1)
    (rd : s'.rd = { s.rd with ops := (s.link.exec cfg op).2 ++ rest }) (rank : s.state.rank ≤ s'.state.rank) :
    Margin cfg s' := by
  have charged := @charged_exec cfg s.link op
  refine ⟨?_, ?_, ?_, ?_, ?_, ?_, ?_, ?_, h.bound_exec ops link (by rw [rd]) (by rw [Sys.coming, rd]; rfl) rank⟩
  · have count := h.count ops
    have next := @carries_exec cfg s.link op
    rw [rd]
    dsimp only
    rw [List.countP_append]
    omega
  · rw [rd]
    refine List.forall_mem_append.mpr ⟨fun o ho => ?_, fun o ho => h.sized o (by rw [ops]; exact List.mem_cons_of_mem _ ho)⟩
    exact Nat.le_trans (charged.brings_le ho) (h.sized op (by rw [ops]; exact List.mem_cons_self))
  · rw [rd]; exact h.fits
  · rw [rd]; exact h.waits
  · rw [rd]; exact fun state pc hs => Nat.le_trans (h.checked state pc hs) rank
  · rw [rd]
    intro pc
    have idle := (h.read pc).1
    rw [ops] at idle
    cases idle
  · exact fun ht => absurd run (Task.ne_running ht)
  · exact fun _ ht => absurd run (Task.ne_running (Task.early_of_rest ht))

/-- A move of the idle reader: the fields that say where it stands are left to show. -/
theorem Margin.moves (h : Margin cfg s) (run : s'.task = .running) (idle : s.rd.ops = [])
    (inbox : s'.link.inbox ≤ s.link.inbox) (plain : ∀ op ∈ s'.rd.ops, op.carries = false)
    (rank : s.state.rank ≤ s'.state.rank) (coming : s'.coming ≤ s.coming)
    (fits : s'.rd.parses = true → Fits cfg.max s'.rd.reader.partialMsg)
    (waits : s'.rd.ok = true → s'.rd.pc.still = true →
      nextFrame cfg.server cfg.max s'.rd.reader.partialMsg s'.rd.reader.unread = .more)
    (checked : ∀ state, s'.rd.pc = .checkInbox state → state ≠ .opened → 2 ≤ s'.state.rank)
    (read : s'.rd.pc = .read → s'.rd.ops = [] ∧ (2 ≤ s'.state.rank ∨ s'.link.inbox < INBOX_LIMIT)) : Margin cfg s' := by
  have brings : total Op.brings s'.rd.ops = 0 := total_eq_zero fun op hop => (Op.idle_of_carries (plain op hop)).1
  have adds : total Op.adds s'.rd.ops = 0 := total_eq_zero fun op hop => (Op.idle_of_carries (plain op hop)).2.1
  refine ⟨?_, fun op hop => ?_, fits, waits, checked, read, ?_, ?_, ?_⟩
  · rw [List.countP_eq_zero.mpr fun op hop => Bool.eq_false_iff.mp (plain op hop)]
    exact Nat.zero_le _
  · rw [(Op.idle_of_carries (plain op hop)).1]
    exact Nat.zero_le _
  · exact fun ht => absurd run (Task.ne_running ht)
  · exact fun _ ht => absurd run (Task.ne_running (Task.early_of_rest ht))
  · rw [brings, adds]
    have bound := h.bound
    rw [idle, total_nil, total_nil] at bound
    rcases bound with hb | ⟨hr, hb⟩
    · exact .inl (by omega)
    · exact .inr ⟨Nat.le_trans hr rank, by omega⟩

/-- The reader itself is as it was. -/
theorem coming_le (reader : s'.rd.reader = s.rd.reader) (parses : s'.rd.parses = true → s.rd.parses = true) :
    s'.coming ≤ s.coming := by
  rw [Sys.coming, Sys.coming, reader]
  split
  · rw [if_pos (parses ‹_›)]
  · exact Nat.zero_le _

/-- A read of a reader that waits. -/
theorem Margin.input {bytes : Bytes} (h : Margin cfg s) (sane : Sane cfg s) (vec : s.vectors = true)
    (run : s'.task = .running) (pc : s.rd.pc = .read) (short : bytes.length ≤ READ_CHUNK)
    (link : s'.link = s.link) (ops' : s'.rd.ops = []) (pc' : s'.rd.pc = .top) (ok : s'.rd.ok = s.rd.ok)
    (reader : s'.rd.reader = if s.rd.ok then s.rd.reader.push bytes else s.rd.reader) : Margin cfg s' := by
  have parses : s'.rd.parses = s.rd.ok := by rw [ReadLoop.parses, pc', ok]; exact Bool.and_true _
  have parsed : s.rd.parses = s.rd.ok := by rw [ReadLoop.parses, pc]; exact Bool.and_true _
  have state : s'.state = s.state := by rw [Sys.state, link, Sys.state]
  obtain ⟨p, b, at_⟩ := sane.reader
  have fits (hok : s.rd.ok = true) : Fits cfg.max p := by
    rw [← at_.partialMsg]
    exact h.fits (parsed.trans hok)
  refine ⟨by rw [ops']; exact Nat.zero_le _, ?_, fun hp => ?_, ?_, ?_, ?_, ?_, ?_, ?_⟩
  · rw [ops']
    exact fun op hop => by cases hop
  · rw [parses] at hp
    rw [reader, if_pos hp, (at_.push bytes).partialMsg]
    exact fits hp
  · rw [pc']
    exact fun _ hs => by cases hs
  · rw [pc']
    exact fun _ hs => by cases hs
  · rw [pc']
    exact fun hs => by cases hs
  · exact fun ht => absurd run (Task.ne_running ht)
  · exact fun _ ht => absurd run (Task.ne_running (Task.early_of_rest ht))
  · have below := h.inbox_lt
    rw [link, ops', total_nil, total_nil, state]
    rcases (h.read pc).2 with hr | hl
    · exact .inr ⟨hr, below⟩
    · refine .inl ?_
      cases hok : s.rd.ok with
      | false =>
        rw [Sys.coming, parses, hok]
        exact below
      | true =>
        have waits := h.waits hok (by rw [pc]; rfl)
        have vec := (Bool.and_eq_true_iff.mp vec).1
        rw [decide_eq_true_eq, at_.partialMsg] at vec
        rw [at_.partialMsg, at_.unread] at waits
        have within := fits hok (Nat.le_trans vec (by decide))
        have burst_le := @burst_push_le cfg.server cfg.max p b bytes waits vec within
        rw [hok, if_pos rfl] at reader
        rw [Sys.coming, parses, hok, if_pos rfl, reader, (at_.push bytes).ahead, List.append_nil]
        unfold INBOX_LIMIT at hl
        unfold EVENT_COST at burst_le
        unfold READ_CHUNK at short
        unfold inboxBound
        omega

/-- The reader starts on what the handshake left over. -/
theorem Margin.started {rest : Bytes} (h : Margin cfg s) (task : s.task = .opening rest) (run : s'.task = .running)
    (link : s'.link = s.link) (reader : s'.rd.reader = s.rd.reader.push rest) (ops : s'.rd.ops = s.rd.ops)
    (pc : s'.rd.pc = s.rd.pc) : Margin cfg s' := by
  obtain ⟨fresh, hl⟩ := h.early (by rw [task]; rfl)
  have short := h.rest rest (.inr task)
  rw [fresh] at reader ops pc
  have at_ := (Reader.new_at cfg.server cfg.max).push rest
  refine ⟨by rw [ops]; exact Nat.zero_le _, ?_, fun _ => ?_, ?_, ?_, ?_, ?_, ?_, .inl ?_⟩
  · rw [ops]
    exact fun op hop => by cases hop
  · rw [reader]
    exact fun _ => (congrArg openSize at_.partialMsg).trans_le (Nat.zero_le _)
  · rw [pc]
    exact fun _ hs => by cases hs
  · rw [pc]
    exact fun _ hs => by cases hs
  · rw [pc]
    exact fun hs => by cases hs
  · exact fun ht => absurd run (Task.ne_running ht)
  · exact fun _ ht => absurd run (Task.ne_running (Task.early_of_rest ht))
  · have coming : s'.coming ≤ 32 * rest.length := by
      rw [Sys.coming]
      split
      · rw [reader, show (Sys.init cfg).rd.reader = .new cfg.server cfg.max from rfl, at_.ahead, List.append_nil]
        have := @burst_drain_le cfg.server cfg.max none ([] ++ rest)
        rw [List.nil_append] at this ⊢
        exact Nat.le_trans this (Nat.le_of_eq (Nat.zero_add _))
      · exact Nat.zero_le _
    rw [link, ops, show (Sys.init cfg).rd.ops = [] from rfl, total_nil]
    unfold INBOX_LIMIT at hl
    unfold HEAD_CHUNK at short
    unfold inboxBound
    omega

/-- A message is taken from what was ahead. -/
theorem Margin.decoded {last : Bool} {r : Reader} {m : Msg} (h : Margin cfg s) (sane : Sane cfg s) (single : Single s)
    (vec' : s'.vectors = true) (run : s'.task = .running) (idle : s.rd.ops = []) (pc : s.rd.pc = .dispatch last)
    (msg : s.rd.reader.message = (r, .ok (some m))) (inbox : s'.link.inbox = s.link.inbox)
    (rank : s.state.rank ≤ s'.state.rank) (reader : s'.rd.reader = r) (ops : s'.rd.ops = [.handle m])
    (pc' : s'.rd.pc = .handled (Sys.isClose m) last) : Margin cfg s' := by
  have parses : s.rd.parses = true := by rw [ReadLoop.parses, single.dispatch last pc, pc]; rfl
  have vec : charge m ≤ usizeMax := by
    have all := List.all_eq_true.mp (Bool.and_eq_true_iff.mp vec').2 (.handle m) (by rw [ops]; exact List.mem_singleton_self _)
    have size : charge m ≤ isizeMax + EVENT_COST := of_decide_eq_true all
    exact Nat.le_trans size (by decide)
  obtain ⟨sized, fits⟩ := message_charge sane.reader (h.fits parses) msg
  have ahead := sane.reader.ahead_out msg []
  have coming : charge m + s'.coming ≤ s.coming := by
    rw [Sys.coming, Sys.coming, parses, if_pos rfl, ahead, reader]
    show _ ≤ charge m + burst (r.ahead []).1
    split
    · exact Nat.le_refl _
    · exact Nat.le_add_right _ _
  refine ⟨?_, ?_, fun _ => ?_, ?_, ?_, ?_, ?_, ?_, ?_⟩
  · rw [ops]
    exact List.countP_le_length
  · rw [ops]
    exact List.forall_mem_singleton.mpr (sized vec)
  · rw [reader]
    exact fits
  · rw [pc']
    exact fun _ hs => by cases hs
  · rw [pc']
    exact fun _ hs => by cases hs
  · rw [pc']
    exact fun hs => by cases hs
  · exact fun ht => absurd run (Task.ne_running ht)
  · exact fun _ ht => absurd run (Task.ne_running (Task.early_of_rest ht))
  · have bound := h.bound
    rw [idle, total_nil, total_nil] at bound
    have brings : total Op.brings [.handle m] = charge m := Nat.add_zero _
    have adds : total Op.adds [.handle m] = 0 := rfl
    rw [inbox, ops, brings, adds]
    rcases bound with hb | ⟨hr, hb⟩
    · exact .inl (by omega)
    · exact .inr ⟨Nat.le_trans hr rank, by omega⟩

theorem carries_of_reads {rd : ReadLoop} (idle : s.rd.ops = []) (hr : Reads cfg s lab rd new) :
    ∀ op ∈ rd.ops, op.carries = false := by
  rw [hr.ops_eq idle]
  cases hr with
  | hub => exact fun op hop => Op.carries_of_plain (plain_terminate op hop)
  | error pc hlab hp => exact fun op hop => Op.carries_of_plain (hp op hop)
  | dead => exact fun op hop => Op.carries_of_plain (plain_fail _ op hop)
  | ending => exact List.forall_mem_singleton.mpr rfl
  | _ => exact fun op hop => by cases hop

/-- The reader moves on without taking in a message. -/
theorem Margin.reads {rd : ReadLoop} (h : Margin cfg s) (sane : Sane cfg s) (sec : Sections s) (vec : s.vectors = true)
    (checks : Checks s lab { s with rd := rd }) (run : s.task = .running) (idle : s.rd.ops = [])
    (hr : Reads cfg s lab rd new) : Margin cfg { s with rd := rd } := by
  have he : Effect cfg s lab { s with rd := rd } [] new := .reading run idle hr
  have plain := carries_of_reads idle hr
  -- the reader is as it was, and stands at no place that says something of it
  have elsewhere (reader : rd.reader = s.rd.reader) (still : rd.pc.still = false) : Margin cfg { s with rd := rd } := by
    refine h.moves run idle (Nat.le_refl _) plain (Nat.le_refl _) (coming_le reader he.parses) (fun hp => ?_) ?_ ?_ ?_
    · rw [show ({ s with rd := rd } : Sys).rd.reader = s.rd.reader from reader]
      exact h.fits (he.parses hp)
    · exact fun _ hs => by rw [show rd.pc.still = true from hs] at still; cases still
    · exact fun state pc => by rw [show rd.pc = _ from pc] at still; cases still
    · exact fun pc => by rw [show rd.pc = _ from pc] at still; cases still
  cases hr with
  | goto hn =>
    cases hn with
    | skip pc ok =>
      refine h.moves run idle (Nat.le_refl _) plain (Nat.le_refl _) (coming_le rfl he.parses) (h.fits ∘ he.parses) ?_ ?_ ?_
      · exact fun hok => by rw [show s.rd.ok = true from hok] at ok; cases ok
      · exact fun _ hs => by cases hs
      · exact fun hs => by cases hs
    | check pc state =>
      refine h.moves run idle (Nat.le_refl _) plain (Nat.le_refl _) (coming_le rfl he.parses) (h.fits ∘ he.parses) ?_ ?_ ?_
      · exact fun hok _ => h.waits hok (by rw [pc]; rfl)
      · intro st hst hopen
        cases hst
        exact State.two_le_rank (sec.task (by rw [run]; rfl)) hopen
      · exact fun hs => by cases hs
    | @read state pc =>
      refine h.moves run idle (Nat.le_refl _) plain (Nat.le_refl _) (coming_le rfl he.parses) (h.fits ∘ he.parses) ?_ ?_ ?_
      · exact fun hok _ => h.waits hok (by rw [pc]; rfl)
      · exact fun _ hs => by cases hs
      · exact fun _ => ⟨idle, (checks.read state pc rfl).imp (h.checked state pc) id⟩
    | _ => exact elsewhere rfl rfl
  | @silent last r pc msg =>
    obtain ⟨ahead, -⟩ := sane.reader.ahead_idle msg
    refine h.moves run idle (Nat.le_refl _) plain (Nat.le_refl _) ?_ (fun hp => ?_) (fun hok _ => ?_) ?_ ?_
    · rw [Sys.coming, Sys.coming]
      split
      · rw [if_pos (he.parses ‹_›), ahead []]
      · exact Nat.zero_le _
    · exact (message_waits sane.reader (h.fits (he.parses hp)) msg).2
    · have parses : s.rd.parses = true := by rw [ReadLoop.parses, show s.rd.ok = true from hok, pc]; rfl
      exact (message_waits sane.reader (h.fits parses) msg).1
    · exact fun _ hs => by cases last <;> cases hs
    · exact fun hs => by cases last <;> cases hs
  | @stop stop last pc why =>
    refine h.moves run idle (Nat.le_refl _) plain (Nat.le_refl _) (Nat.zero_le _) (fun hp => by cases hp)
      (fun hok => by cases hok) ?_ ?_
    · exact fun _ hs => by cases last <;> cases hs
    · exact fun hs => by cases last <;> cases hs
  | input pc hlab =>
    exact h.input sane vec run pc (checks.chunk _ hlab) rfl idle rfl rfl rfl
  | _ => exact elsewhere rfl rfl

theorem Margin.step (h : Margin cfg s) (reach : Reachable (Sys.step cfg) (.init cfg) s) (vec : s.vectors = true)
    (vec' : s'.vectors = true) (checks : Checks s lab s') (he : Effect cfg s lab s' used new) : Margin cfg s' := by
  have rank := he.lives.rank_le
  have sane : Sane cfg s := .of_reachable reach
  have parses := he.parses
  cases he with
  | connected task hlab =>
    refine h.aside checks rfl rank (fun _ => by rw [task]; rfl) fun rest ht => ?_
    rcases ht with ht | ht <;> cases ht
    exact checks.rest _ hlab
  | opened task free state hlab =>
    refine h.aside checks rfl rank (fun _ => by rw [task]; rfl) fun rest ht => ?_
    rcases ht with ht | ht <;> cases ht
    exact h.rest _ (.inl task)
  | left =>
    refine h.aside checks rfl rank (fun ht => by cases ht) fun rest ht => ?_
    rcases ht with ht | ht <;> cases ht
  | started task => exact h.started task rfl rfl rfl rfl rfl
  | execReader run ops free => exact h.exec run ops rfl rfl rank
  | reading run idle hr => exact h.reads sane (.of_reachable reach) vec checks run idle hr
  | decoded run idle pc msg =>
    exact h.decoded sane (.of_reachable reach) vec' run idle pc msg rfl rank rfl rfl rfl
  | @failed last r f run idle pc msg =>
    refine h.moves run idle (Nat.le_refl _) ?_ rank ?_ (fun hp => ?_) ?_ ?_ ?_
    · exact List.forall_mem_cons.mpr ⟨rfl, List.forall_mem_singleton.mpr rfl⟩
    · rw [Sys.coming, silent_of_handled last rfl]
      exact Nat.zero_le _
    · rw [silent_of_handled last rfl] at hp
      cases hp
    · exact fun _ hs => by cases hs
    · exact fun _ hs => by cases hs
    · exact fun hs => by cases hs
  | ping run idle free state pc =>
    refine h.moves run idle (Nat.le_refl _) (List.forall_mem_singleton.mpr rfl) rank (coming_le rfl parses)
      (h.fits ∘ parses) ?_ ?_ ?_
    · exact fun _ hs => by cases hs
    · exact fun _ hs => by cases hs
    · exact fun hs => by cases hs
  | _ => exact h.aside checks rfl rank id h.rest

theorem Margin.init (cfg : Config) : Margin cfg (.init cfg) := by
  refine ⟨Nat.zero_le _, ?_, fun _ _ => Nat.zero_le _, ?_, ?_, ?_, fun _ => ⟨rfl, Nat.two_pow_pos 20⟩, ?_, .inl ?_⟩
  · exact fun op hop => by cases hop
  · exact fun _ hs => by cases hs
  · exact fun _ hs => by cases hs
  · exact fun hs => by cases hs
  · exact fun _ hs => by rcases hs with hs | hs <;> cases hs
  · have coming : (Sys.init cfg).coming = 0 := by
      rw [Sys.coming, show (Sys.init cfg).rd.reader = .new cfg.server cfg.max from rfl,
        (Reader.new_at cfg.server cfg.max).ahead]
      rfl
    rw [coming]
    show 0 < inboxBound cfg
    unfold inboxBound
    omega

/-! ## What the events on their way are owed -/

/-- What a step does to the inbox, the call of the reader and the events on their way. -/
inductive Moved (s s' : Sys) : Prop where
  | charged {e rest} (ops : s.rd.ops = .deliverNow e :: rest) (ops' : s'.rd.ops = .emit e :: rest)
      (inbox : s'.link.inbox = (s.link.inbox + (e.size + EVENT_COST)) % 2 ^ 64) (same : s'.delivered = s.delivered)
  | handed {e : Event} (hands : total Op.hands s'.rd.ops + (e.size + EVENT_COST) = total Op.hands s.rd.ops)
      (inbox : s'.link.inbox = s.link.inbox) (told : s'.delivered = s.delivered ++ [e.size])
  | quiet (hands : total Op.hands s'.rd.ops ≤ total Op.hands s.rd.ops) (inbox : s'.link.inbox = s.link.inbox)
      (same : s'.delivered = s.delivered)

theorem Effect.moved (he : Effect cfg s lab s' used new) (sole : Sole Op.carries s) (h : s.step cfg lab = some s')
    (hlab : ∀ bytes, lab ≠ .call (.consumed bytes)) : Moved s s' := by
  have told := he.delivered
  have inbox := inbox_step sole h hlab
  -- only the reader's `deliver` and `emit` say something to the hub or to the inbox
  have quiet (ops : s.rd.ops = [] ∨ s'.rd.ops = s.rd.ops)
      (hands : total Op.hands s'.rd.ops ≤ total Op.hands s.rd.ops)
      (silent : ∀ op ∈ used, op.carries = false) : Moved s s' := by
    refine .quiet hands ?_ ?_
    · refine inbox.resolve_right ?_
      rintro ⟨e, rest, busy, next, -⟩
      rcases ops with idle | ops
      · rw [busy] at idle
        cases idle
      · rw [ops, busy] at next
        cases next
    · refine told.resolve_right ?_
      rintro ⟨e, rfl, inbound, -⟩
      have outbound : e.inbound = false := silent _ (List.mem_singleton_self _)
      rw [inbound] at outbound
      cases outbound
  have none {op : Op} (hop : op ∈ []) : op.carries = false := by cases hop
  cases he with
  | @execReader op rest run ops free =>
    have before : total Op.hands s.rd.ops = op.hands + total Op.hands rest := by rw [ops, total_cons]
    have after := total_append Op.hands (s.link.exec cfg op).2 rest
    cases @charged_exec cfg s.link op with
    | adds hop inbox new =>
      subst hop
      refine .charged ops rfl inbox (told.resolve_right ?_)
      rintro ⟨e, hop, -⟩
      cases hop
    | settles inbox brings new =>
      have next : total Op.hands (s.link.exec cfg op).2 = 0 := by rw [new]; rfl
      refine .quiet ?_ inbox (told.resolve_right ?_)
      · show total Op.hands ((s.link.exec cfg op).2 ++ rest) ≤ _
        omega
      · rintro ⟨e, hop, -⟩
        cases hop
        cases brings
    | keeps inbox brings adds hands =>
      rcases told with same | ⟨e, hop, inbound, told⟩
      · refine .quiet ?_ inbox same
        show total Op.hands ((s.link.exec cfg op).2 ++ rest) ≤ _
        omega
      · cases hop
        have charge : (Op.emit e).hands = e.size + EVENT_COST := if_pos inbound
        refine .handed ?_ inbox told
        show total Op.hands ((s.link.exec cfg (.emit e)).2 ++ rest) + _ = _
        omega
  | reading run idle hr =>
    refine quiet (.inl idle) ?_ fun _ => none
    rw [total_eq_zero fun op hop => (Op.idle_of_carries (carries_of_reads idle hr op hop)).2.2]
    exact Nat.zero_le _
  | decoded run idle => exact quiet (.inl idle) (Nat.zero_le _) fun _ => none
  | failed run idle => exact quiet (.inl idle) (Nat.zero_le _) fun _ => none
  | ping run idle => exact quiet (.inl idle) (Nat.zero_le _) fun _ => none
  | execPool ops =>
    refine quiet (.inr rfl) (Nat.le_refl _) (List.forall_mem_singleton.mpr (sole.pool _ ?_))
    exact List.mem_flatten.mpr ⟨_, List.mem_of_getElem? ops, List.mem_cons_self⟩
  | execWriter run ops =>
    refine quiet (.inr rfl) (Nat.le_refl _) (List.forall_mem_singleton.mpr (sole.writer _ ?_))
    rw [ops]
    exact List.mem_cons_self
  | _ => exact quiet (.inr rfl) (Nat.le_refl _) fun _ => none

theorem settle_of_ne (hlab : ∀ bytes, lab ≠ .call (.consumed bytes)) :
    g.settle lab s' = g.due ++ s'.delivered.drop g.sys.delivered.length := by
  rw [Ledger.settle]
  exact hlab

theorem owed_erase {bytes : Nat} {due : List Nat} (h : bytes ∈ due) :
    ((due.erase bytes).map (· + EVENT_COST)).sum + (bytes + EVENT_COST) = (due.map (· + EVENT_COST)).sum := by
  rw [((List.perm_cons_erase h).map _).sum_nat, List.map_cons, List.sum_cons]
  exact Nat.add_comm _ _

theorem owed_append (due told : List Nat) :
    ((due ++ told).map (· + EVENT_COST)).sum = (due.map (· + EVENT_COST)).sum + (told.map (· + EVENT_COST)).sum := by
  rw [List.map_append, List.sum_append]

/-- The inbox covers the events on their way, and the one the reader is about to hand over. -/
structure Books (g : Ledger) : Prop where
  word : g.sys.link.inbox < 2 ^ 64
  covers : g.owed + total Op.hands g.sys.rd.ops ≤ g.sys.link.inbox

/-- `consumed` does not wrap the inbox around. -/
theorem Books.consumed {bytes : Nat} (h : Books g) (mem : bytes ∈ g.due)
    (hs : g.sys.step cfg (.call (.consumed bytes)) = some s') :
    s'.link.inbox + (bytes + EVENT_COST) = g.sys.link.inbox := by
  have word := h.word
  have covers := h.covers
  have erased := owed_erase mem
  rw [← Ledger.owed] at erased
  rw [Sys.step, Sys.call] at hs
  cases hs
  show (g.sys.link.inbox + (2 ^ 64 - (bytes + EVENT_COST) % 2 ^ 64)) % 2 ^ 64 + (bytes + EVENT_COST) = g.sys.link.inbox
  omega

/-- While its call has sections left, only the reader itself goes on with it. -/
theorem reader_of_ops (h : s.step cfg lab = some s') (busy : s.rd.ops ≠ []) (moved : s'.rd.ops ≠ s.rd.ops) :
    lab = .reader := by
  cases reads : lab.reads with
  | false => exact absurd (rd_step h reads).2 moved
  | true =>
    refine Classical.byContradiction fun other => busy ?_
    exact (woken_step h reads other).1

theorem Books.step (b : Books g) (sole : Sole Op.carries g.sys) (h : g.step cfg lab = some g') : Books g' := by
  obtain ⟨allows, hs, -, due⟩ := ledger_step h
  obtain ⟨used, new, he⟩ := step_effect hs
  have word := b.word
  have covers := b.covers
  by_cases hlab : ∃ bytes, lab = .call (.consumed bytes)
  · obtain ⟨bytes, rfl⟩ := hlab
    have mem : bytes ∈ g.due := List.contains_iff_mem.mp allows
    have settled := b.consumed mem hs
    have erased := owed_erase mem
    have same : g'.sys.rd = g.sys.rd ∧ g'.sys.delivered = g.sys.delivered := by
      rw [Sys.step, Sys.call] at hs
      generalize g'.sys = s' at hs
      cases hs
      exact ⟨rfl, rfl⟩
    rw [Ledger.settle, same.2, List.drop_length, List.append_nil] at due
    refine ⟨by omega, ?_⟩
    rw [Ledger.owed, due, same.1]
    rw [Ledger.owed] at covers
    omega
  · have other : ∀ bytes, lab ≠ .call (.consumed bytes) := fun bytes hl => hlab ⟨bytes, hl⟩
    have owed : g'.owed = g.owed + ((g'.sys.delivered.drop g.sys.delivered.length).map (· + EVENT_COST)).sum := by
      rw [Ledger.owed, due, settle_of_ne other, owed_append, Ledger.owed]
    cases he.moved sole hs other with
    | @charged e rest ops ops' inbox same =>
      have hlab : lab = .reader := by
        refine reader_of_ops hs (by rw [ops]; exact List.cons_ne_nil _ _) ?_
        rw [ops', ops]
        exact fun h => by cases h
      subst hlab
      have counts : g.sys.link.inbox + (e.size + EVENT_COST) < 2 ^ 64 := by
        have := of_decide_eq_true allows
        rw [ops] at this
        exact this
      have hands : (Op.emit e).hands ≤ e.size + EVENT_COST := by
        rw [Op.hands]
        split
        · exact Nat.le_refl _
        · exact Nat.zero_le _
      rw [same, List.drop_length, List.map_nil, List.sum_nil] at owed
      rw [ops, total_cons] at covers
      rw [Nat.mod_eq_of_lt counts] at inbox
      refine ⟨by omega, ?_⟩
      rw [ops', total_cons]
      omega
    | handed hands inbox told =>
      rw [told, List.drop_left, List.map_singleton, List.sum_singleton] at owed
      exact ⟨by omega, by omega⟩
    | quiet hands inbox same =>
      rw [same, List.drop_length, List.map_nil, List.sum_nil] at owed
      exact ⟨by omega, by omega⟩

/-- While the link is open, a read is only issued below the limit. -/
theorem read_guard {state : State} (h : s.step cfg lab = some s') (pc : s.rd.pc = .checkInbox state)
    (pc' : s'.rd.pc = .read) : state ≠ .opened ∨ s.link.inbox < INBOX_LIMIT := by
  cases reads : lab.reads with
  | false =>
    rw [(rd_step h reads).1, pc] at pc'
    cases pc'
  | true =>
    by_cases hlab : lab = .reader
    · subst hlab
      obtain ⟨-, h⟩ := Option.ite_none_right_eq_some.mp h
      rw [Sys.readerStep] at h
      split at h
      · rw [Sys.readPc, pc] at h
        cases h
        by_cases full : state = .opened ∧ INBOX_LIMIT ≤ s.link.inbox
        · have pc' : (if state = .opened ∧ INBOX_LIMIT ≤ s.link.inbox then ReadPc.throttled else .read) = .read := pc'
          rw [if_pos full] at pc'
          cases pc'
        · exact (Decidable.not_and_iff_or_not.mp full).imp id Nat.lt_of_not_le
      · split at h
        · cases h
          rw [show s.rd.pc = _ from pc'] at pc
          cases pc
        · cases h
    · have waits := (woken_step h reads hlab).2
      rw [pc] at waits
      cases waits

theorem chunk_le {bytes : Bytes} (h : s.step cfg (.input bytes) = some s') : bytes.length ≤ READ_CHUNK := by
  obtain ⟨-, h⟩ := Option.ite_none_right_eq_some.mp h
  exact (Option.ite_none_right_eq_some.mp h).1.2.2.2

theorem Books.checks (b : Books g) (sole : Sole Op.carries g.sys) (h : g.step cfg lab = some g') :
    Checks g.sys lab g'.sys := by
  obtain ⟨allows, hs, -, -⟩ := ledger_step h
  refine ⟨?_, fun _ => read_guard hs, ?_, ?_⟩
  · by_cases hlab : ∃ bytes, lab = .call (.consumed bytes)
    · obtain ⟨bytes, rfl⟩ := hlab
      have settled := b.consumed (List.contains_iff_mem.mp allows) hs
      exact .inl (by omega)
    · refine (inbox_step sole hs fun bytes hl => hlab ⟨bytes, hl⟩).imp Nat.le_of_eq ?_
      rintro ⟨e, rest, ops, ops', -⟩
      exact ⟨e, rest, ops, ops'⟩
  · rintro bytes rfl
    exact chunk_le hs
  · rintro rest rfl
    exact of_decide_eq_true allows

theorem ledger_sound (h : Reachable (Ledger.step cfg) (.init cfg) g) :
    Reachable (Ledger.step cfg) (.init cfg) g ∧ Books g ∧ Margin cfg g.sys := by
  refine h.invariant (I := fun g => Reachable (Ledger.step cfg) (.init cfg) g ∧ Books g ∧ Margin cfg g.sys)
    ⟨.refl _, ⟨Nat.two_pow_pos 64, Nat.le_refl _⟩, .init cfg⟩ ?_
  rintro u lab v _ ⟨reach, books, margin⟩ hv
  have below := ledger_reachable reach
  have sole := sole_carries below
  obtain ⟨-, hs, vec', -⟩ := ledger_step hv
  obtain ⟨used, new, he⟩ := step_effect hs
  exact ⟨reach.next hv, books.step sole hv,
    margin.step below (vectors_of_reachable reach) vec' (books.checks sole hv) he⟩

/-- The inbox covers the events on their way, so `consumed` never takes off more than there is. It
stays below the bound: a read is only outstanding on an open link below the limit, one read brings
a chunk, and once the link is not open `deliver` drops what comes at the limit. If the bound is a
`usize`, no step was left out for the inbox to be a natural number. -/
theorem inbox_accounting (h : Reachable (Ledger.step cfg) (.init cfg) g) :
    g.owed ≤ g.sys.link.inbox ∧
      (∀ bytes ∈ g.due, bytes + EVENT_COST ≤ g.sys.link.inbox ∧
        ∀ s', g.sys.step cfg (.call (.consumed bytes)) = some s' →
          s'.link.inbox + (bytes + EVENT_COST) = g.sys.link.inbox) ∧
      g.sys.link.inbox < 2 ^ 20 + cfg.max + 16509 + 64 * 8193 ∧
      (g.sys.rd.pc = .read → g.sys.state = .opened → g.sys.link.inbox < INBOX_LIMIT) ∧
      (∀ bytes s', g.sys.step cfg (.input bytes) = some s' → bytes.length ≤ 16384) ∧
      (∀ e, INBOX_LIMIT ≤ g.sys.link.inbox → g.sys.state ≠ .opened →
        g.sys.link.exec cfg (.deliver e) = (g.sys.link, [.deliverOpen e]) ∧
          g.sys.link.exec cfg (.deliverOpen e) = (g.sys.link, [])) ∧
      (2 ^ 20 + cfg.max + 16509 + 64 * 8193 ≤ 2 ^ 64 → g.sys.counts = true) := by
  obtain ⟨-, books, margin⟩ := ledger_sound h
  have covers := books.covers
  refine ⟨by omega, fun bytes mem => ⟨?_, fun s' => books.consumed mem⟩, margin.inbox_lt, fun pc opened => ?_,
    fun _ _ => chunk_le, fun e full other => ⟨?_, ?_⟩, fun fits => ?_⟩
  · have erased := owed_erase mem
    rw [← Ledger.owed] at erased
    omega
  · refine (margin.read pc).2.resolve_left ?_
    rw [opened]
    decide
  · rw [Link.exec, if_pos full]
  · rw [Link.exec, if_neg (show g.sys.link.flags.state ≠ _ from other)]
  · rw [Sys.counts, decide_eq_true_eq]
    have below : g.sys.link.inbox + total Op.adds g.sys.rd.ops < inboxBound cfg := by
      have adds_le : total Op.adds g.sys.rd.ops ≤ total Op.brings g.sys.rd.ops := total_le Op.adds_le_brings _
      rcases margin.bound with hb | ⟨-, hb⟩ <;> omega
    have first : (g.sys.rd.ops.head?.map Op.adds).getD 0 ≤ total Op.adds g.sys.rd.ops := by
      cases g.sys.rd.ops with
      | nil => exact Nat.le_refl _
      | cons op ops => exact Nat.le_add_right _ _
    unfold inboxBound at below
    omega

end Steps

/-- The link reads one text of two bytes and delivers it. -/
def textRun : List Label :=
  openRun ++ List.replicate 4 .reader ++ [.input [0x81, 0x82, 0, 0, 0, 0, 104, 105]] ++ List.replicate 6 .reader

/-- A text of two bytes is on its way, at the price of 66. -/
theorem inbox_accounting_text :
    ∃ g, runs (Ledger.step .small) (.init .small) textRun = some g ∧ g.due = [2] ∧ g.sys.link.inbox = 66 ∧
      g.owed ≤ g.sys.link.inbox ∧
      (∀ s', g.sys.step .small (.call (.consumed 2)) = some s' → s'.link.inbox + (2 + EVENT_COST) = 66) ∧
      g.sys.link.inbox < 2 ^ 20 + 1000 + 16509 + 64 * 8193 ∧ g.sys.counts = true :=
  have run : runs (Ledger.step .small) (.init .small) textRun = some _ := rfl
  have acc := @inbox_accounting .small _ ⟨_, run⟩
  ⟨_, run, rfl, rfl, acc.1, (acc.2.1 2 (List.mem_singleton_self _)).2, acc.2.2.1, acc.2.2.2.2.2.2 (by decide)⟩

end WebSocket.Net
