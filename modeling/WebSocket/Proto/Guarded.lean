import WebSocket.Lib.Checked
import WebSocket.Proto.Grammar

/-!
# The reader with its crashes

`core/src/proto/reader.rs` once more, with every index, range, sum and difference checked as
the machine checks it, the `unreachable!` of `assemble` as a crash, and a bound on the turns of
`message`. A vector that would have to hold more than `isize::MAX` bytes cannot grow: that is
the allocator's crash, and it stays one.

`Ready` is what the methods rely on. Where it holds each of them returns what the reader of the
other modules returns, so that reader is total, and nothing said about it hides a crash.
-/

namespace WebSocket.Proto

open Lib Lib.Checked

namespace Guarded

/-! ## The methods -/

def lenAt (b : Bytes) : Except Crash (Option (Nat × Nat)) := do
  let b1 ← index b 1
  let n := (b1 &&& 0x7F).toNat
  if n = 126 ∧ 4 ≤ b.length then
    let hi ← index b 2
    let lo ← index b 3
    return some (BigEndian.ofBytes [hi, lo], 4)
  else if n = 127 ∧ 10 ≤ b.length then
    let field ← slice b 2 10
    return some (BigEndian.ofBytes field, 10)
  else if n = 126 ∨ n = 127 then return none
  else return some (n, 2)

def maskAt (masked : Bool) (b : Bytes) (at_ : Nat) : Except Crash (Option (Option Key × Nat)) := do
  if masked then
    let stop ← add usizeMax at_ 4
    if b.length < stop then return none
    else
      let k0 ← index b (← sub stop 4)
      let k1 ← index b (← sub stop 3)
      let k2 ← index b (← sub stop 2)
      let k3 ← index b (← sub stop 1)
      return some (some ⟨k0, k1, k2, k3⟩, stop)
  else return some (none, at_)

/-- `Reader::frame` up to the payload. -/
def head (server : Bool) (max : Nat) (p : Option Partial) (b : Bytes) : Except Crash (Except Fail (Option Head)) :=
  if b.length < 2 then return .ok none
  else do
    let b0 ← index b 0
    let b1 ← index b 1
    match checkFirst server p.isSome b0 b1 with
    | some f => return .error f
    | none =>
      match ← lenAt b with
      | none => return .ok none
      | some (len, at_) =>
        match checkLen max ((p.map (·.data.length)).getD 0) (b0 &&& 0x80 != 0) (b0 &&& 0x0F) len at_ with
        | some f => return .error f
        | none =>
          match ← maskAt (b1 &&& 0x80 != 0) b at_ with
          | none => return .ok none
          | some (mask, start) => return .ok (some ⟨b0 &&& 0x80 != 0, b0 &&& 0x0F, mask, start, len⟩)

def frame (r : Reader) : Except Crash (Reader × Except Fail (Option Frame)) := do
  let b ← sliceFrom r.buf r.pos
  match ← head r.server r.max r.partialMsg b with
  | .error f => return (r, .error f)
  | .ok none => return (r, .ok none)
  | .ok (some h) =>
    let left ← sub b.length h.start
    if left < h.len then return (r, .ok none)
    else
      let start ← add usizeMax r.pos h.start
      let stop ← add usizeMax start h.len
      match h.mask with
      | some key =>
        let payload ← slice r.buf start stop
        let buf := r.buf.take start ++ applyMask payload key ++ r.buf.drop stop
        return ({ r with buf, pos := stop }, .ok (some ⟨h.fin, h.op, start, stop⟩))
      | none => return ({ r with pos := stop }, .ok (some ⟨h.fin, h.op, start, stop⟩))

/-- The open message with one more fragment. -/
def extendPartial (p : Option Partial) (op : UInt8) (payload : Bytes) : Except Crash Partial :=
  match p with
  | some p => do
    let data ← extend isizeMax p.data payload
    return { p with data }
  | none => return ⟨op, payload, 0⟩

def checkText (fin : Bool) (p : Partial) : Except Crash (Option Partial) :=
  if p.op = TEXT then do
    let rest ← sliceFrom p.data p.checked
    match Utf8.fromUtf8 rest with
    | .ok () => return some { p with checked := p.data.length }
    | .error e =>
      if e.errorLen.isNone && !fin then
        let checked ← add usizeMax p.checked e.validUpTo
        return some { p with checked }
      else return none
  else return some p

/-- `self.partial.take().unwrap_or_else(|| unreachable!())`. -/
def takePartial (r : Reader) : Except Crash (Reader × Partial) :=
  match r.partialMsg with
  | some p => return ({ r with partialMsg := none }, p)
  | none => .error .unreachable

def assemble (r : Reader) (f : Frame) : Except Crash (Reader × Except Fail (Option Msg)) := do
  let payload ← slice r.buf f.start f.stop
  if f.op = PING then return (r, .ok (some (.ping payload)))
  else if f.op = PONG then return (r, .ok (some (.pong payload)))
  else if f.op = CLOSE then return (r, (close payload).map some)
  else
    let p ← extendPartial r.partialMsg f.op payload
    match ← checkText f.fin p with
    | none => return ({ r with partialMsg := some p }, .error ⟨1007, "invalid UTF-8 in text message"⟩)
    | some p =>
      if !f.fin then return ({ r with partialMsg := some p }, .ok none)
      else
        let (r, p) ← takePartial { r with partialMsg := some p }
        return (r, .ok (some (if p.op = TEXT then .text p.data else .binary p.data)))

def messageWith : Nat → Reader → Except Crash (Reader × Except Fail (Option Msg))
  | 0, _ => .error .stuck
  | turns + 1, r => do
    match ← frame r with
    | (r, .error f) => return (r, .error f)
    | (r, .ok none) => return (r, .ok none)
    | (r, .ok (some f)) =>
      match ← assemble r f with
      | (r, .error f) => return (r, .error f)
      | (r, .ok (some m)) => return (r, .ok (some m))
      | (r, .ok none) => messageWith turns r

/-- Every frame takes two bytes at least, so that many turns are enough. -/
def message (r : Reader) : Except Crash (Reader × Except Fail (Option Msg)) :=
  messageWith (r.unread.length / 2 + 1) r

def input (r : Reader) : Except Crash Reader :=
  if 0 < r.pos then do
    let buf ← sliceFrom r.buf r.pos
    return { r with buf, pos := 0 }
  else return r

def push (r : Reader) (data : Bytes) : Except Crash Reader := do
  let r ← input r
  let buf ← extend isizeMax r.buf data
  return { r with buf }

/-- Any calls on one reader, also after a failure, and what each `message` returned. -/
def run (r : Reader) : List Reader.Call → Except Crash (Reader × List (Except Fail (Option Msg)))
  | [] => return (r, [])
  | .push data :: calls => do
    let r ← push r data
    run r calls
  | .message :: calls => do
    let (r, res) ← message r
    let (r, results) ← run r calls
    return (r, res :: results)

/-! ## Each method returns what the reader's method returns -/

theorem lenAt_eq {b : Bytes} (h2 : 2 ≤ b.length) : lenAt b = .ok (Proto.lenAt b) := by
  unfold lenAt Proto.lenAt
  rw [index_getD (by omega : 1 < b.length) 0]
  simp only [bind, Except.bind, pure, Except.pure]
  split
  · rename_i h
    obtain ⟨b0, b1, b2, b3, rest, rfl⟩ : ∃ b0 b1 b2 b3 rest, b = b0 :: b1 :: b2 :: b3 :: rest := by
      match b, h.2 with
      | b0 :: b1 :: b2 :: b3 :: rest, _ => exact ⟨b0, b1, b2, b3, rest, rfl⟩
    rfl
  · split
    · rename_i h
      rw [slice_eq (by omega) h.2, List.drop_take]
    · split <;> rfl

theorem maskAt_eq (masked : Bool) {b : Bytes} {at_ : Nat} (h : at_ ≤ 10) :
    maskAt masked b at_ = .ok (Proto.maskAt masked b at_) := by
  unfold maskAt Proto.maskAt
  cases masked with
  | false => rfl
  | true =>
    rw [if_pos rfl, if_pos rfl, add_eq (by unfold usizeMax; omega)]
    simp only [bind, Except.bind, pure, Except.pure]
    split
    · rfl
    · rename_i hlen
      rw [sub_eq (by omega), sub_eq (by omega), sub_eq (by omega), sub_eq (by omega)]
      simp only
      rw [index_getD (by omega) 0, index_getD (by omega) 0, index_getD (by omega) 0, index_getD (by omega) 0]
      simp only [Nat.add_sub_cancel, Nat.reduceSubDiff]

theorem lenAt_at {b : Bytes} {len at_ : Nat} (h : Proto.lenAt b = some (len, at_)) : at_ ≤ 10 := by
  unfold Proto.lenAt at h
  dsimp only at h
  split at h
  · cases h; omega
  · split at h
    · cases h; omega
    · split at h
      · cases h
      · cases h; omega

theorem head_eq (server : Bool) (max : Nat) (p : Option Partial) (b : Bytes) :
    head server max p b = .ok (Proto.head server max p b) := by
  unfold head Proto.head
  split
  · rfl
  · rename_i hlen
    rw [index_getD (by omega : 0 < b.length) 0, index_getD (by omega : 1 < b.length) 0]
    simp only [bind, Except.bind, pure, Except.pure]
    rw [lenAt_eq (by omega)]
    cases checkFirst server p.isSome (b.getD 0 0) (b.getD 1 0) with
    | some f => rfl
    | none =>
      cases hl : Proto.lenAt b with
      | none => rfl
      | some r =>
        obtain ⟨len, at_⟩ := r
        dsimp only
        cases checkLen max ((p.map (·.data.length)).getD 0) (b.getD 0 0 &&& 0x80 != 0) (b.getD 0 0 &&& 0x0F) len at_ with
        | some f => rfl
        | none =>
          dsimp only
          rw [maskAt_eq _ (lenAt_at hl)]
          cases Proto.maskAt (b.getD 1 0 &&& 0x80 != 0) b at_ with
          | none => rfl
          | some r => rfl

/-- What the methods rely on. -/
structure Ready (r : Reader) : Prop where
  pos : r.pos ≤ r.buf.length
  buf : r.buf.length ≤ isizeMax
  checked : ∀ p, r.partialMsg = some p → p.checked ≤ p.data.length
  data : ∀ p, r.partialMsg = some p → p.data.length ≤ isizeMax

/-- A frame lies in the buffer; the unread bytes lost its payload and two bytes at least. -/
structure Taken (r r' : Reader) (f : Frame) : Prop where
  range : f.start ≤ f.stop
  stop : f.stop ≤ r'.buf.length
  shorter : r'.unread.length + (f.stop - f.start) + 2 ≤ r.unread.length

variable {r : Reader}

theorem Ready.length_unread (h : Ready r) : r.pos + r.unread.length = r.buf.length := by
  rw [Reader.unread, List.length_drop]
  have := h.pos
  omega

/-- Where a whole frame lies in the buffer. -/
theorem Ready.frame_range (h : Ready r) {hd : Head}
    (hh : Proto.head r.server r.max r.partialMsg r.unread = .ok (some hd)) (hl : hd.len ≤ r.unread.length - hd.start) :
    2 ≤ hd.start ∧ r.pos + hd.start + hd.len ≤ r.buf.length := by
  have hb := head_bounds hh
  have hu := h.length_unread
  exact ⟨hb.1, by omega⟩

theorem frame_eq (h : Ready r) : frame r = .ok r.frame := by
  unfold frame Reader.frame
  rw [sliceFrom_eq h.pos]
  simp only [bind, Except.bind, pure, Except.pure, head_eq]
  cases hh : Proto.head r.server r.max r.partialMsg (r.buf.drop r.pos) with
  | error f => rfl
  | ok o =>
    cases o with
    | none => rfl
    | some hd =>
      have hb := head_bounds hh
      dsimp only
      rw [sub_eq hb.2]
      dsimp only
      split
      · rfl
      · rename_i hl
        obtain ⟨-, hstop⟩ := h.frame_range hh (Nat.le_of_not_lt hl)
        have hword : r.pos + hd.start + hd.len ≤ usizeMax := by
          have := h.buf
          unfold isizeMax at this
          unfold usizeMax
          omega
        rw [add_eq (by omega)]
        dsimp only
        rw [add_eq hword]
        dsimp only
        cases hd.mask with
        | none => rfl
        | some key =>
          dsimp only
          rw [slice_eq (by omega) hstop]
          rfl

/-- Stepping over a frame; unmasking keeps the buffer's length. -/
theorem Ready.past (h : Ready r) {buf : Bytes} {s t : Nat} (fin : Bool) (op : UInt8)
    (hlen : buf.length = r.buf.length) (h1 : r.pos + 2 ≤ s) (h2 : s ≤ t) (h3 : t ≤ r.buf.length) :
    Ready { r with buf := buf, pos := t } ∧ Taken r { r with buf := buf, pos := t } ⟨fin, op, s, t⟩ := by
  refine ⟨⟨hlen.symm ▸ h3, hlen.symm ▸ h.buf, h.checked, h.data⟩, h2, hlen.symm ▸ h3, ?_⟩
  have hu := h.length_unread
  simp only [Reader.unread, List.length_drop] at hu ⊢
  omega

/-- `frame` leaves the reader as it was, or steps over one frame. -/
theorem Ready.frame (h : Ready r) :
    (∃ e, r.frame = (r, .error e)) ∨ r.frame = (r, .ok none) ∨
      ∃ r' f, r.frame = (r', .ok (some f)) ∧ r'.partialMsg = r.partialMsg ∧ Ready r' ∧ Taken r r' f := by
  unfold Reader.frame
  dsimp only
  cases hh : Proto.head r.server r.max r.partialMsg (r.buf.drop r.pos) with
  | error f => exact .inl ⟨f, rfl⟩
  | ok o =>
    cases o with
    | none => exact .inr (.inl rfl)
    | some hd =>
      dsimp only
      split
      · exact .inr (.inl rfl)
      · rename_i hl
        obtain ⟨h2, hstop⟩ := h.frame_range hh (Nat.le_of_not_lt hl)
        cases hd.mask with
        | none =>
          exact .inr (.inr ⟨_, _, rfl, rfl, h.past hd.fin hd.op rfl (by omega) (Nat.le_add_right _ _) hstop⟩)
        | some key =>
          exact .inr (.inr ⟨_, _, rfl, rfl, h.past hd.fin hd.op (Reader.length_unmask (Nat.le_add_right _ _) hstop)
            (by omega) (Nat.le_add_right _ _) hstop⟩)

theorem Ready.of_frame (h : Ready r) {r' : Reader} {f : Frame} (hf : r.frame = (r', .ok (some f))) :
    Ready r' ∧ Taken r r' f := by
  rcases h.frame with ⟨e, he⟩ | he | ⟨s, g, he, -, ready, taken⟩
  · rw [he] at hf; cases hf
  · rw [he] at hf; cases hf
  · rw [he] at hf
    cases hf
    exact ⟨ready, taken⟩

/-- The bytes a reader holds on to: the open message and what it has not read. -/
def held (r : Reader) : Nat := openSize r.partialMsg + r.unread.length

theorem openSize_extendPartial (p : Option Partial) (op : UInt8) (payload : Bytes) :
    (Proto.extendPartial p op payload).data.length = openSize p + payload.length := by
  cases p with
  | none => exact (Nat.zero_add _).symm
  | some p => exact List.length_append

theorem extendPartial_cases {p : Option Partial} (h : ∀ q, p = some q → q.checked ≤ q.data.length) (op : UInt8)
    {payload : Bytes} (hp : payload.length ≤ isizeMax) :
    (extendPartial p op payload = .ok (Proto.extendPartial p op payload) ∧
      (Proto.extendPartial p op payload).checked ≤ (Proto.extendPartial p op payload).data.length ∧
      (Proto.extendPartial p op payload).data.length ≤ isizeMax) ∨
    isizeMax < openSize p + payload.length ∧ extendPartial p op payload = .error .capacity := by
  cases p with
  | none => exact .inl ⟨rfl, Nat.zero_le _, hp⟩
  | some q =>
    rcases extend_cases isizeMax q.data payload with ⟨hle, he⟩ | ⟨hlt, he⟩
    · refine .inl ⟨by simp only [extendPartial, he, bind, Except.bind]; rfl, ?_, ?_⟩
      · exact Nat.le_trans (h q rfl) (by simp [Proto.extendPartial])
      · simpa [Proto.extendPartial] using hle
    · exact .inr ⟨hlt, by simp only [extendPartial, he, bind, Except.bind]⟩

theorem checkText_eq (fin : Bool) {p : Partial} (h : p.checked ≤ p.data.length) (hd : p.data.length ≤ isizeMax) :
    checkText fin p = .ok (Proto.checkText fin p) ∧
      ∀ q, Proto.checkText fin p = some q → q.data = p.data ∧ q.checked ≤ q.data.length := by
  unfold checkText Proto.checkText
  rw [sliceFrom_eq h]
  split
  · simp only [bind, Except.bind, pure, Except.pure]
    cases hu : Utf8.fromUtf8 (p.data.drop p.checked) with
    | ok _ =>
      refine ⟨rfl, fun q hq => ?_⟩
      cases hq
      exact ⟨rfl, Nat.le_refl _⟩
    | error e =>
      have hle := (Utf8.fromUtf8_error_take hu).1
      rw [List.length_drop] at hle
      dsimp only
      split
      · unfold isizeMax at hd
        rw [add_eq (by unfold usizeMax; omega)]
        refine ⟨rfl, fun q hq => ?_⟩
        cases hq
        exact ⟨rfl, by dsimp only; omega⟩
      · exact ⟨rfl, fun q hq => by cases hq⟩
  · refine ⟨rfl, fun q hq => ?_⟩
    cases hq
    exact ⟨rfl, h⟩

/-- A fragment of `n` bytes is kept. -/
theorem Ready.keep (h : Ready r) {q : Partial} {n : Nat} (hsum : q.data.length = openSize r.partialMsg + n)
    (hd : q.data.length ≤ isizeMax) (hc : q.checked ≤ q.data.length) :
    Ready { r with partialMsg := some q } ∧ held { r with partialMsg := some q } ≤ held r + n := by
  refine ⟨⟨h.pos, h.buf, fun p hp => ?_, fun p hp => ?_⟩, ?_⟩
  · cases hp; exact hc
  · cases hp; exact hd
  · show q.data.length + r.unread.length ≤ openSize r.partialMsg + r.unread.length + n
    omega

/-- The fragment does not fit, or `assemble` does what the reader's does. -/
theorem assemble_cases (h : Ready r) {f : Frame} (h1 : f.start ≤ f.stop) (h2 : f.stop ≤ r.buf.length) :
    (assemble r f = .ok (r.assemble f) ∧ Ready (r.assemble f).1 ∧
      held (r.assemble f).1 ≤ held r + (f.stop - f.start)) ∨
    isizeMax < openSize r.partialMsg + (f.stop - f.start) ∧ assemble r f = .error .capacity := by
  have hlen : ((r.buf.take f.stop).drop f.start).length = f.stop - f.start := by
    rw [List.length_drop, List.length_take, Nat.min_eq_left h2]
  have hbuf := h.buf
  unfold assemble Reader.assemble assemblePayload
  rw [slice_eq h1 h2]
  simp only [bind, Except.bind, pure, Except.pure]
  -- a control frame leaves the open message alone
  split
  · exact .inl ⟨rfl, h, Nat.le_add_right _ _⟩
  split
  · exact .inl ⟨rfl, h, Nat.le_add_right _ _⟩
  split
  · exact .inl ⟨rfl, h, Nat.le_add_right _ _⟩
  have hsize := openSize_extendPartial r.partialMsg f.op ((r.buf.take f.stop).drop f.start)
  rcases extendPartial_cases h.checked f.op (by omega : ((r.buf.take f.stop).drop f.start).length ≤ isizeMax) with
    ⟨he, hchecked, hdata⟩ | ⟨hlt, he⟩
  · rw [he]
    dsimp only
    obtain ⟨hc, hq⟩ := checkText_eq f.fin hchecked hdata
    rw [hc]
    cases hct : Proto.checkText f.fin (Proto.extendPartial r.partialMsg f.op ((r.buf.take f.stop).drop f.start)) with
    | none => exact .inl ⟨rfl, h.keep (by omega) hdata hchecked⟩
    | some q =>
      obtain ⟨hd, hc⟩ := hq q hct
      dsimp only
      split
      · exact .inl ⟨rfl, h.keep (by rw [hd]; omega) (hd ▸ hdata) hc⟩
      · refine .inl ⟨rfl, ⟨h.pos, h.buf, fun p hp => (by cases hp), fun p hp => (by cases hp)⟩, ?_⟩
        show 0 + r.unread.length ≤ openSize r.partialMsg + r.unread.length + (f.stop - f.start)
        omega
  · rw [he]
    exact .inr ⟨by omega, rfl⟩

/-- The loop ends: a turn takes two bytes, so half the unread bytes bound the turns. -/
theorem messageWith_cases : ∀ (turns fuel : Nat) {r : Reader}, Ready r → r.unread.length / 2 < turns →
    r.unread.length / 2 < fuel →
    (messageWith turns r = .ok (r.messageWith fuel) ∧ Ready (r.messageWith fuel).1 ∧
      held (r.messageWith fuel).1 ≤ held r) ∨
    isizeMax < held r ∧ messageWith turns r = .error .capacity := by
  intro turns
  induction turns with
  | zero => intro fuel r _ h; omega
  | succ turns ih =>
    intro fuel r h hturns hfuel
    obtain ⟨fuel, rfl⟩ : ∃ n, fuel = n + 1 := ⟨fuel - 1, by omega⟩
    rw [messageWith, Reader.messageWith, frame_eq h]
    simp only [bind, Except.bind, pure, Except.pure]
    rcases h.frame with ⟨e, hf⟩ | hf | ⟨r', f, hf, hpart, ready, taken⟩
    · rw [hf]
      exact .inl ⟨rfl, h, Nat.le_refl _⟩
    · rw [hf]
      exact .inl ⟨rfl, h, Nat.le_refl _⟩
    · have hheld : held r' + (f.stop - f.start) + 2 ≤ held r := by
        have := taken.shorter
        simp only [held, hpart]
        omega
      rw [hf]
      dsimp only
      rcases assemble_cases ready taken.range taken.stop with ⟨ha, ready', hle⟩ | ⟨hlt, ha⟩
      · have hun : (r'.assemble f).1.unread = r'.unread := rfl
        rw [ha]
        generalize r'.assemble f = res at ready' hle hun
        obtain ⟨r'', res⟩ := res
        cases res with
        | error e => exact .inl ⟨rfl, ready', by dsimp only at hle ⊢; omega⟩
        | ok o =>
          cases o with
          | some m => exact .inl ⟨rfl, ready', by dsimp only at hle ⊢; omega⟩
          | none =>
            dsimp only at hun ready' hle ⊢
            have := taken.shorter
            rcases ih fuel ready' (by rw [hun]; omega) (by rw [hun]; omega) with ⟨hm, hr, hh⟩ | ⟨hlt, hm⟩
            · exact .inl ⟨hm, hr, by omega⟩
            · exact .inr ⟨by omega, hm⟩
      · rw [ha]
        refine .inr ⟨?_, rfl⟩
        have : openSize r'.partialMsg ≤ held r' := Nat.le_add_right _ _
        omega

theorem message_cases (h : Ready r) :
    (message r = .ok r.message ∧ Ready r.message.1 ∧ held r.message.1 ≤ held r) ∨
    isizeMax < held r ∧ message r = .error .capacity :=
  messageWith_cases _ _ h (by omega) (by omega)

theorem input_eq (h : Ready r) :
    input r = .ok r.input ∧ r.input.buf = r.unread ∧ r.input.pos = 0 ∧ r.input.partialMsg = r.partialMsg := by
  unfold input Reader.input
  split
  · rw [sliceFrom_eq h.pos]
    exact ⟨rfl, rfl, rfl, rfl⟩
  · rename_i hpos
    have h0 := Nat.eq_zero_of_not_pos hpos
    exact ⟨rfl, by rw [Reader.unread, h0, List.drop_zero], h0, rfl⟩

theorem push_cases (h : Ready r) (data : Bytes) :
    (push r data = .ok (r.push data) ∧ Ready (r.push data) ∧ held (r.push data) = held r + data.length) ∨
    isizeMax < held r + data.length ∧ push r data = .error .capacity := by
  obtain ⟨hin, hbuf, hpos, hpart⟩ := input_eq h
  unfold push
  simp only [hin, bind, Except.bind, pure, Except.pure, hbuf]
  rcases extend_cases isizeMax r.unread data with ⟨hle, he⟩ | ⟨hlt, he⟩
  · rw [he]
    refine .inl ⟨by rw [Reader.push, hbuf], ⟨?_, ?_, ?_, ?_⟩, ?_⟩
    · exact (Nat.le_of_eq hpos).trans (Nat.zero_le _)
    · rw [Reader.push, hbuf]
      exact (Nat.le_of_eq List.length_append).trans hle
    · exact fun p hp => h.checked p (hpart ▸ hp)
    · exact fun p hp => h.data p (hpart ▸ hp)
    · have hun : (r.push data).unread = r.unread ++ data := by
        rw [Reader.unread, show (r.push data).pos = 0 from hpos, List.drop_zero, Reader.push, hbuf]
      rw [held, held, hun, List.length_append, ← Nat.add_assoc]
      exact congrArg (openSize · + _ + _) hpart
  · rw [he]
    refine .inr ⟨?_, rfl⟩
    unfold held
    omega

/-! ## Whole runs -/

theorem Ready.new (server : Bool) (max : Nat) : Ready (.new server max) :=
  ⟨Nat.le_refl _, Nat.zero_le _, fun _ h => (by cases h), fun _ h => (by cases h)⟩

/-- The same calls without the checks. -/
def perform (r : Reader) : List Reader.Call → Reader × List (Except Fail (Option Msg))
  | [] => (r, [])
  | .push data :: calls => perform (r.push data) calls
  | .message :: calls => ((perform r.message.1 calls).1, r.message.2 :: (perform r.message.1 calls).2)

theorem run_cases : ∀ (calls : List Reader.Call) {r : Reader}, Ready r →
    (run r calls = .ok (perform r calls) ∧ Ready (perform r calls).1) ∨
    isizeMax < held r + (Reader.pushed calls).length ∧ run r calls = .error .capacity := by
  intro calls
  induction calls with
  | nil => intro r h; exact .inl ⟨rfl, h⟩
  | cons call calls ih =>
    intro r h
    cases call with
    | push data =>
      rw [run, Reader.pushed, List.length_append, ← Nat.add_assoc]
      rcases push_cases h data with ⟨hp, ready, hheld⟩ | ⟨hlt, hp⟩
      · rw [hp, ← hheld]
        exact ih ready
      · rw [hp]
        exact .inr ⟨Nat.lt_add_right _ hlt, rfl⟩
    | message =>
      rw [run, Reader.pushed]
      rcases message_cases h with ⟨hm, ready, hheld⟩ | ⟨hlt, hm⟩
      · rw [hm]
        simp only [bind, Except.bind, pure, Except.pure]
        rcases ih ready with ⟨hr, ready⟩ | ⟨hlt, hr⟩
        · rw [hr]
          exact .inl ⟨rfl, ready⟩
        · rw [hr]
          exact .inr ⟨by omega, rfl⟩
      · rw [hm]
        exact .inr ⟨Nat.lt_add_right _ hlt, rfl⟩

/-- Where a reader can stand between two methods, whatever was pushed and whatever failed. -/
inductive Visits (server : Bool) (max : Nat) : Reader → Prop where
  | new : Visits server max (.new server max)
  | push {r r' data} (h : Visits server max r) (hp : push r data = .ok r') : Visits server max r'
  | frame {r r' res} (h : Visits server max r) (hf : frame r = .ok (r', res)) : Visits server max r'
  | assemble {r r' r'' f res} (h : Visits server max r) (hf : Guarded.frame r = .ok (r', .ok (some f)))
      (ha : assemble r' f = .ok (r'', res)) : Visits server max r''

theorem Visits.ready {server : Bool} {max : Nat} (h : Visits server max r) : Ready r := by
  induction h with
  | new => exact .new server max
  | push _ hp ih =>
    rcases push_cases ih _ with ⟨hq, ready, -⟩ | ⟨-, hq⟩
    · rw [hq] at hp
      cases hp
      exact ready
    · rw [hq] at hp
      cases hp
  | frame _ hf ih =>
    rw [frame_eq ih] at hf
    rcases ih.frame with ⟨e, h⟩ | h | ⟨r', f, h, -, ready, -⟩ <;> (rw [h] at hf; cases hf; assumption)
  | assemble _ hf ha ih =>
    rw [frame_eq ih] at hf
    obtain ⟨ready, taken⟩ := ih.of_frame (Except.ok.inj hf)
    rcases assemble_cases ready taken.range taken.stop with ⟨hq, ready, -⟩ | ⟨-, hq⟩
    · rw [hq] at ha
      cases ha
      exact ready
    · rw [hq] at ha
      cases ha

/-- The reader is total. No call crashes unless a vector outgrows the address space, which takes more
than `isize::MAX` pushed bytes, and no loop goes on: a frame takes two bytes at least. -/
theorem reader_total (server : Bool) (max : Nat) :
    (∀ r, Visits server max r →
      r.pos ≤ r.buf.length ∧ (∀ p, r.partialMsg = some p → p.checked ≤ p.data.length) ∧
      ∀ r' f, frame r = .ok (r', .ok (some f)) → r'.unread.length + 2 ≤ r.unread.length) ∧
    ∀ calls, run (.new server max) calls = .ok (perform (.new server max) calls) ∨
      isizeMax < (Reader.pushed calls).length ∧ run (.new server max) calls = .error .capacity := by
  refine ⟨fun r h => ⟨h.ready.pos, h.ready.checked, fun r' f hf => ?_⟩, fun calls => ?_⟩
  · rw [frame_eq h.ready] at hf
    have := (h.ready.of_frame (Except.ok.inj hf)).2.shorter
    omega
  · rcases run_cases calls (Ready.new server max) with ⟨hr, -⟩ | ⟨hlt, hr⟩
    · exact .inl hr
    · exact .inr ⟨by simpa [held, openSize, Reader.new, Reader.unread] using hlt, hr⟩

end Guarded

end WebSocket.Proto
