import WebSocket.Proto.Reader
import Mathlib.Data.List.GetD

/-!
# How the input is cut does not matter

The reader as an incremental decoder (`decoder`): its state is the open message,
its input the unread bytes, and one decision is one frame. Every check reads only
bytes that have arrived, so a decision is stable under more input, which is all
`Lib.Incremental` asks for.

`message_poll` connects the two: a call of `message` on a buffer with consumed,
unmasked bytes in front is a poll of the decoder on the unread ones. From there
`session_eq` follows: whatever the chunks and whenever `message` is called, the
messages and the first failure are those of the whole input read at once.
-/

namespace WebSocket.Proto

open Lib Lib.Incremental

/-! ## A header's checks are stable -/

theorem lenAt_append {b : Bytes} {r : Nat × Nat} (h2 : 2 ≤ b.length) (h : lenAt b = some r) (c : Bytes) :
    lenAt (b ++ c) = some r := by
  have h1 : (b ++ c).getD 1 0 = b.getD 1 0 := List.getD_append _ _ _ _ (by omega)
  unfold lenAt at h ⊢
  dsimp only at h ⊢
  rw [h1, List.length_append]
  split at h
  · rename_i hn
    rw [if_pos ⟨hn.1, by omega⟩, List.drop_append_of_le_length h2,
      List.take_append_of_le_length (by rw [List.length_drop]; omega)]
    exact h
  · rename_i hn
    split at h
    · rename_i hm
      rw [if_neg (by omega), if_pos ⟨hm.1, by omega⟩, List.drop_append_of_le_length h2,
        List.take_append_of_le_length (by rw [List.length_drop]; omega)]
      exact h
    · split at h
      · cases h
      · rename_i hk
        rw [if_neg (by omega), if_neg (by omega), if_neg hk]
        exact h

/-- The length field ends inside the input, after the two fixed bytes. -/
theorem lenAt_bounds {b : Bytes} {len at_ : Nat} (h2 : 2 ≤ b.length) (h : lenAt b = some (len, at_)) :
    2 ≤ at_ ∧ at_ ≤ b.length := by
  unfold lenAt at h
  dsimp only at h
  split at h
  · cases h; omega
  · split at h
    · cases h; omega
    · split at h
      · cases h
      · cases h; omega

theorem maskAt_append {masked : Bool} {b : Bytes} {at_ : Nat} {r : Option Key × Nat}
    (h : maskAt masked b at_ = some r) (c : Bytes) : maskAt masked (b ++ c) at_ = some r := by
  unfold maskAt at h ⊢
  split at h
  · rename_i hm
    rw [if_pos hm]
    split at h
    · cases h
    · rename_i hl
      rw [if_neg (by rw [List.length_append]; omega), List.getD_append _ _ _ _ (by omega),
        List.getD_append _ _ _ _ (by omega), List.getD_append _ _ _ _ (by omega),
        List.getD_append _ _ _ _ (by omega)]
      exact h
  · rename_i hm
    rw [if_neg hm]
    exact h

theorem maskAt_bounds {masked : Bool} {b : Bytes} {at_ start : Nat} {mask : Option Key}
    (hat : at_ ≤ b.length) (h : maskAt masked b at_ = some (mask, start)) :
    at_ ≤ start ∧ start ≤ b.length := by
  unfold maskAt at h
  split at h
  · split at h
    · cases h
    · cases h; omega
  · cases h; omega

/-- What `head` decided, check by check. -/
theorem head_cases {server : Bool} {max : Nat} {p : Option Partial} {b : Bytes} {r : Except Fail (Option Head)}
    (h : head server max p b = r) :
    (b.length < 2 ∧ r = .ok none) ∨
    2 ≤ b.length ∧
      ((∃ f, checkFirst server p.isSome (b.getD 0 0) (b.getD 1 0) = some f ∧ r = .error f) ∨
      checkFirst server p.isSome (b.getD 0 0) (b.getD 1 0) = none ∧
        ((lenAt b = none ∧ r = .ok none) ∨
        ∃ len at_, lenAt b = some (len, at_) ∧
          ((∃ f, checkLen max ((p.map (·.data.length)).getD 0) (b.getD 0 0 &&& 0x80 != 0) (b.getD 0 0 &&& 0x0F)
              len at_ = some f ∧ r = .error f) ∨
          checkLen max ((p.map (·.data.length)).getD 0) (b.getD 0 0 &&& 0x80 != 0) (b.getD 0 0 &&& 0x0F)
              len at_ = none ∧
            ((maskAt (b.getD 1 0 &&& 0x80 != 0) b at_ = none ∧ r = .ok none) ∨
            ∃ mask start, maskAt (b.getD 1 0 &&& 0x80 != 0) b at_ = some (mask, start) ∧
              r = .ok (some ⟨b.getD 0 0 &&& 0x80 != 0, b.getD 0 0 &&& 0x0F, mask, start, len⟩))))) := by
  subst h
  unfold head
  by_cases h2 : b.length < 2
  · exact .inl ⟨h2, if_pos h2⟩
  · refine .inr ⟨by omega, ?_⟩
    rw [if_neg h2]
    dsimp only
    cases hf : checkFirst server p.isSome (b.getD 0 0) (b.getD 1 0) with
    | some f => exact .inl ⟨f, rfl, rfl⟩
    | none =>
      refine .inr ⟨rfl, ?_⟩
      cases hl : lenAt b with
      | none => exact .inl ⟨rfl, rfl⟩
      | some r =>
        obtain ⟨len, at_⟩ := r
        refine .inr ⟨len, at_, rfl, ?_⟩
        cases hc : checkLen max ((p.map (·.data.length)).getD 0) (b.getD 0 0 &&& 0x80 != 0)
            (b.getD 0 0 &&& 0x0F) len at_ with
        | some f => exact .inl ⟨f, rfl, by simp only [hc]⟩
        | none =>
          refine .inr ⟨rfl, ?_⟩
          cases hm : maskAt (b.getD 1 0 &&& 0x80 != 0) b at_ with
          | none => exact .inl ⟨rfl, by simp only [hc, hm]⟩
          | some r => exact .inr ⟨r.1, r.2, rfl, by simp only [hc, hm]⟩

/-- A decision on a header stands whatever arrives behind it. -/
theorem head_append {server : Bool} {max : Nat} {p : Option Partial} {b : Bytes} {r : Except Fail (Option Head)}
    (h : head server max p b = r) (hr : r ≠ .ok none) (c : Bytes) : head server max p (b ++ c) = r := by
  rcases head_cases h with ⟨_, rfl⟩ | ⟨h2, h⟩
  · exact absurd rfl hr
  have g0 : (b ++ c).getD 0 0 = b.getD 0 0 := List.getD_append _ _ _ _ (by omega)
  have g1 : (b ++ c).getD 1 0 = b.getD 1 0 := List.getD_append _ _ _ _ (by omega)
  unfold head
  rw [if_neg (by rw [List.length_append]; omega)]
  dsimp only
  rw [g0, g1]
  rcases h with ⟨f, hf, rfl⟩ | ⟨hf, ⟨_, rfl⟩ | ⟨len, at_, hl, h⟩⟩
  · rw [hf]
  · exact absurd rfl hr
  rw [hf, lenAt_append h2 hl c]
  rcases h with ⟨f, hc, rfl⟩ | ⟨hc, ⟨_, rfl⟩ | ⟨mask, start, hm, rfl⟩⟩
  · simp only [hc]
  · exact absurd rfl hr
  · simp only [hc, maskAt_append hm c]

/-- A header lies inside the input. -/
theorem head_bounds {server : Bool} {max : Nat} {p : Option Partial} {b : Bytes} {h : Head}
    (hh : head server max p b = .ok (some h)) : 2 ≤ h.start ∧ h.start ≤ b.length := by
  rcases head_cases hh with ⟨_, h0⟩ | ⟨h2, ⟨f, _, h0⟩ | ⟨_, ⟨_, h0⟩ | ⟨len, at_, hl, ⟨f, _, h0⟩ | ⟨_, ⟨_, h0⟩ |
    ⟨mask, start, hm, h0⟩⟩⟩⟩⟩
  all_goals cases h0
  have hb := lenAt_bounds h2 hl
  have hs := maskAt_bounds hb.2 hm
  exact ⟨Nat.le_trans hb.1 hs.1, hs.2⟩

/-! ## The decoder -/

/-- A payload as it is read: unmasked under the header's key. -/
def unmasked (h : Head) (b : Bytes) : Bytes :=
  let payload := (b.drop h.start).take h.len
  match h.mask with
  | some key => applyMask payload key
  | none => payload

theorem unmasked_append {h : Head} {b : Bytes} (hs : h.start ≤ b.length) (hl : h.len ≤ b.length - h.start)
    (c : Bytes) : unmasked h (b ++ c) = unmasked h b := by
  unfold unmasked
  rw [List.drop_append_of_le_length hs, List.take_append_of_le_length (by rw [List.length_drop]; exact hl)]

/-- One frame off the front of the unread bytes. -/
def nextFrame (server : Bool) (max : Nat) (p : Option Partial) (b : Bytes) :
    Verdict (Option Partial) UInt8 Msg Fail :=
  match head server max p b with
  | .error f => .fail f
  | .ok none => .more
  | .ok (some h) =>
    if b.length - h.start < h.len then .more
    else
      match assemblePayload p h.fin h.op (unmasked h b) with
      | (_, .error f) => .fail f
      | (q, .ok out) => .item out q (b.drop (h.start + h.len))

/-- What one frame did: a failed header, a failed payload, or a consumed frame. -/
theorem nextFrame_cases {server : Bool} {max : Nat} {p : Option Partial} {b : Bytes}
    {v : Verdict (Option Partial) UInt8 Msg Fail} (hv : nextFrame server max p b = v) :
    v = .more ∨ (∃ f, head server max p b = .error f ∧ v = .fail f) ∨
      ∃ h, head server max p b = .ok (some h) ∧ h.len ≤ b.length - h.start ∧
        ((∃ q f, assemblePayload p h.fin h.op (unmasked h b) = (q, .error f) ∧ v = .fail f) ∨
        ∃ q out, assemblePayload p h.fin h.op (unmasked h b) = (q, .ok out) ∧
          v = .item out q (b.drop (h.start + h.len))) := by
  subst hv
  unfold nextFrame
  cases hh : head server max p b with
  | error f => exact .inr (.inl ⟨f, rfl, rfl⟩)
  | ok o =>
    cases o with
    | none => exact .inl rfl
    | some h =>
      dsimp only
      by_cases hl : b.length - h.start < h.len
      · exact .inl (if_pos hl)
      · refine .inr (.inr ⟨h, rfl, by omega, ?_⟩)
        rw [if_neg hl]
        cases ha : assemblePayload p h.fin h.op (unmasked h b) with
        | mk q res =>
          cases res with
          | error f => exact .inl ⟨q, f, rfl, rfl⟩
          | ok out => exact .inr ⟨q, out, rfl, rfl⟩

/-- The verdict on a whole frame. -/
theorem nextFrame_of_head {server : Bool} {max : Nat} {p : Option Partial} {b : Bytes} {h : Head}
    (hh : head server max p b = .ok (some h)) (hl : h.len ≤ b.length - h.start) :
    nextFrame server max p b = match assemblePayload p h.fin h.op (unmasked h b) with
      | (_, .error f) => .fail f
      | (q, .ok out) => .item out q (b.drop (h.start + h.len)) := by
  unfold nextFrame
  rw [hh]
  dsimp only
  rw [if_neg (by omega)]

/-- **The reader is an incremental decoder.** -/
def decoder (server : Bool) (max : Nat) : Decoder (Option Partial) UInt8 Msg Fail where
  next := nextFrame server max
  shrinks := by
    intro p b out q rest hv
    rcases nextFrame_cases hv with h0 | ⟨f, _, h0⟩ | ⟨h, hh, _, ⟨_, _, _, h0⟩ | ⟨_, _, _, h0⟩⟩
    all_goals cases h0
    have := head_bounds hh
    rw [List.length_drop]
    omega
  fail_append := by
    intro p b e hv c
    rcases nextFrame_cases hv with h0 | ⟨f, hh, h0⟩ | ⟨h, hh, hl, ⟨q, f, ha, h0⟩ | ⟨_, _, _, h0⟩⟩
    all_goals cases h0
    · unfold nextFrame
      rw [head_append hh (by simp) c]
    · have hb := head_bounds hh
      rw [nextFrame_of_head (head_append hh (by simp) c) (by rw [List.length_append]; omega),
        unmasked_append hb.2 hl, ha]
  item_append := by
    intro p b out q rest hv c
    rcases nextFrame_cases hv with h0 | ⟨f, _, h0⟩ | ⟨h, hh, hl, ⟨_, _, _, h0⟩ | ⟨_, _, ha, h0⟩⟩
    all_goals cases h0
    have hb := head_bounds hh
    rw [nextFrame_of_head (head_append hh (by simp) c) (by rw [List.length_append]; omega),
      unmasked_append hb.2 hl, ha, List.drop_append_of_le_length (by omega)]

theorem decoder_next (server : Bool) (max : Nat) (p : Option Partial) (b : Bytes) :
    (decoder server max).next p b = nextFrame server max p b := rfl

/-! ## The reader polls the decoder -/

namespace Reader

/-- The reader stands before the unread bytes `b` with the open message `p`. -/
structure At (r : Reader) (server : Bool) (max : Nat) (p : Option Partial) (b : Bytes) : Prop where
  server : r.server = server
  max : r.max = max
  partialMsg : r.partialMsg = p
  unread : r.unread = b
  pos : r.pos ≤ r.buf.length

theorem new_at (server : Bool) (max : Nat) : (new server max).At server max none [] :=
  ⟨rfl, rfl, rfl, rfl, Nat.le_refl _⟩

variable {r : Reader} {server : Bool} {max : Nat} {p : Option Partial} {b : Bytes}

/-- Compacting keeps the unread bytes, and a push appends to them. -/
theorem At.push (h : r.At server max p b) (c : Bytes) : (r.push c).At server max p (b ++ c) := by
  obtain ⟨hs, hm, hp, hu, hpos⟩ := h
  unfold Reader.push input
  unfold Reader.unread at hu
  split
  · exact ⟨hs, hm, hp, by simp only [Reader.unread, List.drop_zero, hu], Nat.zero_le _⟩
  · refine ⟨hs, hm, hp, ?_, ?_⟩
    · simp only [Reader.unread]
      rw [List.drop_append_of_le_length hpos, hu]
    · simp only [List.length_append]
      omega

theorem length_unmask {buf : Bytes} {start stop : Nat} {key : Key} (h1 : start ≤ stop) (h2 : stop ≤ buf.length) :
    (unmask buf start stop key).length = buf.length := by
  simp only [unmask, List.length_append, List.length_take, length_applyMask, List.length_drop]
  omega

theorem drop_unmask {buf : Bytes} {start stop : Nat} {key : Key} (h1 : start ≤ stop) (h2 : stop ≤ buf.length) :
    (unmask buf start stop key).drop stop = buf.drop stop := by
  have hlen : (buf.take start ++ applyMask ((buf.take stop).drop start) key).length = stop := by
    simp only [List.length_append, List.length_take, length_applyMask, List.length_drop]
    omega
  unfold unmask
  rw [List.drop_append_of_le_length (by omega), List.drop_of_length_le (by omega), List.nil_append]

/-- The payload between `start` and `stop` after unmasking in place. -/
theorem slice_unmask {buf : Bytes} {start stop : Nat} {key : Key} (h1 : start ≤ stop) (h2 : stop ≤ buf.length) :
    ((unmask buf start stop key).take stop).drop start = applyMask ((buf.take stop).drop start) key := by
  have hlen : (buf.take start ++ applyMask ((buf.take stop).drop start) key).length = stop := by
    simp only [List.length_append, List.length_take, length_applyMask, List.length_drop]
    omega
  unfold unmask
  rw [List.take_append_of_le_length (by omega), List.take_of_length_le (by omega),
    List.drop_append_of_le_length (by rw [List.length_take]; omega),
    List.drop_of_length_le (by rw [List.length_take]; omega), List.nil_append]

/-- What `frame` does at the unread bytes `b`: nothing, or it steps over one whole frame and leaves
its payload unmasked in the buffer. -/
theorem At.frame (h : r.At server max p b) :
    (∃ f, head server max p b = .error f ∧ r.frame = (r, .error f)) ∨
    (nextFrame server max p b = .more ∧ r.frame = (r, .ok none)) ∨
    ∃ hd r' f, head server max p b = .ok (some hd) ∧ hd.len ≤ b.length - hd.start ∧
      r.frame = (r', .ok (some f)) ∧ f.fin = hd.fin ∧ f.op = hd.op ∧
      (r'.buf.take f.stop).drop f.start = unmasked hd b ∧
      r'.At server max p (b.drop (hd.start + hd.len)) := by
  obtain ⟨rfl, rfl, rfl, rfl, hpos⟩ := h
  unfold Reader.frame nextFrame
  dsimp only
  rw [show r.buf.drop r.pos = r.unread from rfl]
  cases hh : head r.server r.max r.partialMsg r.unread with
  | error f => exact .inl ⟨f, rfl, rfl⟩
  | ok o =>
    cases o with
    | none => exact .inr (.inl ⟨rfl, rfl⟩)
    | some hd =>
      dsimp only
      by_cases hl : r.unread.length - hd.start < hd.len
      · exact .inr (.inl ⟨if_pos hl, if_pos hl⟩)
      · have hb := head_bounds hh
        have hlen : r.unread.length = r.buf.length - r.pos := List.length_drop
        have hstop : r.pos + hd.start + hd.len ≤ r.buf.length := by omega
        have hslice : (r.buf.take (r.pos + hd.start + hd.len)).drop (r.pos + hd.start) =
            (r.unread.drop hd.start).take hd.len := by
          rw [List.drop_take, Reader.unread, List.drop_drop]
          congr 1
          omega
        have hle : r.pos + hd.start ≤ r.pos + hd.start + hd.len := Nat.le_add_right _ _
        rw [if_neg hl]
        refine .inr (.inr ⟨hd, _, _, rfl, by omega, rfl, rfl, rfl, ?_, ⟨rfl, rfl, rfl, ?_, ?_⟩⟩)
        · unfold unmasked
          cases hd.mask with
          | none => exact hslice
          | some key => rw [slice_unmask hle hstop, hslice]
        · have hdrop : r.buf.drop (r.pos + hd.start + hd.len) = r.unread.drop (hd.start + hd.len) := by
            rw [Reader.unread, List.drop_drop, Nat.add_assoc]
          cases hd.mask with
          | none => exact hdrop
          | some key => exact (drop_unmask hle hstop).trans hdrop
        · cases hd.mask with
          | none => exact hstop
          | some key => exact (length_unmask hle hstop).symm ▸ hstop

/-- What a call of `message` is, in terms of the decoder's poll. -/
def Polls (server : Bool) (max : Nat) : Decoder.Poll (Option Partial) UInt8 Msg Fail →
    Reader × Except Fail (Option Msg) → Prop
  | .fail f, res => res.2 = .error f
  | .idle p b, res => res.2 = .ok none ∧ res.1.At server max p b
  | .out m p b, res => res.2 = .ok (some m) ∧ res.1.At server max p b

theorem messageWith_polls : ∀ (fuel : Nat) (r : Reader) (p : Option Partial) (b : Bytes),
    r.At server max p b → Polls server max ((decoder server max).pollWith fuel p b) (messageWith fuel r)
  | 0, _, _, _, h => ⟨rfl, h⟩
  | fuel + 1, r, p, b, h => by
    rw [Decoder.pollWith, messageWith]
    rw [decoder_next]
    rcases h.frame with ⟨f, hh, hf⟩ | ⟨hm, hf⟩ | ⟨hd, r', f, hh, hl, hf, hfin, hop, hpay, hat⟩
    · rw [hf, nextFrame, hh]
      rfl
    · rw [hf, hm]
      exact ⟨rfl, h⟩
    · rw [hf, nextFrame_of_head hh hl]
      have hasm : r'.assemble f = ({ r' with partialMsg := (assemblePayload p hd.fin hd.op (unmasked hd b)).1 },
          (assemblePayload p hd.fin hd.op (unmasked hd b)).2) := by
        unfold assemble
        dsimp only
        rw [hat.partialMsg, hfin, hop, hpay]
      dsimp only
      rw [hasm]
      -- the frame's payload decides: an error, a message, or a fragment and the next frame
      cases ha : assemblePayload p hd.fin hd.op (unmasked hd b) with
      | mk q res =>
        have hat' : ({ r' with partialMsg := q } : Reader).At server max q (b.drop (hd.start + hd.len)) :=
          ⟨hat.server, hat.max, rfl, hat.unread, hat.pos⟩
        cases res with
        | error f => rfl
        | ok out =>
          cases out with
          | none => exact messageWith_polls fuel _ q _ hat'
          | some m => exact ⟨rfl, hat'⟩

/-- **A call of `message` is a poll of the decoder on the unread bytes.** -/
theorem At.message (h : r.At server max p b) :
    Polls server max ((decoder server max).poll p b) r.message := by
  have := messageWith_polls (r.unread.length + 1) r p b h
  rw [h.unread] at this
  unfold Reader.message
  rw [h.unread]
  exact this

/-! ## Schedules -/

/-- What the owner of a reader does with it. -/
inductive Call where
  | push (chunk : Bytes)
  | message
  deriving DecidableEq, Repr

/-- The bytes a schedule pushes, in order. -/
def pushed : List Call → Bytes
  | [] => []
  | .push c :: cs => c ++ pushed cs
  | .message :: cs => pushed cs

/-- A schedule up to its end or the first failure: the reader, the messages and the failure. -/
def run : Reader → List Call → Reader × List Msg × Option Fail
  | r, [] => (r, [], none)
  | r, .push c :: cs => run (r.push c) cs
  | r, .message :: cs =>
    match r.message with
    | (r, .error f) => (r, [], some f)
    | (r, .ok none) => run r cs
    | (r, .ok (some m)) =>
      let t := run r cs
      (t.1, m :: t.2.1, t.2.2)

def drainWith : Nat → Reader → Reader × List Msg × Option Fail
  | 0, r => (r, [], none)
  | fuel + 1, r =>
    match r.message with
    | (r, .error f) => (r, [], some f)
    | (r, .ok none) => (r, [], none)
    | (r, .ok (some m)) =>
      let t := drainWith fuel r
      (t.1, m :: t.2.1, t.2.2)

/-- Call `message` until it fails or returns `Ok(None)`. A message takes at least two bytes, so
the unread ones bound the calls. -/
def drain (r : Reader) : Reader × List Msg × Option Fail := drainWith (r.unread.length + 1) r

/-- A schedule that, unless it fails, drains the reader at the end. -/
def session (r : Reader) (calls : List Call) : Reader × List Msg × Option Fail :=
  let t := r.run calls
  match t.2.2 with
  | some f => (t.1, t.2.1, some f)
  | none =>
    let d := t.1.drain
    (d.1, t.2.1 ++ d.2.1, d.2.2)

/-- The decoder's outcome as a drain reports it. -/
def Reports (server : Bool) (max : Nat) (o : Decoder.Outcome (Option Partial) UInt8 Msg Fail)
    (res : Reader × List Msg × Option Fail) : Prop :=
  res.2.1 = o.1 ∧
    match o.2 with
    | .error f => res.2.2 = some f
    | .ok (p, b) => res.2.2 = none ∧ res.1.At server max p b

theorem Reports.cons {o : Decoder.Outcome (Option Partial) UInt8 Msg Fail} {res : Reader × List Msg × Option Fail}
    (h : Reports server max o res) (m : Msg) :
    Reports server max (m :: o.1, o.2) (res.1, m :: res.2.1, res.2.2) :=
  ⟨by rw [h.1], h.2⟩

theorem drainWith_reports : ∀ (fuel : Nat) (r : Reader) (p : Option Partial) (b : Bytes),
    r.At server max p b → b.length < fuel →
    Reports server max ((decoder server max).drain p b) (drainWith fuel r)
  | 0, _, _, _, _, h => absurd h (by omega)
  | fuel + 1, r, p, b, hat, hfuel => by
    have hm := hat.message
    have hpoll := (decoder server max).drain_poll p b
    rw [drainWith]
    cases hp : (decoder server max).poll p b with
    | fail f =>
      rw [hp] at hm hpoll
      rw [hpoll]
      rcases hres : r.message with ⟨r', res⟩
      rw [hres] at hm
      obtain rfl : res = .error f := hm
      exact ⟨rfl, rfl⟩
    | idle q c =>
      rw [hp] at hm hpoll
      rw [hpoll]
      rcases hres : r.message with ⟨r', res⟩
      rw [hres] at hm
      obtain ⟨rfl, hat'⟩ : res = .ok none ∧ _ := hm
      exact ⟨rfl, rfl, hat'⟩
    | out m q c =>
      rw [hp] at hm hpoll
      rw [hpoll]
      rcases hres : r.message with ⟨r', res⟩
      rw [hres] at hm
      obtain ⟨rfl, hat'⟩ : res = .ok (some m) ∧ _ := hm
      have hlt := (decoder server max).poll_out_shrinks hp
      exact (drainWith_reports fuel r' q c hat' (by omega)).cons m

theorem At.drain (h : r.At server max p b) :
    Reports server max ((decoder server max).drain p b) r.drain := by
  unfold Reader.drain
  rw [h.unread]
  exact drainWith_reports _ r p b h (Nat.lt_succ_self _)

/-- A schedule reports what the decoder makes of the unread bytes and everything pushed. -/
theorem At.session : ∀ (calls : List Call) (r : Reader) (p : Option Partial) (b : Bytes),
    r.At server max p b →
    Reports server max ((decoder server max).drain p (b ++ pushed calls)) (r.session calls)
  | [], r, p, b, h => by
    rw [pushed, List.append_nil]
    simpa only [Reader.session, run, List.nil_append] using h.drain
  | .push c :: cs, r, p, b, h => by
    rw [pushed, ← List.append_assoc]
    exact At.session cs (r.push c) p (b ++ c) (h.push c)
  | .message :: cs, r, p, b, h => by
    have hm := h.message
    rw [pushed, Reader.session, run]
    rcases hres : r.message with ⟨r', res⟩
    rw [hres] at hm
    cases hp : (decoder server max).poll p b with
    | fail f =>
      rw [hp] at hm
      obtain rfl : res = .error f := hm
      rw [(decoder server max).drain_of_fail hp]
      exact ⟨rfl, rfl⟩
    | idle q c =>
      rw [hp] at hm
      obtain ⟨rfl, hat⟩ : res = .ok none ∧ _ := hm
      rw [(decoder server max).drain_of_idle hp]
      exact At.session cs r' q c hat
    | out m q c =>
      rw [hp] at hm
      obtain ⟨rfl, hat⟩ : res = .ok (some m) ∧ _ := hm
      rw [(decoder server max).drain_of_out hp]
      have := (At.session cs r' q c hat).cons m
      unfold Reader.session at this
      dsimp only at this ⊢
      split at this <;> exact this

/-- A drain that did not fail stands where `message` finds nothing more. -/
theorem Reports.settled {o : Decoder.Outcome (Option Partial) UInt8 Msg Fail} {res : Reader × List Msg × Option Fail}
    (h : Reports server max o res) (ho : ∀ p b, o.2 = .ok (p, b) → nextFrame server max p b = .more)
    (hnone : res.2.2 = none) : res.1.message.2 = .ok none := by
  obtain ⟨-, h⟩ := h
  cases hres : o.2 with
  | error f => rw [hres, hnone] at h; cases h
  | ok s =>
    rw [hres] at h
    have hidle := (decoder server max).poll_more (ho s.1 s.2 hres)
    have hm := h.2.message
    rw [hidle] at hm
    exact hm.1

/-- **Chunking independence.** Whatever the chunks and whenever `message` is called in between, a
schedule that stops at the first failure and otherwise drains the reader returns the messages and
the outcome of the same bytes pushed whole into a fresh reader and drained; and a schedule that did
not fail has come to `Ok(None)`. -/
theorem session_eq_whole (server : Bool) (max : Nat) (calls : List Call) :
    ((new server max).session calls).2 = ((new server max).push (pushed calls)).drain.2 ∧
      (((new server max).session calls).2.2 = none →
        ((new server max).session calls).1.message.2 = .ok none) := by
  have hcuts := At.session calls _ _ _ (new_at server max)
  have hwhole := ((new_at server max).push (pushed calls)).drain
  refine ⟨?_, hcuts.settled fun p b h => (decoder server max).drain_left h⟩
  obtain ⟨hm, hf⟩ := hcuts
  obtain ⟨hm', hf'⟩ := hwhole
  refine Prod.ext (hm.trans hm'.symm) ?_
  cases hres : ((decoder server max).drain none ([] ++ pushed calls)).2 with
  | error f =>
    rw [hres] at hf hf'
    exact hf.trans hf'.symm
  | ok s =>
    rw [hres] at hf hf'
    exact hf.1.trans hf'.1.symm

end Reader

end WebSocket.Proto
