import WebSocket.Net.Heard
import WebSocket.Proto.Bounds

/-!
# What one read can bring

A read hands the reader at most `READ_CHUNK` bytes, but one byte can complete a long message and
each of the others can be half of an empty frame. `burst` is what `deliver` charges for the
messages of a read.

A frame has a header of two bytes, so the messages decoded from `b` cost at most thirty-two for each
byte of `b`, beside the message that was open (`burst_drain_le`). Of a reader that waits for more,
the bytes it holds belong to one frame; that frame is within the limit of the open message, or a
control frame (`burst_push_le`).
-/

namespace WebSocket.Net

open Proto Lib.Incremental

/-- What `deliver` adds to the inbox for a message; a close is not delivered. -/
def charge : Msg → Nat
  | .text data | .binary data | .ping data | .pong data => data.length + EVENT_COST
  | .close _ => 0

def burst (ms : List Msg) : Nat := (ms.map charge).sum

section Frames

variable {server : Bool} {max : Nat} {p q : Option Partial} {b rest : Bytes} {out : Option Msg}

/-! ## One frame -/

theorem length_bytes_ge (w : Wire) : w.payload.length + 2 ≤ w.bytes.length := by
  rw [Wire.bytes_eq, lenField_eq, List.length_cons, List.length_append, List.length_cons, length_body]
  omega

/-- A consumed frame. -/
theorem item_frame (h : nextFrame server max p b = .item out q rest) :
    ∃ w, Admits server max p w ∧ b = w.bytes ++ rest ∧ assemblePayload p w.fin w.op w.payload = (q, .ok out) := by
  rcases nextFrame_cases h with h0 | ⟨f, -, h0⟩ | ⟨hd, hh, hl, ⟨_, _, -, h0⟩ | ⟨_, _, ha, h0⟩⟩
  all_goals cases h0
  obtain ⟨w, hw, hb, hfin, hop, hpay⟩ := bytes_of_head hh hl
  exact ⟨w, hw, hb, by rw [hfin, hop, hpay]; exact ha⟩

/-- What becomes of a payload: a control frame is a message of its own, any other joins the open message, which
stays open or is complete. -/
theorem assemblePayload_charge {fin : Bool} {op : UInt8} {payload : Bytes} (known : knownOp op = true)
    (h : assemblePayload p fin op payload = (q, .ok out)) :
    (CLOSE ≤ op ∧ q = p ∧ ∃ m, out = some m ∧ charge m ≤ payload.length + EVENT_COST) ∨
      ¬ CLOSE ≤ op ∧
        (out = none ∧ openSize q = openSize p + payload.length ∨
          q = none ∧ ∃ m, out = some m ∧ charge m = openSize p + payload.length + EVENT_COST) := by
  have data (hop : op = TEXT ∨ op = BINARY ∨ op = CONTINUATION) :
      out = none ∧ openSize q = openSize p + payload.length ∨
        q = none ∧ ∃ m, out = some m ∧ charge m = openSize p + payload.length + EVENT_COST := by
    rw [assemblePayload_data payload hop] at h
    have size := Guarded.openSize_extendPartial p op payload
    cases hc : checkText fin (extendPartial p op payload) with
    | none => rw [hc] at h; cases h
    | some r =>
      rw [hc] at h
      rw [← checkText_data hc] at size
      dsimp only at h
      split at h
      · cases h
        exact .inl ⟨rfl, size⟩
      · cases h
        refine .inr ⟨rfl, _, rfl, ?_⟩
        rw [← size, msgOf]
        split <;> rfl
  rcases knownOp_iff.mp known with rfl | rfl | rfl | rfl | rfl | rfl
  · exact .inr ⟨by decide, data (.inr (.inr rfl))⟩
  · exact .inr ⟨by decide, data (.inl rfl)⟩
  · exact .inr ⟨by decide, data (.inr (.inl rfl))⟩
  · rw [assemblePayload_close] at h
    cases hc : close payload with
    | error f => rw [hc] at h; cases h
    | ok m =>
      rw [hc] at h
      cases h
      obtain ⟨status, -, rfl⟩ := close_ok_iff.mp hc
      exact .inl ⟨by decide, rfl, _, rfl, Nat.zero_le _⟩
  · rw [assemblePayload_ping] at h
    cases h
    exact .inl ⟨by decide, rfl, _, rfl, Nat.le_refl _⟩
  · rw [assemblePayload_pong] at h
    cases h
    exact .inl ⟨by decide, rfl, _, rfl, Nat.le_refl _⟩

/-- What a frame completes and what it leaves open cost no more than what was open and the frame itself. -/
theorem charge_add_openSize_le {payload : Bytes} {fin : Bool} {op : UInt8} (known : knownOp op = true)
    (h : assemblePayload p fin op payload = (q, .ok out)) :
    burst out.toList + openSize q ≤ openSize p + payload.length + EVENT_COST := by
  rcases assemblePayload_charge known h with ⟨-, rfl, m, rfl, hm⟩ | ⟨-, ⟨rfl, hq⟩ | ⟨rfl, m, rfl, hm⟩⟩
  · show charge m + 0 + openSize q ≤ _
    omega
  · show 0 + openSize q ≤ _
    omega
  · show charge m + 0 + 0 ≤ _
    omega

/-- The limit holds for the open message with the frame, up to the size of any vector. -/
theorem size_le_max {w : Wire} (hw : Admits server max p w) (data : ¬ CLOSE ≤ w.op)
    (vec : openSize p + w.payload.length ≤ usizeMax) : openSize p + w.payload.length ≤ max := by
  rw [Nat.add_comm] at vec ⊢
  exact length_of_saturatingAdd_le (hw.size data) vec

/-- A message is within the limit, or it is a control frame's. -/
theorem charge_le_of_item {m : Msg} (h : nextFrame server max p b = .item (some m) q rest)
    (vec : charge m ≤ usizeMax) : charge m ≤ max + 125 + EVENT_COST := by
  obtain ⟨w, hw, -, ha⟩ := item_frame h
  rcases assemblePayload_charge hw.known ha with ⟨control, -, m', hm', hm⟩ | ⟨data, ⟨hm', -⟩ | ⟨-, m', hm', hm⟩⟩
  · cases hm'
    have := (hw.control control).2
    omega
  · cases hm'
  · cases hm'
    have := size_le_max hw data (by omega)
    omega

/-! ## A stretch of input -/

theorem burst_append (a c : List Msg) : burst (a ++ c) = burst a + burst c := by
  rw [burst, List.map_append, List.sum_append, burst, burst]

theorem burst_drain_le (p : Option Partial) (b : Bytes) :
    burst ((decoder server max).drain p b).1 ≤ openSize p + 32 * b.length := by
  induction p, b using (decoder server max).induct with
  | more p b h =>
    rw [Decoder.drain_more _ h]
    exact Nat.zero_le _
  | fail p b e h =>
    rw [Decoder.drain_fail _ h]
    exact Nat.zero_le _
  | item p b out q rest h ih =>
    rw [Decoder.drain_item _ h]
    obtain ⟨w, hw, rfl, ha⟩ := item_frame h
    have frame := charge_add_openSize_le hw.known ha
    have header := length_bytes_ge w
    rw [Decoder.emit, burst_append, List.length_append]
    unfold EVENT_COST at frame
    omega

/-- A frame that was waited for ends in what came behind. -/
theorem length_rest_le {u c : Bytes} (waits : nextFrame server max p u = .more)
    (h : nextFrame server max p (u ++ c) = .item out q rest) : rest.length ≤ c.length := by
  obtain ⟨w, hw, hb, -⟩ := item_frame h
  refine Nat.le_of_not_lt fun hlt => ?_
  have short : w.bytes.length ≤ u.length := by
    have := congrArg List.length hb
    rw [List.length_append, List.length_append] at this
    omega
  obtain ⟨u', rfl⟩ : w.bytes <+: u :=
    List.prefix_of_prefix_length_le (hb ▸ List.prefix_append w.bytes rest) (List.prefix_append u c) short
  rw [nextFrame_bytes hw, verdict] at waits
  split at waits <;> cases waits

/-- What a waiting reader makes of a read. -/
theorem burst_push_le {u c : Bytes} (waits : nextFrame server max p u = .more) (vec : openSize p ≤ isizeMax)
    (within : openSize p ≤ max) :
    burst ((decoder server max).drain p (u ++ c)).1 ≤ max + 125 + EVENT_COST + 32 * c.length := by
  cases h : (decoder server max).next p (u ++ c) with
  | more =>
    rw [Decoder.drain_more _ h]
    exact Nat.zero_le _
  | fail e =>
    rw [Decoder.drain_fail _ h]
    exact Nat.zero_le _
  | item out q rest =>
    have behind := length_rest_le waits h
    have later := @burst_drain_le server max q rest
    obtain ⟨w, hw, -, ha⟩ := item_frame h
    rw [Decoder.drain_item _ h, Decoder.emit, burst_append]
    rcases assemblePayload_charge hw.known ha with ⟨control, rfl, m, rfl, hm⟩ | ⟨data, ⟨rfl, hq⟩ | ⟨rfl, m, rfl, hm⟩⟩
    · have := (hw.control control).2
      show charge m + 0 + _ ≤ _
      omega
    all_goals
      have short := hw.short
      have := size_le_max hw data (by unfold isizeMax at vec; unfold usizeMax; omega)
    · show 0 + _ ≤ _
      omega
    · show charge m + 0 + _ ≤ _
      have : openSize none = 0 := rfl
      omega

end Frames

/-! ## A call of the reader -/

/-- The open message is within the limit, up to the size of any vector. -/
def Fits (max : Nat) (p : Option Partial) : Prop := openSize p ≤ usizeMax → openSize p ≤ max

section Calls

variable {server : Bool} {max : Nat} {p q : Option Partial} {b rest : Bytes} {out : Option Msg} {r r' : Reader} {m : Msg}

theorem Fits.item (hp : Fits max p) (h : nextFrame server max p b = .item out q rest) : Fits max q := by
  obtain ⟨w, hw, -, ha⟩ := item_frame h
  rcases assemblePayload_charge hw.known ha with ⟨-, rfl, -⟩ | ⟨data, ⟨-, hq⟩ | ⟨rfl, -⟩⟩
  · exact hp
  · intro vec
    rw [hq] at vec ⊢
    exact size_le_max hw data vec
  · exact fun _ => Nat.zero_le _

/-- The open message that a poll leaves. -/
theorem Fits.poll (hp : Fits max p)
    (h : (decoder server max).poll p b = .idle q rest ∨ ∃ m, (decoder server max).poll p b = .out m q rest) :
    Fits max q := by
  induction p, b using (decoder server max).induct with
  | more p b hm =>
    rw [Decoder.poll_more _ hm] at h
    rcases h with h | ⟨m, h⟩ <;> cases h
    exact hp
  | fail p b e hf =>
    rw [Decoder.poll_fail _ hf] at h
    rcases h with h | ⟨m, h⟩ <;> cases h
  | item p b out p' rest' hi ih =>
    cases out with
    | none =>
      rw [Decoder.poll_none _ hi] at h
      exact ih (hp.item hi) h
    | some m' =>
      rw [Decoder.poll_some _ hi] at h
      rcases h with h | ⟨m, h⟩ <;> cases h
      exact hp.item hi

/-- A reader without a message waits for more of one frame. -/
theorem message_waits (h : r.Standing server max) (fits : Fits max r.partialMsg) (hm : r.message = (r', .ok none)) :
    nextFrame server max r'.partialMsg r'.unread = .more ∧ Fits max r'.partialMsg := by
  obtain ⟨p, b, h⟩ := h
  have hp := h.message
  rw [hm] at hp
  rw [h.partialMsg] at fits
  cases hd : (decoder server max).poll p b with
  | fail f => rw [hd] at hp; cases hp
  | out m p' b' => rw [hd] at hp; cases hp.1
  | idle p' b' =>
    rw [hd] at hp
    rw [hp.2.partialMsg, hp.2.unread]
    exact ⟨Decoder.poll_idle _ hd, fits.poll (.inl hd)⟩

theorem message_charge (h : r.Standing server max) (fits : Fits max r.partialMsg) (hm : r.message = (r', .ok (some m))) :
    (charge m ≤ usizeMax → charge m ≤ max + 125 + EVENT_COST) ∧ Fits max r'.partialMsg := by
  obtain ⟨p, b, h⟩ := h
  have hp := h.message
  rw [hm] at hp
  rw [h.partialMsg] at fits
  cases hd : (decoder server max).poll p b with
  | fail f => rw [hd] at hp; cases hp
  | idle p' b' => rw [hd] at hp; cases hp.1
  | out m' p' b' =>
    rw [hd] at hp
    obtain ⟨hmm, hat⟩ := hp
    cases hmm
    rw [hat.partialMsg]
    obtain ⟨t, c, hi⟩ := Decoder.exists_next_of_poll_out _ hd
    exact ⟨charge_le_of_item hi, fits.poll (.inr ⟨m, hd⟩)⟩

end Calls

end WebSocket.Net
