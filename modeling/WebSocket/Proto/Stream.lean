import WebSocket.Proto.Grammar

/-!
# Streams of whole frames

A link never fragments: every frame it sends is one message. Here is what a reader makes
of a stream of such frames, cut after any byte: the messages of the frames that are
complete, and no failure.
-/

namespace WebSocket.Proto

open Lib Lib.Incremental

/-- The message a whole frame carries. -/
def Wire.msg (w : Wire) : Msg :=
  if w.op = PING then .ping w.payload
  else if w.op = PONG then .pong w.payload
  else if w.op = CLOSE then (close w.payload).toOption.getD (.close none)
  else msgOf w.op w.payload

/-- A frame that a reader of the given role and limit takes as one message. -/
structure Wire.Whole (server : Bool) (max : Nat) (w : Wire) : Prop where
  fin : w.fin = true
  masked : w.mask.isSome = server
  kind : (w.op = PING ∨ w.op = PONG) ∧ w.payload.length ≤ 125 ∨
    (w.op = CLOSE ∧ w.payload.length ≤ 125 ∧ ∃ status, CloseStatus w.payload status) ∨
    (w.op = TEXT ∨ w.op = BINARY) ∧ WholeMsg max w.op w.payload ∧ w.payload.length < 2 ^ 63

theorem Wire.msg_close {w : Wire} {status : Option (UInt16 × Str)} (hop : w.op = CLOSE)
    (h : CloseStatus w.payload status) : w.msg = .close status := by
  rw [Wire.msg, hop, close_ok_iff.mpr ⟨status, h, rfl⟩]
  rfl

theorem Wire.msg_data {w : Wire} (hop : w.op = TEXT ∨ w.op = BINARY) : w.msg = msgOf w.op w.payload := by
  obtain ⟨-, -, -, h1, h2, h3⟩ := known_data hop
  rw [Wire.msg, if_neg h1, if_neg h2, if_neg h3]

/-- A whole frame is read back as its message, whatever follows it. -/
theorem nextFrame_whole {server : Bool} {max : Nat} {w : Wire} (h : w.Whole server max) (rest : Bytes) :
    nextFrame server max none (w.bytes ++ rest) = .item (some w.msg) none rest := by
  obtain ⟨hfin, hmask, hkind⟩ := h
  obtain ⟨fin, op, payload, mask⟩ := w
  obtain rfl : fin = true := hfin
  rcases hkind with ⟨hop, hl⟩ | ⟨hop, hl, status, hs⟩ | ⟨hop, hw, hb⟩
  · rcases hop with hop | hop
    · obtain rfl : op = PING := hop
      rw [nextFrame_bytes (admits_control (.inr (.inl rfl)) hmask hl)]
      rfl
    · obtain rfl : op = PONG := hop
      rw [nextFrame_bytes (admits_control (.inr (.inr rfl)) hmask hl)]
      rfl
  · obtain rfl : op = CLOSE := hop
    rw [nextFrame_bytes (admits_control (.inl rfl) hmask hl), verdict, assemblePayload_close,
      close_ok_iff.mpr ⟨status, hs, rfl⟩, Wire.msg_close rfl hs]
    rfl
  · rw [nextFrame_bytes (admits_start hop hmask hw.size hb),
      verdict_last openSound_none (hop.imp id .inl) (fun _ => hop) rfl hw, Wire.msg_data hop]
    rfl

/-- The frames that end within the first `n` bytes of a stream. -/
def complete (n : Nat) (ws : List Wire) : List Wire := Decoder.complete Wire.bytes n ws

/-- A beginning of a stream of whole frames: the messages of its complete frames. -/
theorem drain_whole {server : Bool} {max : Nat} {ws : List Wire} (h : ∀ w ∈ ws, w.Whole server max) (n : Nat) :
    ∃ rest, (decoder server max).drain none ((ws.flatMap Wire.bytes).take n) =
      ((complete n ws).map Wire.msg, .ok (none, rest)) :=
  (decoder server max).drain_take ws n (fun w hw rest => nextFrame_whole (h w hw) rest) rfl

/-- The whole stream: the messages of all its frames. -/
theorem drain_all {server : Bool} {max : Nat} {ws : List Wire} (h : ∀ w ∈ ws, w.Whole server max) :
    ∃ rest, (decoder server max).drain none (ws.flatMap Wire.bytes) = (ws.map Wire.msg, .ok (none, rest)) := by
  obtain ⟨rest, hd⟩ := drain_whole h (ws.flatMap Wire.bytes).length
  rw [List.take_length, complete, Decoder.complete_all] at hd
  exact ⟨rest, hd⟩

/-- However that beginning is cut into chunks, a reader decodes those messages and does not fail. -/
theorem Reader.session_whole {server : Bool} {max : Nat} {ws : List Wire} (h : ∀ w ∈ ws, w.Whole server max)
    {b : Bytes} (hb : b <+: ws.flatMap Wire.bytes) {calls : List Reader.Call} (hc : Reader.pushed calls = b) :
    ((Reader.new server max).session calls).2 = ((complete b.length ws).map Wire.msg, none) := by
  obtain ⟨rest, hd⟩ := drain_whole h b.length
  rw [← List.prefix_iff_eq_take.mp hb] at hd
  have hr := Reader.At.session calls _ _ _ (Reader.new_at server max)
  rw [List.nil_append, hc, hd] at hr
  exact Prod.ext hr.1 hr.2.1

end WebSocket.Proto
