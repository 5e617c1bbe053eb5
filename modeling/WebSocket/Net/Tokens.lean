import WebSocket.Net.Outbox

/-!
# What the queue carries

Queue entries may be joined, split over writes and swapped in batches; what never changes
is the stream they stand for. `Token` is one element of it: a byte, marked when it belongs
to a heartbeat, or the `Shutdown` request. An enqueue appends the tokens of one frame
(`pushFrame_live`, `pushHeartbeat_live`, `pushShutdown_live`), or does nothing
(`pushFrame_dead` and its kin) when there is no transport or the writer was stopped.
-/

namespace WebSocket.Net

open Proto

inductive Token where
  | byte (b : UInt8) (beat : Bool)
  | shutdown
  deriving DecidableEq

def tokens (beat : Bool) (b : Bytes) : List Token := b.map (.byte · beat)

def Token.byte? : Token → Option UInt8
  | .byte b _ => some b
  | .shutdown => none

def tokenBytes (ts : List Token) : Bytes := ts.filterMap Token.byte?

def Item.tokens : Item → List Token
  | .data b => Net.tokens false b
  | .heartbeat b _ => Net.tokens true b
  | .shutdown => [.shutdown]

def Entry.tokens : Entry → List Token
  | .frame kind w => Net.tokens (kind == .heartbeat) w.bytes
  | .shutdown => [.shutdown]

def itemTokens (items : List Item) : List Token := items.flatMap Item.tokens

def entryTokens (es : List Entry) : List Token := es.flatMap Entry.tokens

@[simp] theorem tokens_append (beat : Bool) (a b : Bytes) : tokens beat (a ++ b) = tokens beat a ++ tokens beat b :=
  List.map_append

@[simp] theorem length_tokens (beat : Bool) (b : Bytes) : (tokens beat b).length = b.length := List.length_map _

@[simp] theorem tokenBytes_append (a b : List Token) : tokenBytes (a ++ b) = tokenBytes a ++ tokenBytes b :=
  List.filterMap_append

@[simp] theorem tokenBytes_tokens (beat : Bool) (b : Bytes) : tokenBytes (tokens beat b) = b := by
  induction b with
  | nil => rfl
  | cons x t ih => simpa [tokenBytes, tokens, Token.byte?] using ih

@[simp] theorem tokenBytes_shutdown : tokenBytes [.shutdown] = [] := rfl

@[simp] theorem itemTokens_append (a b : List Item) : itemTokens (a ++ b) = itemTokens a ++ itemTokens b :=
  List.flatMap_append

@[simp] theorem entryTokens_append (a b : List Entry) : entryTokens (a ++ b) = entryTokens a ++ entryTokens b :=
  List.flatMap_append

@[simp] theorem itemTokens_singleton (i : Item) : itemTokens [i] = i.tokens := List.flatMap_singleton _ _

@[simp] theorem entryTokens_singleton (e : Entry) : entryTokens [e] = e.tokens := List.flatMap_singleton _ _

theorem tokenBytes_itemTokens (items : List Item) : tokenBytes (itemTokens items) = itemBytes items := by
  induction items with
  | nil => rfl
  | cons i items ih =>
    have hi : tokenBytes i.tokens = i.bytes := by
      cases i with
      | data b => exact tokenBytes_tokens _ _
      | heartbeat b s => exact tokenBytes_tokens _ _
      | shutdown => rfl
    simp only [itemTokens, itemBytes, List.flatMap_cons, tokenBytes_append] at ih ⊢
    rw [hi, ih]

theorem tokenBytes_entryTokens (es : List Entry) : tokenBytes (entryTokens es) = entryBytes es := by
  induction es with
  | nil => rfl
  | cons e es ih =>
    have he : tokenBytes e.tokens = e.bytes := by
      cases e with
      | frame kind w => exact tokenBytes_tokens _ _
      | shutdown => rfl
    simp only [entryTokens, entryBytes, List.flatMap_cons, tokenBytes_append] at ih ⊢
    rw [he, ih]

namespace Outbox

variable {cfg : Config} {o : Outbox}

theorem itemTokens_pushBack {items : List Item} {joins : Bytes → Bool} {extend : Bytes → Bytes} {fresh : Bytes}
    (h : ∀ last, extend last = last ++ fresh) :
    itemTokens (pushBack items joins extend fresh) = itemTokens items ++ tokens false fresh := by
  rw [pushBack]
  split
  · rename_i last hlast
    split
    · have hitems : items = items.dropLast ++ [.data last] :=
        (List.dropLast_append_getLast? _ hlast).symm
      conv_rhs => rw [hitems]
      rw [itemTokens_append, itemTokens_append, h, List.append_assoc]
      simp only [itemTokens_singleton, Item.tokens, tokens_append]
    · rw [itemTokens_append, itemTokens_singleton]
      rfl
  · rw [itemTokens_append, itemTokens_singleton]
    rfl

theorem push_live {data : Bytes} (hl : o.live = true) (hd : data ≠ []) :
    ∃ items, itemTokens items = itemTokens o.queue.items ++ tokens false data ∧
      o.push data = { o with queue := { o.queue with items := items }, buffered := o.buffered + data.length } := by
  rw [live, Bool.and_eq_true, Bool.not_eq_true'] at hl
  rw [push, if_pos hl.1, enqueue, if_neg (by simp [hl.2])]
  dsimp only
  rw [if_neg (by simpa using hd)]
  exact ⟨_, itemTokens_pushBack fun _ => rfl, rfl⟩

/-- A frame joins the stream, and the counter grows by its length. -/
theorem pushFrame_live (cfg : Config) (op : UInt8) {payload : Bytes} (key : Key) (hl : o.live = true)
    (h : payload.length ≤ isizeMax) :
    ∃ items, itemTokens items = itemTokens o.queue.items ++ tokens false (encode op payload (cfg.mask key)) ∧
      o.pushFrame cfg op payload key =
        { o with
          queue := { o.queue with items := items }
          buffered := o.buffered + (encode op payload (cfg.mask key)).length } := by
  have hlen : (encode op payload (cfg.mask key)).length = encodedLen payload.length (!cfg.server) := by
    rw [length_encode h]
    congr 1
    cases hs : cfg.server <;> simp [Config.mask, hs]
  rw [pushFrame]
  split
  · refine push_live hl ?_
    intro hnil
    have := two_le_length_encode op payload (cfg.mask key)
    rw [show encode op payload (cfg.mask key) = [] from hnil] at this
    simp at this
  · rw [live, Bool.and_eq_true, Bool.not_eq_true'] at hl
    rw [if_neg (by simp [hl.1]), if_neg (by simp [hl.2])]
    exact ⟨_, itemTokens_pushBack fun last => encodeInto_append last op payload _, by rw [hlen]⟩

theorem pushFrame_dead {op : UInt8} {payload : Bytes} {key : Key} (hl : o.live = false) :
    o.pushFrame cfg op payload key = o := by
  rw [live, Bool.and_eq_false_iff, Bool.not_eq_false'] at hl
  rw [pushFrame]
  rcases hl with hio | hdone
  · simp [push, hio]
  · simp [push, enqueue, hdone]

theorem pushHeartbeat_live {sent : Nat} {key : Key} (hl : o.live = true) :
    o.pushHeartbeat cfg sent key =
      { o with
        queue := { o.queue with items := o.queue.items ++ [.heartbeat (frame cfg PING cfg.token key) sent] }
        buffered := o.buffered + (frame cfg PING cfg.token key).length } := by
  rw [live, Bool.and_eq_true, Bool.not_eq_true'] at hl
  simp [pushHeartbeat, enqueue, hl.1, hl.2]

theorem pushHeartbeat_dead {sent : Nat} {key : Key} (hl : o.live = false) : o.pushHeartbeat cfg sent key = o := by
  rw [live, Bool.and_eq_false_iff, Bool.not_eq_false'] at hl
  rcases hl with hio | hdone
  · simp [pushHeartbeat, hio]
  · simp [pushHeartbeat, enqueue, hdone]

theorem pushShutdown_live (hl : o.live = true) :
    o.pushShutdown =
      { o with queue := { o.queue with pong := none, shutdown := true, items := o.queue.items ++ [.shutdown] } } := by
  rw [live, Bool.and_eq_true, Bool.not_eq_true'] at hl
  simp [pushShutdown, enqueue, hl.1, hl.2]

theorem pushShutdown_dead (hl : o.live = false) : o.pushShutdown = o := by
  rw [live, Bool.and_eq_false_iff, Bool.not_eq_false'] at hl
  rcases hl with hio | hdone
  · simp [pushShutdown, hio]
  · simp [pushShutdown, enqueue, hdone]

/-- `progress` takes `n` off the counter and may clear the registration, nothing else. -/
theorem progress_eq (n : Nat) :
    (o.progress cfg n).1 =
      { o with
        buffered := o.buffered - n
        queue := { o.queue with drain := if (o.progress cfg n).2.isSome then none else o.queue.drain } } := by
  rw [progress]
  split
  · split
    · rfl
    · rfl
  · rfl

/-- What it clears is a registration whose length fits now. -/
theorem progress_cleared {n len : Nat} (h : (o.progress cfg n).2 = some len) :
    o.queue.drain = some len ∧ room cfg.buffer (o.buffered - n) len = true := by
  rw [progress] at h
  split at h
  · rename_i len' hd
    split at h
    · rename_i hr
      cases h
      exact ⟨hd, hr⟩
    · cases h
  · cases h

/-- What it leaves is a registration whose length does not fit. -/
theorem progress_kept {n len : Nat} (h : (o.progress cfg n).2 = none) (hd : o.queue.drain = some len) :
    room cfg.buffer (o.buffered - n) len = false := by
  rw [progress, hd] at h
  dsimp only at h
  split at h
  · cases h
  · rename_i hr
    exact Bool.eq_false_iff.mpr hr

end Outbox

end WebSocket.Net
