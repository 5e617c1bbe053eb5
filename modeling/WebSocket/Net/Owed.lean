import WebSocket.Net.Closing
import Mathlib.Data.List.DropRight

/-!
# Whose bytes are buffered

`buffered` counts bytes of five kinds of frames. `Out.owed` says, byte by byte, which kind
each unsent byte belongs to: the end of the writer's batch that is not written yet, then
the queue. An enqueue appends one frame's bytes to it, a write takes bytes off its front,
and a swap leaves it as it is.

Bytes of the application and of immediate pongs are budgeted: their producers look at
`buffered` first. The other kinds are few, which the following modules count.
-/

namespace WebSocket.Net

open Proto Lib.Transition

/-- Kinds whose producers check `buffered` before they enqueue. -/
def Kind.budgeted : Kind → Bool
  | .app | .pong => true
  | _ => false

/-- The kind of every byte of the entries. -/
def kinds (es : List Entry) : List Kind :=
  es.flatMap fun
    | .frame kind w => List.replicate w.bytes.length kind
    | .shutdown => []

theorem kinds_append (a b : List Entry) : kinds (a ++ b) = kinds a ++ kinds b := List.flatMap_append

theorem kinds_frame (kind : Kind) (w : Wire) : kinds [.frame kind w] = List.replicate w.bytes.length kind :=
  List.flatMap_singleton _ _

theorem length_kinds (es : List Entry) : (kinds es).length = (entryBytes es).length := by
  induction es with
  | nil => rfl
  | cons e es ih =>
    rw [kinds, entryBytes, List.flatMap_cons, List.flatMap_cons, List.length_append, List.length_append]
    rw [show es.flatMap _ = kinds es from rfl, ih]
    cases e with
    | frame kind w => rw [List.length_replicate]; rfl
    | shutdown => rfl

namespace Out

/-- The kinds of the bytes that count as buffered, in the order they will be written. -/
def owed (o : Out) : List Kind := (kinds o.inBatch).rtake o.batchRest.length ++ kinds o.queued

/-- The buffered bytes whose producers looked at `buffered` first. -/
def budgeted (o : Out) : Nat := o.owed.countP Kind.budgeted

end Out

theorem rtake_suffix {α : Type} (l : List α) {m n : Nat} (h : m ≤ n) : l.rtake m <:+ l.rtake n := by
  rw [List.rtake, List.rtake]
  exact List.drop_suffix_drop_left l (by omega)

theorem length_rtake {α : Type} {l : List α} {n : Nat} (h : n ≤ l.length) : (l.rtake n).length = n := by
  rw [List.rtake, List.length_drop]
  omega

section Owed

variable {cfg : Config} {o o' : Out}

/-- The writer's batch ends with what is left of it. -/
theorem Carried.rest_le (h : Carried o) : o.batchRest.length ≤ (kinds o.inBatch).length := by
  obtain ⟨pre, hpre, -⟩ := h.batch
  rw [length_kinds, ← tokenBytes_entryTokens, hpre, tokenBytes_append, o.tokenBytes_left, List.length_append]
  exact Nat.le_add_left ..

/-- While the writer runs, every counted byte has a kind. -/
theorem length_owed (carried : Carried o) (counted : Counted o) (live : o.box.queue.done = false) :
    o.owed.length = o.box.buffered := by
  rw [Out.owed, List.length_append, length_rtake carried.rest_le, length_kinds, counted.exact live,
    ← tokenBytes_itemTokens, carried.queue live, tokenBytes_entryTokens, Nat.add_comm]

/-- The log stays and the writer gets on. -/
theorem budgeted_le (batch : o'.inBatch = o.inBatch) (queued : o'.queued = o.queued)
    (rest : o'.batchRest.length ≤ o.batchRest.length) : o'.budgeted ≤ o.budgeted := by
  rw [Out.budgeted, Out.owed, batch, queued, Out.budgeted, Out.owed]
  exact ((rtake_suffix _ rest).sublist.append_right _).countP_le

/-- An enqueue adds its frame's bytes, if it is live. -/
theorem owed_record {e : Entry} (batch : o'.inBatch = o.inBatch) (rest : o'.batchRest = o.batchRest)
    (queued : o'.queued = o.record e) : o'.owed = if o.box.live then o.owed ++ kinds [e] else o.owed := by
  rw [Out.owed, batch, rest, queued, Out.record]
  split
  · rw [kinds_append, ← List.append_assoc, Out.owed]
  · rfl

theorem budgeted_record {e : Entry} (batch : o'.inBatch = o.inBatch) (rest : o'.batchRest = o.batchRest)
    (queued : o'.queued = o.record e) : o'.budgeted ≤ o.budgeted + (kinds [e]).countP Kind.budgeted := by
  rw [Out.budgeted, owed_record batch rest queued]
  split
  · rw [List.countP_append, Out.budgeted]
  · exact Nat.le_add_right ..

theorem Wire.length_bytes (op : UInt8) {payload : Bytes} (mask : Option Key) (h : payload.length ≤ isizeMax) :
    (Wire.bytes ⟨true, op, payload, mask⟩).length = encodedLen payload.length mask.isSome := by
  rw [Wire.bytes, if_pos rfl, length_encode h]

/-- Only the enqueue of a budgeted frame raises the budgeted bytes, by the length of the frame. -/
theorem OutStep.budgeted (h : OutStep cfg o o') (carried : Carried o) : o'.budgeted ≤ o.budgeted ∨
    ∃ kind op payload key, kind.budgeted = true ∧ Legal kind op payload ∧ o.box.live = true ∧
      o' = o.pushFrame cfg kind op payload key ∧
      o'.budgeted ≤ o.budgeted + encodedLen payload.length (!cfg.server) := by
  have keeps (batch : o'.inBatch = o.inBatch) (queued : o'.queued = o.queued) (rest : o'.batchRest = o.batchRest) :
      o'.budgeted ≤ o.budgeted := budgeted_le batch queued (by rw [rest])
  cases h with
  | @frame kind op payload key other legal =>
    have hp : (o.pushFrame cfg kind op payload key).budgeted ≤ _ :=
      budgeted_record (o := o) (e := .frame kind ⟨true, op, payload, cfg.mask key⟩) rfl rfl rfl
    rw [kinds_frame, List.countP_replicate] at hp
    cases hk : kind.budgeted with
    | true =>
      cases hl : o.box.live with
      | true =>
        refine .inr ⟨kind, op, payload, key, hk, legal, rfl, rfl, ?_⟩
        rwa [hk, if_pos rfl, Wire.length_bytes op _ legal.bound, isSome_mask] at hp
      | false =>
        refine .inl (keeps rfl ?_ rfl)
        rw [Out.pushFrame, Out.record, hl]
        rfl
    | false =>
      rw [hk, if_neg Bool.false_ne_true] at hp
      exact .inl hp
  | @heartbeat sent key =>
    have hp : (o.pushHeartbeat cfg sent key).budgeted ≤ _ :=
      budgeted_record (o := o) (e := .frame .heartbeat ⟨true, PING, cfg.token, cfg.mask key⟩) rfl rfl rfl
    rw [kinds_frame, List.countP_replicate] at hp
    exact .inl hp
  | shutdown => exact .inl (budgeted_record (e := .shutdown) rfl rfl rfl)
  | pong => exact .inl (keeps rfl rfl rfl)
  | register => exact .inl (keeps rfl rfl rfl)
  | stop => exact .inl (keeps rfl rfl rfl)
  | io => exact .inl (keeps rfl rfl rfl)
  | endShutdown => exact .inl (keeps rfl rfl rfl)
  | swap live hs =>
    -- the queue becomes the batch, and none of it is written
    obtain ⟨hb, hc, rfl⟩ := Out.swap_some hs
    left
    have hrest : o.batchRest = [] := by simp [Out.batchRest, hb, hc, itemBytes]
    have hall : (Out.batchRest { o with
        box := { o.box with queue := { o.box.queue with items := [] } }, batch := o.box.queue.items
        gone := o.gone ++ o.inBatch, inBatch := o.queued, queued := [] }).length = (kinds o.queued).length := by
      simp only [Out.batchRest, hc, Option.map_none, Option.getD_none, List.nil_append]
      rw [length_kinds, ← tokenBytes_itemTokens, carried.queue live, tokenBytes_entryTokens]
    rw [Out.budgeted, Out.owed, hall, Out.budgeted, Out.owed, hrest]
    simp [List.rtake, kinds]
  | pop hs =>
    obtain ⟨hc, item, t, hb, rfl⟩ := Out.pop_some hs
    refine .inl (keeps rfl rfl ?_)
    simp only [Out.batchRest, hb, hc]
    cases item <;> rfl
  | write hs =>
    obtain ⟨c, hc, hf, h1, h2, rfl⟩ := Out.write_some hs
    exact .inl (keeps rfl rfl (by simp [Out.batchRest, hc]))
  | progress hs =>
    obtain ⟨c, hc, hf, -, rfl⟩ := Out.progress_some hs
    refine .inl (budgeted_le rfl rfl ?_)
    simp only [Out.batchRest, hc, Option.map_some, Option.getD_some, List.length_append, List.length_drop]
    omega
  | finish hs =>
    obtain ⟨c, hc, hf, hlen, rfl⟩ := Out.finish_some hs
    exact .inl (keeps rfl rfl (by simp [Out.batchRest, hc, List.drop_of_length_le hlen]))

/-- Without an enqueue neither the budgeted bytes nor the counter grow. -/
theorem OutStep.not_grows (h : OutStep cfg o o') (carried : Carried o) (log : o'.log = o.log) :
    o'.budgeted ≤ o.budgeted ∧ o'.box.buffered ≤ o.box.buffered := by
  have dead {e : Entry} (hlog : o'.log = if o.box.live then o.log ++ [e] else o.log) : o.box.live = false := by
    refine Bool.eq_false_iff.mpr fun hl => ?_
    rw [if_pos hl, log] at hlog
    exact absurd hlog (by simp)
  refine ⟨?_, ?_⟩
  · rcases h.budgeted carried with hb | ⟨kind, op, payload, key, -, -, hl, rfl, -⟩
    · exact hb
    · exact absurd (dead (Out.log_pushFrame ..)) (by simp [hl])
  · cases h with
    | frame => rw [Out.pushFrame, Outbox.pushFrame_dead (dead (Out.log_pushFrame ..))]
    | heartbeat => rw [Out.pushHeartbeat, Outbox.pushHeartbeat_dead (dead (Out.log_pushHeartbeat ..))]
    | shutdown => rw [Out.pushShutdown, Outbox.pushShutdown_dead (dead (Out.log_pushShutdown ..))]
    | swap live hs =>
      obtain ⟨-, -, rfl⟩ := Out.swap_some hs
      exact Nat.le_refl _
    | pop hs =>
      obtain ⟨-, item, t, -, rfl⟩ := Out.pop_some hs
      exact Nat.le_refl _
    | write hs =>
      obtain ⟨c, -, -, -, -, rfl⟩ := Out.write_some hs
      exact Nat.le_refl _
    | progress hs =>
      obtain ⟨c, -, -, -, rfl⟩ := Out.progress_some hs
      simp only [Outbox.progress_eq]
      exact Nat.sub_le ..
    | finish hs =>
      obtain ⟨c, -, -, -, rfl⟩ := Out.finish_some hs
      exact Nat.le_refl _
    | _ => exact Nat.le_refl _

end Owed

end WebSocket.Net
