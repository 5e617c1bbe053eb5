import WebSocket.Net.Legal

/-!
# The queue and the writer carry every byte once

`Carried` is the simulation between the queue and the log of what was enqueued: the queue
holds the tokens of the queued entries, the writer's batch those it has not counted yet,
and the transport got the bytes before them. It holds of every step of the outbound side,
whatever is joined, split or swapped.

The counter follows: `buffered` is the number of bytes in the queue and in the writer's
batch. Stopping the writer clears the queue and leaves the counter, so from then on it is
only an upper bound, which is what `progress` needs to subtract from it.
-/

namespace WebSocket.Net

open Proto Lib.Transition

/-! ## The stream -/

/-- What of an item `write_out` has not counted as written: `data[at..]`. -/
def Cur.tokens (c : Cur) : List Token := Net.tokens c.sent.isSome (c.data.drop c.pos)

namespace Out

/-- The writer's batch from its cursor on. -/
def left (o : Out) : List Token := (o.cur.map Cur.tokens).getD [] ++ itemTokens o.batch

/-- The bytes of the writer's batch that `write_out` has not counted as written. -/
def batchRest (o : Out) : Bytes := (o.cur.map fun c => c.data.drop c.pos).getD [] ++ itemBytes o.batch

/-- The bytes between the cursor and what the transport has taken. -/
def inFlight (o : Out) : Bytes := (o.cur.map fun c => (c.data.drop c.pos).take c.flying).getD []

theorem tokenBytes_left (o : Out) : tokenBytes o.left = o.batchRest := by
  rw [left, batchRest, tokenBytes_append, tokenBytes_itemTokens]
  cases o.cur with
  | none => rfl
  | some c => simp [Cur.tokens]

theorem inFlight_append_unwritten (o : Out) : o.inFlight ++ o.unwritten = o.batchRest := by
  rw [inFlight, unwritten, batchRest]
  cases o.cur with
  | none => rfl
  | some c => simp [Cur.rest, ← List.append_assoc, ← List.drop_drop]

end Out

/-- The queue and the writer stand for the log. -/
structure Carried (o : Out) : Prop where
  queue : o.box.queue.done = false → itemTokens o.box.queue.items = entryTokens o.queued
  batch : ∃ pre, entryTokens o.inBatch = pre ++ o.left ∧ o.wire = tokenBytes (entryTokens o.gone ++ pre) ++ o.inFlight
  cur : ∀ c, o.cur = some c → c.pos + c.flying ≤ c.data.length

namespace Carried

variable {cfg : Config} {o o' : Out}

/-- An enqueue appends the same tokens to the queue and to the log. -/
theorem enqueue {e : Entry} {box : Outbox} (h : Carried o)
    (live : o.box.live = true → box.queue.done = false →
      itemTokens box.queue.items = itemTokens o.box.queue.items ++ e.tokens)
    (dead : o.box.live = false → box = o.box) :
    Carried { o with box := box, queued := o.record e } := by
  refine ⟨fun hdone => ?_, h.batch, h.cur⟩
  dsimp only at hdone ⊢
  rw [Out.record]
  cases hl : o.box.live with
  | true =>
    have hq := hl
    rw [Outbox.live, Bool.and_eq_true, Bool.not_eq_true'] at hq
    rw [if_pos rfl, live hl hdone, entryTokens_append, h.queue hq.2, entryTokens_singleton]
  | false =>
    rw [if_neg (by simp)]
    rw [dead hl] at hdone ⊢
    exact h.queue hdone

theorem step (h : Carried o) (hs : OutStep cfg o o') : Carried o' := by
  obtain ⟨pre, hpre, hw⟩ := h.batch
  cases hs with
  | @frame kind op payload key other legal =>
    refine h.enqueue (fun hl _ => ?_) fun hl => Outbox.pushFrame_dead hl
    obtain ⟨items, hi, hp⟩ := Outbox.pushFrame_live cfg op key hl legal.bound
    rw [hp, hi, Entry.tokens, beq_eq_false_iff_ne.mpr other]
    rfl
  | @heartbeat sent key =>
    refine h.enqueue (fun hl _ => ?_) fun hl => Outbox.pushHeartbeat_dead hl
    rw [Outbox.pushHeartbeat_live hl, itemTokens_append, itemTokens_singleton]
    rfl
  | shutdown =>
    refine h.enqueue (fun hl _ => ?_) fun hl => Outbox.pushShutdown_dead hl
    rw [Outbox.pushShutdown_live hl, itemTokens_append, itemTokens_singleton]
    rfl
  | pong short => exact ⟨h.queue, h.batch, h.cur⟩
  | register full => exact ⟨h.queue, h.batch, h.cur⟩
  | stop => exact ⟨(fun hd => by cases hd), h.batch, h.cur⟩
  | io => exact ⟨h.queue, h.batch, h.cur⟩
  | swap live hs =>
    -- the old batch is all written; the queue becomes the batch
    obtain ⟨hb, hc, rfl⟩ := Out.swap_some hs
    have hleft : o.left = [] := by simp [Out.left, hb, hc, itemTokens]
    have hfly : o.inFlight = [] := by simp [Out.inFlight, hc]
    refine ⟨fun _ => rfl, ⟨[], ?_, ?_⟩, h.cur⟩
    · simp [Out.left, hc, h.queue live]
    · rw [hleft, List.append_nil] at hpre
      rw [hfly, List.append_nil] at hw
      simp [Out.inFlight, hc, hw, hpre]
  | pop hs =>
    obtain ⟨hc, item, t, hb, rfl⟩ := Out.pop_some hs
    have hfly : o.inFlight = [] := by simp [Out.inFlight, hc]
    have hleft : o.left = item.tokens ++ itemTokens t := by simp [Out.left, hb, hc, itemTokens]
    rw [hfly] at hw
    cases item with
    | data b =>
      refine ⟨h.queue, ⟨pre, ?_, ?_⟩, ?_⟩
      · rw [hpre, hleft]
        rfl
      · simpa [Out.inFlight, Item.start] using hw
      · intro c hcur
        cases hcur
        simp
    | heartbeat b sent =>
      refine ⟨h.queue, ⟨pre, ?_, ?_⟩, ?_⟩
      · rw [hpre, hleft]
        rfl
      · simpa [Out.inFlight, Item.start] using hw
      · intro c hcur
        cases hcur
        simp
    | shutdown =>
      -- a `Shutdown` has no bytes: it is behind the writer as soon as it is taken
      refine ⟨h.queue, ⟨pre ++ [.shutdown], ?_, ?_⟩, fun c hcur => by cases hcur⟩
      · rw [hpre, hleft, List.append_assoc]
        rfl
      · simpa [Out.inFlight, Item.start] using hw
  | @write n _ hs =>
    obtain ⟨c, hc, hf, h1, h2, rfl⟩ := Out.write_some hs
    refine ⟨h.queue, ⟨pre, ?_, ?_⟩, ?_⟩
    · rw [hpre]
      simp [Out.left, hc, Cur.tokens]
    · have hfly : o.inFlight = [] := by simp [Out.inFlight, hc, hf]
      rw [hfly, List.append_nil] at hw
      simp [Out.inFlight, hw]
    · intro c' hcur
      cases hcur
      exact h2
  | progress hs =>
    obtain ⟨c, hc, hf, -, rfl⟩ := Out.progress_some hs
    refine ⟨?_, ⟨pre ++ tokens c.sent.isSome ((c.data.drop c.pos).take c.flying), ?_, ?_⟩, ?_⟩
    · simpa only [Outbox.progress_eq] using h.queue
    · rw [hpre, List.append_assoc]
      congr 1
      simp only [Out.left, hc, Option.map_some, Option.getD_some, Cur.tokens, ← List.append_assoc]
      rw [← tokens_append, ← List.drop_drop, List.take_append_drop]
    · rw [hw]
      simp [Out.inFlight, hc]
    · intro c' hcur
      cases hcur
      simpa using h.cur c hc
  | finish hs =>
    obtain ⟨c, hc, hf, hlen, rfl⟩ := Out.finish_some hs
    have hdrop : c.data.drop c.pos = [] := List.drop_of_length_le hlen
    refine ⟨h.queue, ⟨pre, ?_, ?_⟩, fun c hcur => by cases hcur⟩
    · rw [hpre]
      simp [Out.left, hc, Cur.tokens, hdrop, tokens]
    · rw [hw]
      simp [Out.inFlight, hc, hf]
  | endShutdown => exact ⟨h.queue, h.batch, h.cur⟩

theorem empty : Carried .empty :=
  ⟨fun _ => rfl, ⟨[], rfl, rfl⟩, fun _ h => nomatch h⟩

theorem of_reachable {s : Sys} (h : Reachable (Sys.step cfg) (.init cfg) s) : Carried s.link.out := by
  refine h.invariant (I := fun s => Carried s.link.out) empty ?_
  intro u l v hu hI hv
  obtain ⟨used, new, he⟩ := step_effect hv
  rcases he.out (Sane.of_reachable hu).link.hold with ho | ho
  · rw [ho]
    exact hI
  · exact hI.step ho

end Carried

/-! ## The counter -/

/-- `buffered` counts the queue and the batch while the writer runs, and never less than the batch. -/
structure Counted (o : Out) : Prop where
  exact : o.box.queue.done = false → o.box.buffered = (itemBytes o.box.queue.items).length + o.batchRest.length
  enough : o.batchRest.length ≤ o.box.buffered

namespace Counted

variable {cfg : Config} {o o' : Out}

/-- A live enqueue of `b` adds the same bytes to the queue and to the counter. -/
theorem enqueue {b : Bytes} {box : Outbox} {queued : List Entry} (h : Counted o)
    (live : o.box.live = true → box.queue.done = o.box.queue.done ∧
      (itemBytes box.queue.items).length = (itemBytes o.box.queue.items).length + b.length ∧
      box.buffered = o.box.buffered + b.length)
    (dead : o.box.live = false → box = o.box) : Counted { o with box := box, queued := queued } := by
  cases hl : o.box.live with
  | true =>
    obtain ⟨hdone, hitems, hbuf⟩ := live hl
    have henough := h.enough
    refine ⟨fun hd => ?_, ?_⟩
    · have hexact := h.exact (hdone ▸ hd)
      dsimp only [Out.batchRest] at hexact ⊢
      omega
    · dsimp only [Out.batchRest] at henough ⊢
      omega
  | false =>
    rw [dead hl]
    exact ⟨h.exact, h.enough⟩

theorem step (h : Counted o) (carried : Carried o) (hs : OutStep cfg o o') : Counted o' := by
  cases hs with
  | @frame kind op payload key other legal =>
    refine h.enqueue (b := encode op payload (cfg.mask key)) (fun hl => ?_) fun hl => Outbox.pushFrame_dead hl
    obtain ⟨items, hi, hp⟩ := Outbox.pushFrame_live cfg op key hl legal.bound
    rw [hp]
    refine ⟨rfl, ?_, rfl⟩
    dsimp only
    rw [← tokenBytes_itemTokens, hi, tokenBytes_append, tokenBytes_itemTokens, tokenBytes_tokens, List.length_append]
  | @heartbeat sent key =>
    refine h.enqueue (b := Outbox.frame cfg PING cfg.token key) (fun hl => ?_) fun hl => Outbox.pushHeartbeat_dead hl
    rw [Outbox.pushHeartbeat_live hl]
    exact ⟨rfl, by simp [itemBytes, Item.bytes], rfl⟩
  | shutdown =>
    refine h.enqueue (b := []) (fun hl => ?_) fun hl => Outbox.pushShutdown_dead hl
    rw [Outbox.pushShutdown_live hl]
    exact ⟨rfl, by simp [itemBytes, Item.bytes], rfl⟩
  | pong short => exact ⟨h.exact, h.enough⟩
  | register full => exact ⟨h.exact, h.enough⟩
  | stop => exact ⟨(fun hd => by cases hd), h.enough⟩
  | io => exact ⟨h.exact, h.enough⟩
  | swap live hs =>
    obtain ⟨hb, hc, rfl⟩ := Out.swap_some hs
    have hrest : o.batchRest = [] := by simp [Out.batchRest, hb, hc, itemBytes]
    have hexact := h.exact live
    rw [hrest] at hexact
    refine ⟨fun _ => ?_, ?_⟩
    · simpa [Out.batchRest, hc, itemBytes] using hexact
    · simpa [Out.batchRest, hc] using Nat.le_of_eq hexact.symm
  | pop hs =>
    obtain ⟨hc, item, t, hb, rfl⟩ := Out.pop_some hs
    have hrest : ({ o with batch := t, cur := item.start } : Out).batchRest = o.batchRest := by
      simp only [Out.batchRest, hb, hc]
      cases item <;> rfl
    exact ⟨fun hd => hrest ▸ h.exact hd, hrest ▸ h.enough⟩
  | @write n _ hs =>
    obtain ⟨c, hc, hf, h1, h2, rfl⟩ := Out.write_some hs
    have hrest : ({ o with wire := o.wire ++ (c.data.drop c.pos).take n, cur := some { c with flying := n } }
        : Out).batchRest = o.batchRest := by
      simp [Out.batchRest, hc]
    exact ⟨fun hd => hrest ▸ h.exact hd, hrest ▸ h.enough⟩
  | progress hs =>
    obtain ⟨c, hc, hf, -, rfl⟩ := Out.progress_some hs
    have hcur := carried.cur c hc
    -- the cursor and the counter move by the same number
    have hrest : o.batchRest.length = c.flying + (c.data.length - (c.pos + c.flying)) + (itemBytes o.batch).length := by
      simp only [Out.batchRest, hc, Option.map_some, Option.getD_some, List.length_append, List.length_drop]
      omega
    have henough := h.enough
    refine ⟨fun hd => ?_, ?_⟩
    · have hexact := h.exact (by simpa only [Outbox.progress_eq] using hd)
      simp only [Outbox.progress_eq, Out.batchRest, Option.map_some, Option.getD_some, List.length_append,
        List.length_drop]
      omega
    · simp only [Outbox.progress_eq, Out.batchRest, Option.map_some, Option.getD_some, List.length_append,
        List.length_drop]
      omega
  | finish hs =>
    obtain ⟨c, hc, hf, hlen, rfl⟩ := Out.finish_some hs
    have hrest : ({ o with cur := none } : Out).batchRest = o.batchRest := by
      simp [Out.batchRest, hc, List.drop_of_length_le hlen]
    exact ⟨fun hd => hrest ▸ h.exact hd, hrest ▸ h.enough⟩
  | endShutdown => exact ⟨h.exact, h.enough⟩

theorem of_reachable {s : Sys} (h : Reachable (Sys.step cfg) (.init cfg) s) : Counted s.link.out := by
  refine h.invariant (I := fun s => Counted s.link.out) ⟨fun _ => rfl, Nat.le_refl _⟩ ?_
  intro u l v hu hI hv
  obtain ⟨used, new, he⟩ := step_effect hv
  rcases he.out (Sane.of_reachable hu).link.hold with ho | ho
  · rw [ho]
    exact hI
  · exact hI.step (Carried.of_reachable hu) ho

end Counted

/-- **Exact accounting of unsent bytes.** While the writer is not stopped, `buffered` is the number of
bytes in the queue and of those in the writer's batch from `write_out`'s cursor on; the latter are the
bytes a write has taken and `progress` is about to count, then those no write has taken. Stopped or
not, `progress` takes its `n` off a counter that is at least `n`. -/
theorem buffered_eq_unsent {cfg : Config} {s : Sys} (h : Reachable (Sys.step cfg) (.init cfg) s) :
    (s.link.out.box.queue.done = false →
      s.link.out.box.buffered = (itemBytes s.link.out.box.queue.items).length + s.link.out.batchRest.length) ∧
    s.link.out.batchRest = s.link.out.inFlight ++ s.link.out.unwritten ∧
    ∀ s', s.progress cfg = some s' →
      s.link.out.flying ≤ s.link.out.box.buffered ∧
      s'.link.out.box.buffered + s.link.out.flying = s.link.out.box.buffered := by
  have counted := Counted.of_reachable h
  have carried := Carried.of_reachable h
  refine ⟨counted.exact, s.link.out.inFlight_append_unwritten.symm, ?_⟩
  intro s' hp
  have hout : ∃ cleared, s.link.out.progress cfg = some (s'.link.out, cleared) := by
    rw [Sys.progress] at hp
    split at hp
    · rename_i out cleared hout
      split at hp <;> cases hp <;> exact ⟨_, hout⟩
    · cases hp
  obtain ⟨cleared, hout⟩ := hout
  obtain ⟨c, hc, -, -, ho⟩ := Out.progress_some hout
  have hfly : s.link.out.flying = c.flying := by simp [Out.flying, hc]
  have hle : c.flying ≤ s.link.out.box.buffered := by
    refine Nat.le_trans ?_ counted.enough
    have := carried.cur c hc
    simp only [Out.batchRest, hc, Option.map_some, Option.getD_some, List.length_append, List.length_drop]
    omega
  rw [ho, Outbox.progress_eq, hfly]
  exact ⟨hle, Nat.sub_add_cancel hle⟩

/-- Three of the four bytes of a frame are with the transport and not counted yet. -/
theorem buffered_eq_unsent_partial_write :
    ∃ s, runs (Sys.step .small) (.init .small) (openRun ++ sendRun ++ [.writer, .writer, .write 3]) = some s ∧
      s.link.out.box.buffered = 4 ∧ s.link.out.flying = 3 ∧
      s.link.out.box.buffered = (itemBytes s.link.out.box.queue.items).length + s.link.out.batchRest.length ∧
      ∀ s', s.progress .small = some s' → s'.link.out.box.buffered + 3 = 4 :=
  have h := @buffered_eq_unsent .small _
    ⟨openRun ++ sendRun ++ [.writer, .writer, .write 3], rfl⟩
  ⟨_, rfl, rfl, rfl, h.1 rfl, fun s' hp => (h.2.2 s' hp).2⟩

end WebSocket.Net
