import WebSocket.Proto.Guarded

/-!
# What a reader holds on to

The length a peer declares is checked before any of the payload is kept, and together with what
the open message already holds. So a message and an open message stay within `max`, and the
unread bytes are at most one header and one payload that may still be accepted
(`length_of_more`).
-/

namespace WebSocket.Proto

open Lib Lib.Checked

/-- The sizes a message may have. -/
def Msg.Within (max : Nat) : Msg → Prop
  | .text data | .binary data => data.length ≤ max
  | .ping data | .pong data => data.length ≤ 125
  | .close none => True
  | .close (some (_, reason)) => reason.bytes.length ≤ 123

/-! ## One frame -/

theorem CloseStatus.within {payload : Bytes} {status : Option (UInt16 × Str)} (h : CloseStatus payload status)
    (hlen : payload.length ≤ 125) (max : Nat) : (Msg.close status).Within max := by
  cases h with
  | none => trivial
  | @some code reason _ =>
    simp only [closePayload, List.length_append, BigEndian.length_toBytes] at hlen
    show reason.bytes.length ≤ 123
    omega

theorem checkText_data {fin : Bool} {p q : Partial} (h : checkText fin p = some q) : q.data = p.data := by
  unfold checkText at h
  split at h
  · split at h
    · cases h; rfl
    · split at h
      · cases h; rfl
      · cases h
  · cases h; rfl

/-- A payload of an admitted size keeps the sizes. -/
theorem assemblePayload_within {max : Nat} {p q : Option Partial} {fin : Bool} {op : UInt8} {payload : Bytes}
    {out : Option Msg} (hp : openSize p ≤ max) (known : knownOp op = true)
    (control : CLOSE ≤ op → payload.length ≤ 125) (data : ¬ CLOSE ≤ op → openSize p + payload.length ≤ max)
    (h : assemblePayload p fin op payload = (q, .ok out)) :
    openSize q ≤ max ∧ ∀ m, out = some m → m.Within max := by
  have hdata (hop : op = TEXT ∨ op = BINARY ∨ op = CONTINUATION) :
      openSize q ≤ max ∧ ∀ m, out = some m → m.Within max := by
    rw [assemblePayload_data payload hop] at h
    have hsize := data (by rcases hop with rfl | rfl | rfl <;> decide)
    rw [← Guarded.openSize_extendPartial p op payload] at hsize
    cases hc : checkText fin (extendPartial p op payload) with
    | none => rw [hc] at h; cases h
    | some r =>
      rw [hc] at h
      rw [← checkText_data hc] at hsize
      dsimp only at h
      split at h
      · cases h
        exact ⟨hsize, fun m hm => by cases hm⟩
      · cases h
        refine ⟨Nat.zero_le _, fun m hm => ?_⟩
        cases hm
        unfold msgOf
        split <;> exact hsize
  rcases knownOp_iff.mp known with rfl | rfl | rfl | rfl | rfl | rfl
  · exact hdata (.inr (.inr rfl))
  · exact hdata (.inl rfl)
  · exact hdata (.inr (.inl rfl))
  · rw [assemblePayload_close] at h
    cases hc : close payload with
    | error f => rw [hc] at h; cases h
    | ok m =>
      rw [hc] at h
      cases h
      obtain ⟨status, hs, rfl⟩ := close_ok_iff.mp hc
      exact ⟨hp, fun m hm => by cases hm; exact hs.within (control (by decide)) max⟩
  · rw [assemblePayload_ping] at h
    cases h
    exact ⟨hp, fun m hm => by cases hm; exact control (by decide)⟩
  · rw [assemblePayload_pong] at h
    cases h
    exact ⟨hp, fun m hm => by cases hm; exact control (by decide)⟩

/-- A header ends within fourteen bytes, and its declared length fits in a word with the open message. -/
theorem head_len {server : Bool} {max : Nat} {p : Option Partial} {b : Bytes} {hd : Head}
    (hh : head server max p b = .ok (some hd)) (hp : openSize p ≤ isizeMax) :
    hd.start ≤ 14 ∧ hd.len ≤ Nat.max 125 (max - openSize p) := by
  rcases head_cases hh with ⟨_, h0⟩ | ⟨h2, ⟨f, _, h0⟩ | ⟨hf, ⟨_, h0⟩ | ⟨len, at_, hlen, ⟨f, _, h0⟩ | ⟨hc, ⟨_, h0⟩ |
    ⟨mask, start, hm, h0⟩⟩⟩⟩⟩
  all_goals cases h0
  obtain ⟨hmin, hctl, hsize⟩ := checkLen_none_iff.mp hc
  have hshort := (lenField_of_lenAt h2 hlen hmin).1
  have hat := Guarded.lenAt_at hlen
  refine ⟨?_, ?_⟩
  · unfold maskAt at hm
    split at hm
    · split at hm
      · cases hm
      · cases hm; dsimp only; omega
    · cases hm; dsimp only; omega
  · by_cases hop : CLOSE ≤ b.getD 0 0 &&& 0x0F
    · exact Nat.le_trans (hctl hop).2 (Nat.le_max_left _ _)
    · have hsum : len + openSize p ≤ usizeMax := by
        unfold isizeMax at hp
        unfold usizeMax
        omega
      have hmax : len + openSize p ≤ max := length_of_saturatingAdd_le (hsize hop) hsum
      exact Nat.le_trans (by dsimp only; omega) (Nat.le_max_right _ _)

/-- A header that is not complete yet. -/
theorem length_of_head_none {server : Bool} {max : Nat} {p : Option Partial} {b : Bytes}
    (hh : head server max p b = .ok none) : b.length < 14 := by
  rcases head_cases hh with ⟨hlt, _⟩ | ⟨h2, ⟨f, _, h0⟩ | ⟨hf, ⟨hlen, _⟩ | ⟨len, at_, hlen, ⟨f, _, h0⟩ | ⟨hc, ⟨hm, _⟩ |
    ⟨mask, start, hm, h0⟩⟩⟩⟩⟩
  · omega
  · cases h0
  · unfold lenAt at hlen
    dsimp only at hlen
    split at hlen
    · cases hlen
    · split at hlen
      · cases hlen
      · split at hlen
        · omega
        · cases hlen
  · cases h0
  · have hat := Guarded.lenAt_at hlen
    unfold maskAt at hm
    split at hm
    · split at hm
      · omega
      · cases hm
    · cases hm
  · cases h0

/-- Too few bytes for the next frame are less than a header and a payload that may still come. -/
theorem length_of_more {server : Bool} {max : Nat} {p : Option Partial} {b : Bytes}
    (h : nextFrame server max p b = .more) (hp : openSize p ≤ isizeMax) :
    b.length < 14 + Nat.max 125 (max - openSize p) := by
  unfold nextFrame at h
  cases hh : head server max p b with
  | error f => rw [hh] at h; cases h
  | ok o =>
    cases o with
    | none => exact Nat.lt_add_right _ (length_of_head_none hh)
    | some hd =>
      rw [hh] at h
      dsimp only at h
      split at h
      · have := head_len hh hp
        have := head_bounds hh
        omega
      · split at h <;> cases h

/-! ## Whole runs -/

namespace Guarded

variable {r r' : Reader}

theorem Ready.at (h : Ready r) : r.At r.server r.max r.partialMsg r.unread := ⟨rfl, rfl, rfl, rfl, h.pos⟩

theorem Ready.openSize_le (h : Ready r) : openSize r.partialMsg ≤ isizeMax := by
  cases hp : r.partialMsg with
  | none => exact Nat.zero_le _
  | some p => exact h.data p hp

/-- The payload of an admitted frame keeps the sizes. -/
theorem admits_within {server : Bool} {max : Nat} {p q : Option Partial} {w : Wire} {out : Option Msg}
    (hw : Admits server max p w) (hp : openSize p ≤ max) (hword : openSize p ≤ isizeMax)
    (h : assemblePayload p w.fin w.op w.payload = (q, .ok out)) :
    openSize q ≤ max ∧ ∀ m, out = some m → m.Within max := by
  refine assemblePayload_within hp hw.known (fun hop => (hw.control hop).2) (fun hop => ?_) h
  have hsum : w.payload.length + openSize p ≤ usizeMax := by
    have := hw.short
    unfold isizeMax at hword
    unfold usizeMax
    omega
  have hmax : w.payload.length + openSize p ≤ max := length_of_saturatingAdd_le (hw.size hop) hsum
  omega

/-- A call that did not fail: what it returned is within the limits, and so is what it left open.
Where it returned nothing, the unread bytes are too few for a frame. -/
theorem messageWith_within : ∀ (turns : Nat) {r r' : Reader} {out : Option Msg}, Ready r →
    openSize r.partialMsg ≤ r.max → messageWith turns r = .ok (r', .ok out) →
    r'.max = r.max ∧ openSize r'.partialMsg ≤ r.max ∧ (∀ m, out = some m → m.Within r.max) ∧
      (out = none → r'.unread.length < 14 + Nat.max 125 (r.max - openSize r'.partialMsg)) := by
  intro turns
  induction turns with
  | zero => intro r r' out _ _ h; cases h
  | succ turns ih =>
    intro r r' out ready hp h
    rw [messageWith, frame_eq ready] at h
    simp only [bind, Except.bind, pure, Except.pure] at h
    rcases ready.at.frame with ⟨e, -, hf⟩ | ⟨hmore, hf⟩ | ⟨hd, s, f, hh, hl, hf, hfin, hop, hpay, hat⟩
    · rw [hf] at h; cases h
    · rw [hf] at h
      cases h
      exact ⟨rfl, hp, fun m hm => (by cases hm), fun _ => length_of_more hmore ready.openSize_le⟩
    · obtain ⟨ready', taken⟩ := ready.of_frame hf
      obtain ⟨w, hw, -, hwfin, hwop, hwpay⟩ := bytes_of_head hh hl
      rw [hf] at h
      dsimp only at h
      rcases assemble_cases ready' taken.range taken.stop with ⟨ha, ready'', -⟩ | ⟨-, ha⟩
      · have hres : (s.assemble f).2 = (assemblePayload r.partialMsg w.fin w.op w.payload).2 ∧
            (s.assemble f).1.partialMsg = (assemblePayload r.partialMsg w.fin w.op w.payload).1 := by
          rw [Reader.assemble, hat.partialMsg, hfin, hop, hpay, hwfin, hwop, hwpay]
          exact ⟨rfl, rfl⟩
        have hmax : (s.assemble f).1.max = r.max := hat.max
        rw [ha] at h
        generalize s.assemble f = res at h hres hmax ready''
        obtain ⟨t, res⟩ := res
        cases res with
        | error e => cases h
        | ok o =>
          have hin := admits_within hw hp ready.openSize_le (Prod.ext hres.2.symm hres.1.symm)
          dsimp only at hmax ready'' h hres hin
          cases o with
          | some m =>
            cases h
            exact ⟨hmax, hin.1, hin.2, fun hm => (by cases hm)⟩
          | none =>
            rw [← hmax] at hin ⊢
            exact ih ready'' hin.1 h
      · rw [ha] at h
        cases h

theorem run_within : ∀ (calls : List Reader.Call) {r r' : Reader} {results : List (Except Fail (Option Msg))},
    Ready r → openSize r.partialMsg ≤ r.max → run r calls = .ok (r', results) → (∀ x ∈ results, ∃ o, x = .ok o) →
    Ready r' ∧ r'.max = r.max ∧ openSize r'.partialMsg ≤ r.max ∧ ∀ m, .ok (some m) ∈ results → m.Within r.max := by
  intro calls
  induction calls with
  | nil =>
    intro r r' results ready hp h _
    cases h
    exact ⟨ready, rfl, hp, fun m hm => by cases hm⟩
  | cons call calls ih =>
    intro r r' results ready hp h hok
    cases call with
    | push data =>
      rw [run] at h
      rcases push_cases ready data with ⟨hq, ready', -⟩ | ⟨-, hq⟩
      · have same : (r.push data).max = r.max ∧ (r.push data).partialMsg = r.partialMsg := by
          unfold Reader.push Reader.input
          split <;> exact ⟨rfl, rfl⟩
        rw [hq] at h
        rw [← same.1] at hp ⊢
        rw [← same.2] at hp
        exact ih ready' hp h hok
      · rw [hq] at h; cases h
    | message =>
      rw [run] at h
      rcases message_cases ready with ⟨hq, ready', -⟩ | ⟨-, hq⟩
      · rw [hq] at h
        simp only [bind, Except.bind, pure, Except.pure] at h
        cases hr : run r.message.1 calls with
        | error c => rw [hr] at h; cases h
        | ok res =>
          rw [hr] at h
          cases h
          obtain ⟨out, hout⟩ := hok _ List.mem_cons_self
          obtain ⟨hmax, hopen, hmsg, -⟩ := messageWith_within _ ready hp (hq.trans (by rw [← hout]))
          rw [← hmax] at hopen ⊢
          obtain ⟨ready'', hmax', hopen', hall⟩ :=
            ih ready' hopen hr fun x hx => hok x (List.mem_cons_of_mem _ hx)
          refine ⟨ready'', hmax', hopen', fun m hm => ?_⟩
          rcases List.mem_cons.mp hm with hm | hm
          · rw [hmax]
            exact hmsg m (by rw [hout] at hm; cases hm; rfl)
          · exact hall m hm
      · rw [hq] at h; cases h

/-- A run without a failure: messages are within their limits, and a reader that waits for input
holds an open message within `max` and less than one more acceptable frame. -/
theorem retained_bounded (server : Bool) (max : Nat) (calls : List Reader.Call) (r : Reader)
    (results : List (Except Fail (Option Msg))) (hrun : run (.new server max) calls = .ok (r, results))
    (hok : ∀ x ∈ results, ∃ o, x = .ok o) :
    (∀ m, .ok (some m) ∈ results → m.Within max) ∧
    ∀ r', message r = .ok (r', .ok none) →
      openSize r'.partialMsg ≤ max ∧ r'.unread.length < 14 + Nat.max 125 (max - openSize r'.partialMsg) := by
  obtain ⟨ready, hmax, hopen, hall⟩ := run_within calls (.new server max) (Nat.zero_le _) hrun hok
  refine ⟨hall, fun r' h => ?_⟩
  have hmax : r.max = max := hmax
  obtain ⟨-, hopen', -, hlen⟩ := messageWith_within _ ready (hmax.symm ▸ hopen) h
  rw [hmax] at hopen' hlen
  exact ⟨hopen', hlen rfl⟩

/-- A client's reader with the limit 3: one fragment is open, and a second one of two bytes is
waited for. -/
theorem retained_bounded_fragment :
    run (.new false 3) [.push [0x01, 1, 104], .message, .push [0x80, 2, 105]] =
      .ok (⟨[0x80, 2, 105], 0, false, 3, some ⟨TEXT, [104], 1⟩⟩, [.ok none]) ∧
    openSize (some ⟨TEXT, [104], 1⟩) ≤ 3 ∧ [0x80, 2, 105].length < 14 + Nat.max 125 (3 - 1) := by
  refine ⟨by rfl, ?_⟩
  exact (retained_bounded false 3 [.push [0x01, 1, 104], .message, .push [0x80, 2, 105]]
    ⟨[0x80, 2, 105], 0, false, 3, some ⟨TEXT, [104], 1⟩⟩ [.ok none] (by rfl) (by simp)).2
    ⟨[0x80, 2, 105], 0, false, 3, some ⟨TEXT, [104], 1⟩⟩ (by rfl)

end Guarded

end WebSocket.Proto
