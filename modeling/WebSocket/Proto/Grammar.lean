import WebSocket.Proto.Wire

/-!
# The reader accepts exactly the frame grammar

`Grammar` says which sequences of frames carry which messages, in the words of the
protocol: data frames open, extend and end a message, control frames stand anywhere,
a whole message is within the limit and, when it is text, valid UTF-8. Nothing in it
mentions how the reader checks this frame by frame.

The reader checks earlier: it refuses a fragment that takes the open message past the
limit, or past what some valid text starts with. `grammar_open` is why that loses
nothing: in a stream the grammar derives, the open message is a beginning of one that
passes. The other direction carries `Partial.Sound`: the bytes before `checked` are
valid, so validating the rest validates the whole.
-/

namespace WebSocket.Proto

open Lib Lib.Incremental

/-! ## The grammar -/

/-- The message a completed text or binary payload is. -/
def msgOf (op : UInt8) (data : Bytes) : Msg := if op = TEXT then .text data else .binary data

/-- A whole message: within the limit, and valid UTF-8 if it is text. -/
structure WholeMsg (max : Nat) (op : UInt8) (data : Bytes) : Prop where
  size : data.length ≤ max
  text : op = TEXT → Utf8.Valid data

/-- The payloads a close frame may carry, and the status they mean: none, or an accepted code
followed by a reason. -/
inductive CloseStatus : Bytes → Option (UInt16 × Str) → Prop where
  | none : CloseStatus [] .none
  | some {code : UInt16} {reason : Str} : validCloseCode code = true →
      CloseStatus (closePayload code reason) (.some (code, reason))

/-- `Grammar server max o ws ms`: with the message `o` open (its opcode and what it holds so far),
the frames `ws` carry the messages `ms` in order of completion and leave no message open. -/
inductive Grammar (server : Bool) (max : Nat) : Option (UInt8 × Bytes) → List Wire → List Msg → Prop where
  | nil : Grammar server max none [] []
  | ping {o payload mask ws ms} : mask.isSome = server → payload.length ≤ 125 →
      Grammar server max o ws ms → Grammar server max o (⟨true, PING, payload, mask⟩ :: ws) (.ping payload :: ms)
  | pong {o payload mask ws ms} : mask.isSome = server → payload.length ≤ 125 →
      Grammar server max o ws ms → Grammar server max o (⟨true, PONG, payload, mask⟩ :: ws) (.pong payload :: ms)
  | close {o payload status mask ws ms} : mask.isSome = server → payload.length ≤ 125 →
      CloseStatus payload status → Grammar server max o ws ms →
      Grammar server max o (⟨true, CLOSE, payload, mask⟩ :: ws) (.close status :: ms)
  | whole {op payload mask ws ms} : mask.isSome = server → op = TEXT ∨ op = BINARY →
      WholeMsg max op payload → Grammar server max none ws ms →
      Grammar server max none (⟨true, op, payload, mask⟩ :: ws) (msgOf op payload :: ms)
  | first {op payload mask ws ms} : mask.isSome = server → op = TEXT ∨ op = BINARY →
      Grammar server max (some (op, payload)) ws ms →
      Grammar server max none (⟨false, op, payload, mask⟩ :: ws) ms
  | more {op data payload mask ws ms} : mask.isSome = server →
      Grammar server max (some (op, data ++ payload)) ws ms →
      Grammar server max (some (op, data)) (⟨false, CONTINUATION, payload, mask⟩ :: ws) ms
  | last {op data payload mask ws ms} : mask.isSome = server →
      WholeMsg max op (data ++ payload) → Grammar server max none ws ms →
      Grammar server max (some (op, data)) (⟨true, CONTINUATION, payload, mask⟩ :: ws)
        (msgOf op (data ++ payload) :: ms)

/-- The open message of a derivation is the beginning of one that passes. -/
theorem grammar_open {server : Bool} {max : Nat} {o : Option (UInt8 × Bytes)} {ws : List Wire} {ms : List Msg}
    (h : Grammar server max o ws ms) :
    ∀ {op data}, o = some (op, data) → ∃ t, WholeMsg max op (data ++ t) := by
  induction h with
  | nil => intro op data h; cases h
  | ping _ _ _ ih => exact ih
  | pong _ _ _ ih => exact ih
  | close _ _ _ _ ih => exact ih
  | whole => intro op data h; cases h
  | first => intro op data h; cases h
  | @more op data payload _ _ _ _ _ ih =>
    intro op' data' h
    cases h
    obtain ⟨t, ht⟩ := ih rfl
    exact ⟨payload ++ t, by rwa [← List.append_assoc]⟩
  | @last op data payload _ _ _ _ hw _ _ =>
    intro op' data' h
    cases h
    exact ⟨payload, hw⟩

/-! ## The open message -/

/-- What the reader knows of the open message: its kind, and that the bytes before `checked` are
valid. -/
structure Partial.Sound (p : Partial) : Prop where
  op : p.op = TEXT ∨ p.op = BINARY
  checked : p.checked ≤ p.data.length
  valid : Utf8.Valid (p.data.take p.checked)

/-- The open message as the grammar sees it. -/
def opened (p : Option Partial) : Option (UInt8 × Bytes) := p.map fun p => (p.op, p.data)

/-- A sound state: the open message, if any, is sound. -/
def OpenSound (p : Option Partial) : Prop := ∀ q, p = some q → q.Sound

theorem openSound_none : OpenSound none := fun _ h => by cases h

/-- Validity of the whole is validity of the unchecked rest. -/
theorem Partial.Sound.valid_append_iff {p : Partial} (h : p.Sound) (t : Bytes) :
    Utf8.Valid (p.data ++ t) ↔ Utf8.Valid (p.data.drop p.checked ++ t) := by
  conv => lhs; rw [← List.take_append_drop p.checked p.data, List.append_assoc]
  exact Utf8.valid_append_iff h.valid

theorem OpenSound.extend {p : Option Partial} (h : OpenSound p) {op : UInt8} (payload : Bytes)
    (hop : p = none → op = TEXT ∨ op = BINARY) : (extendPartial p op payload).Sound := by
  cases p with
  | none => exact ⟨hop rfl, Nat.zero_le _, Utf8.valid_nil⟩
  | some q =>
    have hq := h q rfl
    refine ⟨hq.op, ?_, ?_⟩
    · show q.checked ≤ (q.data ++ payload).length
      rw [List.length_append]
      exact Nat.le_add_right_of_le hq.checked
    · show Utf8.Valid ((q.data ++ payload).take q.checked)
      rw [List.take_append_of_le_length hq.checked]
      exact hq.valid

/-- The final check passes exactly the valid messages. -/
theorem checkText_fin_iff {p : Partial} (h : p.Sound) :
    (checkText true p).isSome = true ↔ (p.op = TEXT → Utf8.Valid p.data) := by
  have hall := h.valid_append_iff []
  rw [List.append_nil, List.append_nil] at hall
  unfold checkText
  split
  · rename_i ht
    rw [hall]
    cases hu : Utf8.fromUtf8 (p.data.drop p.checked) with
    | ok _ => simp [ht, (Utf8.fromUtf8_ok_iff _).mp hu]
    | error e =>
      have : ¬ Utf8.Valid (p.data.drop p.checked) := by
        rw [← Utf8.fromUtf8_ok_iff, hu]
        simp
      simp [ht, this]
  · rename_i ht
    simp [ht]

/-- The check of a fragment passes exactly the beginnings of valid messages. -/
theorem checkText_more_iff {p : Partial} (h : p.Sound) :
    (checkText false p).isSome = true ↔ (p.op = TEXT → ∃ t, Utf8.Valid (p.data ++ t)) := by
  unfold checkText
  split
  · rename_i ht
    simp only [h.valid_append_iff]
    cases hu : Utf8.fromUtf8 (p.data.drop p.checked) with
    | ok _ =>
      have := Utf8.exists_extends (.inl hu)
      simp [ht, this]
    | error e =>
      constructor
      · intro hs _
        cases hl : e.errorLen with
        | none => exact Utf8.exists_extends (.inr ⟨e, hu, hl⟩)
        | some n => simp [hl] at hs
      · intro hv
        obtain ⟨t, hv⟩ := hv ht
        rcases Utf8.fromUtf8_of_extends hv with hok | ⟨e', he, hn⟩
        · rw [hu] at hok; cases hok
        · rw [hu] at he
          cases he
          simp [hn]
  · rename_i ht
    simp [ht]

/-- A passed check leaves the message as it is and moves `checked` over valid bytes. -/
theorem checkText_some {fin : Bool} {p q : Partial} (h : p.Sound) (hq : checkText fin p = some q) :
    q.op = p.op ∧ q.data = p.data ∧ q.Sound := by
  unfold checkText at hq
  split at hq
  · cases hu : Utf8.fromUtf8 (p.data.drop p.checked) with
    | ok _ =>
      rw [hu] at hq
      cases hq
      refine ⟨rfl, rfl, h.op, Nat.le_refl _, ?_⟩
      rw [List.take_length, ← List.append_nil p.data, h.valid_append_iff, List.append_nil]
      exact (Utf8.fromUtf8_ok_iff _).mp hu
    | error e =>
      rw [hu] at hq
      dsimp only at hq
      split at hq
      · cases hq
        obtain ⟨hle, hv⟩ := Utf8.fromUtf8_error_take hu
        rw [List.length_drop] at hle
        refine ⟨rfl, rfl, h.op, ?_, ?_⟩
        · have := h.checked
          show p.checked + e.validUpTo ≤ p.data.length
          omega
        · show Utf8.Valid (p.data.take (p.checked + e.validUpTo))
          rw [List.take_add]
          exact h.valid.append hv
      · cases hq
  · cases hq
    exact ⟨rfl, rfl, h⟩

/-! ## Close payloads -/

theorem close_ok_iff {payload : Bytes} {m : Msg} :
    close payload = .ok m ↔ ∃ status, CloseStatus payload status ∧ m = .close status := by
  match payload with
  | [] =>
    constructor
    · intro h
      cases h
      exact ⟨_, .none, rfl⟩
    · rintro ⟨status, h, rfl⟩
      cases h with
      | none => rfl
  | [a] =>
    constructor
    · intro h; cases h
    · rintro ⟨status, h, rfl⟩
      generalize hp : [a] = q at h
      cases h with
      | none => cases hp
      | some =>
        have := congrArg List.length hp
        rw [length_closePayload, List.length_singleton] at this
        omega
  | a :: b :: reason =>
    have hlt : BigEndian.ofBytes [a, b] < UInt16.size := by simpa using BigEndian.ofBytes_lt [a, b]
    have hcode : (UInt16.ofNat (BigEndian.ofBytes [a, b])).toNat = BigEndian.ofBytes [a, b] :=
      UInt16.toNat_ofNat_of_lt' hlt
    have hbytes : BigEndian.toBytes 2 (BigEndian.ofBytes [a, b]) = [a, b] := BigEndian.toBytes_of_length rfl
    rw [close]
    constructor
    · intro h
      split at h
      · cases h
      · rename_i hv
        cases hr : Str.fromUtf8 reason with
        | none => rw [hr] at h; cases h
        | some s =>
          rw [hr] at h
          cases h
          refine ⟨some (UInt16.ofNat (BigEndian.ofBytes [a, b]), s), ?_, rfl⟩
          have hp : a :: b :: reason = closePayload (UInt16.ofNat (BigEndian.ofBytes [a, b])) s := by
            rw [closePayload, hcode, hbytes, Str.fromUtf8_eq_some.mp hr]
            rfl
          rw [hp]
          refine .some ?_
          simpa using hv
    · rintro ⟨status, h, rfl⟩
      generalize hp : a :: b :: reason = q at h
      cases h with
      | none => cases hp
      | @some code s hv =>
        have hsplit : [a, b] = BigEndian.toBytes 2 code.toNat ∧ reason = s.bytes :=
          List.append_inj (show [a, b] ++ reason = _ from hp) (by rw [BigEndian.length_toBytes]; rfl)
        have hof : BigEndian.ofBytes [a, b] = code.toNat := by
          rw [hsplit.1]
          exact BigEndian.ofBytes_toBytes code.toNat_lt
        have hsame : UInt16.ofNat (BigEndian.ofBytes [a, b]) = code := by
          rw [hof]
          exact UInt16.ofNat_toNat
        rw [hsame, hv, Str.fromUtf8_eq_some.mpr hsplit.2.symm]
        rfl

/-! ## One frame of the grammar -/

theorem known_data {op : UInt8} (h : op = TEXT ∨ op = BINARY) : knownOp op = true ∧ ¬ CLOSE ≤ op ∧
    op ≠ CONTINUATION ∧ op ≠ PING ∧ op ≠ PONG ∧ op ≠ CLOSE := by
  rcases h with rfl | rfl <;> decide

theorem assemblePayload_ping (p : Option Partial) (fin : Bool) (payload : Bytes) :
    assemblePayload p fin PING payload = (p, .ok (some (.ping payload))) := rfl

theorem assemblePayload_pong (p : Option Partial) (fin : Bool) (payload : Bytes) :
    assemblePayload p fin PONG payload = (p, .ok (some (.pong payload))) := rfl

theorem assemblePayload_close (p : Option Partial) (fin : Bool) (payload : Bytes) :
    assemblePayload p fin CLOSE payload = (p, (close payload).map some) := rfl

/-- A data frame's payload joins the open message; the check decides, and a last frame completes it. -/
theorem assemblePayload_data {p : Option Partial} {fin : Bool} {op : UInt8} (payload : Bytes)
    (h : op = TEXT ∨ op = BINARY ∨ op = CONTINUATION) :
    assemblePayload p fin op payload =
      match checkText fin (extendPartial p op payload) with
      | none => (some (extendPartial p op payload), .error ⟨1007, "invalid UTF-8 in text message"⟩)
      | some q => if !fin then (some q, .ok none) else (none, .ok (some (msgOf q.op q.data))) := by
  have hne : op ≠ PING ∧ op ≠ PONG ∧ op ≠ CLOSE := by rcases h with rfl | rfl | rfl <;> decide
  unfold assemblePayload
  rw [if_neg hne.1, if_neg hne.2.1, if_neg hne.2.2]
  rfl

/-- A fragment in the middle of a derivation passes and stays open. -/
theorem verdict_fragment {p : Option Partial} {w : Wire} {max : Nat} (hp : OpenSound p)
    (hop : w.op = TEXT ∨ w.op = BINARY ∨ w.op = CONTINUATION) (hstart : p = none → w.op = TEXT ∨ w.op = BINARY)
    (hfin : w.fin = false)
    (hwhole : ∃ t, WholeMsg max (extendPartial p w.op w.payload).op ((extendPartial p w.op w.payload).data ++ t)) :
    ∃ q, (∀ rest, verdict p w rest = .item none (some q) rest) ∧ q.op = (extendPartial p w.op w.payload).op ∧
      q.data = (extendPartial p w.op w.payload).data ∧ q.Sound := by
  have hs := hp.extend w.payload hstart
  obtain ⟨t, ht⟩ := hwhole
  have hsome := (checkText_more_iff hs).mpr fun h => ⟨t, ht.text h⟩
  obtain ⟨q, hq⟩ := Option.isSome_iff_exists.mp hsome
  obtain ⟨hqop, hqdata, hqs⟩ := checkText_some hs hq
  refine ⟨q, fun rest => ?_, hqop, hqdata, hqs⟩
  rw [verdict, assemblePayload_data w.payload hop, hfin, hq]
  rfl

/-- The last frame of a message that passes completes it. -/
theorem verdict_last {p : Option Partial} {w : Wire} {max : Nat} (hp : OpenSound p)
    (hop : w.op = TEXT ∨ w.op = BINARY ∨ w.op = CONTINUATION) (hstart : p = none → w.op = TEXT ∨ w.op = BINARY)
    (hfin : w.fin = true)
    (hwhole : WholeMsg max (extendPartial p w.op w.payload).op (extendPartial p w.op w.payload).data) :
    ∀ rest, verdict p w rest =
      .item (some (msgOf (extendPartial p w.op w.payload).op (extendPartial p w.op w.payload).data)) none rest := by
  intro rest
  have hs := hp.extend w.payload hstart
  obtain ⟨q, hq⟩ := Option.isSome_iff_exists.mp ((checkText_fin_iff hs).mpr hwhole.text)
  obtain ⟨hqop, hqdata, -⟩ := checkText_some hs hq
  rw [verdict, assemblePayload_data w.payload hop, hfin, hq]
  simp only [Bool.not_true, Bool.false_eq_true, if_false, hqop, hqdata]

/-! ## What the grammar derives is read -/

theorem opened_none {p : Option Partial} (h : opened p = none) : p = none := by
  cases p with
  | none => rfl
  | some q => cases h

theorem opened_some {p : Option Partial} {op : UInt8} {data : Bytes} (h : opened p = some (op, data)) :
    ∃ q, p = some q ∧ q.op = op ∧ q.data = data := by
  cases p with
  | none => cases h
  | some q =>
    cases h
    exact ⟨q, rfl, rfl, rfl⟩

theorem saturatingAdd_le {a b max : Nat} (h : a + b ≤ max) : saturatingAdd a b ≤ max :=
  Nat.le_trans (Nat.min_le_left _ _) h

/-- A whole control frame is admitted anywhere. -/
theorem admits_control {server : Bool} {max : Nat} {p : Option Partial} {op : UInt8} {payload : Bytes}
    {mask : Option Key} (hop : op = CLOSE ∨ op = PING ∨ op = PONG) (hm : mask.isSome = server)
    (hl : payload.length ≤ 125) : Admits server max p ⟨true, op, payload, mask⟩ := by
  have hk : knownOp op = true ∧ CLOSE ≤ op ∧ op ≠ CONTINUATION ∧ ¬ (op = TEXT ∨ op = BINARY) := by
    rcases hop with rfl | rfl | rfl <;> decide
  exact ⟨hk.1, hm, fun h => absurd h hk.2.2.1, fun h => absurd h hk.2.2.2, fun _ => ⟨rfl, hl⟩,
    fun h => absurd hk.2.1 h, by show payload.length < _; omega⟩

/-- A text or binary frame within the limit is admitted when no message is open. -/
theorem admits_start {server fin : Bool} {max : Nat} {op : UInt8} {payload : Bytes} {mask : Option Key}
    (hop : op = TEXT ∨ op = BINARY) (hm : mask.isSome = server) (hl : payload.length ≤ max)
    (hs : payload.length < 2 ^ 63) : Admits server max none ⟨fin, op, payload, mask⟩ := by
  obtain ⟨hk, hc, hne, -⟩ := known_data hop
  exact ⟨hk, hm, fun h => absurd h hne, fun _ => rfl, fun h => absurd h hc, fun _ => saturatingAdd_le hl, hs⟩

/-- A continuation within the limit is admitted when a message is open. -/
theorem admits_continue {server fin : Bool} {max : Nat} {q : Partial} {payload : Bytes} {mask : Option Key}
    (hm : mask.isSome = server) (hl : (q.data ++ payload).length ≤ max) (hs : payload.length < 2 ^ 63) :
    Admits server max (some q) ⟨fin, CONTINUATION, payload, mask⟩ := by
  refine ⟨by show knownOp CONTINUATION = true; decide, hm, fun _ => rfl,
    fun h => absurd h (by show ¬ (CONTINUATION = TEXT ∨ CONTINUATION = BINARY); decide),
    fun h => absurd h (by show ¬ CLOSE ≤ CONTINUATION; decide), fun _ => saturatingAdd_le ?_, hs⟩
  rw [List.length_append, Nat.add_comm] at hl
  exact hl

theorem WholeMsg.prefix_size {max : Nat} {op : UInt8} {data t : Bytes} (h : WholeMsg max op (data ++ t)) :
    data.length ≤ max := by
  have := h.size
  rw [List.length_append] at this
  omega

/-- **Complete**: from a sound state, the reader takes the frames of a derivation and returns its
messages. By induction along the derivation. -/
theorem drain_of_grammar {server : Bool} {max : Nat} {o : Option (UInt8 × Bytes)} {ws : List Wire} {ms : List Msg}
    (h : Grammar server max o ws ms) : ∀ {p : Option Partial}, OpenSound p → opened p = o →
      (∀ w ∈ ws, w.payload.length < 2 ^ 63) →
      (decoder server max).drain p (ws.flatMap Wire.bytes) = (ms, .ok (none, [])) := by
  -- one admitted frame in front of frames already settled
  have step : ∀ {p q : Option Partial} {w : Wire} {ws : List Wire} {ms : List Msg} {out : Option Msg},
      Admits server max p w → (∀ rest, verdict p w rest = .item out q rest) →
      (decoder server max).drain q (ws.flatMap Wire.bytes) = (ms, .ok (none, [])) →
      (decoder server max).drain p ((w :: ws).flatMap Wire.bytes) = (out.toList ++ ms, .ok (none, [])) := by
    intro p q w ws ms out ha hv hd
    have hnext : (decoder server max).next p (w.bytes ++ ws.flatMap Wire.bytes) =
        .item out q (ws.flatMap Wire.bytes) := by
      rw [decoder_next, nextFrame_bytes ha, hv]
    rw [List.flatMap_cons, (decoder server max).drain_item hnext, hd]
    rfl
  induction h with
  | nil =>
    intro p _ ho _
    rw [opened_none ho]
    exact (decoder server max).drain_more rfl
  | ping hm hl _ ih =>
    intro p hp ho hb
    exact step (admits_control (.inr (.inl rfl)) hm hl) (fun _ => rfl)
      (ih hp ho fun w hw => hb w (List.mem_cons_of_mem _ hw))
  | pong hm hl _ ih =>
    intro p hp ho hb
    exact step (admits_control (.inr (.inr rfl)) hm hl) (fun _ => rfl)
      (ih hp ho fun w hw => hb w (List.mem_cons_of_mem _ hw))
  | @close o payload status mask ws ms hm hl hs _ ih =>
    intro p hp ho hb
    have hv : ∀ rest, verdict p ⟨true, CLOSE, payload, mask⟩ rest = .item (some (.close status)) p rest := by
      intro rest
      rw [verdict, assemblePayload_close, close_ok_iff.mpr ⟨status, hs, rfl⟩]
      rfl
    exact step (admits_control (.inl rfl) hm hl) hv (ih hp ho fun w hw => hb w (List.mem_cons_of_mem _ hw))
  | @whole op payload mask ws ms hm hop hw _ ih =>
    intro p hp ho hb
    cases opened_none ho
    exact step (admits_start hop hm hw.size (hb _ List.mem_cons_self))
      (verdict_last openSound_none (hop.imp id .inl) (fun _ => hop) rfl hw)
      (ih openSound_none rfl fun w hw => hb w (List.mem_cons_of_mem _ hw))
  | @first op payload mask ws ms hm hop hg ih =>
    intro p hp ho hb
    cases opened_none ho
    obtain ⟨t, ht⟩ := grammar_open hg rfl
    obtain ⟨q, hv, hqop, hqdata, hqs⟩ := verdict_fragment (w := ⟨false, op, payload, mask⟩)
      openSound_none (hop.imp id .inl) (fun _ => hop) rfl ⟨t, ht⟩
    refine step (admits_start hop hm ht.prefix_size (hb _ List.mem_cons_self)) hv
      (ih (fun _ h => Option.some.inj h ▸ hqs) ?_ fun w hw => hb w (List.mem_cons_of_mem _ hw))
    rw [opened, Option.map_some, hqop, hqdata]
    rfl
  | @more op data payload mask ws ms hm hg ih =>
    intro p hp ho hb
    obtain ⟨p, rfl, rfl, rfl⟩ := opened_some ho
    obtain ⟨t, ht⟩ := grammar_open hg rfl
    obtain ⟨q, hv, hqop, hqdata, hqs⟩ := verdict_fragment (w := ⟨false, CONTINUATION, payload, mask⟩)
      hp (.inr (.inr rfl)) (fun h => by cases h) rfl ⟨t, ht⟩
    refine step (admits_continue hm ht.prefix_size (hb _ List.mem_cons_self)) hv
      (ih (fun _ h => Option.some.inj h ▸ hqs) ?_ fun w hw => hb w (List.mem_cons_of_mem _ hw))
    rw [opened, Option.map_some, hqop, hqdata]
    rfl
  | @last op data payload mask ws ms hm hw _ ih =>
    intro p hp ho hb
    obtain ⟨p, rfl, rfl, rfl⟩ := opened_some ho
    exact step (admits_continue hm hw.size (hb _ List.mem_cons_self))
      (verdict_last hp (.inr (.inr rfl)) (fun h => by cases h) rfl hw)
      (ih openSound_none rfl fun w hw => hb w (List.mem_cons_of_mem _ hw))

/-! ## What is read, the grammar derives -/

theorem length_of_saturatingAdd_le {a b max : Nat} (h : saturatingAdd a b ≤ max) (hb : a + b ≤ usizeMax) :
    a + b ≤ max := by
  unfold saturatingAdd at h
  omega

/-- The size of the open message. -/
def openSize (p : Option Partial) : Nat := (p.map (·.data.length)).getD 0

theorem openSize_of_opened {p : Option Partial} {op : UInt8} {data : Bytes} (h : opened p = some (op, data)) :
    openSize p = data.length := by
  obtain ⟨q, rfl, -, rfl⟩ := opened_some h
  rfl

theorem le_length_bytes (w : Wire) : w.payload.length ≤ w.bytes.length := by
  rw [Wire.bytes_eq, List.length_cons, List.length_append, length_body]
  omega

/-- A data frame the reader took: the open message grew by its payload and is within the limit, and
either stays open or was completed. -/
theorem assemblePayload_data_ok {server : Bool} {max : Nat} {p q : Option Partial} {w : Wire} {out : Option Msg}
    (hp : OpenSound p) (hw : Admits server max p w) (hop : w.op = TEXT ∨ w.op = BINARY ∨ w.op = CONTINUATION)
    (hbound : openSize p + w.payload.length ≤ isizeMax)
    (ha : assemblePayload p w.fin w.op w.payload = (q, .ok out)) :
    (extendPartial p w.op w.payload).data.length ≤ max ∧
    (extendPartial p w.op w.payload).data.length = openSize p + w.payload.length ∧
      ((w.fin = false ∧ out = none ∧ OpenSound q ∧
        opened q = some ((extendPartial p w.op w.payload).op, (extendPartial p w.op w.payload).data)) ∨
      (w.fin = true ∧ q = none ∧
        out = some (msgOf (extendPartial p w.op w.payload).op (extendPartial p w.op w.payload).data) ∧
        WholeMsg max (extendPartial p w.op w.payload).op (extendPartial p w.op w.payload).data)) := by
  have hnc : ¬ CLOSE ≤ w.op := by rcases hop with h | h | h <;> rw [h] <;> decide
  have hstart : p = none → w.op = TEXT ∨ w.op = BINARY := by
    intro hnone
    rcases hop with h | h | h
    · exact .inl h
    · exact .inr h
    · have := hw.continues h
      rw [hnone] at this
      cases this
  have hs := hp.extend w.payload hstart
  have hsize : (extendPartial p w.op w.payload).data.length = openSize p + w.payload.length := by
    cases p with
    | none => exact (Nat.zero_add _).symm
    | some p => exact List.length_append
  have hmax : (extendPartial p w.op w.payload).data.length ≤ max := by
    rw [hsize, Nat.add_comm]
    refine length_of_saturatingAdd_le (hw.size hnc) ?_
    show w.payload.length + openSize p ≤ usizeMax
    unfold isizeMax at hbound
    unfold usizeMax
    omega
  refine ⟨hmax, hsize, ?_⟩
  rw [assemblePayload_data w.payload hop] at ha
  cases hc : checkText w.fin (extendPartial p w.op w.payload) with
  | none => rw [hc] at ha; cases ha
  | some r =>
    rw [hc] at ha
    obtain ⟨hrop, hrdata, hrs⟩ := checkText_some hs hc
    cases hf : w.fin with
    | false =>
      rw [hf] at ha
      cases ha
      refine .inl ⟨rfl, rfl, fun _ h => Option.some.inj h ▸ hrs, ?_⟩
      rw [opened, Option.map_some, hrop, hrdata]
    | true =>
      rw [hf] at ha hc
      cases ha
      refine .inr ⟨rfl, rfl, by rw [hrop, hrdata], hmax, ?_⟩
      exact (checkText_fin_iff hs).mp (by rw [hc]; rfl)

/-- **Sound**: input that is read to its end with no message open is a concatenation of frames the
grammar derives. By induction along the drain. -/
theorem grammar_of_drain {server : Bool} {max : Nat} (p : Option Partial) (b : Bytes) : ∀ {ms : List Msg},
    OpenSound p → openSize p + b.length ≤ isizeMax →
    (decoder server max).drain p b = (ms, .ok (none, [])) →
    ∃ ws, b = ws.flatMap Wire.bytes ∧ Grammar server max (opened p) ws ms := by
  induction p, b using (decoder server max).induct with
  | more p b h =>
    intro ms _ _ hd
    rw [(decoder server max).drain_more h] at hd
    cases hd
    exact ⟨[], rfl, .nil⟩
  | fail p b e h =>
    intro ms _ _ hd
    rw [(decoder server max).drain_fail h] at hd
    cases hd
  | item p b out q rest h ih =>
    intro ms hp hbound hdrain
    rw [(decoder server max).drain_item h] at hdrain
    rw [decoder_next] at h
    obtain ⟨tail, rfl, htail⟩ : ∃ tail, ms = out.toList ++ tail ∧
        (decoder server max).drain q rest = (tail, .ok (none, [])) := by
      obtain ⟨h1, h2⟩ := Prod.mk.inj hdrain
      exact ⟨_, h1.symm, Prod.ext rfl h2⟩
    obtain ⟨w, hw, rfl, ha⟩ : ∃ w, Admits server max p w ∧ b = w.bytes ++ rest ∧
        assemblePayload p w.fin w.op w.payload = (q, .ok out) := by
      rcases nextFrame_cases h with h0 | ⟨f, _, h0⟩ | ⟨hd, hh, hl, ⟨_, _, _, h0⟩ | ⟨_, _, ha, h0⟩⟩
      all_goals cases h0
      obtain ⟨w, hw, hb, hfin, hop, hpay⟩ := bytes_of_head hh hl
      rw [← hfin, ← hop, ← hpay] at ha
      exact ⟨w, hw, hb, ha⟩
    have hlen := le_length_bytes w
    rw [List.length_append] at hbound
    -- it is enough to put the frame in front of a derivation for the rest
    suffices hcons : OpenSound q ∧ openSize q ≤ openSize p + w.payload.length ∧
        ∀ ws, Grammar server max (opened q) ws tail → Grammar server max (opened p) (w :: ws) (out.toList ++ tail) by
      obtain ⟨ws, rfl, hg⟩ := ih hcons.1 (by omega) htail
      exact ⟨w :: ws, rfl, hcons.2.2 ws hg⟩
    obtain ⟨fin, op, payload, mask⟩ := w
    have hm : mask.isSome = server := hw.masked
    have hstart : op = TEXT ∨ op = BINARY → OpenSound q ∧ openSize q ≤ openSize p + payload.length ∧
        ∀ ws, Grammar server max (opened q) ws tail →
          Grammar server max (opened p) (⟨fin, op, payload, mask⟩ :: ws) (out.toList ++ tail) := by
      intro hop
      obtain rfl : p = none := Option.isSome_eq_false_iff.mp (hw.starts hop) |> Option.isNone_iff_eq_none.mp
      obtain ⟨-, hsize, ⟨rfl, rfl, hq, ho⟩ | ⟨rfl, rfl, rfl, hwhole⟩⟩ :=
        assemblePayload_data_ok hp hw (hop.imp id .inl) (by dsimp only at hlen ⊢; omega) ha
      · exact ⟨hq, (openSize_of_opened ho).trans hsize |>.le, fun ws hg => .first hm hop (ho ▸ hg)⟩
      · exact ⟨openSound_none, Nat.zero_le _, fun ws hg => .whole hm hop hwhole hg⟩
    rcases knownOp_iff.mp hw.known with h | h | h | h | h | h
    · -- a continuation: a message is open
      obtain rfl : op = CONTINUATION := h
      obtain ⟨p, rfl⟩ := Option.isSome_iff_exists.mp (hw.continues rfl)
      obtain ⟨-, hsize, ⟨rfl, rfl, hq, ho⟩ | ⟨rfl, rfl, rfl, hwhole⟩⟩ :=
        assemblePayload_data_ok hp hw (.inr (.inr rfl)) (by dsimp only at hlen ⊢; omega) ha
      · exact ⟨hq, (openSize_of_opened ho).trans hsize |>.le, fun ws hg => .more hm (ho ▸ hg)⟩
      · exact ⟨openSound_none, Nat.zero_le _, fun ws hg => .last hm hwhole hg⟩
    · exact hstart (.inl h)
    · exact hstart (.inr h)
    · obtain rfl : op = CLOSE := h
      obtain ⟨rfl, hl⟩ : fin = true ∧ _ := hw.control (Nat.le_refl _)
      dsimp only at ha
      rw [assemblePayload_close] at ha
      cases hc : close payload with
      | error f => rw [hc] at ha; cases ha
      | ok m =>
        rw [hc] at ha
        cases ha
        obtain ⟨status, hs, rfl⟩ := close_ok_iff.mp hc
        exact ⟨hp, Nat.le_add_right _ _, fun ws hg => .close hm hl hs hg⟩
    · obtain rfl : op = PING := h
      obtain ⟨rfl, hl⟩ : fin = true ∧ _ := hw.control (by show CLOSE ≤ PING; decide)
      cases ha
      exact ⟨hp, Nat.le_add_right _ _, fun ws hg => .ping hm hl hg⟩
    · obtain rfl : op = PONG := h
      obtain ⟨rfl, hl⟩ : fin = true ∧ _ := hw.control (by show CLOSE ≤ PONG; decide)
      cases ha
      exact ⟨hp, Nat.le_add_right _ _, fun ws hg => .pong hm hl hg⟩

/-- **The reader accepts exactly the frame grammar.** Bytes are read to their end without a failure
and with no message left open, yielding `ms`, if and only if they are a concatenation of encoded
frames from which the grammar derives `ms`. -/
theorem accepts_iff_grammar (server : Bool) (max : Nat) (b : Slice) (ms : List Msg) :
    (((Reader.new server max).push b.bytes).drain.2 = (ms, none) ∧
      ((Reader.new server max).push b.bytes).drain.1.unread = [] ∧
      ((Reader.new server max).push b.bytes).drain.1.partialMsg = none) ↔
    ∃ ws : List Wire, b.bytes = ws.flatMap Wire.bytes ∧ Grammar server max none ws ms := by
  obtain ⟨hms, hres⟩ := ((Reader.new_at server max).push b.bytes).drain
  rw [List.nil_append] at hms hres
  constructor
  · rintro ⟨hout, hunread, hpart⟩
    refine grammar_of_drain none b.bytes openSound_none (by simpa [openSize] using b.bound) ?_
    rw [hout] at hms hres
    cases hd : ((decoder server max).drain none b.bytes).2 with
    | error f => rw [hd] at hres; cases hres
    | ok s =>
      rw [hd] at hres
      obtain ⟨-, hat⟩ := hres
      refine Prod.ext hms.symm ?_
      rw [hd]
      exact congrArg Except.ok (Prod.ext (hat.partialMsg.symm.trans hpart) (hat.unread.symm.trans hunread))
  · rintro ⟨ws, hb, hg⟩
    have hshort : ∀ w ∈ ws, w.payload.length < 2 ^ 63 := by
      intro w hw
      have h1 := le_length_bytes w
      have h2 := (List.sublist_flatten_of_mem (List.mem_map_of_mem (f := Wire.bytes) hw)).length_le
      have h3 := b.bound
      rw [hb, List.flatMap_def] at h3
      unfold isizeMax at h3
      omega
    have hd := drain_of_grammar hg openSound_none rfl hshort
    rw [← hb] at hd
    rw [hd] at hms hres
    obtain ⟨hnone, hat⟩ := hres
    exact ⟨Prod.ext hms hnone, hat.unread, hat.partialMsg⟩

end WebSocket.Proto
