import WebSocket.Proto.Chunking

/-!
# One frame on the wire

`Wire` is a frame as it travels and `Wire.bytes` its encoding: the encoder's bytes,
with the FIN bit cleared on a fragment. What the reader asks of a frame before it
takes the payload is `Admits`.

The two laws are the two halves of a codec. `nextFrame_bytes`: an encoded frame is
read back, whatever follows it. `bytes_of_head`: an accepted header is one the
encoder writes, so only minimal length fields pass.
-/

namespace WebSocket.Proto

open Lib Lib.Incremental

/-! ## Frames on the wire -/

/-- One frame as it travels. -/
structure Wire where
  fin : Bool
  op : UInt8
  payload : Bytes
  mask : Option Key
  deriving DecidableEq, Repr

/-- Clear the FIN bit of an encoded frame. -/
def clearFin : Bytes → Bytes
  | [] => []
  | b :: t => (b &&& 0x7F) :: t

def Wire.bytes (w : Wire) : Bytes :=
  if w.fin then encode w.op w.payload w.mask else clearFin (encode w.op w.payload w.mask)

/-- The first byte: the FIN bit and the opcode. -/
def firstByte (fin : Bool) (op : UInt8) : UInt8 := if fin then 0x80 ||| op else (0x80 ||| op) &&& 0x7F

theorem Wire.bytes_eq (w : Wire) :
    w.bytes = firstByte w.fin w.op :: (lenField (maskBit w.mask) w.payload.length ++ body w.payload w.mask) := by
  unfold Wire.bytes firstByte
  rw [encode_eq]
  split <;> rfl

theorem knownOp_iff {op : UInt8} : knownOp op = true ↔
    op = CONTINUATION ∨ op = TEXT ∨ op = BINARY ∨ op = CLOSE ∨ op = PING ∨ op = PONG := by
  simp only [knownOp, Bool.or_eq_true, beq_iff_eq, or_assoc]

/-- The first byte of a known opcode carries the FIN bit, the opcode and nothing else. -/
theorem firstByte_bits (fin : Bool) {op : UInt8} (h : knownOp op = true) :
    (firstByte fin op &&& 0x80 != 0) = fin ∧ firstByte fin op &&& 0x0F = op ∧ firstByte fin op &&& 0x70 = 0 := by
  rcases knownOp_iff.mp h with rfl | rfl | rfl | rfl | rfl | rfl <;> cases fin <;> decide

/-- A first byte without reserved bits is its FIN bit and its opcode. -/
theorem eq_firstByte : ∀ {b : UInt8}, b &&& 0x70 = 0 → b = firstByte (b &&& 0x80 != 0) (b &&& 0x0F) :=
  fun {b} => forall_byte (P := fun b => b &&& 0x70 = 0 → b = firstByte (b &&& 0x80 != 0) (b &&& 0x0F))
    (by decide +kernel) b

/-- A second byte is its mask bit and its seven length bits. -/
theorem eq_secondByte : ∀ b : UInt8,
    b = (if b &&& 0x80 != 0 then 0x80 else 0) ||| UInt8.ofNat (b &&& 0x7F).toNat :=
  forall_byte (by decide +kernel)

theorem lenBits_lt : ∀ b : UInt8, (b &&& 0x7F).toNat < 128 :=
  forall_byte (by decide +kernel)

theorem secondByte_len {masked : Bool} {n : Nat} (h : n < 128) :
    (((if masked then 0x80 else 0) ||| UInt8.ofNat n) &&& 0x7F).toNat = n := by
  have : ∀ m : Fin 128, ((0x80 ||| UInt8.ofNat m.val) &&& 0x7F).toNat = m.val ∧
      (((0 : UInt8) ||| UInt8.ofNat m.val) &&& 0x7F).toNat = m.val := by decide
  cases masked
  · exact (this ⟨n, h⟩).2
  · exact (this ⟨n, h⟩).1

theorem secondByte_masked {masked : Bool} {n : Nat} (h : n < 128) :
    (((if masked then 0x80 else 0) ||| UInt8.ofNat n) &&& 0x80 != 0) = masked := by
  have : ∀ m : Fin 128, (((0x80 ||| UInt8.ofNat m.val) &&& 0x80 != 0) = true) ∧
      ((((0 : UInt8) ||| UInt8.ofNat m.val) &&& 0x80 != 0) = false) := by decide
  cases masked
  · exact (this ⟨n, h⟩).2
  · exact (this ⟨n, h⟩).1

/-! ## The length field -/

/-- The seven length bits the encoder writes. -/
def lenCode (n : Nat) : Nat := if n ≤ 125 then n else if n ≤ 0xFFFF then 126 else 127

theorem lenCode_lt (n : Nat) : lenCode n < 128 := by
  unfold lenCode
  split
  · omega
  · split <;> omega

/-- The field's bytes after the marker. -/
def lenExt (n : Nat) : Bytes :=
  if n ≤ 125 then [] else if n ≤ 0xFFFF then BigEndian.toBytes 2 n else BigEndian.toBytes 8 n

theorem lenField_eq (bit : UInt8) (n : Nat) : lenField bit n = (bit ||| UInt8.ofNat (lenCode n)) :: lenExt n := by
  unfold lenField lenCode lenExt
  split
  · rfl
  · split <;> rfl

/-- The encoder's length field is read back, and where it ends is known. -/
theorem lenAt_lenField {masked : Bool} {n : Nat} (hn : n < 2 ^ 63) (b0 : UInt8) (rest : Bytes) :
    lenAt (b0 :: (lenField (if masked then 0x80 else 0) n ++ rest)) = some (n, 2 + (lenExt n).length) := by
  rw [lenField_eq]
  unfold lenAt
  simp only [List.cons_append, List.getD_cons_succ, List.getD_cons_zero, secondByte_len (lenCode_lt n),
    List.length_cons, List.drop_succ_cons, List.drop_zero]
  unfold lenCode lenExt
  split
  · rw [if_neg (by omega), if_neg (by omega), if_neg (by omega)]
    rfl
  · split
    · rename_i h2
      have hlen := BigEndian.length_toBytes 2 n
      rw [if_pos ⟨rfl, by rw [List.length_append, hlen]; omega⟩, List.take_append_of_le_length (by omega),
        List.take_of_length_le (by omega), BigEndian.ofBytes_toBytes (by omega), hlen]
    · have hlen := BigEndian.length_toBytes 8 n
      rw [if_neg (by omega), if_pos ⟨rfl, by rw [List.length_append, hlen]; omega⟩,
        List.take_append_of_le_length (by omega), List.take_of_length_le (by omega),
        BigEndian.ofBytes_toBytes (by omega), hlen]

/-- Conversely, a length that passed the check is written the one way the encoder writes it. -/
theorem lenField_of_lenAt {b : Bytes} {len at_ : Nat} (h2 : 2 ≤ b.length) (h : lenAt b = some (len, at_))
    (hmin : ¬ ((at_ = 4 ∧ len < 126) ∨ (at_ = 10 ∧ (len < 65536 ∨ len >>> 63 ≠ 0)))) :
    len < 2 ^ 63 ∧ at_ = 2 + (lenExt len).length ∧
      b = b.getD 0 0 :: (lenField (if b.getD 1 0 &&& 0x80 != 0 then 0x80 else 0) len ++ b.drop at_) := by
  obtain ⟨b0, b1, rest, rfl⟩ : ∃ b0 b1 rest, b = b0 :: b1 :: rest := by
    match b, h2 with
    | b0 :: b1 :: rest, _ => exact ⟨b0, b1, rest, rfl⟩
  simp only [List.getD_cons_zero, List.getD_cons_succ]
  have hb1 := eq_secondByte b1
  unfold lenAt at h
  simp only [List.getD_cons_succ, List.getD_cons_zero, List.length_cons, List.drop_succ_cons, List.drop_zero] at h
  rw [lenField_eq]
  split at h
  · -- two more bytes
    rename_i hn
    cases h
    have hlen : (rest.take 2).length = 2 := by rw [List.length_take]; omega
    have hlt := BigEndian.ofBytes_lt (rest.take 2)
    rw [hlen] at hlt
    have hge : 126 ≤ BigEndian.ofBytes (rest.take 2) := by omega
    have hext : lenExt (BigEndian.ofBytes (rest.take 2)) = rest.take 2 := by
      unfold lenExt
      rw [if_neg (by omega), if_pos (by omega), BigEndian.toBytes_of_length hlen]
    have hcode : lenCode (BigEndian.ofBytes (rest.take 2)) = 126 := by
      unfold lenCode
      rw [if_neg (by omega), if_pos (by omega)]
    refine ⟨by omega, by rw [hext, hlen], ?_⟩
    rw [hcode, hext, ← hn.1, ← hb1, List.drop_succ_cons, List.drop_succ_cons, List.cons_append,
      List.take_append_drop]
  · split at h
    · -- eight more bytes
      rename_i hn
      cases h
      have hlen : (rest.take 8).length = 8 := by rw [List.length_take]; omega
      have hshift : BigEndian.ofBytes (rest.take 8) >>> 63 = 0 ∧ 65536 ≤ BigEndian.ofBytes (rest.take 8) := by
        omega
      rw [Nat.shiftRight_eq_div_pow] at hshift
      have hext : lenExt (BigEndian.ofBytes (rest.take 8)) = rest.take 8 := by
        unfold lenExt
        rw [if_neg (by omega), if_neg (by omega), BigEndian.toBytes_of_length hlen]
      have hcode : lenCode (BigEndian.ofBytes (rest.take 8)) = 127 := by
        unfold lenCode
        rw [if_neg (by omega), if_neg (by omega)]
      refine ⟨by omega, by rw [hext, hlen], ?_⟩
      rw [hcode, hext, ← hn.1, ← hb1, List.drop_succ_cons, List.drop_succ_cons, List.cons_append,
        List.take_append_drop]
    · split at h
      · cases h
      · cases h
        have hlt := lenBits_lt b1
        have hext : lenExt (b1 &&& 0x7F).toNat = [] := by
          unfold lenExt
          rw [if_pos (by omega)]
        have hcode : lenCode (b1 &&& 0x7F).toNat = (b1 &&& 0x7F).toNat := by
          unfold lenCode
          rw [if_pos (by omega)]
        refine ⟨by omega, by rw [hext]; rfl, ?_⟩
        rw [hcode, hext, ← hb1]
        rfl

/-! ## One frame -/

/-- What the reader asks of a frame before it takes its payload, the open message being `p`. -/
structure Admits (server : Bool) (max : Nat) (p : Option Partial) (w : Wire) : Prop where
  known : knownOp w.op = true
  masked : w.mask.isSome = server
  continues : w.op = CONTINUATION → p.isSome = true
  starts : w.op = TEXT ∨ w.op = BINARY → p.isSome = false
  control : CLOSE ≤ w.op → w.fin = true ∧ w.payload.length ≤ 125
  size : ¬ CLOSE ≤ w.op → saturatingAdd w.payload.length ((p.map (·.data.length)).getD 0) ≤ max
  short : w.payload.length < 2 ^ 63

/-- What a frame's payload leads to, with `rest` behind it. -/
def verdict (p : Option Partial) (w : Wire) (rest : Bytes) : Verdict (Option Partial) UInt8 Msg Fail :=
  match assemblePayload p w.fin w.op w.payload with
  | (_, .error f) => .fail f
  | (q, .ok out) => .item out q rest

theorem checkFirst_none_iff {server isOpen : Bool} {b0 b1 : UInt8} :
    checkFirst server isOpen b0 b1 = none ↔
      b0 &&& 0x70 = 0 ∧ knownOp (b0 &&& 0x0F) = true ∧ (b1 &&& 0x80 != 0) = server ∧
      (b0 &&& 0x0F = CONTINUATION → isOpen = true) ∧
      (b0 &&& 0x0F = TEXT ∨ b0 &&& 0x0F = BINARY → isOpen = false) := by
  unfold checkFirst
  dsimp only
  generalize b0 &&& 0x0F = op
  generalize (b1 &&& 0x80 != 0) = masked
  by_cases h0 : b0 &&& 0x70 = 0
  · by_cases hk : knownOp op = true
    · rcases knownOp_iff.mp hk with rfl | rfl | rfl | rfl | rfl | rfl <;>
        cases isOpen <;> cases masked <;> cases server <;> simp [h0] <;> decide
    · simp [h0, hk]
  · simp [h0]

theorem checkLen_none_iff {max pending len at_ : Nat} {fin : Bool} {op : UInt8} :
    checkLen max pending fin op len at_ = none ↔
      ¬ ((at_ = 4 ∧ len < 126) ∨ (at_ = 10 ∧ (len < 65536 ∨ len >>> 63 ≠ 0))) ∧
      (CLOSE ≤ op → fin = true ∧ len ≤ 125) ∧ (¬ CLOSE ≤ op → saturatingAdd len pending ≤ max) := by
  unfold checkLen
  by_cases hmin : (at_ = 4 ∧ len < 126) ∨ (at_ = 10 ∧ (len < 65536 ∨ len >>> 63 ≠ 0))
  · rw [if_pos hmin]
    exact ⟨fun h => (by cases h), fun h => absurd hmin h.1⟩
  · rw [if_neg hmin]
    by_cases hop : CLOSE ≤ op
    · rw [if_pos hop]
      cases fin <;> simp [hmin, hop]
    · rw [if_neg hop]
      simp [hmin, hop]

/-- The encoder's length field passes the minimality check. -/
theorem lenExt_minimal {n : Nat} (hn : n < 2 ^ 63) :
    ¬ ((2 + (lenExt n).length = 4 ∧ n < 126) ∨
      (2 + (lenExt n).length = 10 ∧ (n < 65536 ∨ n >>> 63 ≠ 0))) := by
  have hshift : n >>> 63 = 0 := by
    rw [Nat.shiftRight_eq_div_pow]
    omega
  unfold lenExt
  split
  · simp
  · split
    · rw [BigEndian.length_toBytes]; omega
    · rw [BigEndian.length_toBytes, hshift]; omega

/-- The key behind a prefix is read back. -/
theorem maskAt_body (pre payload rest : Bytes) (mask : Option Key) :
    maskAt mask.isSome (pre ++ (body payload mask ++ rest)) pre.length =
      some (mask, pre.length + if mask.isSome then 4 else 0) := by
  cases mask with
  | none => rfl
  | some key =>
    obtain ⟨k0, k1, k2, k3⟩ := key
    have hbody : body payload (some ⟨k0, k1, k2, k3⟩) ++ rest =
        k0 :: k1 :: k2 :: k3 :: (applyMask payload ⟨k0, k1, k2, k3⟩ ++ rest) := rfl
    unfold maskAt
    rw [hbody]
    simp only [Option.isSome_some, if_true]
    rw [if_neg (by simp only [List.length_append, List.length_cons]; omega)]
    rw [List.getD_append_right _ _ _ _ (by omega), List.getD_append_right _ _ _ _ (by omega),
      List.getD_append_right _ _ _ _ (by omega), List.getD_append_right _ _ _ _ (by omega),
      Nat.sub_self, Nat.add_sub_cancel_left, Nat.add_sub_cancel_left, Nat.add_sub_cancel_left]
    rfl

/-- **An encoded frame is read back**, whatever follows it. -/
theorem head_bytes {server : Bool} {max : Nat} {p : Option Partial} {w : Wire} (h : Admits server max p w)
    (rest : Bytes) :
    head server max p (w.bytes ++ rest) = .ok (some ⟨w.fin, w.op, w.mask,
      2 + (lenExt w.payload.length).length + (if w.mask.isSome then 4 else 0), w.payload.length⟩) := by
  obtain ⟨hfin, hop, hrsv⟩ := firstByte_bits w.fin h.known
  have hcode := lenCode_lt w.payload.length
  have hbytes : w.bytes ++ rest = firstByte w.fin w.op ::
      (lenField (if w.mask.isSome then 0x80 else 0) w.payload.length ++ (body w.payload w.mask ++ rest)) := by
    rw [Wire.bytes_eq, List.cons_append, List.append_assoc]
    rfl
  have hlen : lenAt (w.bytes ++ rest) = some (w.payload.length, 2 + (lenExt w.payload.length).length) := by
    rw [hbytes, lenAt_lenField h.short]
  have h0 : (w.bytes ++ rest).getD 0 0 = firstByte w.fin w.op := by rw [hbytes]; rfl
  have h1 : (w.bytes ++ rest).getD 1 0 =
      (if w.mask.isSome then 0x80 else 0) ||| UInt8.ofNat (lenCode w.payload.length) := by
    rw [hbytes, lenField_eq]
    rfl
  have hmask : maskAt w.mask.isSome (w.bytes ++ rest) (2 + (lenExt w.payload.length).length) =
      some (w.mask, 2 + (lenExt w.payload.length).length + if w.mask.isSome then 4 else 0) := by
    have hpre : (firstByte w.fin w.op ::
        lenField (if w.mask.isSome then 0x80 else 0) w.payload.length).length =
        2 + (lenExt w.payload.length).length := by
      rw [lenField_eq, List.length_cons, List.length_cons]
      omega
    rw [← hpre, hbytes, ← List.cons_append]
    exact maskAt_body _ _ _ _
  have htwo : ¬ (w.bytes ++ rest).length < 2 := by
    rw [hbytes, lenField_eq]
    simp only [List.length_cons, List.cons_append]
    omega
  have hfirst : checkFirst server p.isSome (firstByte w.fin w.op)
      ((if w.mask.isSome then 0x80 else 0) ||| UInt8.ofNat (lenCode w.payload.length)) = none := by
    rw [checkFirst_none_iff, hop, secondByte_masked hcode]
    exact ⟨hrsv, h.known, h.masked, h.continues, h.starts⟩
  have hcheck : checkLen max ((p.map (·.data.length)).getD 0) w.fin w.op w.payload.length
      (2 + (lenExt w.payload.length).length) = none :=
    checkLen_none_iff.mpr ⟨lenExt_minimal h.short, h.control, h.size⟩
  unfold head
  rw [if_neg htwo]
  dsimp only
  rw [h0, h1, hfirst, hlen]
  dsimp only
  rw [hfin, hop, hcheck, secondByte_masked hcode, hmask]

/-- The payload and the rest behind a header of the encoder's. -/
theorem drop_bytes (w : Wire) (rest : Bytes) :
    (w.bytes ++ rest).drop (2 + (lenExt w.payload.length).length + if w.mask.isSome then 4 else 0) =
      (match w.mask with | some key => applyMask w.payload key | none => w.payload) ++ rest := by
  have hlen : (firstByte w.fin w.op :: lenField (maskBit w.mask) w.payload.length).length =
      2 + (lenExt w.payload.length).length := by
    rw [lenField_eq, List.length_cons, List.length_cons]
    omega
  have hbytes : w.bytes ++ rest = (firstByte w.fin w.op :: lenField (maskBit w.mask) w.payload.length) ++
      (body w.payload w.mask ++ rest) := by
    rw [Wire.bytes_eq, List.cons_append, List.cons_append, List.append_assoc]
  rw [← List.drop_drop, ← hlen, hbytes, List.drop_left]
  cases w.mask with
  | none => rfl
  | some key => rfl

/-- **One encoded frame is one step of the decoder.** -/
theorem nextFrame_bytes {server : Bool} {max : Nat} {p : Option Partial} {w : Wire} (h : Admits server max p w)
    (rest : Bytes) : nextFrame server max p (w.bytes ++ rest) = verdict p w rest := by
  have hdrop := drop_bytes w rest
  have hlen : w.payload.length ≤ (w.bytes ++ rest).length -
      (2 + (lenExt w.payload.length).length + if w.mask.isSome then 4 else 0) := by
    rw [← List.length_drop, hdrop, List.length_append]
    cases w.mask with
    | none => exact Nat.le_add_right _ _
    | some key => rw [length_applyMask]; exact Nat.le_add_right _ _
  rw [nextFrame_of_head (head_bytes h rest) hlen, verdict]
  have hpay : unmasked ⟨w.fin, w.op, w.mask,
      2 + (lenExt w.payload.length).length + (if w.mask.isSome then 4 else 0), w.payload.length⟩
      (w.bytes ++ rest) = w.payload := by
    unfold unmasked
    dsimp only
    rw [hdrop]
    cases w.mask with
    | none => exact List.take_left
    | some key =>
      dsimp only
      rw [List.take_append_of_le_length (by rw [length_applyMask]),
        List.take_of_length_le (by rw [length_applyMask]), applyMask_applyMask]
  have hrest : (w.bytes ++ rest).drop (2 + (lenExt w.payload.length).length +
      (if w.mask.isSome then 4 else 0) + w.payload.length) = rest := by
    rw [← List.drop_drop, hdrop]
    cases w.mask with
    | none => exact List.drop_left
    | some key =>
      dsimp only
      rw [List.drop_append_of_le_length (by rw [length_applyMask]),
        List.drop_of_length_le (by rw [length_applyMask]), List.nil_append]
  dsimp only
  rw [hpay, hrest] <;> rfl

/-- **An accepted header is the encoder's**: the bytes in front are exactly one encoded frame. -/
theorem bytes_of_head {server : Bool} {max : Nat} {p : Option Partial} {b : Bytes} {h : Head}
    (hh : head server max p b = .ok (some h)) (hl : h.len ≤ b.length - h.start) :
    ∃ w, Admits server max p w ∧ b = w.bytes ++ b.drop (h.start + h.len) ∧
      w.fin = h.fin ∧ w.op = h.op ∧ w.payload = unmasked h b := by
  rcases head_cases hh with ⟨_, h0⟩ | ⟨h2, ⟨f, _, h0⟩ | ⟨hf, ⟨_, h0⟩ | ⟨len, at_, hlen, ⟨f, _, h0⟩ | ⟨hc, ⟨_, h0⟩ |
    ⟨mask, start, hm, h0⟩⟩⟩⟩⟩
  all_goals cases h0
  dsimp only at hl
  obtain ⟨hrsv, hknown, hmasked, hcont, hstart⟩ := checkFirst_none_iff.mp hf
  obtain ⟨hmin, hctl, hsize⟩ := checkLen_none_iff.mp hc
  obtain ⟨hshort, hat, hb⟩ := lenField_of_lenAt h2 hlen hmin
  have hbounds := lenAt_bounds h2 hlen
  -- the bytes behind the length field are the key and the payload under it
  obtain ⟨hsome, hbody⟩ : mask.isSome = (b.getD 1 0 &&& 0x80 != 0) ∧
      b.drop at_ = body (unmasked ⟨b.getD 0 0 &&& 0x80 != 0, b.getD 0 0 &&& 0x0F, mask, start, len⟩ b) mask ++
        b.drop (start + len) := by
    unfold maskAt at hm
    split at hm
    · rename_i hmk
      split at hm
      · cases hm
      · rename_i hl4
        cases hm
        refine ⟨hmk.symm, ?_⟩
        have htail := List.take_append_drop len (b.drop (at_ + 4))
        rw [List.drop_drop] at htail
        have hsplit : ∀ i < b.length, b.drop i = b.getD i 0 :: b.drop (i + 1) := by
          intro i hi
          rw [List.drop_eq_getElem_cons hi, List.getD_eq_getElem _ _ hi]
        rw [hsplit at_ (by omega), hsplit (at_ + 1) (by omega), hsplit (at_ + 2) (by omega),
          hsplit (at_ + 3) (by omega)]
        unfold unmasked body
        dsimp only
        rw [applyMask_applyMask, List.append_assoc, htail]
        rfl
    · rename_i hmk
      cases hm
      refine ⟨(Bool.eq_false_iff.mpr hmk).symm, ?_⟩
      unfold unmasked body
      dsimp only
      rw [← List.drop_drop, List.take_append_drop]
  have hpaylen : (unmasked ⟨b.getD 0 0 &&& 0x80 != 0, b.getD 0 0 &&& 0x0F, mask, start, len⟩ b).length = len := by
    unfold unmasked
    dsimp only
    have : ((b.drop start).take len).length = len := by rw [List.length_take, List.length_drop]; omega
    cases mask with
    | none => exact this
    | some key => rw [length_applyMask, this]
  refine ⟨⟨b.getD 0 0 &&& 0x80 != 0, b.getD 0 0 &&& 0x0F,
    unmasked ⟨b.getD 0 0 &&& 0x80 != 0, b.getD 0 0 &&& 0x0F, mask, start, len⟩ b, mask⟩,
    ⟨hknown, hsome.trans hmasked, hcont, hstart, ?_, ?_, ?_⟩, ?_, rfl, rfl, rfl⟩
  · rw [hpaylen]; exact hctl
  · rw [hpaylen]; exact hsize
  · rw [hpaylen]; exact hshort
  · rw [Wire.bytes_eq]
    dsimp only
    rw [hpaylen, ← eq_firstByte hrsv, List.cons_append, List.append_assoc, ← hbody]
    conv => lhs; rw [hb]
    unfold maskBit
    rw [hsome]

end WebSocket.Proto
