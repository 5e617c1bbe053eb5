import WebSocket.Lib.BigEndian
import WebSocket.Lib.Utf8
import Mathlib.Data.List.Basic

/-!
# Frame encoding and the message types the reader produces

`core/src/proto/frame.rs`, function by function: the encoded size of a frame,
the encoder that appends one frame to a buffer, word-at-a-time masking, the close
payload and its codes. A Rust slice is a `List UInt8`; a `&str` is a `Str`, which
carries its own validity.

`encode_eq` is the encoder's one spec: everything later reads a frame as its first
byte, its length field, its key and its masked payload, and never unfolds the
appends. `applyMask_eq` replaces the word loop by the bytewise one, for either byte
order of the machine.
-/

namespace WebSocket

open Lib

abbrev Bytes := List UInt8

/-- `usize::MAX` on the 64-bit targets. -/
def usizeMax : Nat := 2 ^ 64 - 1

/-- `usize::saturating_add`. -/
def saturatingAdd (a b : Nat) : Nat := min (a + b) usizeMax

/-- A Rust slice holds at most `isize::MAX` bytes. -/
def isizeMax : Nat := 2 ^ 63 - 1

/-- What a `&[u8]` can hold. -/
structure Slice where
  bytes : Bytes
  bound : bytes.length ≤ isizeMax
  deriving DecidableEq

/-- A Rust string: bytes that are valid UTF-8. -/
structure Str where
  bytes : Bytes
  valid : Utf8.Valid bytes
  deriving DecidableEq

namespace Str

theorem ext {a b : Str} (h : a.bytes = b.bytes) : a = b := by
  cases a; cases b; cases h; rfl

/-- `String::new()`. -/
def empty : Str := ⟨[], Utf8.valid_nil⟩

/-- `std::str::from_utf8`: the same bytes as a string, if they are valid. -/
def fromUtf8 (b : Bytes) : Option Str :=
  if h : Utf8.fromUtf8 b = .ok () then some ⟨b, (Utf8.fromUtf8_ok_iff b).mp h⟩ else none

theorem fromUtf8_eq_some {b : Bytes} {s : Str} : fromUtf8 b = some s ↔ s.bytes = b := by
  unfold fromUtf8
  split
  · rw [Option.some.injEq]
    exact ⟨fun h => by rw [← h], fun h => ext h.symm⟩
  · rename_i h
    refine ⟨fun h' => (by cases h'), fun h' => absurd ?_ h⟩
    rw [Utf8.fromUtf8_ok_iff, ← h']
    exact s.valid

end Str

namespace Proto

def TEXT : UInt8 := 0x1
def BINARY : UInt8 := 0x2
def CLOSE : UInt8 := 0x8
def PING : UInt8 := 0x9
def PONG : UInt8 := 0xA
def CONTINUATION : UInt8 := 0x0

/-- Size of an encoded frame carrying `len` payload bytes. -/
def encodedLen (len : Nat) (masked : Bool) : Nat :=
  let extended := if len ≤ 125 then 0 else if len ≤ 0xFFFF then 2 else 8
  saturatingAdd len (2 + extended + if masked then 4 else 0)

/-- A mask key, `[u8; 4]`; a chunk of four payload bytes has the same shape. -/
structure Key where
  k0 : UInt8
  k1 : UInt8
  k2 : UInt8
  k3 : UInt8
  deriving DecidableEq, Repr

def Key.bytes (k : Key) : Bytes := [k.k0, k.k1, k.k2, k.k3]

@[simp] theorem Key.length_bytes (k : Key) : k.bytes.length = 4 := rfl

/-- A property of every byte, checked on the 256 of them. -/
theorem forall_byte {P : UInt8 → Prop} (h : ∀ n : Fin 256, P (UInt8.ofNat n.val)) (x : UInt8) : P x := by
  have := h ⟨x.toNat, x.toNat_lt⟩
  rwa [UInt8.ofNat_toNat] at this

/-! ## Masking -/

/-- The byte order of the machine. -/
inductive Endian where
  | little
  | big
  deriving DecidableEq, Repr

/-- `u32::from_ne_bytes`. -/
def fromNeBytes : Endian → Key → BitVec 32
  | .little, c => c.k3.toBitVec ++ c.k2.toBitVec ++ c.k1.toBitVec ++ c.k0.toBitVec
  | .big, c => c.k0.toBitVec ++ c.k1.toBitVec ++ c.k2.toBitVec ++ c.k3.toBitVec

/-- `u32::to_ne_bytes`. -/
def toNeBytes : Endian → BitVec 32 → Key
  | .little, w => ⟨⟨w.extractLsb' 0 8⟩, ⟨w.extractLsb' 8 8⟩, ⟨w.extractLsb' 16 8⟩, ⟨w.extractLsb' 24 8⟩⟩
  | .big, w => ⟨⟨w.extractLsb' 24 8⟩, ⟨w.extractLsb' 16 8⟩, ⟨w.extractLsb' 8 8⟩, ⟨w.extractLsb' 0 8⟩⟩

/-- `apply_mask` on a machine of the given byte order: whole chunks of four bytes as one word
each, then what is left byte by byte. -/
def applyMaskNe (e : Endian) (key : Key) : Bytes → Bytes
  | a :: b :: c :: d :: rest =>
    let word := toNeBytes e (fromNeBytes e ⟨a, b, c, d⟩ ^^^ fromNeBytes e key)
    word.k0 :: word.k1 :: word.k2 :: word.k3 :: applyMaskNe e key rest
  | rest => List.zipWith (· ^^^ ·) rest key.bytes

/-- `apply_mask` on a little-endian machine; `applyMaskNe_eq` shows that the choice is
immaterial. -/
def applyMask (data : Bytes) (key : Key) : Bytes := applyMaskNe .little key data

/-- Bytewise masking: byte `i` with key byte `i % 4`. -/
def xorMask (key : Key) : Bytes → Bytes
  | [] => []
  | a :: rest => (a ^^^ key.k0) :: xorMask ⟨key.k1, key.k2, key.k3, key.k0⟩ rest

/-- One word of the loop is four bytes of the bytewise one. -/
theorem toNeBytes_xor (e : Endian) (c k : Key) :
    toNeBytes e (fromNeBytes e c ^^^ fromNeBytes e k) =
      ⟨c.k0 ^^^ k.k0, c.k1 ^^^ k.k1, c.k2 ^^^ k.k2, c.k3 ^^^ k.k3⟩ := by
  cases e <;>
  · simp only [toNeBytes, fromNeBytes, Key.mk.injEq]
    refine ⟨?_, ?_, ?_, ?_⟩ <;>
    · apply UInt8.toBitVec_inj.mp
      apply BitVec.eq_of_getLsbD_eq
      intro i hi
      simp only [UInt8.toBitVec_xor, BitVec.getLsbD_extractLsb', BitVec.getLsbD_xor, BitVec.getLsbD_append]
      have h16 : ¬ 16 + i < 8 := by omega
      have h24 : ¬ 24 + i < 8 := by omega
      have h8 : ¬ 8 + i < 8 := by omega
      have s8 : 8 + i - 8 = i := by omega
      have s16 : 16 + i - 8 - 8 = i := by omega
      have s24 : 24 + i - 8 - 8 - 8 = i := by omega
      have n16 : ¬ 16 + i - 8 < 8 := by omega
      have n24 : ¬ 24 + i - 8 < 8 := by omega
      have m24 : ¬ 24 + i - 8 - 8 < 8 := by omega
      simp [hi, h8, h16, h24, s8, s16, s24, n16, n24, m24]

/-- **Word-at-a-time masking is bytewise masking**, on machines of either byte order. -/
theorem applyMaskNe_eq (e : Endian) (key : Key) : ∀ data : Bytes, applyMaskNe e key data = xorMask key data
  | [] => rfl
  | [_] => rfl
  | [_, _] => rfl
  | [_, _, _] => rfl
  | a :: b :: c :: d :: rest => by
    rw [applyMaskNe, toNeBytes_xor, applyMaskNe_eq e key rest]
    rfl

theorem applyMask_eq (data : Bytes) (key : Key) : applyMask data key = xorMask key data :=
  applyMaskNe_eq .little key data

@[simp] theorem length_xorMask : ∀ (key : Key) (data : Bytes), (xorMask key data).length = data.length
  | _, [] => rfl
  | key, _ :: rest => by rw [xorMask, List.length_cons, length_xorMask, List.length_cons]

@[simp] theorem length_applyMask (data : Bytes) (key : Key) : (applyMask data key).length = data.length := by
  rw [applyMask_eq, length_xorMask]

theorem xorMask_xorMask : ∀ (key : Key) (data : Bytes), xorMask key (xorMask key data) = data
  | _, [] => rfl
  | key, a :: rest => by
    rw [xorMask, xorMask, xorMask_xorMask, UInt8.xor_assoc, UInt8.xor_self, UInt8.xor_zero]

/-- Masking twice restores the payload. -/
@[simp] theorem applyMask_applyMask (data : Bytes) (key : Key) : applyMask (applyMask data key) key = data := by
  rw [applyMask_eq, applyMask_eq, xorMask_xorMask]

/-- The key byte for byte `i` of the data. -/
def Key.nth (k : Key) (i : Nat) : UInt8 := k.bytes.getD (i % 4) 0

/-- The rotated key is the key from its second byte on. -/
theorem Key.nth_rotate (k : Key) (i : Nat) : (Key.mk k.k1 k.k2 k.k3 k.k0).nth i = k.nth (i + 1) := by
  have four : i % 4 = 0 ∨ i % 4 = 1 ∨ i % 4 = 2 ∨ i % 4 = 3 := by omega
  rw [nth, nth, Nat.add_mod]
  rcases four with h | h | h | h <;> rw [h] <;> rfl

theorem xorMask_eq_mapIdx (key : Key) (data : Bytes) : xorMask key data = data.mapIdx fun i b => b ^^^ key.nth i := by
  induction data generalizing key with
  | nil => rfl
  | cons a rest ih =>
    rw [xorMask, ih, List.mapIdx_cons]
    refine congrArg (_ :: ·) (congrArg (List.mapIdx · rest) ?_)
    funext i b
    rw [Key.nth_rotate]

/-- **`apply_mask` byte by byte**: whatever the byte order of the machine, byte `i` is masked with key
byte `i % 4`, and masking again undoes it. -/
theorem word_masking (e : Endian) (key : Key) (data : Bytes) :
    (applyMaskNe e key data = data.mapIdx fun i b => b ^^^ key.bytes.getD (i % 4) 0) ∧
      applyMaskNe e key (applyMaskNe e key data) = data := by
  refine ⟨?_, ?_⟩
  · rw [applyMaskNe_eq]
    exact xorMask_eq_mapIdx key data
  · rw [applyMaskNe_eq, applyMaskNe_eq, xorMask_xorMask]

/-! ## Encoding -/

/-- Appends one frame, masking only its new payload even when `out` holds frames. -/
def encodeInto (out : Bytes) (op : UInt8) (payload : Bytes) (mask : Option Key) : Bytes :=
  let len := payload.length
  let out := out ++ [0x80 ||| op]
  let bit : UInt8 := if mask.isSome then 0x80 else 0
  let out :=
    if len ≤ 125 then out ++ [bit ||| UInt8.ofNat len]
    else if len ≤ 0xFFFF then out ++ [bit ||| 126] ++ BigEndian.toBytes 2 len
    else out ++ [bit ||| 127] ++ BigEndian.toBytes 8 len
  let start := out.length + if mask.isSome then 4 else 0
  let out :=
    match mask with
    | some key => out ++ key.bytes
    | none => out
  let out := out ++ payload
  match mask with
  | some key => out.take start ++ applyMask (out.drop start) key
  | none => out

def encode (op : UInt8) (payload : Bytes) (mask : Option Key) : Bytes := encodeInto [] op payload mask

/-- The length field: one byte, or a marker and two or eight bytes. -/
def lenField (bit : UInt8) (len : Nat) : Bytes :=
  if len ≤ 125 then [bit ||| UInt8.ofNat len]
  else if len ≤ 0xFFFF then (bit ||| 126) :: BigEndian.toBytes 2 len
  else (bit ||| 127) :: BigEndian.toBytes 8 len

/-- The mask bit of the second byte. -/
def maskBit (mask : Option Key) : UInt8 := if mask.isSome then 0x80 else 0

/-- The key, if any, and the payload under it. -/
def body (payload : Bytes) : Option Key → Bytes
  | some key => key.bytes ++ applyMask payload key
  | none => payload

theorem encodeInto_eq (out : Bytes) (op : UInt8) (payload : Bytes) (mask : Option Key) :
    encodeInto out op payload mask =
      out ++ (0x80 ||| op) :: (lenField (maskBit mask) payload.length ++ body payload mask) := by
  have hfield : ∀ bit : UInt8,
      (if payload.length ≤ 125 then out ++ [0x80 ||| op] ++ [bit ||| UInt8.ofNat payload.length]
        else if payload.length ≤ 0xFFFF then out ++ [0x80 ||| op] ++ [bit ||| 126] ++ BigEndian.toBytes 2 payload.length
        else out ++ [0x80 ||| op] ++ [bit ||| 127] ++ BigEndian.toBytes 8 payload.length) =
        out ++ (0x80 ||| op) :: lenField bit payload.length := by
    intro bit
    unfold lenField
    split
    · simp
    · split <;> simp
  unfold encodeInto
  dsimp only
  rw [hfield]
  cases mask with
  | none => simp [maskBit, body]
  | some key =>
    have hstart : (out ++ (0x80 ||| op) :: lenField 0x80 payload.length).length + 4 =
        (out ++ (0x80 ||| op) :: lenField 0x80 payload.length ++ key.bytes).length := by
      simp only [List.length_append, Key.length_bytes]
    simp only [Option.isSome_some, if_true, maskBit, body]
    rw [hstart, List.take_left, List.drop_left]
    simp

/-- **A frame's bytes**: first byte, length field, key, payload under the key. -/
theorem encode_eq (op : UInt8) (payload : Bytes) (mask : Option Key) :
    encode op payload mask = (0x80 ||| op) :: (lenField (maskBit mask) payload.length ++ body payload mask) := by
  rw [encode, encodeInto_eq, List.nil_append]

/-- Appending to a buffer appends exactly the frame. -/
theorem encodeInto_append (out : Bytes) (op : UInt8) (payload : Bytes) (mask : Option Key) :
    encodeInto out op payload mask = out ++ encode op payload mask := by
  rw [encodeInto_eq, encode_eq]

theorem length_lenField (bit : UInt8) (len : Nat) :
    (lenField bit len).length = if len ≤ 125 then 1 else if len ≤ 0xFFFF then 3 else 9 := by
  unfold lenField
  split
  · rfl
  · split <;> simp

theorem length_body (payload : Bytes) (mask : Option Key) :
    (body payload mask).length = payload.length + if mask.isSome then 4 else 0 := by
  cases mask with
  | none => rfl
  | some key =>
    simp only [body, List.length_append, Key.length_bytes, length_applyMask, Option.isSome_some, if_true]
    omega

/-- **The predicted length is the real one**, for every payload a slice can hold. -/
theorem length_encode {payload : Bytes} (h : payload.length ≤ isizeMax) (op : UInt8) (mask : Option Key) :
    (encode op payload mask).length = encodedLen payload.length mask.isSome := by
  rw [encode_eq, List.length_cons, List.length_append, length_lenField, length_body]
  unfold encodedLen saturatingAdd usizeMax
  unfold isizeMax at h
  dsimp only
  cases mask.isSome <;> simp only [if_true, Bool.false_eq_true, if_false] <;>
  · split
    · omega
    · split <;> omega

/-- **Appending a frame is exact.** The buffer keeps what it held, whatever its length, and gains the
bytes of the frame: as many as `encoded_len` says, the payload under the key from its first byte on. -/
theorem append_frame (out : Bytes) (op : UInt8) {payload : Bytes} (mask : Option Key) (h : payload.length < 2 ^ 63) :
    encodeInto out op payload mask = out ++ encode op payload mask ∧
      (∀ key, mask = some key → ∃ head, encode op payload mask = head ++ key.bytes ++
        payload.mapIdx fun i b => b ^^^ key.bytes.getD (i % 4) 0) ∧
      (encodeInto out op payload mask).length = out.length + encodedLen payload.length mask.isSome := by
  refine ⟨encodeInto_append out op payload mask, ?_, ?_⟩
  · rintro key rfl
    refine ⟨(0x80 ||| op) :: lenField (maskBit (some key)) payload.length, ?_⟩
    rw [encode_eq, body, applyMask_eq, xorMask_eq_mapIdx, List.append_assoc]
    rfl
  · rw [encodeInto_append, List.length_append, length_encode (Nat.le_pred_of_lt h)]

/-- A masked frame behind three bytes: the key starts over. -/
theorem append_frame_third :
    encodeInto [1, 2, 3] BINARY [0xF0, 0x0F] (some ⟨1, 2, 3, 4⟩) = [1, 2, 3, 0x82, 0x82, 1, 2, 3, 4, 0xF1, 0x0D] ∧
      (encodeInto [1, 2, 3] BINARY [0xF0, 0x0F] (some ⟨1, 2, 3, 4⟩)).length = 3 + encodedLen 2 true :=
  ⟨rfl, (@append_frame [1, 2, 3] BINARY [0xF0, 0x0F] (some ⟨1, 2, 3, 4⟩) (by decide)).2.2⟩

theorem two_le_length_encode (op : UInt8) (payload : Bytes) (mask : Option Key) :
    2 ≤ (encode op payload mask).length := by
  rw [encode_eq, List.length_cons, List.length_append, length_lenField]
  split
  · omega
  · split <;> omega

/-! ## Close frames and messages -/

/-- Close payload: status code plus UTF-8 reason. -/
def closePayload (code : UInt16) (reason : Str) : Bytes :=
  BigEndian.toBytes 2 code.toNat ++ reason.bytes

/-- Codes an endpoint may receive in a close frame. -/
def validCloseCode (code : UInt16) : Bool :=
  let n := code.toNat
  (decide (1000 ≤ n) && decide (n ≤ 1003)) || (decide (1007 ≤ n) && decide (n ≤ 1014)) ||
    (decide (3000 ≤ n) && decide (n ≤ 4999))

inductive Msg where
  | text (data : Bytes)
  | binary (data : Bytes)
  | ping (data : Bytes)
  | pong (data : Bytes)
  /-- `none` when the peer sent no status code. -/
  | close (status : Option (UInt16 × Str))
  deriving DecidableEq

/-- A protocol violation: the close code to send and a description. -/
structure Fail where
  code : UInt16
  why : String
  deriving DecidableEq

@[simp] theorem length_closePayload (code : UInt16) (reason : Str) :
    (closePayload code reason).length = 2 + reason.bytes.length := by
  rw [closePayload, List.length_append, BigEndian.length_toBytes]

end Proto

end WebSocket
