import WebSocket.Proto.Http

/-!
# Base64

`core/src/proto/base64.rs`: the padded encoding of the handshake's keys, and its strict decoder.
`decode_encode` is the round trip over all byte strings; the handshake uses it at sixteen bytes.
`encode_of_decode` is the way back: a string that decodes is the encoding of what it decodes to.

Both directions meet in `digits`, the characters that carry bits: the encoder's chunks of three
and the decoder's groups of four are the same recursion over it.
-/

namespace WebSocket.Proto.Base64

def ALPHABET : Bytes := ascii "ABCDEFGHIJKLMNOPQRSTUVWXYZabcdefghijklmnopqrstuvwxyz0123456789+/"

/-- One turn of the loop of `encode`: up to three bytes become four characters. -/
def encodeChunk (chunk : Bytes) : Bytes :=
  let n := (chunk.getD 0 0).toNat * 2 ^ 16 + (chunk.getD 1 0).toNat * 2 ^ 8 + (chunk.getD 2 0).toNat
  (List.range 4).map fun i =>
    if i ≤ chunk.length then ALPHABET.getD (n / 2 ^ (18 - 6 * i) % 64) 0 else 61

def encode : Bytes → Bytes
  | [] => []
  | [a] => encodeChunk [a]
  | [a, b] => encodeChunk [a, b]
  | a :: b :: c :: rest => encodeChunk [a, b, c] ++ encode rest

/-- The loop of `decode`: the bytes so far, and the bits of an unfinished group of four. -/
def decodeLoop (out : Bytes) (n i : Nat) : Bytes → Option (Bytes × Nat)
  | [] => some (out, n)
  | c :: rest =>
    match ALPHABET.idxOf? c with
    | none => none
    | some v =>
      let n := (n * 2 ^ 6 + v) % 2 ^ 32
      if i % 4 = 3 then
        decodeLoop (out ++ [.ofNat (n / 2 ^ 16), .ofNat (n / 2 ^ 8), .ofNat n]) 0 (i + 1) rest
      else decodeLoop out n (i + 1) rest

/-- What `pad` characters of padding leave of the last group. -/
def decodeTail (pad : Nat) : Bytes × Nat → Option Bytes
  | (out, n) =>
    match pad with
    | 1 => if n % 4 ≠ 0 then none else some (out ++ [.ofNat (n / 2 ^ 10), .ofNat (n / 2 ^ 2)])
    | 2 => if n % 16 ≠ 0 then none else some (out ++ [.ofNat (n / 2 ^ 4)])
    | _ => some out

def decode (input : Bytes) : Option Bytes :=
  if input.length % 4 ≠ 0 then none
  else
    let pad := (input.reverse.takeWhile (· == 61)).length
    if 2 < pad then none
    else (decodeLoop [] 0 0 (input.take (input.length - pad))).bind (decodeTail pad)

/-! ## The round trip -/

/-- The character of six bits. -/
def char (v : Nat) : UInt8 := ALPHABET.getD v 0

theorem idxOf_char {v : Nat} (h : v < 64) : ALPHABET.idxOf? (char v) = some v := by
  have : ∀ v : Fin 64, ALPHABET.idxOf? (char v) = some v.val := by decide +kernel
  exact this ⟨v, h⟩

theorem char_ne {v : Nat} (h : v < 64) : char v ≠ 61 := by
  have : ∀ v : Fin 64, char v ≠ 61 := by decide +kernel
  exact this ⟨v, h⟩

/-- The characters that carry bits. -/
def digits : Bytes → Bytes
  | [] => []
  | [a] => [char (a.toNat / 4), char (a.toNat % 4 * 16)]
  | [a, b] => [char (a.toNat / 4), char (a.toNat % 4 * 16 + b.toNat / 16), char (b.toNat % 16 * 4)]
  | a :: b :: c :: rest =>
    [char (a.toNat / 4), char (a.toNat % 4 * 16 + b.toNat / 16), char (b.toNat % 16 * 4 + c.toNat / 64),
      char (c.toNat % 64)] ++ digits rest

/-- How many characters pad them. -/
def padding (b : Bytes) : Nat := (3 - b.length % 3) % 3

section

variable (a b c : UInt8)

theorem encodeChunk_three : encodeChunk [a, b, c] =
    [char (a.toNat / 4), char (a.toNat % 4 * 16 + b.toNat / 16), char (b.toNat % 16 * 4 + c.toNat / 64),
      char (c.toNat % 64)] := by
  have ha := a.toNat_lt
  have hb := b.toNat_lt
  have hc := c.toNat_lt
  let n := a.toNat * 2 ^ 16 + b.toNat * 2 ^ 8 + c.toNat
  have h0 : n / 2 ^ 18 % 64 = a.toNat / 4 := by omega
  have h1 : n / 2 ^ 12 % 64 = a.toNat % 4 * 16 + b.toNat / 16 := by omega
  have h2 : n / 2 ^ 6 % 64 = b.toNat % 16 * 4 + c.toNat / 64 := by omega
  have h3 : n / 2 ^ 0 % 64 = c.toNat % 64 := by omega
  rw [← h0, ← h1, ← h2, ← h3]
  rfl

theorem encodeChunk_two : encodeChunk [a, b] =
    [char (a.toNat / 4), char (a.toNat % 4 * 16 + b.toNat / 16), char (b.toNat % 16 * 4), 61] := by
  have ha := a.toNat_lt
  have hb := b.toNat_lt
  let n := a.toNat * 2 ^ 16 + b.toNat * 2 ^ 8 + 0
  have h0 : n / 2 ^ 18 % 64 = a.toNat / 4 := by omega
  have h1 : n / 2 ^ 12 % 64 = a.toNat % 4 * 16 + b.toNat / 16 := by omega
  have h2 : n / 2 ^ 6 % 64 = b.toNat % 16 * 4 := by omega
  rw [← h0, ← h1, ← h2]
  rfl

theorem encodeChunk_one : encodeChunk [a] = [char (a.toNat / 4), char (a.toNat % 4 * 16), 61, 61] := by
  have ha := a.toNat_lt
  let n := a.toNat * 2 ^ 16 + 0 * 2 ^ 8 + 0
  have h0 : n / 2 ^ 18 % 64 = a.toNat / 4 := by omega
  have h1 : n / 2 ^ 12 % 64 = a.toNat % 4 * 16 := by omega
  rw [← h0, ← h1]
  rfl

end

theorem encode_eq (b : Bytes) : encode b = digits b ++ List.replicate (padding b) 61 := by
  fun_induction encode b with
  | case1 => rfl
  | case2 a => exact encodeChunk_one a
  | case3 a b => exact encodeChunk_two a b
  | case4 a b c rest ih =>
    have hpad : padding (a :: b :: c :: rest) = padding rest := by
      simp only [padding, List.length_cons]
      omega
    rw [encodeChunk_three, ih, digits, hpad, List.append_assoc]

/-- What holds of every character of the alphabet holds of those that carry bits. -/
theorem forall_mem_digits {P : UInt8 → Prop} (h : ∀ v < 64, P (char v)) (b : Bytes) : ∀ c ∈ digits b, P c := by
  fun_induction digits b with
  | case1 => exact nofun
  | case2 a =>
    have ha := a.toNat_lt
    simp only [List.forall_mem_cons]
    exact ⟨h _ (by omega), h _ (by omega), nofun⟩
  | case3 a b =>
    have ha := a.toNat_lt
    have hb := b.toNat_lt
    simp only [List.forall_mem_cons]
    exact ⟨h _ (by omega), h _ (by omega), h _ (by omega), nofun⟩
  | case4 a b c rest ih =>
    have ha := a.toNat_lt
    have hb := b.toNat_lt
    have hc := c.toNat_lt
    simp only [List.cons_append, List.nil_append, List.forall_mem_cons]
    exact ⟨h _ (by omega), h _ (by omega), h _ (by omega), h _ (by omega), ih⟩

theorem forall_mem_encode {P : UInt8 → Prop} (h : ∀ v < 64, P (char v)) (hp : P 61) (b : Bytes) :
    ∀ c ∈ encode b, P c := by
  rw [encode_eq]
  refine List.forall_mem_append.mpr ⟨forall_mem_digits h b, fun c hc => ?_⟩
  rw [List.eq_of_mem_replicate hc]
  exact hp

/-- One character of a group that is not its last. -/
theorem decodeLoop_char {out rest : Bytes} {n i v : Nat} (hv : v < 64) (hi : i % 4 ≠ 3) (hn : n < 2 ^ 18) :
    decodeLoop out n i (char v :: rest) = decodeLoop out (n * 2 ^ 6 + v) (i + 1) rest := by
  rw [decodeLoop, idxOf_char hv]
  simp only [if_neg hi]
  rw [Nat.mod_eq_of_lt (by omega)]

/-- The last character of a group of four. -/
theorem decodeLoop_last {out rest : Bytes} {n i v : Nat} (hv : v < 64) (hi : i % 4 = 3) (hn : n < 2 ^ 18) :
    decodeLoop out n i (char v :: rest) = decodeLoop
      (out ++ [.ofNat ((n * 2 ^ 6 + v) / 2 ^ 16), .ofNat ((n * 2 ^ 6 + v) / 2 ^ 8), .ofNat (n * 2 ^ 6 + v)]) 0
      (i + 1) rest := by
  rw [decodeLoop, idxOf_char hv]
  simp only [if_pos hi]
  rw [Nat.mod_eq_of_lt (by omega)]

theorem ofNat_eq {n : Nat} {a : UInt8} (h : n % 256 = a.toNat) : UInt8.ofNat n = a := by
  rw [← UInt8.toNat_inj, UInt8.toNat_ofNat']
  exact h

/-- The characters that carry bits bring the bytes back. -/
theorem decodeLoop_digits (b : Bytes) : ∀ (out : Bytes) (i : Nat), i % 4 = 0 →
    (decodeLoop out 0 i (digits b)).bind (decodeTail (padding b)) = some (out ++ b) := by
  fun_induction digits b with
  | case1 =>
    intro out i hi
    simp [decodeLoop, padding, decodeTail]
  | case2 a =>
    intro out i hi
    have ha := a.toNat_lt
    rw [decodeLoop_char (by omega) (by omega) (by omega), decodeLoop_char (by omega) (by omega) (by omega)]
    simp only [decodeLoop, Option.bind_some, padding, List.length_cons, List.length_nil, decodeTail]
    rw [if_neg (by omega), ofNat_eq (a := a) (by omega)]
  | case3 a b =>
    intro out i hi
    have ha := a.toNat_lt
    have hb := b.toNat_lt
    rw [decodeLoop_char (by omega) (by omega) (by omega), decodeLoop_char (by omega) (by omega) (by omega),
      decodeLoop_char (by omega) (by omega) (by omega)]
    simp only [decodeLoop, Option.bind_some, padding, List.length_cons, List.length_nil, decodeTail]
    rw [if_neg (by omega), ofNat_eq (a := a) (by omega), ofNat_eq (a := b) (by omega)]
  | case4 a b c rest ih =>
    intro out i hi
    have ha := a.toNat_lt
    have hb := b.toNat_lt
    have hc := c.toNat_lt
    have hpad : padding (a :: b :: c :: rest) = padding rest := by
      simp only [padding, List.length_cons]
      omega
    simp only [List.cons_append, List.nil_append]
    rw [decodeLoop_char (by omega) (by omega) (by omega), decodeLoop_char (by omega) (by omega) (by omega),
      decodeLoop_char (by omega) (by omega) (by omega), decodeLoop_last (by omega) (by omega) (by omega),
      ofNat_eq (a := a) (by omega), ofNat_eq (a := b) (by omega), ofNat_eq (a := c) (by omega), hpad,
      ih _ _ (by omega)]
    simp

theorem length_digits (b : Bytes) : (digits b).length + padding b = (b.length + 2) / 3 * 4 := by
  fun_induction digits b with
  | case1 => rfl
  | case2 a => simp [padding]
  | case3 a b => simp [padding]
  | case4 a b c rest ih =>
    simp only [padding, List.length_append, List.length_cons, List.length_nil] at ih ⊢
    omega

theorem length_encode (b : Bytes) : (encode b).length = (b.length + 2) / 3 * 4 := by
  rw [encode_eq, List.length_append, List.length_replicate, length_digits]

theorem takeWhile_reverse_encode (b : Bytes) :
    (encode b).reverse.takeWhile (· == 61) = List.replicate (padding b) 61 := by
  have hpad : (List.replicate (padding b) (61 : UInt8)).takeWhile (· == 61) = List.replicate (padding b) 61 :=
    List.takeWhile_eq_self_iff.mpr fun x hx => by simp [List.eq_of_mem_replicate hx]
  have hdigits : (digits b).reverse.takeWhile (· == 61) = [] := by
    cases h : (digits b).reverse with
    | nil => rfl
    | cons c t =>
      have hc : c ∈ digits b := List.mem_reverse.mp (h ▸ List.mem_cons_self)
      have hne : c ≠ 61 := forall_mem_digits (P := (· ≠ 61)) (fun v hv => char_ne hv) b c hc
      simp [hne]
  rw [encode_eq, List.reverse_append, List.reverse_replicate, List.takeWhile_append, hpad, if_pos rfl, hdigits,
    List.append_nil]

theorem decode_encode (b : Bytes) : decode (encode b) = some b := by
  have hpad : ((encode b).reverse.takeWhile (· == 61)).length = padding b := by
    rw [takeWhile_reverse_encode, List.length_replicate]
  have htake : (encode b).take ((encode b).length - padding b) = digits b := by
    rw [length_encode, ← length_digits, Nat.add_sub_cancel, encode_eq, List.take_left]
  have hlen := length_encode b
  have hle : padding b ≤ 2 := by
    unfold padding
    omega
  unfold decode
  rw [if_neg (by omega), hpad, if_neg (by omega), htake, decodeLoop_digits b [] 0 rfl]
  rfl

/-! ## Only canonical strings decode -/

theorem char_of_idxOf {c : UInt8} {v : Nat} (h : ALPHABET.idxOf? c = some v) : v < 64 ∧ c = char v := by
  obtain ⟨hv, hc, -⟩ := List.findIdx?_eq_some_iff_getElem.mp h
  refine ⟨hv, ?_⟩
  rw [char, List.getD_eq_getElem?_getD, List.getElem?_eq_getElem hv, Option.getD_some]
  exact (beq_iff_eq.mp hc).symm

/-- A turn of the loop that gives a result read a character of the alphabet. -/
theorem decodeLoop_cons {out rest : Bytes} {n i pad : Nat} {c : UInt8} {y : Bytes}
    (h : (decodeLoop out n i (c :: rest)).bind (decodeTail pad) = some y) : ∃ v < 64, c = char v := by
  cases hv : ALPHABET.idxOf? c with
  | none => rw [decodeLoop, hv] at h; cases h
  | some v => exact ⟨v, char_of_idxOf hv⟩

/-- Two characters and two of padding hold one byte. -/
theorem digits_of_two {v w : Nat} (hv : v < 64) (hw : w < 64) (h : (v * 2 ^ 6 + w) % 16 = 0) :
    [char v, char w] = digits [.ofNat ((v * 2 ^ 6 + w) / 2 ^ 4)] := by
  have ha := Lib.Utf8.toNat_ofNat_lt (n := (v * 2 ^ 6 + w) / 2 ^ 4) (by omega)
  rw [digits, ha]
  congr 3 <;> omega

/-- Three characters and one of padding hold two bytes. -/
theorem digits_of_three {u v w : Nat} (hu : u < 64) (hv : v < 64) (hw : w < 64)
    (h : ((u * 2 ^ 6 + v) * 2 ^ 6 + w) % 4 = 0) :
    [char u, char v, char w] = digits
      [.ofNat (((u * 2 ^ 6 + v) * 2 ^ 6 + w) / 2 ^ 10), .ofNat (((u * 2 ^ 6 + v) * 2 ^ 6 + w) / 2 ^ 2)] := by
  have ha := Lib.Utf8.toNat_ofNat_lt (n := ((u * 2 ^ 6 + v) * 2 ^ 6 + w) / 2 ^ 10) (by omega)
  have hb : (UInt8.ofNat (((u * 2 ^ 6 + v) * 2 ^ 6 + w) / 2 ^ 2)).toNat = v % 16 * 16 + w / 4 := by
    rw [UInt8.toNat_ofNat']
    omega
  rw [digits, ha, hb]
  congr 1
  · congr 1; omega
  congr 1
  · congr 1; omega
  congr 2; omega

/-- Four characters hold three bytes. -/
theorem digits_of_four {u v w x : Nat} (hu : u < 64) (hv : v < 64) (hw : w < 64) (hx : x < 64) (rest : Bytes) :
    char u :: char v :: char w :: char x :: digits rest = digits
      (.ofNat ((((u * 2 ^ 6 + v) * 2 ^ 6 + w) * 2 ^ 6 + x) / 2 ^ 16) ::
        .ofNat ((((u * 2 ^ 6 + v) * 2 ^ 6 + w) * 2 ^ 6 + x) / 2 ^ 8) ::
        .ofNat (((u * 2 ^ 6 + v) * 2 ^ 6 + w) * 2 ^ 6 + x) :: rest) := by
  have ha := Lib.Utf8.toNat_ofNat_lt (n := (((u * 2 ^ 6 + v) * 2 ^ 6 + w) * 2 ^ 6 + x) / 2 ^ 16) (by omega)
  have hb : (UInt8.ofNat ((((u * 2 ^ 6 + v) * 2 ^ 6 + w) * 2 ^ 6 + x) / 2 ^ 8)).toNat = v % 16 * 16 + w / 4 := by
    rw [UInt8.toNat_ofNat']
    omega
  have hc : (UInt8.ofNat (((u * 2 ^ 6 + v) * 2 ^ 6 + w) * 2 ^ 6 + x)).toNat = w % 4 * 64 + x := by
    rw [UInt8.toNat_ofNat']
    omega
  have h0 : (((u * 2 ^ 6 + v) * 2 ^ 6 + w) * 2 ^ 6 + x) / 2 ^ 16 / 4 = u := by omega
  have h1 : (((u * 2 ^ 6 + v) * 2 ^ 6 + w) * 2 ^ 6 + x) / 2 ^ 16 % 4 * 16 + (v % 16 * 16 + w / 4) / 16 = v := by omega
  have h2 : (v % 16 * 16 + w / 4) % 16 * 4 + (w % 4 * 64 + x) / 64 = w := by omega
  have h3 : (w % 4 * 64 + x) % 64 = x := by omega
  rw [digits, ha, hb, hc, h0, h1, h2, h3]
  rfl

/-- What decodes is what the characters of some bytes are. The groups of four go as the encoder's chunks. -/
theorem digits_of_decodeLoop {pad : Nat} (hpad : pad ≤ 2) : ∀ (s out : Bytes) (i : Nat) {y : Bytes}, i % 4 = 0 →
    (s.length + pad) % 4 = 0 → (decodeLoop out 0 i s).bind (decodeTail pad) = some y →
    ∃ b, y = out ++ b ∧ s = digits b ∧ padding b = pad
  | [], out, i, y, _, hlen, h => by
    have : pad = 0 := by simp only [List.length_nil] at hlen; omega
    subst this
    cases h
    exact ⟨[], (List.append_nil _).symm, rfl, rfl⟩
  | [_], out, i, y, _, hlen, _ => by
    simp only [List.length_cons, List.length_nil] at hlen
    omega
  | [c, d], out, i, y, hi, hlen, h => by
    have : pad = 2 := by simp only [List.length_cons, List.length_nil] at hlen; omega
    subst this
    obtain ⟨v, hv, rfl⟩ := decodeLoop_cons h
    rw [decodeLoop_char hv (by omega) (by omega)] at h
    obtain ⟨w, hw, rfl⟩ := decodeLoop_cons h
    rw [decodeLoop_char hw (by omega) (by omega)] at h
    simp only [decodeLoop, Option.bind_some, decodeTail, Nat.zero_mul, Nat.zero_add] at h
    split at h
    · cases h
    · rename_i hn
      cases h
      exact ⟨_, rfl, digits_of_two hv hw (Classical.not_not.mp hn), rfl⟩
  | [c, d, e], out, i, y, hi, hlen, h => by
    have : pad = 1 := by simp only [List.length_cons, List.length_nil] at hlen; omega
    subst this
    obtain ⟨u, hu, rfl⟩ := decodeLoop_cons h
    rw [decodeLoop_char hu (by omega) (by omega)] at h
    obtain ⟨v, hv, rfl⟩ := decodeLoop_cons h
    rw [decodeLoop_char hv (by omega) (by omega)] at h
    obtain ⟨w, hw, rfl⟩ := decodeLoop_cons h
    rw [decodeLoop_char hw (by omega) (by omega)] at h
    simp only [decodeLoop, Option.bind_some, decodeTail, Nat.zero_mul, Nat.zero_add] at h
    split at h
    · cases h
    · rename_i hn
      cases h
      exact ⟨_, rfl, digits_of_three hu hv hw (Classical.not_not.mp hn), rfl⟩
  | c :: d :: e :: f :: rest, out, i, y, hi, hlen, h => by
    obtain ⟨u, hu, rfl⟩ := decodeLoop_cons h
    rw [decodeLoop_char hu (by omega) (by omega)] at h
    obtain ⟨v, hv, rfl⟩ := decodeLoop_cons h
    rw [decodeLoop_char hv (by omega) (by omega)] at h
    obtain ⟨w, hw, rfl⟩ := decodeLoop_cons h
    rw [decodeLoop_char hw (by omega) (by omega)] at h
    obtain ⟨x, hx, rfl⟩ := decodeLoop_cons h
    rw [decodeLoop_last hx (by omega) (by omega)] at h
    simp only [List.length_cons] at hlen
    obtain ⟨b, rfl, rfl, hb⟩ := digits_of_decodeLoop hpad rest _ _ (by omega) (by omega) h
    simp only [Nat.zero_mul, Nat.zero_add]
    refine ⟨_, List.append_assoc _ _ _, digits_of_four hu hv hw hx b, ?_⟩
    rw [← hb, padding, padding]
    simp only [List.length_append, List.length_cons, List.length_nil]
    omega

/-- The padding `decode` counts is what the string ends with. -/
theorem take_append_padding (s : Bytes) (pad : Nat) (hpad : (s.reverse.takeWhile (· == 61)).length = pad) :
    s = s.take (s.length - pad) ++ List.replicate pad 61 := by
  have hpre := List.takeWhile_prefix (· == (61 : UInt8)) (l := s.reverse)
  have hall : s.reverse.takeWhile (· == 61) = List.replicate pad 61 :=
    List.eq_replicate_iff.mpr ⟨hpad, fun x hx => by simpa using List.mem_takeWhile_imp hx⟩
  rw [hall] at hpre
  obtain ⟨t, ht⟩ := hpre
  have hs : s = t.reverse ++ List.replicate pad 61 := by
    rw [← List.reverse_reverse s, ← ht, List.reverse_append, List.reverse_replicate]
  have hlen : s.length - pad = t.reverse.length := by
    rw [hs, List.length_append, List.length_replicate, Nat.add_sub_cancel]
  rw [hlen]
  conv => rhs; rw [hs, List.take_left]
  exact hs

theorem encode_of_decode {s x : Bytes} (h : decode s = some x) : s = encode x := by
  unfold decode at h
  split at h
  · cases h
  · rename_i hmod
    dsimp only at h
    split at h
    · cases h
    · rename_i hpad
      have hs := take_append_padding s _ rfl
      generalize (s.reverse.takeWhile (· == 61)).length = pad at h hpad hs
      have hlen : (s.take (s.length - pad)).length + pad = s.length := by
        conv => rhs; rw [hs, List.length_append, List.length_replicate]
      obtain ⟨b, rfl, hb, rfl⟩ := digits_of_decodeLoop (by omega) _ _ _ rfl (by rw [hlen]; omega) h
      rw [encode_eq, ← hb]
      exact hs

/-- The accumulators that the loop of `decode` shifts, in order. -/
def shifted (n i : Nat) : Bytes → List Nat
  | [] => []
  | c :: rest => n ::
    match ALPHABET.idxOf? c with
    | none => []
    | some v => if i % 4 = 3 then shifted 0 (i + 1) rest else shifted ((n * 2 ^ 6 + v) % 2 ^ 32) (i + 1) rest

/-- At most three characters of a group are in the accumulator when the next one comes. -/
theorem shifted_lt (s : Bytes) : ∀ (n i : Nat), n < 2 ^ (6 * (i % 4)) → ∀ m ∈ shifted n i s, m < 2 ^ 18 := by
  induction s with
  | nil => intro n i _ m hm; cases hm
  | cons c rest ih =>
    intro n i hn m hm
    have hi : i % 4 < 4 := Nat.mod_lt _ (by decide)
    rw [shifted, List.mem_cons] at hm
    rcases hm with rfl | hm
    · exact Nat.lt_of_lt_of_le hn (Nat.pow_le_pow_right (by decide) (by omega))
    · split at hm
      · cases hm
      · rename_i v hv
        have hv := (char_of_idxOf hv).1
        split at hm
        · refine ih _ _ ?_ m hm
          rw [show (i + 1) % 4 = 0 by omega]
          decide
        · refine ih _ _ (Nat.lt_of_le_of_lt (Nat.mod_le _ _) ?_) m hm
          rw [show 6 * ((i + 1) % 4) = 6 * (i % 4) + 6 by omega, Nat.pow_add]
          omega

/-- The 24 bits of a chunk, in the shifts of `encode`. -/
def word (chunk : Bytes) : UInt32 :=
  (chunk.getD 0 0).toUInt32 <<< 16 ||| (chunk.getD 1 0).toUInt32 <<< 8 ||| (chunk.getD 2 0).toUInt32

theorem toNat_shift {a : UInt8} {k : UInt32} {n : Nat} (hk : k.toNat % 32 = n) (hn : n ≤ 16) :
    (a.toUInt32 <<< k).toNat = a.toNat <<< n := by
  have hlt : a.toNat * 2 ^ n < 2 ^ 8 * 2 ^ 16 :=
    Nat.mul_lt_mul_of_lt_of_le a.toNat_lt (Nat.pow_le_pow_right (by decide) hn) (by decide)
  rw [UInt32.toNat_shiftLeft, hk, UInt8.toNat_toUInt32, Nat.shiftLeft_eq, Nat.mod_eq_of_lt (by omega)]

theorem toNat_word (chunk : Bytes) : (word chunk).toNat =
    (chunk.getD 0 0).toNat * 2 ^ 16 + (chunk.getD 1 0).toNat * 2 ^ 8 + (chunk.getD 2 0).toNat := by
  have ha := (chunk.getD 0 0).toNat_lt
  have hb := (chunk.getD 1 0).toNat_lt
  have hc := (chunk.getD 2 0).toNat_lt
  -- the bytes do not overlap, so the disjunctions are sums
  have h3 : (chunk.getD 0 0).toNat <<< 16 ||| (chunk.getD 1 0).toNat <<< 8 =
      ((chunk.getD 0 0).toNat <<< 8 + (chunk.getD 1 0).toNat) <<< 8 := by
    rw [← Nat.shiftLeft_add_eq_or_of_lt (by rw [Nat.shiftLeft_eq]; omega)]
    simp only [Nat.shiftLeft_eq]
    omega
  rw [word, UInt32.toNat_or, UInt32.toNat_or, toNat_shift (n := 16) rfl (by decide),
    toNat_shift (n := 8) rfl (by decide), h3, UInt8.toNat_toUInt32,
    ← Nat.shiftLeft_add_eq_or_of_lt (by omega)]
  simp only [Nat.shiftLeft_eq]
  omega

/-- `decode` inverts `encode` and accepts nothing else; neither loses a bit in a shift. -/
theorem decode_eq_some_iff (s x : Bytes) :
    (decode s = some x ↔ s = encode x) ∧
    (∀ m ∈ shifted 0 0 s, m * 2 ^ 6 < 2 ^ 32) ∧
    ∀ chunk, (word chunk).toNat =
      (chunk.getD 0 0).toNat * 2 ^ 16 + (chunk.getD 1 0).toNat * 2 ^ 8 + (chunk.getD 2 0).toNat := by
  refine ⟨⟨encode_of_decode, ?_⟩, fun m hm => ?_, toNat_word⟩
  · rintro rfl
    exact decode_encode x
  · have := shifted_lt s 0 0 (by decide) m hm
    omega

end WebSocket.Proto.Base64
