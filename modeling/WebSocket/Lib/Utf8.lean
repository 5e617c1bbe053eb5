import Mathlib.Data.List.Basic
import Mathlib.Tactic.Ring

/-!
# UTF-8 validation with a resumable error

A byte string is valid UTF-8 when it is the concatenation of the encodings of
some characters (`Valid`). `fromUtf8` is the validator of the standard library:
it walks the bytes one scalar at a time and, on failure, reports how many bytes
were valid (`validUpTo`) and whether the input merely ended inside a scalar
(`errorLen = none`) or holds bytes no scalar starts with (`errorLen = some n`).

The laws below are the documentation of that function turned into theorems:
`fromUtf8_ok_iff` (it decides `Valid`), `fromUtf8_error_take` (the reported
bytes are valid), `fromUtf8_cut_iff` (an incomplete report is exactly a proper
prefix of one scalar), and `fromUtf8_of_extends` (a string some extension of
which is valid is never reported as broken). Together they let a caller validate
a growing string from the last reported position on.
-/

namespace Lib.Utf8

/-- Valid UTF-8: the encodings of some characters, back to back. -/
def Valid (b : List UInt8) : Prop :=
  ∃ cs : List Char, b = cs.flatMap String.utf8EncodeChar

/-- A continuation byte. -/
def tail (b : UInt8) : Bool :=
  decide (0x80 ≤ b.toNat) && decide (b.toNat ≤ 0xBF)

/-- What may follow the first byte `a` of a scalar of two or more bytes. The four special
first bytes exclude overlong forms, surrogates and values past the last scalar. -/
def second (a b : UInt8) : Bool :=
  if a.toNat = 0xE0 then decide (0xA0 ≤ b.toNat) && decide (b.toNat ≤ 0xBF)
  else if a.toNat = 0xED then decide (0x80 ≤ b.toNat) && decide (b.toNat ≤ 0x9F)
  else if a.toNat = 0xF0 then decide (0x90 ≤ b.toNat) && decide (b.toNat ≤ 0xBF)
  else if a.toNat = 0xF4 then decide (0x80 ≤ b.toNat) && decide (b.toNat ≤ 0x8F)
  else tail b

/-- How many bytes a scalar that starts with `a` has; 0 when none does. -/
def width (a : UInt8) : Nat :=
  if a.toNat < 0x80 then 1
  else if a.toNat < 0xC2 then 0
  else if a.toNat < 0xE0 then 2
  else if a.toNat < 0xF0 then 3
  else if a.toNat < 0xF5 then 4
  else 0

/-- The front of a byte string: one whole scalar of `n` bytes, or an error. The error's
length is `none` when the string ends inside the scalar. -/
inductive Scan where
  | scalar (n : Nat)
  | broken (len : Option Nat)
  deriving DecidableEq, Repr

/-- Checks `n` continuation bytes after `k` good ones. -/
def tails (k : Nat) : Nat → List UInt8 → Scan
  | 0, _ => .scalar k
  | _ + 1, [] => .broken none
  | n + 1, b :: t => if tail b then tails (k + 1) n t else .broken (some k)

/-- One scalar at the front of a byte string. -/
def scan : List UInt8 → Scan
  | [] => .broken none
  | [a] =>
    if width a = 1 then .scalar 1 else if width a = 0 then .broken (some 1) else .broken none
  | a :: b :: t =>
    if width a = 1 then .scalar 1
    else if width a = 0 then .broken (some 1)
    else if second a b then tails 2 (width a - 2) t
    else .broken (some 1)

/-- Where validation stopped, and the length of what it could not decode. -/
structure Utf8Error where
  validUpTo : Nat
  errorLen : Option Nat
  deriving DecidableEq, Repr

/-- The validator's loop, at byte `i` with `b` left. The fuel is the number of bytes left:
every scalar has at least one. -/
def validate : Nat → Nat → List UInt8 → Except Utf8Error Unit
  | _, _, [] => .ok ()
  | 0, i, _ :: _ => .error ⟨i, none⟩
  | fuel + 1, i, a :: t =>
    match scan (a :: t) with
    | .scalar n => validate fuel (i + n) ((a :: t).drop n)
    | .broken len => .error ⟨i, len⟩

/-- `std::str::from_utf8`, without the string it returns. -/
def fromUtf8 (b : List UInt8) : Except Utf8Error Unit :=
  validate b.length 0 b

/-! ## One scalar -/

theorem scan_cons_cons (a b : UInt8) (t : List UInt8) :
    scan (a :: b :: t) = if width a = 1 then .scalar 1
      else if width a = 0 then .broken (some 1)
      else if second a b then tails 2 (width a - 2) t
      else .broken (some 1) := rfl

theorem tails_scalar_iff {k n m : Nat} {t : List UInt8} :
    tails k n t = .scalar m ↔ m = k + n ∧ n ≤ t.length ∧ ∀ b ∈ t.take n, tail b = true := by
  induction n generalizing k t with
  | zero =>
    rw [tails]
    simp only [Scan.scalar.injEq, Nat.add_zero, Nat.zero_le, List.take_zero, List.not_mem_nil,
      false_implies, implies_true, and_true]
    exact eq_comm
  | succ n ih =>
    cases t with
    | nil => simp [tails]
    | cons b t =>
      by_cases hb : tail b = true
      · rw [tails, if_pos hb, ih]
        simp only [List.length_cons, List.take_succ_cons, List.mem_cons, forall_eq_or_imp, hb, true_and]
        constructor <;> rintro ⟨h1, h2, h3⟩ <;> exact ⟨by omega, by omega, h3⟩
      · rw [tails, if_neg hb]
        simp [hb]

theorem tails_none_iff {k n : Nat} {t : List UInt8} :
    tails k n t = .broken none ↔ t.length < n ∧ ∀ b ∈ t, tail b = true := by
  induction n generalizing k t with
  | zero => simp [tails]
  | succ n ih =>
    cases t with
    | nil => simp [tails]
    | cons b t =>
      by_cases hb : tail b = true
      · rw [tails, if_pos hb, ih]
        simp [hb]
      · rw [tails, if_neg hb]
        simp [hb]

theorem tails_some_append {k n m : Nat} {t : List UInt8} (h : tails k n t = .broken (some m))
    (u : List UInt8) : tails k n (t ++ u) = .broken (some m) := by
  induction n generalizing k t with
  | zero => simp [tails] at h
  | succ n ih =>
    cases t with
    | nil => simp [tails] at h
    | cons b t =>
      rw [List.cons_append]
      by_cases hb : tail b = true
      · rw [tails, if_pos hb] at h ⊢
        exact ih h
      · rw [tails, if_neg hb] at h ⊢
        exact h

/-- A scalar at the front is at least one byte long and lies inside the string. -/
theorem scan_scalar_bounds {b : List UInt8} {n : Nat} (h : scan b = .scalar n) :
    1 ≤ n ∧ n ≤ b.length := by
  match b, h with
  | [a], h =>
    rw [scan] at h
    split at h
    · cases h; simp
    · split at h <;> cases h
  | a :: b :: t, h =>
    rw [scan_cons_cons] at h
    split at h
    · cases h; simp
    · split at h
      · cases h
      · split at h
        · have := tails_scalar_iff.mp h
          simp only [List.length_cons]
          omega
        · cases h

/-- Broken stays broken, with the same length, whatever follows. -/
theorem scan_some_append {b : List UInt8} {n : Nat} (h : scan b = .broken (some n))
    (u : List UInt8) : scan (b ++ u) = .broken (some n) := by
  match b, h with
  | [], h => cases h
  | [a], h =>
    rw [scan] at h
    split at h
    · cases h
    · rename_i h1
      split at h
      · rename_i h0
        cases u with
        | nil => simpa [scan, h0] using h
        | cons x u =>
          rw [List.singleton_append, scan_cons_cons, if_neg h1, if_pos h0]
          exact h
      · cases h
  | a :: b :: t, h =>
    rw [List.cons_append, List.cons_append, scan_cons_cons]
    rw [scan_cons_cons] at h
    split at h
    · cases h
    · rename_i h1
      rw [if_neg h1]
      split at h
      · rename_i h0
        rw [if_pos h0]
        exact h
      · rename_i h0
        rw [if_neg h0]
        split at h
        · rename_i h2
          rw [if_pos h2]
          exact tails_some_append h u
        · rename_i h2
          rw [if_neg h2]
          exact h

/-! ## Scalars are encoded characters -/

/-- The well-formed byte sequences of one scalar, by the first byte. -/
structure IsScalar (a : UInt8) (t : List UInt8) : Prop where
  length : t.length + 1 = width a
  head : ∀ b ∈ t.head?, second a b = true
  rest : ∀ b ∈ t.tail, tail b = true

theorem toNat_ofNat_lt {n : Nat} (h : n < 256) : (UInt8.ofNat n).toNat = n := by
  rw [UInt8.toNat_ofNat']
  exact Nat.mod_eq_of_lt h

theorem tail_ofNat {n : Nat} (h : n < 64) : tail (UInt8.ofNat (n + 0x80)) = true := by
  rw [tail, toNat_ofNat_lt (by omega), Bool.and_eq_true, decide_eq_true_eq, decide_eq_true_eq]
  omega

theorem tail_iff {b : UInt8} : tail b = true ↔ 0x80 ≤ b.toNat ∧ b.toNat ≤ 0xBF := by
  rw [tail, Bool.and_eq_true, decide_eq_true_eq, decide_eq_true_eq]

theorem second_iff {a b : UInt8} : second a b = true ↔
    (a.toNat = 0xE0 → 0xA0 ≤ b.toNat) ∧ (a.toNat = 0xED → b.toNat ≤ 0x9F) ∧
    (a.toNat = 0xF0 → 0x90 ≤ b.toNat) ∧ (a.toNat = 0xF4 → b.toNat ≤ 0x8F) ∧
    0x80 ≤ b.toNat ∧ b.toNat ≤ 0xBF := by
  rw [second]
  repeat' split
  all_goals
    first
    | rw [tail_iff]
    | rw [Bool.and_eq_true, decide_eq_true_eq, decide_eq_true_eq]
    omega

theorem width_cases (a : UInt8) :
    width a = 1 ∧ a.toNat < 0x80 ∨ width a = 0 ∨
    width a = 2 ∧ 0xC2 ≤ a.toNat ∧ a.toNat < 0xE0 ∨
    width a = 3 ∧ 0xE0 ≤ a.toNat ∧ a.toNat < 0xF0 ∨
    width a = 4 ∧ 0xF0 ≤ a.toNat ∧ a.toNat < 0xF5 := by
  rw [width]
  repeat' split
  all_goals omega

theorem width_eq {a : UInt8} {n : Nat} (h : n = 2 ∧ 0xC2 ≤ a.toNat ∧ a.toNat < 0xE0 ∨
    n = 3 ∧ 0xE0 ≤ a.toNat ∧ a.toNat < 0xF0 ∨ n = 4 ∧ 0xF0 ≤ a.toNat ∧ a.toNat < 0xF5) :
    width a = n := by
  rw [width]
  repeat' split
  all_goals omega

/-- A character's encoding is one of the table's sequences. -/
theorem isScalar_encode (c : Char) :
    ∃ a t, String.utf8EncodeChar c = a :: t ∧ IsScalar a t := by
  have hc : c.val.toNat < 0xD800 ∨ 0xDFFF < c.val.toNat ∧ c.val.toNat < 0x110000 := c.valid
  unfold String.utf8EncodeChar
  dsimp only
  generalize c.val.toNat = v at hc ⊢
  split
  · refine ⟨_, _, rfl, ?_, by simp, by simp⟩
    rw [width, toNat_ofNat_lt (by omega), if_pos (by omega)]
    rfl
  · split
    · refine ⟨_, _, rfl, ?_, ?_, by simp⟩
      · refine (width_eq (.inl ?_)).symm
        rw [toNat_ofNat_lt (by omega)]
        exact ⟨rfl, by omega⟩
      · intro b hb
        cases hb
        rw [second_iff, toNat_ofNat_lt (by omega), toNat_ofNat_lt (by omega)]
        omega
    · split
      · refine ⟨_, _, rfl, ?_, ?_, ?_⟩
        · refine (width_eq (.inr (.inl ?_))).symm
          rw [toNat_ofNat_lt (by omega)]
          exact ⟨rfl, by omega⟩
        · intro b hb
          cases hb
          rw [second_iff, toNat_ofNat_lt (by omega), toNat_ofNat_lt (by omega)]
          omega
        · intro b hb
          rw [List.tail_cons, List.mem_singleton] at hb
          subst hb
          exact tail_ofNat (Nat.mod_lt _ (by omega))
      · refine ⟨_, _, rfl, ?_, ?_, ?_⟩
        · refine (width_eq (.inr (.inr ?_))).symm
          rw [toNat_ofNat_lt (by omega)]
          exact ⟨rfl, by omega⟩
        · intro b hb
          cases hb
          rw [second_iff, toNat_ofNat_lt (by omega), toNat_ofNat_lt (by omega)]
          omega
        · intro b hb
          rw [List.tail_cons, List.mem_cons, List.mem_singleton] at hb
          rcases hb with rfl | rfl <;> exact tail_ofNat (Nat.mod_lt _ (by omega))

/-- The character with a given code point. -/
def charOf (v : Nat) (h : v < 0xD800 ∨ 0xDFFF < v ∧ v < 0x110000) : Char :=
  ⟨UInt32.ofNat v, by
    show Nat.isValidChar (UInt32.ofNat v).toNat
    rw [UInt32.toNat_ofNat_of_lt' (by show v < 2 ^ 32; omega)]
    exact h⟩

theorem charOf_val (v : Nat) (h : v < 0xD800 ∨ 0xDFFF < v ∧ v < 0x110000) :
    (charOf v h).val.toNat = v := by
  show (UInt32.ofNat v).toNat = v
  exact UInt32.toNat_ofNat_of_lt' (by show v < 2 ^ 32; omega)

theorem ofNat_eq_of_toNat {n : Nat} {a : UInt8} (h : n = a.toNat) : UInt8.ofNat n = a := by
  rw [h]
  exact UInt8.ofNat_toNat

/-- Each of the table's sequences encodes a character: the code point is read off the bytes. -/
theorem IsScalar.exists_char {a : UInt8} {t : List UInt8} (h : IsScalar a t) :
    ∃ c, String.utf8EncodeChar c = a :: t := by
  obtain ⟨hlen, hhead, hrest⟩ := h
  have ha := a.toNat_lt
  rcases width_cases a with ⟨hw, h1⟩ | hw | ⟨hw, h1⟩ | ⟨hw, h1⟩ | ⟨hw, h1⟩
  · rw [hw] at hlen
    have ht : t = [] := List.length_eq_zero_iff.mp (by omega)
    subst ht
    refine ⟨charOf a.toNat (by omega), ?_⟩
    unfold String.utf8EncodeChar
    simp only [charOf_val]
    rw [if_pos (by omega), UInt8.ofNat_toNat]
  · omega
  · rw [hw] at hlen
    obtain ⟨b, rfl⟩ := List.length_eq_one_iff.mp (show t.length = 1 by omega)
    have hb := second_iff.mp (hhead b rfl)
    refine ⟨charOf ((a.toNat - 0xC0) * 64 + (b.toNat - 0x80)) (by omega), ?_⟩
    unfold String.utf8EncodeChar
    simp only [charOf_val]
    rw [if_neg (by omega), if_pos (by omega), ofNat_eq_of_toNat (a := a) (by omega),
      ofNat_eq_of_toNat (a := b) (by omega)]
  · rw [hw] at hlen
    obtain ⟨b, c, rfl⟩ := List.length_eq_two.mp (show t.length = 2 by omega)
    have hb := second_iff.mp (hhead b rfl)
    have hc := tail_iff.mp (hrest c (by simp))
    refine ⟨charOf ((a.toNat - 0xE0) * 4096 + (b.toNat - 0x80) * 64 + (c.toNat - 0x80)) (by omega), ?_⟩
    unfold String.utf8EncodeChar
    simp only [charOf_val]
    rw [if_neg (by omega), if_neg (by omega), if_pos (by omega), ofNat_eq_of_toNat (a := a) (by omega),
      ofNat_eq_of_toNat (a := b) (by omega), ofNat_eq_of_toNat (a := c) (by omega)]
  · rw [hw] at hlen
    obtain ⟨b, c, d, rfl⟩ := List.length_eq_three.mp (show t.length = 3 by omega)
    have hb := second_iff.mp (hhead b rfl)
    have hc := tail_iff.mp (hrest c (by simp))
    have hd := tail_iff.mp (hrest d (by simp))
    refine ⟨charOf ((a.toNat - 0xF0) * 262144 + (b.toNat - 0x80) * 4096 + (c.toNat - 0x80) * 64 +
      (d.toNat - 0x80)) (by omega), ?_⟩
    unfold String.utf8EncodeChar
    simp only [charOf_val]
    rw [if_neg (by omega), if_neg (by omega), if_neg (by omega), ofNat_eq_of_toNat (a := a) (by omega),
      ofNat_eq_of_toNat (a := b) (by omega), ofNat_eq_of_toNat (a := c) (by omega),
      ofNat_eq_of_toNat (a := d) (by omega)]

/-! ## What the scan reports -/

theorem tails_of_all {k : Nat} {t u : List UInt8} (h : ∀ b ∈ t, tail b = true) :
    tails k t.length (t ++ u) = .scalar (k + t.length) := by
  refine tails_scalar_iff.mpr ⟨rfl, by simp, ?_⟩
  rw [List.take_left]
  exact h

/-- A scalar at the front is found, whatever follows it. -/
theorem IsScalar.scan {a : UInt8} {t : List UInt8} (h : IsScalar a t) (u : List UInt8) :
    scan (a :: (t ++ u)) = .scalar (t.length + 1) := by
  obtain ⟨hlen, hhead, hrest⟩ := h
  match t, hlen, hhead, hrest with
  | [], hlen, _, _ =>
    have hw : width a = 1 := hlen.symm
    cases u with
    | nil => simp [Utf8.scan, hw]
    | cons x u => simp [scan_cons_cons, hw]
  | b :: t, hlen, hhead, hrest =>
    rw [List.length_cons] at hlen
    have hall : ∀ x ∈ t, tail x = true := hrest
    rw [List.cons_append, scan_cons_cons, if_neg (by omega), if_neg (by omega), if_pos (hhead b rfl),
      show width a - 2 = t.length by omega, tails_of_all hall, List.length_cons]
    congr 1
    omega

/-- A found scalar is one. -/
theorem isScalar_of_scan {b : List UInt8} {n : Nat} (h : scan b = .scalar n) :
    ∃ a t u, b = a :: (t ++ u) ∧ IsScalar a t ∧ n = t.length + 1 := by
  match b, h with
  | [a], h =>
    rw [scan] at h
    split at h
    · rename_i hw
      cases h
      exact ⟨a, [], [], rfl, ⟨hw.symm, by simp, by simp⟩, rfl⟩
    · split at h <;> cases h
  | a :: b :: t, h =>
    rw [scan_cons_cons] at h
    split at h
    · rename_i hw
      cases h
      exact ⟨a, [], b :: t, rfl, ⟨hw.symm, by simp, by simp⟩, rfl⟩
    · split at h
      · cases h
      · split at h
        · rename_i h1 h0 hs
          obtain ⟨rfl, hle, hall⟩ := tails_scalar_iff.mp h
          have hw := width_cases a
          refine ⟨a, b :: t.take (width a - 2), t.drop (width a - 2), by simp, ⟨?_, ?_, ?_⟩, ?_⟩
          · rw [List.length_cons, List.length_take]; omega
          · intro x hx; cases hx; exact hs
          · exact hall
          · rw [List.length_cons, List.length_take]; omega
        · cases h

/-- A least second byte for each first byte: enough to complete a cut scalar. -/
def fill (a : UInt8) : UInt8 :=
  if a.toNat = 0xE0 then 0xA0 else if a.toNat = 0xF0 then 0x90 else 0x80

theorem second_fill (a : UInt8) : second a (fill a) = true := by
  rw [second_iff, fill]
  split
  · rename_i h; simp [h]
  · split
    · rename_i h; simp [h]
    · simp_all

theorem tail_replicate {n : Nat} : ∀ b ∈ List.replicate n (0x80 : UInt8), tail b = true := by
  intro b hb
  rw [List.eq_of_mem_replicate hb]
  decide

/-- A string reported as cut can be completed to one scalar. -/
theorem exists_completion {b : List UInt8} (hb : b ≠ []) (h : scan b = .broken none) :
    ∃ t c, t ≠ [] ∧ String.utf8EncodeChar c = b ++ t := by
  match b, hb, h with
  | [a], _, h =>
    rw [scan] at h
    split at h
    · cases h
    · split at h
      · cases h
      · rename_i h1 h0
        have hw := width_cases a
        have hs : IsScalar a (fill a :: List.replicate (width a - 2) 0x80) := by
          refine ⟨?_, ?_, tail_replicate⟩
          · rw [List.length_cons, List.length_replicate]; omega
          · intro x hx; cases hx; exact second_fill a
        obtain ⟨c, hc⟩ := hs.exists_char
        exact ⟨_, c, by simp, hc⟩
  | a :: b :: t, _, h =>
    rw [scan_cons_cons] at h
    split at h
    · cases h
    · split at h
      · cases h
      · split at h
        · rename_i h1 h0 hs
          obtain ⟨hlt, hall⟩ := tails_none_iff.mp h
          have hsc : IsScalar a (b :: (t ++ List.replicate (width a - 2 - t.length) 0x80)) := by
            refine ⟨?_, ?_, ?_⟩
            · rw [List.length_cons, List.length_append, List.length_replicate]; omega
            · intro x hx; cases hx; exact hs
            · intro x hx
              rw [List.tail_cons, List.mem_append] at hx
              exact hx.elim (hall x) (tail_replicate x)
          obtain ⟨c, hc⟩ := hsc.exists_char
          refine ⟨List.replicate (width a - 2 - t.length) 0x80, c, ?_, hc⟩
          rw [Ne, List.replicate_eq_nil_iff]
          omega
        · cases h

/-- A proper prefix of a scalar is reported as cut. -/
theorem scan_cut {b t : List UInt8} {c : Char} (ht : t ≠ [])
    (h : String.utf8EncodeChar c = b ++ t) : scan b = .broken none := by
  obtain ⟨a, s, hs, hsc⟩ := isScalar_encode c
  have hwhole := hsc.scan []
  rw [List.append_nil, ← hs, h] at hwhole
  cases hb : scan b with
  | scalar n =>
    -- a scalar inside `b` would be found in `b ++ t` too, shorter than the whole of it
    obtain ⟨a', s', u, rfl, hsc', rfl⟩ := isScalar_of_scan hb
    have := hsc'.scan (u ++ t)
    rw [← List.append_assoc, ← List.cons_append, hwhole, Scan.scalar.injEq] at this
    have hlen : s.length + 1 = (a' :: (s' ++ u) ++ t).length := by rw [← h, hs, List.length_cons]
    have htlen := List.length_pos_iff.mpr ht
    simp only [List.length_append, List.length_cons] at hlen
    omega
  | broken len =>
    cases len with
    | none => rfl
    | some n => rw [scan_some_append hb t] at hwhole; cases hwhole

/-! ## Validity -/

theorem valid_nil : Valid [] := ⟨[], rfl⟩

theorem valid_encode (c : Char) : Valid (String.utf8EncodeChar c) := ⟨[c], by simp⟩

theorem Valid.append {a b : List UInt8} (ha : Valid a) (hb : Valid b) : Valid (a ++ b) := by
  obtain ⟨cs, rfl⟩ := ha
  obtain ⟨ds, rfl⟩ := hb
  exact ⟨cs ++ ds, by rw [List.flatMap_append]⟩

theorem scan_encode (c : Char) (t : List UInt8) :
    scan (String.utf8EncodeChar c ++ t) = .scalar (String.utf8EncodeChar c).length := by
  obtain ⟨a, s, hs, hsc⟩ := isScalar_encode c
  rw [hs, List.cons_append, hsc.scan t, List.length_cons]

/-- Taking one scalar off the front of a valid string leaves a valid one. -/
theorem valid_drop_scalar {b : List UInt8} {n : Nat} (hb : Valid b) (h : scan b = .scalar n) :
    Valid (b.drop n) := by
  obtain ⟨cs, rfl⟩ := hb
  cases cs with
  | nil => cases h
  | cons c cs =>
    rw [List.flatMap_cons, scan_encode, Scan.scalar.injEq] at h
    rw [List.flatMap_cons, ← h, List.drop_left]
    exact ⟨cs, rfl⟩

/-- A valid string is empty or starts with a scalar. -/
theorem Valid.scan {b : List UInt8} (hb : Valid b) (hne : b ≠ []) : ∃ n, scan b = .scalar n := by
  obtain ⟨cs, rfl⟩ := hb
  cases cs with
  | nil => exact absurd rfl hne
  | cons c cs => exact ⟨_, by rw [List.flatMap_cons, scan_encode]⟩

theorem valid_take_scalar {b : List UInt8} {n : Nat} (h : scan b = .scalar n) : Valid (b.take n) := by
  obtain ⟨a, t, u, rfl, hsc, rfl⟩ := isScalar_of_scan h
  obtain ⟨c, hc⟩ := hsc.exists_char
  rw [← List.cons_append, List.take_append_of_le_length (by simp), List.take_of_length_le (by simp), ← hc]
  exact valid_encode c

/-- ASCII is valid as it is. -/
theorem valid_of_ascii {b : List UInt8} (h : ∀ a ∈ b, a.toNat < 0x80) : Valid b := by
  induction b with
  | nil => exact valid_nil
  | cons a b ih =>
    rw [List.forall_mem_cons] at h
    have hone : scan [a] = .scalar 1 := by simp [scan, width, h.1]
    exact (valid_take_scalar hone).append (ih h.2)

/-- After a valid string, validity is that of the rest. -/
theorem valid_append_iff {a b : List UInt8} (ha : Valid a) : Valid (a ++ b) ↔ Valid b := by
  refine ⟨fun h => ?_, ha.append⟩
  obtain ⟨cs, rfl⟩ := ha
  induction cs with
  | nil => exact h
  | cons c cs ih =>
    rw [List.flatMap_cons, List.append_assoc] at h
    have := valid_drop_scalar h (scan_encode c _)
    rw [List.drop_left] at this
    exact ih this

/-! ## The validator -/

/-- What the loop does from byte `i` on: it accepts a valid rest, or stops after its longest
valid front with the scan of what follows. -/
theorem validate_spec : ∀ (fuel i : Nat) (b : List UInt8), b.length ≤ fuel →
    (validate fuel i b = .ok () ∧ Valid b) ∨
      ∃ v r len, b = v ++ r ∧ Valid v ∧ r ≠ [] ∧ scan r = .broken len ∧
        validate fuel i b = .error ⟨i + v.length, len⟩
  | fuel, i, [], _ => .inl ⟨by cases fuel <;> rfl, valid_nil⟩
  | 0, _, _ :: _, h => absurd h (by simp)
  | fuel + 1, i, a :: t, h => by
    cases hs : scan (a :: t) with
    | broken len =>
      refine .inr ⟨[], a :: t, len, rfl, valid_nil, by simp, hs, ?_⟩
      rw [validate, hs]
      rfl
    | scalar n =>
      obtain ⟨hn, hle⟩ := scan_scalar_bounds hs
      have hshort : ((a :: t).drop n).length ≤ fuel := by
        rw [List.length_drop, List.length_cons]
        rw [List.length_cons] at h
        omega
      have hval : validate (fuel + 1) i (a :: t) = validate fuel (i + n) ((a :: t).drop n) := by
        rw [validate, hs]
      rcases validate_spec fuel (i + n) ((a :: t).drop n) hshort with ⟨hok, hv⟩ | ⟨v, r, len, hb, hv, hr, hsr, herr⟩
      · refine .inl ⟨by rw [hval, hok], ?_⟩
        rw [← List.take_append_drop n (a :: t)]
        exact (valid_take_scalar hs).append hv
      · refine .inr ⟨(a :: t).take n ++ v, r, len, ?_, (valid_take_scalar hs).append hv, hr, hsr, ?_⟩
        · rw [List.append_assoc, ← hb, List.take_append_drop]
        · rw [hval, herr, List.length_append, List.length_take, Nat.min_eq_left hle, Nat.add_assoc]

theorem fromUtf8_spec (b : List UInt8) :
    (fromUtf8 b = .ok () ∧ Valid b) ∨
      ∃ v r len, b = v ++ r ∧ Valid v ∧ r ≠ [] ∧ scan r = .broken len ∧
        fromUtf8 b = .error ⟨v.length, len⟩ := by
  have := validate_spec b.length 0 b (Nat.le_refl _)
  simpa only [fromUtf8, Nat.zero_add] using this

/-- **The validator decides UTF-8.** -/
theorem fromUtf8_ok_iff (b : List UInt8) : fromUtf8 b = .ok () ↔ Valid b := by
  rcases fromUtf8_spec b with ⟨hok, hv⟩ | ⟨v, r, len, rfl, hv, hr, hs, herr⟩
  · exact ⟨fun _ => hv, fun _ => hok⟩
  · refine ⟨fun h => (by rw [herr] at h; cases h), fun h => ?_⟩
    obtain ⟨n, hn⟩ := ((valid_append_iff hv).mp h).scan hr
    rw [hs] at hn
    cases hn

/-- The bytes up to `validUpTo` are valid, and lie inside the string. -/
theorem fromUtf8_error_take {b : List UInt8} {e : Utf8Error} (h : fromUtf8 b = .error e) :
    e.validUpTo ≤ b.length ∧ Valid (b.take e.validUpTo) := by
  rcases fromUtf8_spec b with ⟨hok, _⟩ | ⟨v, r, len, rfl, hv, _, _, herr⟩
  · rw [hok] at h; cases h
  · rw [herr] at h
    cases h
    refine ⟨by simp, ?_⟩
    rw [List.take_left]
    exact hv

/-- **An incomplete report is a cut scalar**: `errorLen` is `none` exactly when the bytes after
`validUpTo` are a non-empty proper prefix of one character's encoding. -/
theorem fromUtf8_cut_iff {b : List UInt8} {e : Utf8Error} (h : fromUtf8 b = .error e) :
    e.errorLen = none ↔ b.drop e.validUpTo ≠ [] ∧
      ∃ t c, t ≠ [] ∧ String.utf8EncodeChar c = b.drop e.validUpTo ++ t := by
  rcases fromUtf8_spec b with ⟨hok, _⟩ | ⟨v, r, len, rfl, _, hr, hs, herr⟩
  · rw [hok] at h; cases h
  · rw [herr] at h
    cases h
    rw [List.drop_left]
    constructor
    · rintro rfl
      exact ⟨hr, exists_completion hr hs⟩
    · rintro ⟨-, t, c, ht, hc⟩
      have := scan_cut ht hc
      rw [hs] at this
      cases this
      rfl

/-- **A string some extension of which is valid is never reported as broken.** -/
theorem fromUtf8_of_extends {b t : List UInt8} (h : Valid (b ++ t)) :
    fromUtf8 b = .ok () ∨ ∃ e, fromUtf8 b = .error e ∧ e.errorLen = none := by
  rcases fromUtf8_spec b with ⟨hok, _⟩ | ⟨v, r, len, rfl, hv, hr, hs, herr⟩
  · exact .inl hok
  · refine .inr ⟨_, herr, ?_⟩
    rw [List.append_assoc, valid_append_iff hv] at h
    cases len with
    | none => rfl
    | some n =>
      obtain ⟨m, hm⟩ := h.scan (by simp [hr])
      rw [scan_some_append hs t] at hm
      cases hm

/-- Conversely, what is valid or cut can be extended to a valid string. -/
theorem exists_extends {b : List UInt8}
    (h : fromUtf8 b = .ok () ∨ ∃ e, fromUtf8 b = .error e ∧ e.errorLen = none) :
    ∃ t, Valid (b ++ t) := by
  rcases h with h | ⟨e, h, he⟩
  · exact ⟨[], by rw [List.append_nil]; exact (fromUtf8_ok_iff b).mp h⟩
  · obtain ⟨-, t, c, -, hc⟩ := (fromUtf8_cut_iff h).mp he
    refine ⟨t, ?_⟩
    rw [← List.take_append_drop e.validUpTo b, List.append_assoc, ← hc]
    exact (fromUtf8_error_take h).2.append (valid_encode c)

instance (b : List UInt8) : Decidable (Valid b) :=
  decidable_of_iff (fromUtf8 b = .ok ()) (fromUtf8_ok_iff b)

example : fromUtf8 [0x68, 0xC3, 0xA9] = .ok () := by decide
example : fromUtf8 [0x68, 0xF0, 0x9F] = .error ⟨1, none⟩ := by decide
example : fromUtf8 [0x68, 0xED, 0xA0, 0x80] = .error ⟨1, some 1⟩ := by decide

end Lib.Utf8
