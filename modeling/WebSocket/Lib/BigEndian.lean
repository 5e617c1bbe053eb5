import Mathlib.Data.List.Induction
import Mathlib.Tactic.Ring

/-!
# Big-endian byte fields

The byte-level tools behind every length field on the wire: a natural number
as `w` bytes, most significant first, the number a byte string spells, and the
two reconstruction laws. Nothing here knows what the number means, so a field of
two bytes and a field of eight are the same two lemmas.
-/

namespace Lib.BigEndian

/-- The last `w` base-256 digits of `n`, most significant first. -/
def toBytes : Nat → Nat → List UInt8
  | 0, _ => []
  | w + 1, n => toBytes w (n / 256) ++ [UInt8.ofNat n]

/-- The number a byte string spells, most significant byte first. -/
def ofBytes (l : List UInt8) : Nat :=
  l.foldl (fun n b => n * 256 + b.toNat) 0

@[simp] theorem length_toBytes : ∀ w n : Nat, (toBytes w n).length = w
  | 0, _ => rfl
  | w + 1, n => by simp [toBytes, length_toBytes w]

@[simp] theorem ofBytes_nil : ofBytes [] = 0 := rfl

@[simp] theorem ofBytes_concat (l : List UInt8) (b : UInt8) :
    ofBytes (l ++ [b]) = ofBytes l * 256 + b.toNat := by
  simp [ofBytes]

/-- `w` bytes spell less than `256 ^ w`. -/
theorem ofBytes_lt (l : List UInt8) : ofBytes l < 256 ^ l.length := by
  induction l using List.reverseRecOn with
  | nil => simp
  | append_singleton l b ih =>
    have hb := b.toNat_lt
    rw [ofBytes_concat, List.length_append, List.length_singleton, pow_succ]
    omega

/-- Reading a written field gives the number back, cut to the field's width. -/
theorem ofBytes_toBytes_mod : ∀ w n : Nat, ofBytes (toBytes w n) = n % 256 ^ w
  | 0, n => by simp [toBytes, Nat.mod_one]
  | w + 1, n => by
    rw [toBytes, ofBytes_concat, ofBytes_toBytes_mod w (n / 256), pow_succ, Nat.mul_comm (256 ^ w),
      Nat.mod_mul, UInt8.toNat_ofNat']
    omega

/-- A number that fits its field survives the round trip. -/
theorem ofBytes_toBytes {w n : Nat} (h : n < 256 ^ w) : ofBytes (toBytes w n) = n := by
  rw [ofBytes_toBytes_mod, Nat.mod_eq_of_lt h]

/-- Every byte string is the field of the number it spells. -/
theorem toBytes_ofBytes (l : List UInt8) : toBytes l.length (ofBytes l) = l := by
  induction l using List.reverseRecOn with
  | nil => rfl
  | append_singleton l b ih =>
    have hb := b.toNat_lt
    have hdiv : (ofBytes l * 256 + b.toNat) / 256 = ofBytes l := by omega
    have hlow : UInt8.ofNat (ofBytes l * 256 + b.toNat) = b := by
      apply UInt8.toNat_inj.mp
      rw [UInt8.toNat_ofNat']
      omega
    rw [List.length_append, List.length_singleton, toBytes, ofBytes_concat, hdiv, hlow, ih]

/-- The read-side law with the width named: `w` bytes are the field of what they spell. -/
theorem toBytes_of_length {l : List UInt8} {w : Nat} (h : l.length = w) : toBytes w (ofBytes l) = l := by
  subst h
  exact toBytes_ofBytes l

end Lib.BigEndian
