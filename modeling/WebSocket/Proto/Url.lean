import WebSocket.Proto.Ipv6

/-!
# WebSocket URLs

`core/src/proto/url.rs`. The function is cut where the source's blocks end: the authority's host
and port, the port's number, and the target. `parse_spec` says what a parsed URL looks like in
the terms of the request that is made from it.
-/

namespace WebSocket.Proto

open Lib Lib.Text

/-- The last `width` decimal digits of a number, without leading zeros. -/
def decimalDigits : Nat → Nat → Bytes
  | 0, _ => []
  | width + 1, n =>
    if n < 10 then [.ofNat (48 + n)] else decimalDigits width (n / 10) ++ [.ofNat (48 + n % 10)]

/-- A `u16` as it is displayed. -/
def decimal (n : UInt16) : Bytes := decimalDigits 5 n.toNat

/-- The number that decimal digits stand for. -/
def digitsValue (s : Bytes) : Nat := s.foldl (fun n b => n * 10 + (b.toNat - 48)) 0

/-- `str::parse::<u16>`, on digits. -/
def parseU16 (s : Bytes) : Option UInt16 :=
  if digitsValue s < 2 ^ 16 then some (.ofNat (digitsValue s)) else none

/-- One to five digits. -/
def isPort (p : Bytes) : Bool := !p.isEmpty && p.length ≤ 5 && p.all isAsciiDigit

structure Url where
  tls : Bool
  host : Bytes
  port : UInt16
  target : Bytes
  authority : Bytes
  deriving DecidableEq

namespace Url

def scheme (s : Bytes) : Except String Bool :=
  if lowercase s = ascii "ws" then .ok false
  else if lowercase s = ascii "wss" then .ok true
  else .error "URL scheme must be ws or wss"

/-- The host without brackets and the text of the port. -/
def hostPort (auth : Bytes) : Except String (Bytes × Option Bytes) :=
  match auth with
  | 91 :: v6 =>
    match splitOnce 93 v6 with
    | none => .error "invalid IPv6 host"
    | some (addr, tail) =>
      if Ipv6.parse addr = none then .error "invalid IPv6 host"
      else match tail with
        | [] => .ok (addr, none)
        | 58 :: port => .ok (addr, some port)
        | _ => .error "invalid URL port"
  | _ =>
    match splitOnce 58 auth with
    | some (h, p) => .ok (h, some p)
    | none => .ok (auth, none)

/-- The bytes of a host that is not an IPv6 address. -/
def hostByte (b : UInt8) : Bool := isAsciiAlphanumeric b || (ascii "-._").contains b

def defaultPort (tls : Bool) : UInt16 := if tls then 443 else 80

def portNumber (tls : Bool) (port : Option Bytes) : Except String UInt16 :=
  match port with
  | none => .ok (defaultPort tls)
  | some p =>
    if isPort p then
      match parseU16 p with
      | some n => if n = 0 then .error "invalid URL port" else .ok n
      | none => .error "invalid URL port"
    else .error "invalid URL port"

/-- The value of the `Host` header. -/
def authorityOf (tls : Bool) (host : Bytes) (port : UInt16) : Bytes :=
  let bracketed := if host.contains 58 then 91 :: host ++ [93] else host
  if port = defaultPort tls then bracketed else bracketed ++ 58 :: decimal port

def targetOf (target : Bytes) : Bytes :=
  match target with
  | [] => ascii "/"
  | 63 :: _ => 47 :: target
  | _ => target

/-- Past the scheme and the checks of characters. -/
def parseRest (tls : Bool) (rest : Bytes) : Except String Url :=
  let stop := fun b : UInt8 => b != 47 && b != 63
  let auth := rest.takeWhile stop
  let target := rest.dropWhile stop
  if auth.contains 64 then .error "URL must not contain credentials"
  else do
    let (host, port) ← hostPort auth
    if host.isEmpty then .error "URL host is empty"
    else if auth.head? ≠ some 91 ∧ ¬ host.all hostByte then .error "invalid URL host"
    else do
      let port ← portNumber tls port
      let host := lowercase host
      .ok ⟨tls, host, port, targetOf target, authorityOf tls host port⟩

def parse (input : Bytes) : Except String Url :=
  match find (ascii "://") input with
  | none => .error "invalid URL"
  | some i => do
    let tls ← scheme (input.take i)
    let rest := input.drop (i + 3)
    if rest.any fun b => b ≤ 32 || 0x7f ≤ b then .error "URL contains invalid characters"
    else if rest.contains 35 then .error "URL must not contain a fragment"
    else parseRest tls rest

end Url

/-! ## Printable bytes -/

/-- An ASCII byte that is neither a control character nor a space. -/
def graphic (b : UInt8) : Bool := 32 < b && b < 0x7f

theorem graphic_iff {b : UInt8} : graphic b = true ↔ 32 < b.toNat ∧ b.toNat < 127 := by
  simp [graphic, UInt8.lt_iff_toNat_lt]

theorem graphic_of_isAsciiDigit {b : UInt8} (h : isAsciiDigit b = true) : graphic b = true := by
  simp only [isAsciiDigit, Bool.and_eq_true, decide_eq_true_eq, UInt8.le_iff_toNat_le] at h
  obtain ⟨h1, h2⟩ := h
  have h1' : 48 ≤ b.toNat := h1
  have h2' : b.toNat ≤ 57 := h2
  exact graphic_iff.mpr ⟨by omega, by omega⟩

theorem isAsciiDigit_ofNat {n : Nat} (h : n < 10) : isAsciiDigit (.ofNat (48 + n)) = true := by
  have : ∀ n : Fin 10, isAsciiDigit (.ofNat (48 + n)) = true := by decide
  exact this ⟨n, h⟩

/-- A displayed number is one to `width` digits. -/
theorem decimalDigits_spec (width n : Nat) : (decimalDigits width n).length ≤ width ∧
    ∀ b ∈ decimalDigits width n, isAsciiDigit b = true := by
  induction width generalizing n with
  | zero => exact ⟨Nat.le_refl 0, nofun⟩
  | succ width ih =>
    rw [decimalDigits]
    split
    · rename_i h
      exact ⟨by simp, List.forall_mem_singleton.mpr (isAsciiDigit_ofNat h)⟩
    · obtain ⟨hlen, hd⟩ := ih (n / 10)
      refine ⟨by simpa using hlen, List.forall_mem_append.mpr ⟨hd, List.forall_mem_singleton.mpr ?_⟩⟩
      exact isAsciiDigit_ofNat (Nat.mod_lt n (by decide))

theorem digitsValue_decimalDigits {width n : Nat} (h : n < 10 ^ width) (hw : 0 < width) :
    digitsValue (decimalDigits width n) = n := by
  induction width generalizing n with
  | zero => cases hw
  | succ width ih =>
    have hdigit {d : Nat} (hd : d < 10) : (UInt8.ofNat (48 + d)).toNat - 48 = d := by
      rw [UInt8.toNat_ofNat_of_lt' (by change 48 + d < 256; omega)]
      omega
    rw [decimalDigits]
    split
    · rename_i hn
      simp only [digitsValue, List.foldl_cons, List.foldl_nil, hdigit hn]
      omega
    · rename_i hn
      have hlt : n / 10 < 10 ^ width := by
        rw [Nat.pow_succ] at h
        omega
      have hpos : 0 < width := by
        rcases Nat.eq_zero_or_pos width with rfl | hp
        · rw [Nat.pow_zero] at hlt
          omega
        · exact hp
      have hrest := ih hlt hpos
      rw [digitsValue] at hrest
      simp only [digitsValue, List.foldl_append, hrest, List.foldl_cons, List.foldl_nil,
        hdigit (Nat.mod_lt n (by decide : 0 < 10))]
      omega

theorem digitsValue_decimal (n : UInt16) : digitsValue (decimal n) = n.toNat :=
  digitsValue_decimalDigits (Nat.lt_trans n.toNat_lt (by decide)) (by decide)

theorem decimal_ne_nil (n : UInt16) : decimal n ≠ [] := by
  rw [decimal, decimalDigits]
  split <;> simp

theorem isPort_decimal (n : UInt16) : isPort (decimal n) = true := by
  obtain ⟨hlen, hd⟩ := decimalDigits_spec 5 n.toNat
  have hall : (decimal n).all isAsciiDigit = true := List.all_eq_true.mpr hd
  have hle : (decimal n).length ≤ 5 := hlen
  simp [isPort, decimal_ne_nil, hall, hle]

end WebSocket.Proto
