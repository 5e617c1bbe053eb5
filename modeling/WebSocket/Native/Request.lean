import WebSocket.Proto.Upgrade

/-!
# Upgrade requests between Rust and Lua

`native/src/event.rs` packs a request into lines for the Lua side, and `request` of
`ws/server.lua` cuts them again. Nothing is escaped on the way, so the two agree only because of
what `handshake::request` lets through: `request_pack` is that agreement.
-/

namespace WebSocket.Native

open Proto Lib Lib.Text Http

/-! ## Peer addresses -/

/-- The last `width` hexadecimal digits of a number, without leading zeros. -/
def hexDigits : Nat → Nat → Bytes
  | 0, _ => []
  | width + 1, n =>
    let digit (d : Nat) : UInt8 := .ofNat (if d < 10 then 48 + d else 87 + d)
    if n < 16 then [digit n] else hexDigits width (n / 16) ++ [digit (n % 16)]

inductive IpAddr where
  | v4 (a b c d : UInt8)
  | v6 (segments : { l : List UInt16 // l.length = 8 })
  deriving DecidableEq

namespace IpAddr

def displayV4 (a b c d : UInt8) : Bytes :=
  [46].intercalate ([a, b, c, d].map fun n => decimalDigits 3 n.toNat)

/-- A run of segments. -/
structure Span where
  start : Nat
  len : Nat

/-- The longest run of zeros, the first one if several are as long. -/
def zeroes (i : Nat) (longest current : Span) : List UInt16 → Span
  | [] => longest
  | segment :: rest =>
    if segment = 0 then
      let current : Span := ⟨if current.len = 0 then i else current.start, current.len + 1⟩
      zeroes (i + 1) (if current.len > longest.len then current else longest) current rest
    else zeroes (i + 1) longest ⟨0, 0⟩ rest

def fmtSubslice (chunk : List UInt16) : Bytes := [58].intercalate (chunk.map fun s => hexDigits 4 s.toNat)

def displayV6 (segments : List UInt16) : Bytes :=
  match segments with
  | [0, 0, 0, 0, 0, 0xffff, ab, cd] =>
    ascii "::ffff:" ++ displayV4 (ab >>> 8).toUInt8 ab.toUInt8 (cd >>> 8).toUInt8 cd.toUInt8
  | _ =>
    let z := zeroes 0 ⟨0, 0⟩ ⟨0, 0⟩ segments
    if z.len > 1 then
      fmtSubslice (segments.take z.start) ++ ascii "::" ++ fmtSubslice (segments.drop (z.start + z.len))
    else fmtSubslice segments

/-- `IpAddr`'s `Display`. -/
def display : IpAddr → Bytes
  | v4 a b c d => displayV4 a b c d
  | v6 s => displayV6 s.val

end IpAddr

structure SocketAddr where
  ip : IpAddr
  port : UInt16
  deriving DecidableEq

/-! ## `pack` -/

structure Request where
  path : Bytes
  headers : Headers
  protocols : List Bytes
  addr : SocketAddr
  deriving DecidableEq

def pack (req : Request) : Bytes :=
  req.headers.foldl (fun s h => s ++ h.1 ++ ascii ":" ++ h.2 ++ ascii "\n")
    (req.path ++ ascii "\n" ++ req.addr.ip.display ++ ascii "\n" ++ decimal req.addr.port ++ ascii "\n"
      ++ (ascii ",").intercalate req.protocols ++ ascii "\n")

/-! ## `request` of `ws/server.lua` -/

/-- The table that `request` makes. A Lua table from strings is a partial function. -/
structure LuaRequest where
  path : Bytes
  address : Bytes
  port : Option Nat
  protocols : List Bytes
  headers : Bytes → Option Bytes

/-- `gmatch("([^\n]*)\n")`: the pieces that end in a newline. -/
def gmatchLines (data : Bytes) : List Bytes := (data.splitOn 10).dropLast

/-- `gmatch("[^,]+")`: the pieces between commas that are not empty. -/
def gmatchItems (line : Bytes) : List Bytes := (line.splitOn 44).filter (!·.isEmpty)

/-- `match("^([^:]+):(.*)$")`. -/
def matchHeader (line : Bytes) : Option (Bytes × Bytes) :=
  match splitOnce 58 line with
  | some (name, value) => if name.isEmpty then none else some (name, value)
  | none => none

/-- `tonumber`, on decimal digits. -/
def tonumber (s : Bytes) : Option Nat :=
  if !s.isEmpty && s.all isAsciiDigit then some (digitsValue s) else none

/-- The loop over the header lines; indexing the table with `nil` is an error. -/
def luaHeaders (table : Bytes → Option Bytes) : List Bytes → Option (Bytes → Option Bytes)
  | [] => some table
  | line :: rest =>
    match matchHeader line with
    | none => none
    | some (name, value) =>
      let joined := match table name with
        | some prev => prev ++ ascii ", " ++ value
        | none => value
      luaHeaders (Function.update table name (some joined)) rest

/-- `request(data)`; `none` when it raises an error. -/
def luaRequest (data : Bytes) : Option LuaRequest :=
  match gmatchLines data with
  | path :: address :: port :: protocols :: headers =>
    (luaHeaders (fun _ => none) headers).map fun table =>
      ⟨path, address, tonumber port, gmatchItems protocols, table⟩
  | _ => none

/-! ## No address holds a newline -/

theorem ne_newline_of_digit {b : UInt8} (h : isAsciiDigit b = true) : b ≠ 10 := by
  rintro rfl
  exact absurd h (by decide)

theorem hexDigits_ne_newline (width n : Nat) : ∀ b ∈ hexDigits width n, b ≠ 10 := by
  have hdigit : ∀ d : Fin 16, UInt8.ofNat (if d.val < 10 then 48 + d.val else 87 + d.val) ≠ 10 := by decide
  induction width generalizing n with
  | zero => exact nofun
  | succ width ih =>
    rw [hexDigits]
    split
    · rename_i hn
      exact List.forall_mem_singleton.mpr (hdigit ⟨n, hn⟩)
    · refine List.forall_mem_append.mpr ⟨ih (n / 16), List.forall_mem_singleton.mpr ?_⟩
      exact hdigit ⟨n % 16, Nat.mod_lt n (by decide)⟩

namespace IpAddr

theorem displayV4_ne_newline (a b c d : UInt8) : ∀ x ∈ displayV4 a b c d, x ≠ 10 := by
  refine forall_mem_intercalate (forall_mem_of_all rfl) fun p hp x hx => ?_
  obtain ⟨n, -, rfl⟩ := List.mem_map.mp hp
  exact ne_newline_of_digit ((decimalDigits_spec 3 n.toNat).2 x hx)

theorem fmtSubslice_ne_newline (chunk : List UInt16) : ∀ x ∈ fmtSubslice chunk, x ≠ 10 := by
  refine forall_mem_intercalate (forall_mem_of_all rfl) fun p hp x hx => ?_
  obtain ⟨n, -, rfl⟩ := List.mem_map.mp hp
  exact hexDigits_ne_newline 4 n.toNat x hx

theorem newline_not_mem_display (ip : IpAddr) : (10 : UInt8) ∉ ip.display := by
  suffices h : ∀ x ∈ ip.display, x ≠ 10 from fun hm => h 10 hm rfl
  cases ip with
  | v4 a b c d => exact displayV4_ne_newline a b c d
  | v6 s =>
    show ∀ x ∈ displayV6 s.val, x ≠ 10
    unfold displayV6
    split
    · exact List.forall_mem_append.mpr ⟨forall_mem_of_all rfl, displayV4_ne_newline _ _ _ _⟩
    · dsimp only
      split
      · refine List.forall_mem_append.mpr ⟨?_, fmtSubslice_ne_newline _⟩
        exact List.forall_mem_append.mpr ⟨fmtSubslice_ne_newline _, forall_mem_of_all rfl⟩
      · exact fmtSubslice_ne_newline _

end IpAddr

/-! ## The two halves agree -/

/-- The lines that `pack` writes. -/
def packed (req : Request) : List Bytes :=
  req.path :: req.addr.ip.display :: decimal req.addr.port :: [44].intercalate req.protocols ::
    req.headers.map fun h => h.1 ++ 58 :: h.2

theorem pack_eq (req : Request) : pack req = (packed req).flatMap fun line => line ++ [10] := by
  have hfold (start : Bytes) (hs : Headers) :
      hs.foldl (fun s h => s ++ h.1 ++ ascii ":" ++ h.2 ++ ascii "\n") start =
        start ++ (hs.map fun h => h.1 ++ 58 :: h.2).flatMap fun line => line ++ [10] := by
    induction hs generalizing start with
    | nil => simp
    | cons h hs ih =>
      rw [List.foldl_cons, ih]
      simp [show ascii ":" = [58] by decide, show ascii "\n" = [10] by decide]
  rw [pack, hfold]
  simp [packed, show ascii "," = [44] by decide, show ascii "\n" = [10] by decide]

/-- No line holds a newline: targets, header values and subprotocols cannot. -/
theorem newline_not_mem_packed {head : Bytes} {r : Handshake.Request} (h : Handshake.request head = .ok r)
    (addr : SocketAddr) : ∀ line ∈ packed ⟨r.target, r.headers, r.protocols, addr⟩, (10 : UInt8) ∉ line := by
  obtain ⟨htarget, hheaders, hprotocols, -⟩ := Handshake.request_spec h
  intro line hl
  simp only [packed, List.mem_cons, List.mem_map] at hl
  rcases hl with rfl | rfl | rfl | rfl | ⟨f, hf, rfl⟩
  · intro hm
    exact absurd ((Handshake.validTarget_iff.mp htarget).2 10 hm) (by decide)
  · exact addr.ip.newline_not_mem_display
  · intro hm
    exact ne_newline_of_digit ((decimalDigits_spec 5 addr.port.toNat).2 10 hm) rfl
  · intro hm
    refine forall_mem_intercalate (P := fun b => b ≠ 10) (forall_mem_of_all rfl) (fun p hp b hb => ?_) 10 hm rfl
    rintro rfl
    exact not_mem_of_isToken (hprotocols p hp) (by decide) hb
  · have hn := not_mem_of_isToken (c := 10) (hheaders f hf).1 (by decide)
    have hv := not_mem_of_isValue (c := 10) (hheaders f hf).2 (by decide)
    simp [hn, hv]

theorem gmatchLines_pack {head : Bytes} {r : Handshake.Request} (h : Handshake.request head = .ok r)
    (addr : SocketAddr) :
    gmatchLines (pack ⟨r.target, r.headers, r.protocols, addr⟩) = packed ⟨r.target, r.headers, r.protocols, addr⟩ := by
  rw [gmatchLines, pack_eq, splitOn_lines (newline_not_mem_packed h addr), List.dropLast_concat]

theorem tonumber_decimal (n : UInt16) : tonumber (decimal n) = some n.toNat := by
  have hall : (decimal n).all isAsciiDigit = true := List.all_eq_true.mpr (decimalDigits_spec 5 n.toNat).2
  simp [tonumber, decimal_ne_nil, hall, digitsValue_decimal]

theorem gmatchItems_intercalate {ps : List Bytes} (h : ∀ p ∈ ps, isToken p = true) :
    gmatchItems ([44].intercalate ps) = ps := by
  cases ps with
  | nil => rfl
  | cons p ps =>
    rw [gmatchItems, List.splitOn_intercalate _ (fun q hq => not_mem_of_isToken (h q hq) (by decide)) (by simp)]
    refine List.filter_eq_self.mpr fun q hq => ?_
    simpa using (isToken_iff.mp (h q hq)).1

/-- What the table holds for a name once `values` have followed what it held before. -/
def joinValues : Option Bytes → List Bytes → Option Bytes
  | prev, [] => prev
  | none, values => some ((ascii ", ").intercalate values)
  | some prev, values => some ((ascii ", ").intercalate (prev :: values))

theorem joinValues_cons (prev : Option Bytes) (value : Bytes) (values : List Bytes) :
    joinValues prev (value :: values) = joinValues (some (match prev with
      | some prev => prev ++ ascii ", " ++ value
      | none => value)) values := by
  cases prev <;> cases values <;> simp [joinValues, intercalate_cons]

theorem luaHeaders_eq {hs : Headers} (h : ∀ f ∈ hs, isToken f.1 = true) (table : Bytes → Option Bytes) :
    luaHeaders table (hs.map fun f => f.1 ++ 58 :: f.2) =
      some fun name => joinValues (table name) (all hs name) := by
  induction hs generalizing table with
  | nil => rfl
  | cons f hs ih =>
    rw [List.forall_mem_cons] at h
    have hmatch : matchHeader (f.1 ++ 58 :: f.2) = some f := by
      rw [matchHeader, splitOnce_append (not_mem_of_isToken h.1 (by decide))]
      simp [(isToken_iff.mp h.1).1]
    rw [List.map_cons, luaHeaders, hmatch]
    dsimp only
    rw [ih h.2]
    congr 1
    funext name
    by_cases hn : f.1 = name
    · subst hn
      rw [Function.update_self, show all (f :: hs) f.1 = f.2 :: all hs f.1 by simp [all], joinValues_cons]
    · rw [Function.update_of_ne (Ne.symm hn), show all (f :: hs) name = all hs name by simp [all, hn]]

theorem luaRequest_pack {head : Bytes} {r : Handshake.Request} (h : Handshake.request head = .ok r)
    (addr : SocketAddr) :
    luaRequest (pack ⟨r.target, r.headers, r.protocols, addr⟩) =
      some ⟨r.target, addr.ip.display, some addr.port.toNat, r.protocols,
        fun name => joinValues none (all r.headers name)⟩ := by
  obtain ⟨-, hheaders, hprotocols, -⟩ := Handshake.request_spec h
  rw [luaRequest, gmatchLines_pack h addr, packed]
  dsimp only
  rw [luaHeaders_eq fun f hf => (hheaders f hf).1, tonumber_decimal, gmatchItems_intercalate hprotocols]
  rfl

/-- The Lua side reads the request that the Rust side packed, whatever the client sent and wherever
it sits: each name maps to its values in order, and no other name is in the table. -/
theorem request_pack {head : Bytes} {r : Handshake.Request} (h : Handshake.request head = .ok r)
    (addr : SocketAddr) :
    luaRequest (pack ⟨r.target, r.headers, r.protocols, addr⟩) =
      some ⟨r.target, addr.ip.display, some addr.port.toNat, r.protocols, fun name =>
        if all r.headers name = [] then none else some ((ascii ", ").intercalate (all r.headers name))⟩ := by
  rw [luaRequest_pack h addr]
  simp only [Option.some.injEq, LuaRequest.mk.injEq, true_and]
  funext name
  cases all r.headers name <;> simp [joinValues]

theorem request_pack_query :
    (luaRequest (pack ⟨ascii "/?q", Handshake.requestHeaders ⟨true, ascii "a.b", 444, ascii "/?q", ascii "a.b:444"⟩
        (Base64.encode (List.replicate 16 0)) [ascii "v2", ascii "v1"] [(ascii "X-Id", ascii " 7\t")],
        [ascii "v2", ascii "v1"], ⟨.v4 127 0 0 1, 9001⟩⟩)).map
      (fun r => (r.path, r.address, r.port, r.protocols, r.headers (ascii "x-id"), r.headers (ascii "cookie")))
      = some (ascii "/?q", ascii "127.0.0.1", some 9001, [ascii "v2", ascii "v1"], some (ascii "7"), none) := by
  rw [request_pack Handshake.asks_query.request_eq ⟨.v4 127 0 0 1, 9001⟩]
  rfl

end WebSocket.Native
