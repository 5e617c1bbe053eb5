import WebSocket.Proto.Handshake

/-!
# The two ends of the opening handshake

The client's request is written from a URL, a key, subprotocols and the user's headers; the
server reads it with grammars of its own. `request_clientRequest` puts them together: every
request the client can make is accepted, and nothing in it is lost, added or split.
-/

namespace WebSocket.Proto.Handshake

open Lib Lib.Text Http

/-! ## What a URL gives to the request -/

section Url

variable {auth host : Bytes} {port : Option Bytes} {tls : Bool} {n : UInt16}

/-- The host comes out of the authority; in brackets it is an address. -/
theorem hostPort_spec (h : Url.hostPort auth = .ok (host, port)) :
    (∀ b ∈ host, b ∈ auth) ∧ (auth.head? = some 91 → Ipv6.parse host ≠ none) := by
  unfold Url.hostPort at h
  split at h
  · rename_i v6
    split at h
    · cases h
    · rename_i addr tail hcut
      split at h
      · cases h
      · rename_i hok
        obtain ⟨rfl, -⟩ := splitOnce_eq_some hcut
        have hsub : ∀ b ∈ addr, b ∈ 91 :: (addr ++ 93 :: tail) := fun b hb =>
          List.mem_cons_of_mem _ (List.mem_append_left _ hb)
        split at h
        · cases h
          exact ⟨hsub, fun _ => hok⟩
        · cases h
          exact ⟨hsub, fun _ => hok⟩
        · cases h
  · rename_i hno
    have hhead : auth.head? ≠ some 91 := by
      cases auth with
      | nil => simp
      | cons b l =>
        intro hb
        cases hb
        exact hno l rfl
    split at h
    · rename_i hcut
      cases h
      obtain ⟨rfl, -⟩ := splitOnce_eq_some hcut
      exact ⟨fun b hb => List.mem_append_left _ hb, fun hb => absurd hb hhead⟩
    · cases h
      exact ⟨fun b hb => hb, fun hb => absurd hb hhead⟩

/-- A host as `url.rs` accepts it: an IPv6 address, or a name. -/
def HostOk (host : Bytes) : Prop :=
  Ipv6.parse host ≠ none ∨ (host ≠ [] ∧ ∀ b ∈ host, Url.hostByte b = true)

theorem hostByte_lowercase {b : UInt8} (h : Url.hostByte b = true) : Url.hostByte (toAsciiLowercase b) = true :=
  lowercase_closed (fun b hb => by simp [Url.hostByte, hb]) h

theorem HostOk.lowercase (h : HostOk host) : HostOk (lowercase host) := by
  rcases h with h | ⟨hne, h⟩
  · exact .inl (by rwa [Ipv6.parse_lowercase])
  · refine .inr ⟨by simpa [Proto.lowercase] using hne, fun b hb => ?_⟩
    obtain ⟨a, ha, rfl⟩ := List.mem_map.mp hb
    exact hostByte_lowercase (h a ha)

/-- What follows the host in an authority. -/
def suffix (tls : Bool) (n : UInt16) : Bytes := if n = Url.defaultPort tls then [] else 58 :: decimal n

theorem validPort_suffix : validPort (suffix tls n) = true := by
  unfold suffix
  split
  · rfl
  · exact isPort_decimal n

theorem authorityOf_eq : Url.authorityOf tls host n =
    (if host.contains 58 then 91 :: host ++ [93] else host) ++ suffix tls n := by
  by_cases hn : n = Url.defaultPort tls <;> simp [Url.authorityOf, suffix, hn]

/-- The authority of a URL is a `Host` the server accepts. -/
theorem validHost_authorityOf (h : HostOk host) : validHost (Url.authorityOf tls host n) = true := by
  rw [authorityOf_eq]
  rcases h with h | ⟨hne, h⟩
  · obtain ⟨addr, haddr⟩ := Option.ne_none_iff_exists'.mp h
    obtain ⟨hcolon, hbytes⟩ := Ipv6.parse_bytes haddr
    have hclose : 93 ∉ host := fun hm => absurd (hbytes 93 hm) (by decide)
    have hcut : splitOnce 93 (host ++ 93 :: suffix tls n) = some (host, suffix tls n) := splitOnce_append hclose
    have hform : (if host.contains 58 then 91 :: host ++ [93] else host) ++ suffix tls n
        = 91 :: (host ++ 93 :: suffix tls n) := by simp [hcolon]
    rw [hform, validHost, hcut]
    simp [haddr, validPort_suffix]
  · have hcolon : 58 ∉ host := fun hm => absurd (h 58 hm) (by decide)
    have hopen : 91 ∉ host := fun hm => absurd (h 91 hm) (by decide)
    have hform : (if host.contains 58 then 91 :: host ++ [93] else host) ++ suffix tls n = host ++ suffix tls n := by
      simp [hcolon]
    have hne58 : ∀ b ∈ host, (b != 58) = true := fun b hb => by
      have hb58 : b ≠ 58 := fun e => hcolon (e ▸ hb)
      simpa using hb58
    have hstop : (suffix tls n).takeWhile (· != 58) = [] ∧ (suffix tls n).dropWhile (· != 58) = suffix tls n := by
      unfold suffix
      split <;> simp
    have hname : host.all (fun b => isAsciiAlphanumeric b || (ascii "-._~!$&'()*+,;=%").contains b) = true := by
      refine List.all_eq_true.mpr fun b hb => ?_
      have hb' := h b hb
      rw [Url.hostByte, Bool.or_eq_true] at hb'
      rcases hb' with hb' | hb'
      · simp [hb']
      · have hsub : ∀ c ∈ ascii "-._", c ∈ ascii "-._~!$&'()*+,;=%" := forall_mem_of_all rfl
        simp [hsub b (by simpa using hb')]
    rw [hform, validHost]
    · rw [List.takeWhile_append_of_pos hne58, List.dropWhile_append_of_pos hne58, hstop.1, hstop.2, List.append_nil]
      rw [hname, validPort_suffix]
      simpa using hne
    · intro v6 heq
      obtain ⟨b, l, rfl⟩ := List.exists_cons_of_ne_nil hne
      cases heq
      exact hopen List.mem_cons_self

/-- The bytes of a host: printable, and none that ends an authority or is special in it. -/
def authorityByte (b : UInt8) : Bool := graphic b && !([35, 47, 63, 64, 91, 93].contains b)

theorem authorityByte_of_hostByte : ∀ {b : UInt8}, Url.hostByte b = true → authorityByte b = true := fun {b} =>
  forall_byte (P := fun b => Url.hostByte b = true → authorityByte b = true) (by decide +kernel) b

theorem authorityByte_of_addrByte : ∀ {b : UInt8}, Ipv6.addrByte b = true → authorityByte b = true := fun {b} =>
  forall_byte (P := fun b => Ipv6.addrByte b = true → authorityByte b = true) (by decide +kernel) b

theorem HostOk.bytes (h : HostOk host) : ∀ b ∈ host, authorityByte b = true := by
  rcases h with h | ⟨-, h⟩
  · obtain ⟨addr, haddr⟩ := Option.ne_none_iff_exists'.mp h
    exact fun b hb => authorityByte_of_addrByte ((Ipv6.parse_bytes haddr).2 b hb)
  · exact fun b hb => authorityByte_of_hostByte (h b hb)

theorem suffix_bytes : ∀ b ∈ suffix tls n, b = 58 ∨ isAsciiDigit b = true := by
  unfold suffix
  split
  · exact nofun
  · exact List.forall_mem_cons.mpr ⟨.inl rfl, fun b hb => .inr ((decimalDigits_spec 5 n.toNat).2 b hb)⟩

/-- What holds of the bytes of a host, of a port and of brackets holds of the authority. -/
theorem forall_mem_authorityOf {P : UInt8 → Prop} (h : ∀ b ∈ host, P b) (h58 : P 58) (h91 : P 91) (h93 : P 93)
    (hd : ∀ b, isAsciiDigit b = true → P b) : ∀ b ∈ Url.authorityOf tls host n, P b := by
  rw [authorityOf_eq]
  refine List.forall_mem_append.mpr ⟨?_, fun b hb => ?_⟩
  · split
    · exact List.forall_mem_append.mpr ⟨List.forall_mem_cons.mpr ⟨h91, h⟩, List.forall_mem_singleton.mpr h93⟩
    · exact h
  · rcases suffix_bytes b hb with rfl | hb
    · exact h58
    · exact hd b hb

theorem validTarget_iff {t : Bytes} :
    validTarget t = true ↔ t.head? = some 47 ∧ ∀ b ∈ t, graphic b = true ∧ b ≠ 35 := by
  have hbyte (b : UInt8) : ¬ ((b ≤ 32 || 0x7f ≤ b || b == 35) = true) ↔ graphic b = true ∧ b ≠ 35 := by
    rw [graphic_iff]
    simp only [Bool.or_eq_true, decide_eq_true_eq, beq_iff_eq, UInt8.le_iff_toNat_le, not_or, Nat.not_le]
    exact Iff.rfl
  simp only [validTarget, Bool.and_eq_true, beq_iff_eq, Bool.not_eq_true', List.any_eq_false, hbyte]

theorem validTarget_targetOf {rest : Bytes} {stop : UInt8 → Bool} (hstop : ∀ b, stop b = false → b = 47 ∨ b = 63)
    (h : ∀ b ∈ rest, graphic b = true ∧ b ≠ 35) :
    validTarget (Url.targetOf (rest.dropWhile stop)) = true := by
  have hbytes : ∀ b ∈ rest.dropWhile stop, graphic b = true ∧ b ≠ 35 := fun b hb =>
    h b ((List.dropWhile_suffix stop).subset hb)
  have hhead := List.head?_dropWhile_not stop rest
  rw [validTarget_iff]
  cases hd : rest.dropWhile stop with
  | nil => exact ⟨by decide, forall_mem_of_all rfl⟩
  | cons b l =>
    rw [hd] at hbytes hhead
    rcases hstop b hhead with rfl | rfl
    · exact ⟨rfl, hbytes⟩
    · exact ⟨rfl, List.forall_mem_cons.mpr ⟨by decide, hbytes⟩⟩

/-- The form of the URLs that `url::parse` returns. -/
structure Normal (u : Url) : Prop where
  host : HostOk u.host
  lower : lowercase u.host = u.host
  port : u.port ≠ 0
  authority : u.authority = Url.authorityOf u.tls u.host u.port
  target : validTarget u.target = true

theorem lowercase_lowercase (s : Bytes) : lowercase (lowercase s) = lowercase s := by
  rw [lowercase, lowercase, List.map_map]
  refine List.map_congr_left fun b _ => ?_
  exact forall_byte (P := fun b => (toAsciiLowercase ∘ toAsciiLowercase) b = toAsciiLowercase b) (by decide +kernel) b

theorem portNumber_ne_zero (h : Url.portNumber tls port = .ok n) : n ≠ 0 := by
  unfold Url.portNumber at h
  split at h
  · cases h
    cases tls <;> decide
  · split at h
    · split at h
      · split at h
        · cases h
        · cases h
          assumption
      · cases h
    · cases h

theorem parseRest_normal {rest : Bytes} {url : Url} (hr : ∀ b ∈ rest, graphic b = true ∧ b ≠ 35)
    (h : Url.parseRest tls rest = .ok url) : Normal url := by
  unfold Url.parseRest at h
  dsimp only at h
  split at h
  · cases h
  · cases hhost : Url.hostPort (rest.takeWhile fun b => b != 47 && b != 63) with
    | error e =>
      rw [hhost] at h
      cases h
    | ok p =>
      obtain ⟨host, port⟩ := p
      obtain ⟨hsub, haddr⟩ := hostPort_spec hhost
      simp only [hhost, bind, Except.bind] at h
      split at h
      · cases h
      · rename_i hempty
        split at h
        · cases h
        · rename_i hname
          have hok : HostOk host := by
            by_cases hv6 : (rest.takeWhile fun b => b != 47 && b != 63).head? = some 91
            · exact .inl (haddr hv6)
            · have hall : host.all Url.hostByte = true := by
                by_contra hc
                exact hname ⟨hv6, hc⟩
              exact .inr ⟨by simpa using hempty, List.all_eq_true.mp hall⟩
          cases hport : Url.portNumber tls port with
          | error e =>
            rw [hport] at h
            cases h
          | ok n =>
            rw [hport] at h
            cases h
            refine ⟨hok.lowercase, lowercase_lowercase host, portNumber_ne_zero hport, rfl,
              validTarget_targetOf (fun b hb => ?_) hr⟩
            by_contra hc
            rw [not_or] at hc
            simp [hc.1, hc.2] at hb

theorem parse_normal {input : Bytes} {url : Url} (h : Url.parse input = .ok url) : Normal url := by
  unfold Url.parse at h
  split at h
  · cases h
  · rename_i i _
    cases hs : Url.scheme (input.take i) with
    | error e =>
      rw [hs] at h
      cases h
    | ok tls =>
      simp only [hs, bind, Except.bind] at h
      split at h
      · cases h
      · rename_i hchars
        split at h
        · cases h
        · rename_i hfrag
          refine parseRest_normal (fun b hb => ⟨?_, fun e => ?_⟩) h
          · simp only [List.any_eq_true, not_exists, not_and, Bool.or_eq_true, decide_eq_true_eq, not_or,
              UInt8.le_iff_toNat_le, Nat.not_le] at hchars
            exact graphic_iff.mpr (hchars b hb)
          · exact hfrag (by simpa [← e] using hb)

theorem Normal.validHost {url : Url} (h : Normal url) : validHost url.authority = true := by
  rw [h.authority]
  exact validHost_authorityOf h.host

theorem Normal.graphic_authority {url : Url} (h : Normal url) : ∀ b ∈ url.authority, graphic b = true ∧ b ≠ 35 := by
  rw [h.authority]
  refine forall_mem_authorityOf (fun b hb => ?_) (by decide) (by decide) (by decide) fun b hb => ?_
  · have hb := h.host.bytes b hb
    simp only [authorityByte, Bool.and_eq_true, Bool.not_eq_true', List.contains_eq_mem, decide_eq_false_iff_not,
      List.mem_cons, not_or] at hb
    exact ⟨hb.1, hb.2.1⟩
  · refine ⟨graphic_of_isAsciiDigit hb, ?_⟩
    rintro rfl
    cases hb

/-- What a parsed URL gives to the request: a target and a host that the server accepts. -/
theorem parse_spec {input : Bytes} {url : Url} (h : Url.parse input = .ok url) :
    validTarget url.target = true ∧ validHost url.authority = true ∧ ∀ b ∈ url.authority, graphic b = true :=
  ⟨(parse_normal h).target, (parse_normal h).validHost, fun b hb => ((parse_normal h).graphic_authority b hb).1⟩

end Url

/-! ## The request as a head -/

def requestStart (url : Url) : Bytes := ascii "GET " ++ url.target ++ ascii " HTTP/1.1"

/-- The header that offers subprotocols. -/
def offer (name : Bytes) (protocols : List Bytes) : Headers :=
  if protocols.isEmpty then [] else [(name, (ascii ", ").intercalate protocols)]

/-- The header lines of a request, in order. -/
def requestFields (url : Url) (key : Bytes) (protocols : List Bytes) (headers : Headers) : Headers :=
  [(ascii "Host", url.authority), (ascii "Upgrade", ascii "websocket"), (ascii "Connection", ascii "Upgrade"),
    (ascii "Sec-WebSocket-Key", key), (ascii "Sec-WebSocket-Version", ascii "13")]
  ++ offer (ascii "Sec-WebSocket-Protocol") protocols ++ headers

/-- The fixed headers of the handshake, as the server reads them. -/
def fixedHeaders (url : Url) (key : Bytes) : Headers :=
  [(ascii "host", url.authority), (ascii "upgrade", ascii "websocket"), (ascii "connection", ascii "Upgrade"),
    (ascii "sec-websocket-key", key), (ascii "sec-websocket-version", ascii "13")]

/-- The headers that the server reads of a request: none lost, none added, none split. -/
def requestHeaders (url : Url) (key : Bytes) (protocols : List Bytes) (headers : Headers) : Headers :=
  fixedHeaders url key ++ offer (ascii "sec-websocket-protocol") protocols ++ headers.map fun h => (lowercase h.1, trimMatches h.2)

section Request

variable {url : Url} {key : Bytes} {protocols : List Bytes} {headers : Headers}

theorem foldl_fields (out : Bytes) (headers : Headers) :
    headers.foldl (fun out h => out ++ h.1 ++ ascii ": " ++ h.2 ++ ascii "\r\n") out
      = out ++ headers.flatMap fun f => field f ++ crlf := by
  induction headers generalizing out with
  | nil => simp
  | cons f headers ih =>
    rw [List.foldl_cons, ih, List.flatMap_cons, field, show ascii "\r\n" = crlf by decide]
    simp

theorem clientRequest_eq :
    clientRequest url key protocols headers = print (requestStart url) (requestFields url key protocols headers) := by
  have h1 : ascii " HTTP/1.1\r\nHost: " = ascii " HTTP/1.1" ++ crlf ++ (ascii "Host" ++ ascii ": ") := by
    repeat rw [ascii_ofList]
    rfl
  have h2 : ascii "\r\nUpgrade: websocket\r\nConnection: Upgrade\r\nSec-WebSocket-Key: "
      = crlf ++ (field (ascii "Upgrade", ascii "websocket") ++ crlf
        ++ (field (ascii "Connection", ascii "Upgrade") ++ crlf) ++ (ascii "Sec-WebSocket-Key" ++ ascii ": ")) := by
    unfold field
    repeat rw [ascii_ofList]
    rfl
  have h3 : ascii "\r\nSec-WebSocket-Version: 13\r\n"
      = crlf ++ (field (ascii "Sec-WebSocket-Version", ascii "13") ++ crlf) := by
    unfold field
    repeat rw [ascii_ofList]
    rfl
  have h4 : ascii "Sec-WebSocket-Protocol: " = ascii "Sec-WebSocket-Protocol" ++ ascii ": " := by
    repeat rw [ascii_ofList]
    rfl
  have h5 : ascii "\r\n" = crlf := rfl
  unfold clientRequest print requestFields requestStart offer
  dsimp only
  rw [foldl_fields, h1, h2, h3, h4, h5]
  cases protocols with
  | nil => simp [field]
  | cons p ps => simp [field]

theorem checkHeader_ok {name value : Bytes} (h : checkHeader name value = .ok ()) :
    isToken name = true ∧ isValue value = true ∧ lowercase name ∉ RESERVED := by
  unfold checkHeader at h
  split at h
  · cases h
  · rename_i hbad
    split at h
    · cases h
    · rename_i hres
      simp only [Bool.or_eq_true, Bool.not_eq_true', not_or, Bool.not_eq_false] at hbad
      exact ⟨hbad.1, hbad.2, by simpa using hres⟩

/-! ### Bytes -/

theorem valueByte_of_graphic {b : UInt8} (h : graphic b = true) : valueByte b = true := by
  rw [graphic_iff] at h
  have hle : (32 : UInt8) ≤ b := UInt8.le_iff_toNat_le.mpr (Nat.le_of_lt h.1)
  have hne : b ≠ 0x7f := fun e => by simp [e] at h
  simp [valueByte, hle, hne]

theorem not_blank_of_graphic {b : UInt8} (h : graphic b = true) : blank b = false := by
  rw [graphic_iff] at h
  have h1 : b ≠ 32 := fun e => by simp [e] at h
  have h2 : b ≠ 9 := fun e => by simp [e] at h
  simp [blank, h1, h2]

theorem isValue_of_graphic {s : Bytes} (h : ∀ b ∈ s, graphic b = true) : isValue s = true :=
  isValue_iff.mpr fun b hb => valueByte_of_graphic (h b hb)

theorem trim_of_graphic {s : Bytes} (h : ∀ b ∈ s, graphic b = true) : trimMatches s = s :=
  trim_eq_self fun b hb => not_blank_of_graphic (h b hb)

theorem valid_of_graphic {s : Bytes} (h : ∀ b ∈ s, graphic b = true) : Utf8.Valid s :=
  Utf8.valid_of_ascii fun b hb => Nat.lt_trans (graphic_iff.mp (h b hb)).2 (by decide)

theorem graphic_of_tokenByte {b : UInt8} (h : tokenByte b = true) : graphic b = true := by
  rw [tokenByte, Bool.or_eq_true] at h
  rcases h with h | h
  · simp only [isAsciiAlphanumeric, isAsciiDigit, Bool.or_eq_true, Bool.and_eq_true, decide_eq_true_eq,
      UInt8.le_iff_toNat_le] at h
    rw [graphic_iff]
    rcases h with (⟨h1, h2⟩ | ⟨h1, h2⟩) | ⟨h1, h2⟩ <;> simp at h1 h2 <;> omega
  · have hall : ∀ c ∈ ascii "!#$%&'*+-.^_`|~", graphic c = true := forall_mem_of_all rfl
    exact hall b (by simpa using h)

theorem graphic_of_isToken {s : Bytes} (h : isToken s = true) : ∀ b ∈ s, graphic b = true := fun b hb =>
  graphic_of_tokenByte ((isToken_iff.mp h).2 b hb)

theorem graphic_encode (b : Bytes) : ∀ c ∈ Base64.encode b, graphic c = true := by
  refine Base64.forall_mem_encode (fun v hv => ?_) (by decide) b
  have : ∀ v : Fin 64, graphic (Base64.char v) = true := by decide +kernel
  exact this ⟨v, hv⟩

/-! ### Subprotocols -/

/-- The comma list as its items, the later ones with a blank. -/
theorem splitOn_intercalate {p : Bytes} {ps : List Bytes} (h : ∀ q ∈ p :: ps, isToken q = true) :
    ((ascii ", ").intercalate (p :: ps)).splitOn 44 = p :: ps.map (32 :: ·) := by
  have hsep : ascii ", " = [44, 32] := by decide
  have heq : (ascii ", ").intercalate (p :: ps) = [44].intercalate (p :: ps.map (32 :: ·)) := by
    rw [intercalate_cons, intercalate_cons, hsep, List.flatMap_map]
    rfl
  rw [List.forall_mem_cons] at h
  rw [heq, List.splitOn_intercalate]
  · refine List.forall_mem_cons.mpr ⟨not_mem_of_isToken h.1 (by decide), fun q hq => ?_⟩
    obtain ⟨r, hr, rfl⟩ := List.mem_map.mp hq
    have := not_mem_of_isToken (c := 44) (h.2 r hr) (by decide)
    simpa using this
  · simp

theorem map_trim_items {p : Bytes} {ps : List Bytes} (h : ∀ q ∈ p :: ps, isToken q = true) :
    (p :: ps.map (32 :: ·)).map trimMatches = p :: ps := by
  rw [List.forall_mem_cons] at h
  rw [List.map_cons, List.map_map, trim_of_graphic (graphic_of_isToken h.1)]
  congr 1
  conv_rhs => rw [← List.map_id ps]
  refine List.map_congr_left fun q hq => ?_
  show trimMatches (32 :: q) = q
  rw [trimMatches, trim_cons (by decide)]
  exact trim_of_graphic (graphic_of_isToken (h.2 q hq))

theorem tokensFrom_eq {out ps : List Bytes} (ht : ∀ p ∈ ps, isToken p = true) (hn : (out ++ ps).Nodup) :
    tokensFrom out ps = some (out ++ ps) := by
  induction ps generalizing out with
  | nil => simp [tokensFrom]
  | cons p ps ih =>
    rw [List.forall_mem_cons] at ht
    have hp : p ∉ out := fun hm => (List.nodup_append.mp hn).2.2 p hm p List.mem_cons_self rfl
    have hrest : (out ++ [p] ++ ps).Nodup := by simpa using hn
    rw [tokensFrom, ih ht.2 hrest]
    simp [ht.1, hp]

theorem mem_intercalate {ps : List Bytes} (h : ∀ q ∈ ps, isToken q = true) :
    ∀ b ∈ (ascii ", ").intercalate ps, graphic b = true ∨ b = 32 :=
  forall_mem_intercalate (forall_mem_of_all rfl) fun q hq b hb => .inl (graphic_of_isToken (h q hq) b hb)

theorem intercalate_ends {p : Bytes} {ps : List Bytes} (h : ∀ q ∈ p :: ps, isToken q = true) :
    (∀ b ∈ ((ascii ", ").intercalate (p :: ps)).head?, graphic b = true) ∧
      ∀ b ∈ ((ascii ", ").intercalate (p :: ps)).getLast?, graphic b = true := by
  have hne {q : Bytes} (hq : q ∈ p :: ps) : q ≠ [] := (isToken_iff.mp (h q hq)).1
  rw [intercalate_cons]
  constructor
  · intro b hb
    rw [List.head?_append_of_ne_nil _ (hne List.mem_cons_self)] at hb
    exact graphic_of_isToken (h p List.mem_cons_self) b (List.mem_of_mem_head? hb)
  · intro b hb
    rcases List.eq_nil_or_concat ps with rfl | ⟨qs, q, rfl⟩
    · rw [List.flatMap_nil, List.append_nil] at hb
      exact graphic_of_isToken (h p List.mem_cons_self) b (List.mem_of_mem_getLast? hb)
    · have hq : q ∈ p :: qs.concat q := by simp
      rw [List.concat_eq_append, List.flatMap_append, List.flatMap_singleton, ← List.append_assoc,
        ← List.append_assoc, List.getLast?_append_of_ne_nil _ (hne hq)] at hb
      exact graphic_of_isToken (h q hq) b (List.mem_of_mem_getLast? hb)

/-- The offered subprotocols as a header value. -/
theorem value_intercalate {p : Bytes} {ps : List Bytes} (h : ∀ q ∈ p :: ps, isToken q = true) :
    isValue ((ascii ", ").intercalate (p :: ps)) = true ∧ Utf8.Valid ((ascii ", ").intercalate (p :: ps)) ∧
      trimMatches ((ascii ", ").intercalate (p :: ps)) = (ascii ", ").intercalate (p :: ps) := by
  have hmem := mem_intercalate h
  obtain ⟨hhead, hlast⟩ := intercalate_ends h
  refine ⟨isValue_iff.mpr fun b hb => ?_, Utf8.valid_of_ascii fun b hb => ?_, ?_⟩
  · rcases hmem b hb with hb | rfl
    · exact valueByte_of_graphic hb
    · decide
  · rcases hmem b hb with hb | rfl
    · exact Nat.lt_trans (graphic_iff.mp hb).2 (by decide)
    · decide
  · exact trim_eq_self_of_ends (fun b hb => not_blank_of_graphic (hhead b hb))
      fun b hb => not_blank_of_graphic (hlast b hb)

/-! ### The lookups -/

theorem all_append (a b : Headers) (name : Bytes) : all (a ++ b) name = all a name ++ all b name := by
  simp [all]

theorem all_eq_nil {hs : Headers} {name : Bytes} (h : ∀ f ∈ hs, f.1 ≠ name) : all hs name = [] := by
  unfold all
  rw [List.filter_eq_nil_iff.mpr fun f hf => by simpa using h f hf]
  rfl

end Request

/-! ## What an accepted request holds -/

theorem tokensFrom_spec {out items ps : List Bytes} (h : tokensFrom out items = some ps)
    (ho : ∀ p ∈ out, isToken p = true) (hn : out.Nodup) : (∀ p ∈ ps, isToken p = true) ∧ ps.Nodup := by
  induction items generalizing out with
  | nil =>
    cases h
    exact ⟨ho, hn⟩
  | cons item rest ih =>
    rw [tokensFrom] at h
    split at h
    · cases h
    · rename_i hbad
      simp only [Bool.or_eq_true, Bool.not_eq_true', not_or, Bool.not_eq_false, List.contains_eq_mem,
        decide_eq_true_eq] at hbad
      refine ih h (List.forall_mem_append.mpr ⟨ho, List.forall_mem_singleton.mpr hbad.1⟩) ?_
      rw [List.nodup_append]
      refine ⟨hn, List.pairwise_singleton _ item, fun a ha b hb e => hbad.2 ?_⟩
      rw [← List.mem_singleton.mp hb, ← e]
      exact ha

/-- What the server has checked of a request it passes on. -/
theorem request_spec {head : Bytes} {r : Request} (h : request head = .ok r) :
    validTarget r.target = true ∧ (∀ f ∈ r.headers, isToken f.1 = true ∧ isValue f.2 = true) ∧
      (∀ p ∈ r.protocols, isToken p = true) ∧ r.protocols.Nodup := by
  unfold request at h
  cases hparse : parse head with
  | none =>
    rw [hparse] at h
    cases h
  | some parsed =>
    rw [hparse] at h
    dsimp only at h
    split at h
    · obtain ⟨hline, h⟩ := ok_of_ite h
      -- The checks of the headers leave no trace in the result.
      iterate 7
        replace h := (ok_of_ite h).2
      split at h
      · cases h
      replace h := (ok_of_ite h).2
      split at h
      · cases h
      · rename_i htokens
        cases h
        rw [not_or, Bool.not_eq_false] at hline
        exact ⟨hline.2, (Http.parse_spec hparse).2, tokensFrom_spec htokens nofun List.nodup_nil⟩
    · cases h

/-! ## Every request is understood -/

/-- What `connect` lets a client ask for, within the sizes that a server reads. -/
structure Asks (url : Url) (nonce : Bytes) (protocols : List Bytes) (headers : Headers) : Prop where
  parsed : ∃ input, Url.parse input = .ok url
  keyed : nonce.length = 16
  distinct : protocols.Nodup
  tokens : ∀ p ∈ protocols, isToken p = true
  checked : ∀ h ∈ headers, checkHeader h.1 h.2 = .ok ()
  text : ∀ h ∈ headers, Utf8.Valid h.2
  origin : (headers.filter fun h => lowercase h.1 == ascii "origin").length ≤ 1
  lines : (requestFields url (Base64.encode nonce) protocols headers).length ≤ MAX_HEADERS
  size : (clientRequest url (Base64.encode nonce) protocols headers).length ≤ MAX_HEAD

section Asks

variable {url : Url} {nonce : Bytes} {protocols : List Bytes} {headers : Headers}

/-- What both ends ask of a header line. -/
structure FieldOk (f : Bytes × Bytes) : Prop where
  name : isToken f.1 = true
  value : isValue f.2 = true
  text : Utf8.Valid f.2

theorem fieldOk_of_graphic {name value : Bytes} (hn : isToken name = true) (hv : ∀ b ∈ value, graphic b = true) :
    FieldOk (name, value) :=
  ⟨hn, isValue_of_graphic hv, valid_of_graphic hv⟩

theorem offer_ok {name : Bytes} (hn : isToken name = true) (ht : ∀ p ∈ protocols, isToken p = true) :
    ∀ f ∈ offer name protocols, FieldOk f := by
  unfold offer
  cases protocols with
  | nil => exact nofun
  | cons p ps =>
    obtain ⟨hv, hu, -⟩ := value_intercalate ht
    exact List.forall_mem_singleton.mpr ⟨hn, hv, hu⟩

theorem Asks.fields_ok (h : Asks url nonce protocols headers) :
    ∀ f ∈ requestFields url (Base64.encode nonce) protocols headers, FieldOk f := by
  obtain ⟨input, hurl⟩ := h.parsed
  obtain ⟨-, -, hauth⟩ := parse_spec hurl
  refine List.forall_mem_append.mpr ⟨List.forall_mem_append.mpr ⟨?_, offer_ok (by decide) h.tokens⟩, ?_⟩
  · simp only [List.forall_mem_cons]
    exact ⟨fieldOk_of_graphic (by decide) hauth, fieldOk_of_graphic (by decide) (forall_mem_of_all rfl),
      fieldOk_of_graphic (by decide) (forall_mem_of_all rfl), fieldOk_of_graphic (by decide) (graphic_encode nonce),
      fieldOk_of_graphic (by decide) (forall_mem_of_all rfl), nofun⟩
  · intro f hf
    obtain ⟨hn, hv, -⟩ := checkHeader_ok (h.checked f hf)
    exact ⟨hn, hv, h.text f hf⟩

theorem valid_print {start : Bytes} {fields : Headers} (hs : Utf8.Valid start) (hf : ∀ f ∈ fields, FieldOk f) :
    Utf8.Valid (print start fields) := by
  have hcrlf : Utf8.Valid crlf := Utf8.valid_of_ascii (forall_mem_of_all rfl)
  have hfields : Utf8.Valid (fields.flatMap fun f => field f ++ crlf) := by
    induction fields with
    | nil => exact Utf8.valid_nil
    | cons f fields ih =>
      rw [List.forall_mem_cons] at hf
      have hname := valid_of_graphic (graphic_of_isToken hf.1.name)
      have hsep : Utf8.Valid (ascii ": ") := Utf8.valid_of_ascii (forall_mem_of_all rfl)
      exact (((hname.append hsep).append hf.1.text).append hcrlf).append (ih hf.2)
  exact ((hs.append hcrlf).append hfields).append hcrlf

theorem start_ok (h : validTarget url.target = true) :
    isValue (requestStart url) = true ∧ Utf8.Valid (requestStart url) := by
  have hg : ∀ b ∈ url.target, graphic b = true := fun b hb => ((validTarget_iff.mp h).2 b hb).1
  constructor
  · have ht := isValue_of_graphic hg
    have h1 : isValue (ascii "GET ") = true := by decide
    have h2 : isValue (ascii " HTTP/1.1") = true := by decide
    simp only [requestStart, isValue, List.all_append, Bool.and_eq_true] at ht h1 h2 ⊢
    exact ⟨⟨h1, ht⟩, h2⟩
  · exact ((Utf8.valid_of_ascii (forall_mem_of_all rfl)).append (valid_of_graphic hg)).append (Utf8.valid_of_ascii (forall_mem_of_all rfl))

theorem map_read_offer (ht : ∀ p ∈ protocols, isToken p = true) :
    (offer (ascii "Sec-WebSocket-Protocol") protocols).map Http.read = offer (ascii "sec-websocket-protocol") protocols := by
  unfold offer
  cases protocols with
  | nil => rfl
  | cons p ps =>
    obtain ⟨-, -, htrim⟩ := value_intercalate ht
    have hname : lowercase (ascii "Sec-WebSocket-Protocol") = ascii "sec-websocket-protocol" := by decide
    simp [Http.read, htrim, hname]

theorem Asks.map_read (h : Asks url nonce protocols headers) :
    (requestFields url (Base64.encode nonce) protocols headers).map Http.read
      = requestHeaders url (Base64.encode nonce) protocols headers := by
  obtain ⟨input, hurl⟩ := h.parsed
  obtain ⟨-, -, hauth⟩ := parse_spec hurl
  have hfixed : ([(ascii "Host", url.authority), (ascii "Upgrade", ascii "websocket"),
      (ascii "Connection", ascii "Upgrade"), (ascii "Sec-WebSocket-Key", Base64.encode nonce),
      (ascii "Sec-WebSocket-Version", ascii "13")] : Headers).map Http.read
      = fixedHeaders url (Base64.encode nonce) := by
    simp only [List.map_cons, List.map_nil, Http.read, trim_of_graphic hauth, trim_of_graphic (graphic_encode nonce)]
    congr 1
  rw [requestFields, requestHeaders, List.map_append, List.map_append, map_read_offer h.tokens, hfixed]
  rfl

/-- A name that the handshake reserves is not among the user's headers. -/
theorem Asks.all_reserved (h : Asks url nonce protocols headers) {name : Bytes} (hr : name ∈ RESERVED) :
    all (requestHeaders url (Base64.encode nonce) protocols headers) name
      = all (fixedHeaders url (Base64.encode nonce) ++ offer (ascii "sec-websocket-protocol") protocols) name := by
  have huser : all (headers.map fun h => (lowercase h.1, trimMatches h.2)) name = [] := by
    refine all_eq_nil fun f hf => ?_
    obtain ⟨g, hg, rfl⟩ := List.mem_map.mp hf
    intro (e : lowercase g.1 = name)
    exact (checkHeader_ok (h.checked g hg)).2.2 (e ▸ hr)
  rw [requestHeaders, all_append, huser, List.append_nil]

theorem all_offer {name : Bytes} (hn : name ≠ ascii "sec-websocket-protocol") :
    all (offer (ascii "sec-websocket-protocol") protocols) name = [] := by
  refine all_eq_nil fun f hf => ?_
  unfold offer at hf
  split at hf
  · cases hf
  · rw [List.mem_singleton.mp hf]
    exact hn.symm

theorem Asks.all_fixed (h : Asks url nonce protocols headers) {name : Bytes} (hr : name ∈ RESERVED)
    (hn : name ≠ ascii "sec-websocket-protocol") :
    all (requestHeaders url (Base64.encode nonce) protocols headers) name
      = all (fixedHeaders url (Base64.encode nonce)) name := by
  rw [h.all_reserved hr, all_append, all_offer hn, List.append_nil]

theorem Asks.all_origin (h : Asks url nonce protocols headers) :
    (all (requestHeaders url (Base64.encode nonce) protocols headers) (ascii "origin")).length ≤ 1 := by
  have hfixed : all (fixedHeaders url (Base64.encode nonce)) (ascii "origin") = [] := rfl
  rw [requestHeaders, all_append, all_append, hfixed, all_offer (by decide), List.nil_append, List.nil_append, all,
    List.length_map, List.filter_map, List.length_map]
  exact h.origin

theorem Asks.tokens_protocol (h : Asks url nonce protocols headers) :
    Http.tokens (requestHeaders url (Base64.encode nonce) protocols headers) (ascii "sec-websocket-protocol")
      = some protocols := by
  have hall : all (requestHeaders url (Base64.encode nonce) protocols headers) (ascii "sec-websocket-protocol")
      = all (offer (ascii "sec-websocket-protocol") protocols) (ascii "sec-websocket-protocol") := by
    rw [h.all_reserved (by decide), all_append]
    rfl
  rw [Http.tokens, items, hall]
  have ht := h.tokens
  have hd := h.distinct
  cases protocols with
  | nil => rfl
  | cons p ps =>
    have hone : all (offer (ascii "sec-websocket-protocol") (p :: ps)) (ascii "sec-websocket-protocol")
        = [(ascii ", ").intercalate (p :: ps)] := by simp [offer, all]
    rw [hone, List.flatMap_singleton, splitOn_intercalate ht, map_trim_items ht]
    exact tokensFrom_eq ht hd

theorem splitOn_start (h : validTarget url.target = true) :
    (requestStart url).splitOn 32 = [ascii "GET", url.target, ascii "HTTP/1.1"] := by
  have hspace : 32 ∉ url.target := fun hm => absurd ((validTarget_iff.mp h).2 32 hm).1 (by decide)
  have heq : requestStart url = [32].intercalate [ascii "GET", url.target, ascii "HTTP/1.1"] := by
    rw [requestStart, intercalate_cons, show ascii "GET " = ascii "GET" ++ [32] by decide,
      show ascii " HTTP/1.1" = [32] ++ ascii "HTTP/1.1" by decide]
    simp
  rw [heq, List.splitOn_intercalate]
  · simp only [List.forall_mem_cons]
    exact ⟨by decide, hspace, by decide, nofun⟩
  · simp

theorem Asks.parse_eq (h : Asks url nonce protocols headers) :
    parse (clientRequest url (Base64.encode nonce) protocols headers)
      = some (requestStart url, requestHeaders url (Base64.encode nonce) protocols headers) := by
  obtain ⟨input, hurl⟩ := h.parsed
  obtain ⟨htarget, -, -⟩ := parse_spec hurl
  obtain ⟨hs, hv⟩ := start_ok htarget
  have hsize := h.size
  rw [clientRequest_eq] at hsize ⊢
  rw [parse_print hs (fun f hf => ⟨(h.fields_ok f hf).name, (h.fields_ok f hf).value⟩) h.lines hsize
    (valid_print hv h.fields_ok), h.map_read]

/-- The server's reading of the request. -/
theorem Asks.request_eq (h : Asks url nonce protocols headers) :
    request (clientRequest url (Base64.encode nonce) protocols headers)
      = .ok ⟨url.target, requestHeaders url (Base64.encode nonce) protocols headers, Base64.encode nonce,
          protocols⟩ := by
  obtain ⟨input, hurl⟩ := h.parsed
  obtain ⟨htarget, hhost, -⟩ := parse_spec hurl
  have hlen : (Base64.encode nonce).length = 24 := by rw [Base64.length_encode, h.keyed]
  have hdecode : Base64.decode (Base64.encode nonce) = some nonce := Base64.decode_encode nonce
  have hparse := h.parse_eq
  have horigin := h.all_origin
  have hprotocols := h.tokens_protocol
  have hfixed := @h.all_fixed
  generalize requestHeaders url (Base64.encode nonce) protocols headers = H at hparse horigin hprotocols hfixed ⊢
  have hone {name value : Bytes} (ha : all H name = [value]) : one H name = some value := by rw [one, ha]
  have hname : one H (ascii "host") = some url.authority := hone (hfixed (by decide) (by decide))
  have hkey : one H (ascii "sec-websocket-key") = some (Base64.encode nonce) := hone (hfixed (by decide) (by decide))
  have hversion : one H (ascii "sec-websocket-version") = some (ascii "13") := hone (hfixed (by decide) (by decide))
  have hte : all H (ascii "transfer-encoding") = [] := hfixed (by decide) (by decide)
  have hcl : all H (ascii "content-length") = [] := hfixed (by decide) (by decide)
  have hupgrade : hasToken H (ascii "upgrade") (ascii "websocket") = true := by
    rw [hasToken, items, hfixed (by decide) (by decide)]
    rfl
  have hconnection : hasToken H (ascii "connection") (ascii "upgrade") = true := by
    rw [hasToken, items, hfixed (by decide) (by decide)]
    rfl
  have hsingle : ¬ 2 ≤ (all H (ascii "origin")).length := Nat.not_le.mpr (Nat.lt_succ_of_le horigin)
  unfold request
  rw [hparse]
  dsimp only
  rw [splitOn_start htarget]
  simp [htarget, hname, hhost, hsingle, hte, hcl, hupgrade, hconnection, hversion, hkey, hlen, hdecode, h.keyed,
    hprotocols]

theorem Asks.headEnd_eq (h : Asks url nonce protocols headers) :
    headEnd (clientRequest url (Base64.encode nonce) protocols headers)
      = some (clientRequest url (Base64.encode nonce) protocols headers).length := by
  obtain ⟨input, hurl⟩ := h.parsed
  rw [clientRequest_eq]
  exact headEnd_print (start_ok (parse_spec hurl).1).1 fun f hf => ⟨(h.fields_ok f hf).name, (h.fields_ok f hf).value⟩

end Asks

/-- The server understands every request the client can produce: it sees the whole head and reads
the target, the key, the subprotocols in order, and the headers. -/
theorem request_clientRequest {url : Url} {nonce : Bytes} {protocols : List Bytes} {headers : Headers}
    (h : Asks url nonce protocols headers) :
    let head := clientRequest url (Base64.encode nonce) protocols headers
    headEnd head = some head.length ∧
      request head = .ok ⟨url.target, requestHeaders url (Base64.encode nonce) protocols headers,
        Base64.encode nonce, protocols⟩ :=
  ⟨h.headEnd_eq, h.request_eq⟩

/-- A request with a query, two subprotocols and a header that is trimmed. -/
theorem asks_query : Asks ⟨true, ascii "a.b", 444, ascii "/?q", ascii "a.b:444"⟩ (List.replicate 16 0)
    [ascii "v2", ascii "v1"] [(ascii "X-Id", ascii " 7\t")] where
  parsed := ⟨ascii "wss://A.b:444?q", rfl⟩
  keyed := rfl
  distinct := by decide
  tokens := by decide
  checked := by
    intro h hh
    cases List.mem_singleton.mp hh
    rfl
  text := by
    intro h hh
    cases List.mem_singleton.mp hh
    exact Utf8.valid_of_ascii (forall_mem_of_all rfl)
  origin := by decide
  lines := by decide
  size := by decide +kernel

theorem request_clientRequest_query :
    request (clientRequest ⟨true, ascii "a.b", 444, ascii "/?q", ascii "a.b:444"⟩
        (Base64.encode (List.replicate 16 0)) [ascii "v2", ascii "v1"] [(ascii "X-Id", ascii " 7\t")])
      = .ok ⟨ascii "/?q",
          [(ascii "host", ascii "a.b:444"), (ascii "upgrade", ascii "websocket"), (ascii "connection", ascii "Upgrade"),
            (ascii "sec-websocket-key", Base64.encode (List.replicate 16 0)), (ascii "sec-websocket-version", ascii "13"),
            (ascii "sec-websocket-protocol", ascii "v2, v1"), (ascii "x-id", ascii "7")],
          Base64.encode (List.replicate 16 0), [ascii "v2", ascii "v1"]⟩ :=
  (request_clientRequest asks_query).2

end WebSocket.Proto.Handshake
