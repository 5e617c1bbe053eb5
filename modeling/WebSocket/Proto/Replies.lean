import WebSocket.Proto.Upgrade

/-!
# The server's replies

What the client makes of the two replies that `handshake.rs` can write. A `switching` reply to an
offered subprotocol is understood (`response_switching`), and fits wherever the request did; a
`reject` is reported by its status (`response_reject`). Of replies written by anyone else
`response_offered` says that a subprotocol the client did not offer is never taken.
-/

namespace WebSocket.Proto.Handshake

open Lib Lib.Text Http

variable {sha1 : Sha1} {key code why : Bytes} {protocols : List Bytes} {protocol : Option Bytes} {status : UInt16}

/-- The status line of a reply. -/
def replyStart (code why : Bytes) : Bytes := ascii "HTTP/1.1 " ++ code ++ ascii " " ++ why

theorem threeParts_replyStart (h : 32 ∉ code) :
    threeParts (replyStart code why) = some (ascii "HTTP/1.1", code, why) := by
  have heq : replyStart code why = ascii "HTTP/1.1" ++ 32 :: (code ++ 32 :: why) := by
    rw [replyStart, show ascii "HTTP/1.1 " = ascii "HTTP/1.1" ++ [32] by decide, show ascii " " = [32] by decide]
    simp
  rw [threeParts, heq, splitOnce_append (by decide)]
  dsimp only
  rw [splitOnce_append h]

/-- The client reads the header lines of a reply that fits. -/
theorem parse_reply {fields : Headers} (hs : ∀ b ∈ replyStart code why, graphic b = true ∨ b = 32)
    (hf : ∀ f ∈ fields, FieldOk f) (hn : fields.length ≤ MAX_HEADERS)
    (hlen : (print (replyStart code why) fields).length ≤ MAX_HEAD) :
    parse (print (replyStart code why) fields) = some (replyStart code why, fields.map Http.read) := by
  have hvalue : isValue (replyStart code why) = true := by
    refine isValue_iff.mpr fun b hb => ?_
    rcases hs b hb with hb | rfl
    · exact valueByte_of_graphic hb
    · decide
  have hvalid : Utf8.Valid (replyStart code why) := by
    refine Utf8.valid_of_ascii fun b hb => ?_
    rcases hs b hb with hb | rfl
    · exact Nat.lt_trans (graphic_iff.mp hb).2 (by decide)
    · decide
  exact parse_print hvalue (fun f hm => ⟨(hf f hm).name, (hf f hm).value⟩) hn hlen (valid_print hvalid hf)

/-! ## Switching protocols -/

def switchingFields (accept : Bytes) (protocol : Option Bytes) : Headers :=
  [(ascii "Upgrade", ascii "websocket"), (ascii "Connection", ascii "Upgrade"),
    (ascii "Sec-WebSocket-Accept", accept)] ++ protocol.toList.map fun p => (ascii "Sec-WebSocket-Protocol", p)

theorem switching_eq : switching sha1 key protocol
    = print (replyStart (ascii "101") (ascii "Switching Protocols"))
        (switchingFields (acceptKey sha1 key) protocol) := by
  have h1 : ascii "HTTP/1.1 101 Switching Protocols\r\nUpgrade: websocket\r\nConnection: Upgrade\r\nSec-WebSocket-Accept: "
      = replyStart (ascii "101") (ascii "Switching Protocols") ++ crlf
        ++ (field (ascii "Upgrade", ascii "websocket") ++ crlf
          ++ (field (ascii "Connection", ascii "Upgrade") ++ crlf) ++ (ascii "Sec-WebSocket-Accept" ++ ascii ": ")) := by
    unfold replyStart field
    repeat rw [ascii_ofList]
    rfl
  have h2 : ascii "Sec-WebSocket-Protocol: " = ascii "Sec-WebSocket-Protocol" ++ ascii ": " := by
    repeat rw [ascii_ofList]
    rfl
  have h3 : ascii "\r\n" = crlf := rfl
  unfold switching print switchingFields
  rw [h1, h2, h3]
  cases protocol with
  | none => simp [field]
  | some p => simp [field]

theorem length_switching : (switching sha1 key protocol).length =
    129 + (protocol.elim 0 fun p => 26 + p.length) := by
  have haccept : (acceptKey sha1 key).length = 28 := by
    rw [acceptKey, Base64.length_encode, (sha1 (key ++ GUID)).property]
  unfold switching
  repeat rw [ascii_ofList]
  cases protocol with
  | none => simp [haccept]
  | some p =>
    simp [haccept]
    omega

/-- The header lines of the reply as the client reads them. -/
def switchingHeaders (accept : Bytes) (protocol : Option Bytes) : Headers :=
  [(ascii "upgrade", ascii "websocket"), (ascii "connection", ascii "Upgrade"),
    (ascii "sec-websocket-accept", accept)] ++ protocol.toList.map fun p => (ascii "sec-websocket-protocol", p)

theorem parse_switching (hp : ∀ p ∈ protocol, isToken p = true)
    (hlen : (switching sha1 key protocol).length ≤ MAX_HEAD) :
    parse (switching sha1 key protocol) = some (replyStart (ascii "101") (ascii "Switching Protocols"),
      switchingHeaders (acceptKey sha1 key) protocol) := by
  have haccept : ∀ b ∈ acceptKey sha1 key, graphic b = true := graphic_encode _
  have hfields : ∀ f ∈ switchingFields (acceptKey sha1 key) protocol, FieldOk f := by
    refine List.forall_mem_append.mpr ⟨?_, fun f hf => ?_⟩
    · simp only [List.forall_mem_cons]
      exact ⟨fieldOk_of_graphic (by decide) (forall_mem_of_all rfl), fieldOk_of_graphic (by decide) (forall_mem_of_all rfl),
        fieldOk_of_graphic (by decide) haccept, nofun⟩
    · obtain ⟨p, hm, rfl⟩ := List.mem_map.mp hf
      exact fieldOk_of_graphic (by decide) (graphic_of_isToken (hp p (Option.mem_toList.mp hm)))
  have hcount : (switchingFields (acceptKey sha1 key) protocol).length ≤ MAX_HEADERS := by
    cases protocol <;> simp [switchingFields, MAX_HEADERS]
  have hread : (switchingFields (acceptKey sha1 key) protocol).map Http.read
      = switchingHeaders (acceptKey sha1 key) protocol := by
    have hname : (ascii "sec-websocket-accept", acceptKey sha1 key)
        = Http.read (ascii "Sec-WebSocket-Accept", acceptKey sha1 key) := by
      rw [Http.read, trim_of_graphic haccept]
      rfl
    rw [switchingFields, switchingHeaders, List.map_append, List.map_map, hname]
    congr 1
    refine List.map_congr_left fun p hm => ?_
    show Http.read (ascii "Sec-WebSocket-Protocol", p) = _
    rw [Http.read, trim_of_graphic (graphic_of_isToken (hp p (Option.mem_toList.mp hm)))]
    rfl
  rw [switching_eq] at hlen ⊢
  rw [parse_reply (forall_mem_of_all rfl) hfields hcount hlen, hread]

/-- The client takes the subprotocol of the reply, provided it offered it. -/
theorem response_switching (hp : ∀ p ∈ protocol, isToken p = true ∧ p ∈ protocols)
    (hlen : (switching sha1 key protocol).length ≤ MAX_HEAD) :
    response sha1 (switching sha1 key protocol) key protocols = .ok protocol := by
  unfold response
  rw [parse_switching (fun p hm => (hp p hm).1) hlen]
  dsimp only
  rw [threeParts_replyStart (by decide)]
  generalize acceptKey sha1 key = accept
  have hupgrade : hasToken (switchingHeaders accept protocol) (ascii "upgrade") (ascii "websocket") = true := by
    cases protocol <;> rfl
  have hconnection : hasToken (switchingHeaders accept protocol) (ascii "connection") (ascii "upgrade") = true := by
    cases protocol <;> rfl
  have haccept : one (switchingHeaders accept protocol) (ascii "sec-websocket-accept") = some accept := by
    cases protocol <;> rfl
  have hextensions : all (switchingHeaders accept protocol) (ascii "sec-websocket-extensions") = [] := by
    cases protocol <;> rfl
  have hprotocol : all (switchingHeaders accept protocol) (ascii "sec-websocket-protocol") = protocol.toList := by
    cases protocol <;> rfl
  have hcode : ¬ ¬ ((ascii "101").length = 3 ∧ (ascii "101").all isAsciiDigit = true) := by decide
  simp only [true_and, hcode, if_false, ne_eq, not_true_eq_false, hupgrade, hconnection, haccept, hextensions,
    hprotocol, Bool.not_true, Bool.or_self, Bool.false_eq_true]
  cases protocol with
  | none => rfl
  | some p => simp [(hp p rfl).2]

/-- What the offered subprotocols add to a request. -/
theorem le_length_clientRequest {url : Url} {headers : Headers} (hne : protocols.isEmpty = false)
    (hkey : key.length = 24) :
    164 + ((ascii ", ").intercalate protocols).length ≤ (clientRequest url key protocols headers).length := by
  unfold clientRequest
  dsimp only
  rw [foldl_fields, hne]
  repeat rw [ascii_ofList]
  simp [hkey]
  omega

/-- The reply to a request that fits, fits. -/
theorem Asks.switching_fits {url : Url} {nonce : Bytes} {headers : Headers} (h : Asks url nonce protocols headers)
    (hp : ∀ p ∈ protocol, p ∈ protocols) : (switching sha1 key protocol).length ≤ MAX_HEAD := by
  have hsize := h.size
  have hkey : (Base64.encode nonce).length = 24 := by rw [Base64.length_encode, h.keyed]
  rw [length_switching]
  cases protocol with
  | none => exact (by decide : 129 + 0 ≤ MAX_HEAD)
  | some p =>
    have hne : protocols.isEmpty = false := by
      cases protocols with
      | nil => exact absurd (hp p rfl) List.not_mem_nil
      | cons q qs => rfl
    have hle : p.length ≤ ((ascii ", ").intercalate protocols).length := length_le_intercalate (hp p rfl)
    have hlong := @le_length_clientRequest _ protocols url headers hne hkey
    simp only [Option.elim_some]
    omega

/-! ## Rejections -/

def rejectFields (status : UInt16) : Headers :=
  [(ascii "Connection", ascii "close"), (ascii "Content-Length", ascii "0")]
    ++ if status = 405 then [(ascii "Allow", ascii "GET")]
      else if status = 426 then [(ascii "Upgrade", ascii "websocket"), (ascii "Sec-WebSocket-Version", ascii "13")]
      else []

theorem reject_eq : reject status = print (replyStart (decimal status) (ascii (reason status))) (rejectFields status) := by
  have h1 : ascii "\r\nConnection: close\r\nContent-Length: 0\r\n" = crlf
      ++ (field (ascii "Connection", ascii "close") ++ crlf ++ (field (ascii "Content-Length", ascii "0") ++ crlf)) := by
    unfold field
    repeat rw [ascii_ofList]
    rfl
  have h2 : ascii "Allow: GET\r\n" = field (ascii "Allow", ascii "GET") ++ crlf := by
    unfold field
    repeat rw [ascii_ofList]
    rfl
  have h3 : ascii "Upgrade: websocket\r\nSec-WebSocket-Version: 13\r\n"
      = field (ascii "Upgrade", ascii "websocket") ++ crlf
        ++ (field (ascii "Sec-WebSocket-Version", ascii "13") ++ crlf) := by
    unfold field
    repeat rw [ascii_ofList]
    rfl
  have h4 : ascii "\r\n" = crlf := rfl
  unfold reject print rejectFields replyStart
  rw [h1, h2, h3, h4]
  split_ifs <;> simp

/-- A reason phrase that a status line can carry. -/
def phrase (s : Bytes) : Bool := s.all (fun b => graphic b || b == 32) && s.length ≤ 31

theorem phrase_reason : phrase (ascii (reason status)) = true := by
  unfold reason
  iterate 11
    refine iteInduction (motive := fun s => phrase (ascii s) = true) (fun _ => ?_) fun _ => ?_
    · rw [ascii_ofList]
      rfl
  rfl

theorem parse_reject : ∃ headers, parse (reject status)
    = some (replyStart (decimal status) (ascii (reason status)), headers) := by
  obtain ⟨hshort, hdigits⟩ := decimalDigits_spec 5 status.toNat
  have hreason := @phrase_reason status
  simp only [phrase, Bool.and_eq_true, List.all_eq_true, Bool.or_eq_true, beq_iff_eq, decide_eq_true_eq] at hreason
  have hstart : ∀ b ∈ replyStart (decimal status) (ascii (reason status)), graphic b = true ∨ b = 32 := by
    refine List.forall_mem_append.mpr ⟨List.forall_mem_append.mpr ⟨List.forall_mem_append.mpr
      ⟨forall_mem_of_all rfl, ?_⟩, forall_mem_of_all rfl⟩, ?_⟩
    · exact fun b hb => .inl (graphic_of_isAsciiDigit (hdigits b hb))
    · exact hreason.1
  have hfields : ∀ f ∈ rejectFields status, FieldOk f := by
    have hconst {fields : Headers} (h : (fields.all fun f => isToken f.1 && f.2.all graphic) = true) :
        ∀ f ∈ fields, FieldOk f := by
      intro f hf
      have hf := List.all_eq_true.mp h f hf
      rw [Bool.and_eq_true] at hf
      exact fieldOk_of_graphic hf.1 (List.all_eq_true.mp hf.2)
    apply hconst
    unfold rejectFields
    split_ifs <;> rfl
  have hcount : (rejectFields status).length ≤ 4 := by
    unfold rejectFields
    split_ifs <;> decide
  have hsize : (reject status).length ≤ MAX_HEAD := by
    have hextra : (if status = 405 then ascii "Allow: GET\r\n"
        else if status = 426 then ascii "Upgrade: websocket\r\nSec-WebSocket-Version: 13\r\n" else []).length ≤ 47 := by
      split_ifs <;> decide
    simp only [reject, List.length_append, MAX_HEAD, decimal]
    have h1 : (ascii "HTTP/1.1 ").length = 9 := rfl
    have h2 : (ascii "\r\nConnection: close\r\nContent-Length: 0\r\n").length = 40 := rfl
    have h3 : (ascii " ").length = 1 := rfl
    have h4 : (ascii "\r\n").length = 2 := rfl
    omega
  rw [reject_eq] at hsize ⊢
  exact ⟨_, parse_reply hstart hfields (Nat.le_trans hcount (by decide)) hsize⟩

/-- The client reports a rejection by its status. -/
theorem response_reject (h : 400 ≤ status ∧ status ≤ 599) : response sha1 (reject status) key protocols
    = .error (ascii "unexpected server response: " ++ decimal status) := by
  have hlo : 400 ≤ status.toNat := UInt16.le_iff_toNat_le.mp h.1
  have hhi : status.toNat ≤ 599 := UInt16.le_iff_toNat_le.mp h.2
  obtain ⟨headers, hparse⟩ := @parse_reject status
  have hdigits : ∀ b ∈ decimal status, isAsciiDigit b = true := (decimalDigits_spec 5 status.toNat).2
  have hspace : 32 ∉ decimal status := fun hm => absurd (hdigits 32 hm) (by decide)
  have hlen : (decimal status).length = 3 := by
    have h1 : ¬ status.toNat < 10 := by omega
    have h2 : ¬ status.toNat / 10 < 10 := by omega
    have h3 : status.toNat / 10 / 10 < 10 := by omega
    simp only [decimal, decimalDigits, h1, h2, h3, if_true, if_false, List.length_append, List.length_cons,
      List.length_nil]
  have hne : decimal status ≠ ascii "101" := by
    intro he
    have := congrArg digitsValue he
    rw [digitsValue_decimal, show digitsValue (ascii "101") = 101 by decide] at this
    omega
  unfold response
  rw [hparse]
  dsimp only
  rw [threeParts_replyStart hspace]
  simp [hlen, hne, List.all_eq_true.mpr hdigits]

/-! ## Other replies -/

theorem response_offered {head p : Bytes} (h : response sha1 head key protocols = .ok (some p)) : p ∈ protocols := by
  unfold response at h
  cases hparse : parse head with
  | none =>
    rw [hparse] at h
    cases h
  | some parsed =>
    rw [hparse] at h
    dsimp only at h
    split at h
    · cases h
    iterate 5
      replace h := (ok_of_ite h).2
    split at h
    · cases h
    · split at h
      · rename_i hm
        cases h
        exact List.contains_iff_mem.mp hm
      · cases h
    · cases h

end WebSocket.Proto.Handshake
