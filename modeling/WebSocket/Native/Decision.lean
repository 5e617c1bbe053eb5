import WebSocket.Native.Request
import WebSocket.Proto.Replies

/-!
# Deciding an upgrade

A request that the server has read goes through three languages: `serve` of `core/src/net`
packs it, `loop.handlers.request` of `ws/server.lua` asks the application and picks a subprotocol,
`ws_reply` of `native/src/server.rs` carries the answer back, and `serve` writes the reply.
`subprotocol_agreement` follows an offer through all of them to the client's check.

Requests over the limits of `http.rs` never get that far, and an `accept` callback that writes to
the table it is given can make the handler answer with a subprotocol nobody offered:
`subprotocol_refused` has one of each.
-/

namespace WebSocket.Native

open Proto Lib Lib.Text Http Handshake

/-! ## `ws/server.lua` -/

/-- What a callback returned for a status: `nil`, a whole number, or anything else. -/
inductive LuaStatus where
  | absent
  | whole (n : Int)
  | other
  deriving DecidableEq

inductive Verdict where
  | raised
  | refused (status : LuaStatus)
  | accepted
  deriving DecidableEq

/-- What calling `accept(req)` leaves: its verdict, the table, which it may have written to, and
whether its server is still the registered one. -/
structure Called where
  verdict : Verdict
  req : LuaRequest
  listening : Bool

structure LuaServer where
  accept : Option (LuaRequest → Called)
  protocols : Bytes → Bool

/-- The table of subprotocols that `Server.listen` makes of its option. -/
def listenProtocols (list : List Bytes) : Bytes → Bool :=
  list.foldl (fun table p => Function.update table p true) fun _ => false

/-- The arguments of `core.reply` after the token. -/
structure ReplyCall where
  status : UInt16
  protocol : Option Bytes
  deriving DecidableEq

/-- The status that a refusal is answered with. -/
def refusal : LuaStatus → UInt16
  | .absent => 403
  | .whole n => if n < 400 ∨ n > 599 then 500 else .ofNat n.toNat
  | .other => 500

/-- `loop.handlers.request`; `none` when it raises an error before it replies. -/
def handlersRequest (server : Option LuaServer) (data : Bytes) : Option ReplyCall :=
  match server with
  | none => some ⟨503, none⟩
  | some s =>
    match luaRequest data with
    | none => none
    | some req =>
      let called : Called := match s.accept with
        | none => ⟨.accepted, req, true⟩
        | some accept => accept req
      match called.verdict with
      | .raised => some ⟨500, none⟩
      | .refused status => some ⟨refusal status, none⟩
      | .accepted =>
        if !called.listening then some ⟨503, none⟩
        else some ⟨0, called.req.protocols.find? s.protocols⟩

/-! ## `ws_reply` -/

inductive Reply where
  | accept (protocol : Option Bytes)
  | reject (status : UInt16)
  deriving DecidableEq

/-- `WsStr::text`; the error is the message of the fatal error. -/
def text (what : Bytes) : Option Bytes → Except Bytes (Option Bytes)
  | none => .ok none
  | some b =>
    match Str.fromUtf8 b with
    | some s => .ok (some s.bytes)
    | none => .error (what ++ ascii " must be valid UTF-8")

/-- The answer that is sent, and the outcome of the call. -/
def wsReply (status : UInt16) (protocol : Option Bytes) : Reply × Except Bytes Unit :=
  match text (ascii "protocol") protocol with
  | .error e => (.reject 500, .error e)
  | .ok p =>
    if status = 0 then (.accept p, .ok ())
    else if 400 ≤ status ∧ status ≤ 599 then (.reject status, .ok ())
    else (.reject 500, .error (ascii "status must be from 400 to 599"))

/-- The way of a request through the native module and Lua. -/
def answer (server : Option LuaServer) (req : Request) : Option Reply :=
  (handlersRequest server (pack req)).map fun call => (wsReply call.status call.protocol).1

/-! ## `serve` -/

/-- What came of `read_head` before the deadline. -/
inductive HeadRead where
  | head (bytes : Bytes)
  | tooLarge
  | timeout
  | io
  deriving DecidableEq

/-- The subprotocol to switch with, or the status to reject with; no reply is a late one. -/
def decision (req : Request) : Option Reply → Except UInt16 (Option Bytes)
  | some (.accept protocol) =>
    if protocol.any fun p => !req.protocols.contains p then .error 500 else .ok protocol
  | some (.reject status) => .error (if 400 ≤ status ∧ status ≤ 599 then status else 500)
  | none => .error 503

/-- `handshake` of `serve.rs`: what is written, and the subprotocol that the link is started with. -/
def handshake (sha1 : Sha1) (addr : SocketAddr) (reply : Request → Option Reply) :
    HeadRead → Bytes × Option (Option Bytes)
  | .tooLarge => (reject 431, none)
  | .timeout => (reject 408, none)
  | .io => ([], none)
  | .head head =>
    match Handshake.request head with
    | .error status => (reject status, none)
    | .ok parsed =>
      let req := ⟨parsed.target, parsed.headers, parsed.protocols, addr⟩
      match decision req (reply req) with
      | .error status => (reject status, none)
      | .ok protocol => (switching sha1 parsed.key protocol, some protocol)

/-! ## Agreement -/

theorem listenProtocols_eq (list : List Bytes) (p : Bytes) : listenProtocols list p = list.contains p := by
  have hfold (table : Bytes → Bool) :
      list.foldl (fun table p => Function.update table p true) table p = (table p || list.contains p) := by
    induction list generalizing table with
    | nil => simp
    | cons q list ih =>
      rw [List.foldl_cons, ih]
      by_cases hq : p = q
      · subst hq
        simp
      · simp [hq]
  rw [listenProtocols, hfold, Bool.false_or]

theorem text_of_isToken {protocol : Option Bytes} (h : ∀ p ∈ protocol, isToken p = true) (what : Bytes) :
    text what protocol = .ok protocol := by
  cases protocol with
  | none => rfl
  | some p =>
    have hv : Utf8.Valid p := valid_of_graphic (graphic_of_isToken (h p rfl))
    have : Str.fromUtf8 p = some ⟨p, hv⟩ := Str.fromUtf8_eq_some.mpr rfl
    rw [text, this]

/-- The callback is absent, or lets the request through: it returns true, leaves the subprotocols
of the table as they are and does not close the server. -/
def LuaServer.LetsThrough (server : LuaServer) (req : LuaRequest) : Prop :=
  ∀ accept ∈ server.accept, (accept req).verdict = .accepted ∧ (accept req).req.protocols = req.protocols ∧
    (accept req).listening = true

theorem handlersRequest_eq {server : LuaServer} {data : Bytes} {req : LuaRequest} (hr : luaRequest data = some req)
    (h : server.LetsThrough req) :
    handlersRequest (some server) data = some ⟨0, req.protocols.find? server.protocols⟩ := by
  unfold handlersRequest
  simp only [hr]
  cases ha : server.accept with
  | none => rfl
  | some accept =>
    obtain ⟨hv, hp, hl⟩ := h accept ha
    simp [hv, hp, hl]

/-- A request that was let through is answered with the first subprotocol that the server speaks. -/
theorem answer_eq {head : Bytes} {r : Handshake.Request} (hr : Handshake.request head = .ok r) {addr : SocketAddr}
    {server : LuaServer} (h : ∀ req, luaRequest (pack ⟨r.target, r.headers, r.protocols, addr⟩) = some req →
      server.LetsThrough req) :
    answer (some server) ⟨r.target, r.headers, r.protocols, addr⟩
      = some (.accept (r.protocols.find? server.protocols)) := by
  obtain ⟨-, -, htokens, -⟩ := request_spec hr
  have hlua := luaRequest_pack hr addr
  have htoken : ∀ p ∈ r.protocols.find? server.protocols, isToken p = true := fun p hp =>
    htokens p (List.mem_of_find?_eq_some hp)
  rw [answer, handlersRequest_eq hlua (h _ hlua)]
  simp only [Option.map_some, wsReply, text_of_isToken htoken, if_true]

theorem handshake_eq {sha1 : Sha1} {head : Bytes} {r : Handshake.Request} (hr : Handshake.request head = .ok r)
    {addr : SocketAddr} {server : LuaServer}
    (h : ∀ req, luaRequest (pack ⟨r.target, r.headers, r.protocols, addr⟩) = some req → server.LetsThrough req) :
    handshake sha1 addr (answer (some server)) (.head head)
      = (switching sha1 r.key (r.protocols.find? server.protocols), some (r.protocols.find? server.protocols)) := by
  have hoffered : (r.protocols.find? server.protocols).any (fun p => !r.protocols.contains p) = false := by
    cases hf : r.protocols.find? server.protocols with
    | none => rfl
    | some p => simpa using List.mem_of_find?_eq_some hf
  unfold handshake
  simp only [hr, answer_eq hr h, decision, hoffered, Bool.false_eq_true, if_false]

/-- Both ends take the first subprotocol of the client's that the server speaks, or none: the
server starts its link with it, and the client reads it in the reply. What any reply can make the
client believe stays among what it offered, and a rejection is reported by its status. -/
theorem subprotocol_agreement {sha1 : Sha1} {url : Url} {nonce : Bytes} {protocols : List Bytes} {headers : Headers}
    (h : Asks url nonce protocols headers) (addr : SocketAddr) (list : List Bytes)
    (accept : Option (LuaRequest → Called))
    (ha : ∀ req, luaRequest (pack ⟨url.target, requestHeaders url (Base64.encode nonce) protocols headers, protocols,
      addr⟩) = some req → LuaServer.LetsThrough ⟨accept, listenProtocols list⟩ req) :
    let key := Base64.encode nonce
    let served := handshake sha1 addr (answer (some ⟨accept, listenProtocols list⟩))
      (.head (clientRequest url key protocols headers))
    let chosen := protocols.find? fun p => list.contains p
    served.1 ≠ reject 500 ∧ served.2 = some chosen ∧ response sha1 served.1 key protocols = .ok chosen ∧
      (∀ head key p, response sha1 head key protocols = .ok (some p) → p ∈ protocols) ∧
      ∀ status key, 400 ≤ status ∧ status ≤ 599 → response sha1 (reject status) key protocols
        = .error (ascii "unexpected server response: " ++ decimal status) := by
  intro key served chosen
  have hchosen : protocols.find? (listenProtocols list) = chosen := by
    rw [show listenProtocols list = fun p => list.contains p from funext (listenProtocols_eq list)]
  have hserved : served = (switching sha1 key chosen, some chosen) := by
    rw [← hchosen]
    exact handshake_eq h.request_eq ha
  have hoffered : ∀ p ∈ chosen, isToken p = true ∧ p ∈ protocols := fun p hp =>
    have hm := List.mem_of_find?_eq_some hp
    ⟨h.tokens p hm, hm⟩
  have hresponse : response sha1 served.1 key protocols = .ok chosen := by
    rw [hserved]
    exact response_switching hoffered (h.switching_fits fun p hp => (hoffered p hp).2)
  refine ⟨fun hrejected => ?_, by rw [hserved], hresponse, fun _ _ _ => response_offered, fun _ _ => response_reject⟩
  rw [hrejected, response_reject (by decide)] at hresponse
  cases hresponse

theorem subprotocol_agreement_query :
    let served := handshake (fun _ => ⟨List.replicate 20 0, rfl⟩) ⟨.v4 127 0 0 1, 9001⟩
      (answer (some ⟨none, listenProtocols [ascii "v0", ascii "v1"]⟩))
      (.head (clientRequest ⟨true, ascii "a.b", 444, ascii "/?q", ascii "a.b:444"⟩
        (Base64.encode (List.replicate 16 0)) [ascii "v2", ascii "v1"] [(ascii "X-Id", ascii " 7\t")]))
    served.2 = some (some (ascii "v1")) ∧
      response (fun _ => ⟨List.replicate 20 0, rfl⟩) served.1 (Base64.encode (List.replicate 16 0))
        [ascii "v2", ascii "v1"] = .ok (some (ascii "v1")) := by
  have h := @subprotocol_agreement (fun _ => ⟨List.replicate 20 0, rfl⟩) _ _ _ _ asks_query ⟨.v4 127 0 0 1, 9001⟩
    [ascii "v0", ascii "v1"] none fun _ _ _ hm => (Option.not_mem_none _ hm).elim
  exact ⟨h.2.1, h.2.2.1⟩

theorem handshake_too_large {sha1 : Sha1} {addr : SocketAddr} {reply : Request → Option Reply} {head : Bytes}
    (h : MAX_HEAD < head.length) : handshake sha1 addr reply (.head head) = (reject 400, none) := by
  have hparse : parse head = none := if_pos h
  have hrequest : Handshake.request head = .error 400 := by
    unfold Handshake.request
    rw [hparse]
  simp only [handshake, hrequest]

/-- An answer with a subprotocol that was not offered becomes the status 500. -/
theorem handshake_not_offered {sha1 : Sha1} {head p : Bytes} {r : Handshake.Request} {addr : SocketAddr}
    {reply : Request → Option Reply} (hr : Handshake.request head = .ok r)
    (ha : reply ⟨r.target, r.headers, r.protocols, addr⟩ = some (.accept (some p))) (hp : p ∉ r.protocols) :
    handshake sha1 addr reply (.head head) = (reject 500, none) := by
  have hcheck : (some p).any (fun p => !r.protocols.contains p) = true := by simpa using hp
  simp only [handshake, hr, ha, decision, hcheck, if_true]

/-- An offer too long for a head is refused although the server speaks it, and a callback that
replaces the offer by something else gets its client the status 500. -/
theorem subprotocol_refused :
    let sha1 : Sha1 := fun _ => ⟨List.replicate 20 0, rfl⟩
    let addr : SocketAddr := ⟨.v4 127 0 0 1, 9001⟩
    let url : Url := ⟨true, ascii "a.b", 444, ascii "/?q", ascii "a.b:444"⟩
    let key := Base64.encode (List.replicate 16 0)
    let long : List Bytes := [List.replicate 17000 97]
    let replace : LuaRequest → Called := fun req => ⟨.accepted, { req with protocols := [ascii "v3"] }, true⟩
    ((∃ input, Url.parse input = .ok url) ∧ long.Nodup ∧ (∀ p ∈ long, isToken p = true) ∧
      handshake sha1 addr (answer (some ⟨none, listenProtocols long⟩)) (.head (clientRequest url key long []))
        = (reject 400, none) ∧
      response sha1 (reject 400) key long = .error (ascii "unexpected server response: " ++ decimal 400)) ∧
    handshake sha1 addr (answer (some ⟨some replace, listenProtocols [ascii "v3"]⟩))
      (.head (clientRequest url key [ascii "v2", ascii "v1"] [(ascii "X-Id", ascii " 7\t")])) = (reject 500, none) := by
  intro sha1 addr url key long replace
  refine ⟨⟨asks_query.parsed, List.pairwise_singleton _ _, ?_, ?_, response_reject (by decide)⟩, ?_⟩
  · refine List.forall_mem_singleton.mpr (isToken_iff.mpr ⟨List.cons_ne_nil _ _, fun b hb => ?_⟩)
    rw [List.eq_of_mem_replicate hb]
    decide
  · have hlong := @le_length_clientRequest key long url [] rfl (Base64.length_encode _)
    rw [List.intercalate_singleton, List.length_replicate] at hlong
    exact handshake_too_large (Nat.lt_of_lt_of_le (by decide) hlong)
  · refine handshake_not_offered asks_query.request_eq (p := ascii "v3") ?_ (by decide)
    have hfind : [ascii "v3"].find? (listenProtocols [ascii "v3"]) = some (ascii "v3") := by
      simp [listenProtocols_eq]
    have htext : text (ascii "protocol") (some (ascii "v3")) = .ok (some (ascii "v3")) :=
      text_of_isToken (by decide) _
    simp only [answer, handlersRequest, luaRequest_pack asks_query.request_eq addr, replace, hfind, Bool.not_true,
      Bool.false_eq_true, if_false, Option.map_some, wsReply, htext, if_true]

end WebSocket.Native
