import WebSocket.Proto.Base64
import WebSocket.Proto.Url

/-!
# The opening handshake

`core/src/proto/handshake.rs` and `handshake/request.rs`: the request a client writes, the
server's check of it, the two replies a server writes and the client's check of them. The digest
behind `accept_key` is a parameter.
-/

namespace WebSocket.Proto.Handshake

open Lib Lib.Text Http

def GUID : Bytes := ascii "258EAFA5-E914-47DA-95CA-C5AB0DC85B11"

/-- What SHA-1 makes of a byte string: twenty bytes. -/
abbrev Sha1 := Bytes → { b : Bytes // b.length = 20 }

def acceptKey (sha1 : Sha1) (key : Bytes) : Bytes := Base64.encode (sha1 (key ++ GUID)).val

/-! ## The replies -/

def switching (sha1 : Sha1) (key : Bytes) (protocol : Option Bytes) : Bytes :=
  let protocol := match protocol with
    | some p => ascii "Sec-WebSocket-Protocol: " ++ p ++ ascii "\r\n"
    | none => []
  ascii "HTTP/1.1 101 Switching Protocols\r\nUpgrade: websocket\r\nConnection: Upgrade\r\nSec-WebSocket-Accept: "
    ++ acceptKey sha1 key ++ ascii "\r\n" ++ protocol ++ ascii "\r\n"

def reason (status : UInt16) : String :=
  if status = 400 then "Bad Request"
  else if status = 401 then "Unauthorized"
  else if status = 403 then "Forbidden"
  else if status = 404 then "Not Found"
  else if status = 405 then "Method Not Allowed"
  else if status = 408 then "Request Timeout"
  else if status = 426 then "Upgrade Required"
  else if status = 429 then "Too Many Requests"
  else if status = 431 then "Request Header Fields Too Large"
  else if status = 500 then "Internal Server Error"
  else if status = 503 then "Service Unavailable"
  else "Error"

def reject (status : UInt16) : Bytes :=
  let extra := if status = 405 then ascii "Allow: GET\r\n"
    else if status = 426 then ascii "Upgrade: websocket\r\nSec-WebSocket-Version: 13\r\n"
    else []
  ascii "HTTP/1.1 " ++ decimal status ++ ascii " " ++ ascii (reason status)
    ++ ascii "\r\nConnection: close\r\nContent-Length: 0\r\n" ++ extra ++ ascii "\r\n"

/-! ## The client -/

def clientRequest (url : Url) (key : Bytes) (protocols : List Bytes) (headers : Headers) : Bytes :=
  let out := ascii "GET " ++ url.target ++ ascii " HTTP/1.1\r\nHost: " ++ url.authority
    ++ ascii "\r\nUpgrade: websocket\r\nConnection: Upgrade\r\nSec-WebSocket-Key: " ++ key
    ++ ascii "\r\nSec-WebSocket-Version: 13\r\n"
  let out := if protocols.isEmpty then out
    else out ++ ascii "Sec-WebSocket-Protocol: " ++ (ascii ", ").intercalate protocols ++ ascii "\r\n"
  headers.foldl (fun out h => out ++ h.1 ++ ascii ": " ++ h.2 ++ ascii "\r\n") out ++ ascii "\r\n"

/-- `str::splitn(3, ' ')`, when there are three parts. -/
def threeParts (start : Bytes) : Option (Bytes × Bytes × Bytes) :=
  match splitOnce 32 start with
  | none => none
  | some (a, rest) =>
    match splitOnce 32 rest with
    | none => none
    | some (b, c) => some (a, b, c)

def response (sha1 : Sha1) (head key : Bytes) (protocols : List Bytes) : Except Bytes (Option Bytes) :=
  match parse head with
  | none => .error (ascii "invalid handshake response")
  | some (start, headers) =>
    match threeParts start with
    | none => .error (ascii "invalid handshake response")
    | some (version, status, _) =>
      if ¬ (version = ascii "HTTP/1.1" ∧ status.length = 3 ∧ status.all isAsciiDigit) then
        .error (ascii "invalid handshake response")
      else if status ≠ ascii "101" then .error (ascii "unexpected server response: " ++ status)
      else if !hasToken headers (ascii "upgrade") (ascii "websocket")
          || !hasToken headers (ascii "connection") (ascii "upgrade") then
        .error (ascii "invalid upgrade headers")
      else if one headers (ascii "sec-websocket-accept") ≠ some (acceptKey sha1 key) then
        .error (ascii "invalid Sec-WebSocket-Accept")
      else if all headers (ascii "sec-websocket-extensions") ≠ [] then
        .error (ascii "server sent an extension that was not offered")
      else match all headers (ascii "sec-websocket-protocol") with
        | [] => .ok none
        | [p] =>
          if protocols.contains p then .ok (some p)
          else .error (ascii "server sent a subprotocol that was not offered")
        | _ => .error (ascii "server sent a subprotocol that was not offered")

/-! ## The server -/

/-- A validated upgrade request. -/
structure Request where
  target : Bytes
  headers : Headers
  key : Bytes
  protocols : List Bytes
  deriving DecidableEq

/-- What may follow the name in a `Host`. -/
def validPort (port : Bytes) : Bool :=
  match port with
  | [] => true
  | 58 :: p => isPort p
  | _ => false

def validHost (host : Bytes) : Bool :=
  match host with
  | 91 :: v6 =>
    match splitOnce 93 v6 with
    | some (addr, tail) => (Ipv6.parse addr).isSome && validPort tail
    | none => false
  | _ =>
    let name := host.takeWhile (· != 58)
    let tail := host.dropWhile (· != 58)
    !name.isEmpty && name.all (fun b => isAsciiAlphanumeric b || (ascii "-._~!$&'()*+,;=%").contains b)
      && validPort tail

def validTarget (target : Bytes) : Bool :=
  target.head? == some 47 && !target.any fun b => b ≤ 32 || 0x7f ≤ b || b == 35

/-- Checks an upgrade request; the error is the status to reject with. -/
def request (head : Bytes) : Except UInt16 Request :=
  match parse head with
  | none => .error 400
  | some (start, headers) =>
    match start.splitOn 32 with
    | [method, target, version] =>
      if version ≠ ascii "HTTP/1.1" ∨ validTarget target = false then .error 400
      else if method ≠ ascii "GET" then .error 405
      else if !(one headers (ascii "host")).any validHost then .error 400
      else if 2 ≤ (all headers (ascii "origin")).length then .error 400
      else if all headers (ascii "transfer-encoding") ≠ []
          ∨ (all headers (ascii "content-length")).any (· ≠ ascii "0") then .error 400
      else if !hasToken headers (ascii "upgrade") (ascii "websocket") then .error 426
      else if !hasToken headers (ascii "connection") (ascii "upgrade") then .error 400
      else if one headers (ascii "sec-websocket-version") ≠ some (ascii "13") then .error 426
      else match one headers (ascii "sec-websocket-key") with
        | none => .error 400
        | some key =>
          if key.length ≠ 24 ∨ (Base64.decode key).all (fun k => k.length ≠ 16) then .error 400
          else match tokens headers (ascii "sec-websocket-protocol") with
            | none => .error 400
            | some protocols => .ok ⟨target, headers, key, protocols⟩
    | _ => .error 400

end WebSocket.Proto.Handshake
