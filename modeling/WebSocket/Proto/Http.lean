import WebSocket.Lib.Text
import WebSocket.Proto.Frame

/-!
# HTTP heads

`core/src/proto/http.rs`: a strict parser for the heads of the opening handshake, and the lookups
in its headers. The parser cuts a `&str` at ASCII characters only, so a string is its bytes here,
and the pieces of a valid string are valid again.

`parse_print` is the parser's reading law: a start line and header lines without control
characters are read back as written, names in lower case and values trimmed. `parse_spec` is the
converse half that the callers need: what an accepted head can contain.
-/

namespace WebSocket.Proto

open Lib Lib.Text

/-- A text constant of the source; all of them are ASCII. -/
def ascii (s : String) : Bytes := s.toList.map fun c => UInt8.ofNat c.toNat

/-- A literal is `String.ofList` of its characters: reading it this way spares its UTF-8 encoding. -/
theorem ascii_ofList (cs : List Char) : ascii (String.ofList cs) = cs.map fun c => UInt8.ofNat c.toNat := by
  rw [ascii, String.toList_ofList]

/-- A fact about the bytes of a constant is checked by running through them. -/
theorem forall_mem_of_all {P : UInt8 → Prop} [DecidablePred P] {l : Bytes}
    (h : (l.all fun b => decide (P b)) = true) : ∀ b ∈ l, P b := by
  simpa using h

/-- A check that was passed. -/
theorem ok_of_ite {ε α : Type} {c : Prop} [Decidable c] {e : ε} {x : Except ε α} {a : α}
    (h : (if c then .error e else x) = .ok a) : ¬ c ∧ x = .ok a := by
  by_cases hc : c
  · rw [if_pos hc] at h
    cases h
  · rw [if_neg hc] at h
    exact ⟨hc, h⟩

def isAsciiDigit (b : UInt8) : Bool := 48 ≤ b && b ≤ 57

def isAsciiAlphanumeric (b : UInt8) : Bool :=
  isAsciiDigit b || (65 ≤ b && b ≤ 90) || (97 ≤ b && b ≤ 122)

def toAsciiLowercase (b : UInt8) : UInt8 := if 65 ≤ b && b ≤ 90 then b + 32 else b

/-- `str::to_ascii_lowercase`. -/
def lowercase (s : Bytes) : Bytes := s.map toAsciiLowercase

def eqIgnoreAsciiCase (a b : Bytes) : Bool := lowercase a == lowercase b

namespace Http

def MAX_HEAD : Nat := 16 * 1024
def MAX_HEADERS : Nat := 64

def RESERVED : List Bytes :=
  ["host", "upgrade", "connection", "content-length", "transfer-encoding", "sec-websocket-key",
    "sec-websocket-version", "sec-websocket-protocol", "sec-websocket-extensions",
    "sec-websocket-accept"].map ascii

/-- Names in lower case with their values, in order. -/
abbrev Headers := List (Bytes × Bytes)

/-- `http::end`: the index just past the blank line. -/
def headEnd (buf : Bytes) : Option Nat := (find (ascii "\r\n\r\n") buf).map (· + 4)

def tokenByte (b : UInt8) : Bool := isAsciiAlphanumeric b || (ascii "!#$%&'*+-.^_`|~").contains b

def isToken (s : Bytes) : Bool := !s.isEmpty && s.all tokenByte

def valueByte (b : UInt8) : Bool := b == 9 || (32 ≤ b && b != 0x7f)

def isValue (s : Bytes) : Bool := s.all valueByte

/-- The pattern `[' ', '\t']`. -/
def blank (b : UInt8) : Bool := b == 32 || b == 9

def trimMatches (s : Bytes) : Bytes := trim blank s

def checkHeader (name value : Bytes) : Except Bytes Unit :=
  if !isToken name || !isValue value then .error (ascii "invalid header: " ++ name)
  else if RESERVED.contains (lowercase name) then .error (ascii "header is managed by ws: " ++ name)
  else .ok ()

/-- The loop of `parse` over the header lines. -/
def parseLines (headers : Headers) : List Bytes → Option Headers
  | [] => some headers
  | line :: lines =>
    match splitOnce 58 line with
    | none => none
    | some (name, value) =>
      let value := trimMatches value
      if !isToken name || !isValue value || headers.length == MAX_HEADERS then none
      else parseLines (headers ++ [(lowercase name, value)]) lines

/-- The start line and the headers of a complete head. -/
def parse (head : Bytes) : Option (Bytes × Headers) :=
  if MAX_HEAD < head.length then none
  else do
    let text ← Str.fromUtf8 head
    let text ← text.bytes.dropSuffix? (ascii "\r\n\r\n")
    match splitPair 13 10 text with
    | [] => none
    | start :: lines =>
      let headers ← parseLines [] lines
      if isValue start then some (start, headers) else none

def all (headers : Headers) (name : Bytes) : List Bytes :=
  (headers.filter fun h => h.1 == name).map (·.2)

/-- The value of a header that must appear exactly once. -/
def one (headers : Headers) (name : Bytes) : Option Bytes :=
  match all headers name with
  | [v] => some v
  | _ => none

/-- The items of a comma-separated header. -/
def items (headers : Headers) (name : Bytes) : List Bytes :=
  ((all headers name).flatMap (List.splitOn 44)).map trimMatches

def hasToken (headers : Headers) (name token : Bytes) : Bool :=
  (items headers name).any fun t => eqIgnoreAsciiCase t token

/-- The loop of `tokens`; what was seen is what came out. -/
def tokensFrom (out : List Bytes) : List Bytes → Option (List Bytes)
  | [] => some out
  | item :: rest => if !isToken item || out.contains item then none else tokensFrom (out ++ [item]) rest

/-- A comma-separated list of distinct tokens across all such headers. -/
def tokens (headers : Headers) (name : Bytes) : Option (List Bytes) := tokensFrom [] (items headers name)

/-! ## What is read -/

section

variable {s l : Bytes} {c : UInt8} {start : Bytes} {headers : Headers}

theorem isToken_iff : isToken s = true ↔ s ≠ [] ∧ ∀ b ∈ s, tokenByte b = true := by
  simp [isToken]

theorem isValue_iff : isValue s = true ↔ ∀ b ∈ s, valueByte b = true := by
  simp [isValue]

theorem not_mem_of_isToken (h : isToken s = true) (hc : tokenByte c = false) : c ∉ s := fun hm =>
  absurd ((isToken_iff.mp h).2 c hm) (by simp [hc])

theorem not_mem_of_isValue (h : isValue s = true) (hc : valueByte c = false) : c ∉ s := fun hm =>
  absurd (isValue_iff.mp h c hm) (by simp [hc])

theorem isValue_trim (h : isValue s = true) : isValue (trimMatches s) = true :=
  isValue_iff.mpr fun b hb => isValue_iff.mp h b (mem_of_mem_trim hb)

/-- A class of bytes with all letters is closed under lower case. -/
theorem lowercase_closed {p : UInt8 → Bool} (hp : ∀ b, isAsciiAlphanumeric b = true → p b = true) (h : p c = true) :
    p (toAsciiLowercase c) = true := by
  unfold toAsciiLowercase
  split
  · rename_i hc
    simp only [Bool.and_eq_true, decide_eq_true_eq, UInt8.le_iff_toNat_le] at hc
    have hlow : (97 : UInt8) ≤ c + 32 ∧ c + 32 ≤ 122 := by
      simp only [UInt8.le_iff_toNat_le, UInt8.toNat_add]
      obtain ⟨h1, h2⟩ := hc
      simp at h1 h2 ⊢
      omega
    exact hp _ (by simp [isAsciiAlphanumeric, hlow])
  · exact h

theorem tokenByte_lowercase (h : tokenByte c = true) : tokenByte (toAsciiLowercase c) = true :=
  lowercase_closed (fun b hb => by simp [tokenByte, hb]) h

theorem isToken_lowercase (h : isToken s = true) : isToken (lowercase s) = true := by
  rw [isToken_iff] at h ⊢
  refine ⟨by simpa [lowercase] using h.1, fun b hb => ?_⟩
  obtain ⟨a, ha, rfl⟩ := List.mem_map.mp hb
  exact tokenByte_lowercase (h.2 a ha)

theorem parseLines_spec {lines : List Bytes} {out : Headers} (h : parseLines headers lines = some out)
    (hi : ∀ f ∈ headers, isToken f.1 = true ∧ isValue f.2 = true) :
    ∀ f ∈ out, isToken f.1 = true ∧ isValue f.2 = true := by
  induction lines generalizing headers with
  | nil =>
    cases h
    exact hi
  | cons line lines ih =>
    rw [parseLines] at h
    split at h
    · cases h
    · dsimp only at h
      split at h
      · cases h
      · rename_i hbad
        simp only [Bool.or_eq_true, Bool.not_eq_true', not_or, Bool.not_eq_false] at hbad
        refine ih h (List.forall_mem_append.mpr ⟨hi, List.forall_mem_singleton.mpr ⟨?_, hbad.1.2⟩⟩)
        exact isToken_lowercase hbad.1.1

/-- What an accepted head can contain. -/
theorem parse_spec {head : Bytes} (h : parse head = some (start, headers)) :
    isValue start = true ∧ ∀ f ∈ headers, isToken f.1 = true ∧ isValue f.2 = true := by
  unfold parse at h
  split at h
  · cases h
  · obtain ⟨text, -, h⟩ := Option.bind_eq_some_iff.mp h
    obtain ⟨body, -, h⟩ := Option.bind_eq_some_iff.mp h
    split at h
    · cases h
    · obtain ⟨out, hout, h⟩ := Option.bind_eq_some_iff.mp h
      split at h
      · rename_i hs
        cases h
        exact ⟨hs, parseLines_spec hout nofun⟩
      · cases h

end

/-! ## What is written -/

def crlf : Bytes := [13, 10]

/-- A header line as both ends write it. -/
def field (f : Bytes × Bytes) : Bytes := f.1 ++ ascii ": " ++ f.2

/-- A head as both ends write it. -/
def print (start : Bytes) (fields : Headers) : Bytes :=
  start ++ crlf ++ (fields.flatMap fun f => field f ++ crlf) ++ crlf

/-- What is read of a written header. -/
def read (f : Bytes × Bytes) : Bytes × Bytes := (lowercase f.1, trimMatches f.2)

section

variable {start : Bytes} {fields headers : Headers}

/-- The separator after a line is the one before the next. -/
theorem lines_eq (start : Bytes) (lines : List Bytes) : start ++ crlf ++ (lines.flatMap fun l => l ++ crlf) ++ crlf
    = start ++ lines.flatMap (fun p => 13 :: 10 :: p) ++ ascii "\r\n\r\n" := by
  have hcrlf : ascii "\r\n\r\n" = crlf ++ crlf := by decide
  rw [hcrlf, ← List.append_assoc]
  congr 1
  induction lines generalizing start with
  | nil => simp
  | cons l lines ih =>
    have := ih (start ++ crlf ++ l)
    simp only [List.flatMap_cons] at this ⊢
    rw [show crlf = [13, 10] from rfl] at this ⊢
    simpa using this

theorem print_eq : print start fields
    = start ++ (fields.map field).flatMap (fun p => 13 :: 10 :: p) ++ ascii "\r\n\r\n" := by
  rw [← lines_eq, print, List.flatMap_map]

theorem parseLines_print (hf : ∀ f ∈ fields, isToken f.1 = true ∧ isValue f.2 = true)
    (hn : headers.length + fields.length ≤ MAX_HEADERS) :
    parseLines headers (fields.map field) = some (headers ++ fields.map read) := by
  induction fields generalizing headers with
  | nil => simp [parseLines]
  | cons f fields ih =>
    rw [List.forall_mem_cons] at hf
    have hcut : splitOnce 58 (field f) = some (f.1, 32 :: f.2) := by
      have : field f = f.1 ++ 58 :: 32 :: f.2 := by
        rw [field, show ascii ": " = [58, 32] by decide]
        simp
      rw [this]
      exact splitOnce_append (not_mem_of_isToken hf.1.1 (by decide))
    have htrim : trimMatches (32 :: f.2) = trimMatches f.2 := trim_cons (by decide)
    have hlen : (headers.length == MAX_HEADERS) = false := by
      simp only [List.length_cons] at hn
      simp only [beq_eq_false_iff_ne]
      omega
    rw [List.map_cons, parseLines, hcut]
    simp only [htrim, hf.1.1, isValue_trim hf.1.2, hlen, Bool.not_true, Bool.or_self, Bool.false_eq_true, if_false]
    rw [ih hf.2 (by simp only [List.length_append, List.length_cons, List.length_nil] at hn ⊢; omega)]
    simp [read]

theorem field_ne_nil (f : Bytes × Bytes) : field f ≠ [] := by
  simp [field, show ascii ": " = [58, 32] by decide]

theorem cr_not_mem_field {f : Bytes × Bytes} (hf : isToken f.1 = true ∧ isValue f.2 = true) : 13 ∉ field f := by
  rw [field, show ascii ": " = [58, 32] by decide]
  have h1 := not_mem_of_isToken (c := 13) hf.1 (by decide)
  have h2 := not_mem_of_isValue (c := 13) hf.2 (by decide)
  simp [h1, h2]

/-- A written head is read back. -/
theorem parse_print (hs : isValue start = true) (hf : ∀ f ∈ fields, isToken f.1 = true ∧ isValue f.2 = true)
    (hn : fields.length ≤ MAX_HEADERS) (hlen : (print start fields).length ≤ MAX_HEAD)
    (hv : Utf8.Valid (print start fields)) : parse (print start fields) = some (start, fields.map read) := by
  have htext : Str.fromUtf8 (print start fields) = some ⟨_, hv⟩ := Str.fromUtf8_eq_some.mpr rfl
  have hcr : ∀ p ∈ fields.map field, 13 ∉ p := by
    intro p hp
    obtain ⟨f, hm, rfl⟩ := List.mem_map.mp hp
    exact cr_not_mem_field (hf f hm)
  have hdrop : (print start fields).dropSuffix? (ascii "\r\n\r\n")
      = some (start ++ (fields.map field).flatMap fun p => 13 :: 10 :: p) :=
    List.dropSuffix?_eq_some_iff.mpr ⟨_, print_eq, BEq.rfl⟩
  have hlines := splitPair_lines (y := 10) (not_mem_of_isValue (c := 13) hs (by decide)) hcr
  have hread : parseLines [] (fields.map field) = some (fields.map read) := by
    simpa using @parseLines_print fields [] hf (by simpa using hn)
  unfold parse
  rw [if_neg (Nat.not_lt.mpr hlen), htext]
  simp only [Option.bind_eq_bind, Option.bind_some, hdrop, hlines, hread, hs, if_true]

/-- The head ends where it was meant to. -/
theorem headEnd_print (hs : isValue start = true) (hf : ∀ f ∈ fields, isToken f.1 = true ∧ isValue f.2 = true) :
    headEnd (print start fields) = some (print start fields).length := by
  have hlines : ∀ p ∈ fields.map field, 13 ∉ p ∧ p ≠ [] := by
    intro p hp
    obtain ⟨f, hm, rfl⟩ := List.mem_map.mp hp
    exact ⟨cr_not_mem_field (hf f hm), field_ne_nil f⟩
  have hfind := find_blank (y := 10) (by decide) (not_mem_of_isValue (c := 13) hs (by decide)) hlines
  rw [headEnd, print_eq, show ascii "\r\n\r\n" = [13, 10, 13, 10] by decide, hfind]
  simp [Nat.add_assoc]

end

end Http

end WebSocket.Proto
