import WebSocket.Proto.Http

/-!
# The grammar of HTTP heads

What `http::parse` accepts, said without its cuts: a start line, header lines of a name, a colon
and a value between blanks, each with its line end, and a blank line. `parse_of_derives` reads
every such head, `derives_of_parse` derives every head that was read, and `Derives.unique` says
that a head is derived in one way only. The blanks around a value that is empty are the one thing
a head leaves open: they may belong to either side.
-/

namespace WebSocket.Proto.Http

open Lib Lib.Text

/-! ## The grammar -/

/-- No control byte other than a tab. -/
def Plain (s : Bytes) : Prop := ∀ b ∈ s, b = 9 ∨ 32 ≤ b ∧ b ≠ 127

/-- Spaces and tabs. -/
def Blanks (s : Bytes) : Prop := ∀ b ∈ s, b = 32 ∨ b = 9

/-- A header line: a name, a colon, and a value between blanks. -/
structure Line where
  name : Bytes
  before : Bytes
  value : Bytes
  after : Bytes
  deriving DecidableEq

namespace Line

def bytes (l : Line) : Bytes := l.name ++ 58 :: (l.before ++ l.value ++ l.after)

/-- What is read of a line. -/
def read (l : Line) : Bytes × Bytes := (lowercase l.name, l.value)

structure Ok (l : Line) : Prop where
  name : isToken l.name = true
  before : Blanks l.before
  value : Plain l.value
  trimmed : Trimmed blank l.value
  after : Blanks l.after

/-- The same line but for blanks around an empty value, of which only the sum is seen. -/
structure Same (l l' : Line) : Prop where
  name : l.name = l'.name
  value : l.value = l'.value
  blanks : l.before ++ l.after = l'.before ++ l'.after
  sides : l.value ≠ [] → l = l'

end Line

/-- A head as it is sent. -/
def written (start : Bytes) (lines : List Line) : Bytes :=
  start ++ crlf ++ (lines.flatMap fun l => l.bytes ++ crlf) ++ crlf

/-- `head` consists of the start line and the header lines. -/
structure Derives (head start : Bytes) (lines : List Line) : Prop where
  head : head = written start lines
  start : Plain start
  lines : ∀ l ∈ lines, l.Ok

/-! ## Lines -/

section

variable {s : Bytes} {l l' : Line}

theorem isValue_iff_plain : isValue s = true ↔ Plain s := by
  rw [isValue_iff]
  simp [valueByte, Plain]

theorem blank_iff {b : UInt8} : blank b = true ↔ b = 32 ∨ b = 9 := by
  simp [blank]

theorem Plain.not_mem (h : Plain s) {b : UInt8} (hb : b ≠ 9 ∧ (b < 32 ∨ b = 127)) : b ∉ s := by
  intro hm
  rcases h b hm with h9 | ⟨h32, h127⟩
  · exact hb.1 h9
  · rcases hb.2 with hlt | heq
    · exact absurd h32 (UInt8.not_le.mpr hlt)
    · exact h127 heq

theorem Blanks.plain (h : Blanks s) : Plain s := fun b hb => by
  rcases h b hb with rfl | rfl
  · exact .inr (by decide)
  · exact .inl rfl

theorem Line.Ok.not_mem (h : l.Ok) {b : UInt8} (hb : b ≠ 9 ∧ (b < 32 ∨ b = 127)) (ht : tokenByte b = false)
    (hc : b ≠ 58) : b ∉ l.bytes := by
  simp only [Line.bytes, List.mem_append, List.mem_cons, not_or]
  exact ⟨not_mem_of_isToken h.name ht, hc, ⟨h.before.plain.not_mem hb, h.value.not_mem hb⟩, h.after.plain.not_mem hb⟩

theorem Line.bytes_ne_nil (l : Line) : l.bytes ≠ [] := by
  simp [Line.bytes]

/-- A line is cut at its first colon and its value trimmed. -/
theorem Line.Ok.cut (h : l.Ok) :
    splitOnce 58 l.bytes = some (l.name, l.before ++ l.value ++ l.after) ∧
      trimMatches (l.before ++ l.value ++ l.after) = l.value :=
  ⟨splitOnce_append (not_mem_of_isToken h.name (by decide)),
    trim_append (fun b hb => blank_iff.mpr (h.before b hb)) (fun b hb => blank_iff.mpr (h.after b hb)) h.trimmed⟩

/-- Two readings of the same line. -/
theorem Line.Ok.same (h : l.Ok) (h' : l'.Ok) (he : l.bytes = l'.bytes) : l.Same l' := by
  have hcut := h.cut
  rw [he, h'.cut.1] at hcut
  obtain ⟨hname, hraw⟩ := Prod.mk.inj (Option.some.inj hcut.1)
  have hvalue : l.value = l'.value := by rw [← hcut.2, ← hraw, h'.cut.2]
  have hsides (hne : l.value ≠ []) : l.before = l'.before ∧ l.after = l'.after := by
    have hb := takeWhile_append_trimmed (fun b hb => blank_iff.mpr (h.before b hb)) h.trimmed hne l.after
    have hb' := takeWhile_append_trimmed (fun b hb => blank_iff.mpr (h'.before b hb)) h'.trimmed (hvalue ▸ hne) l'.after
    have hbefore : l.before = l'.before := by rw [← hb, ← hraw, hb']
    rw [hbefore, hvalue] at hraw
    exact ⟨hbefore, (List.append_cancel_left hraw).symm⟩
  refine ⟨hname.symm, hvalue, ?_, fun hne => ?_⟩
  · by_cases hne : l.value = []
    · rw [← hvalue, hne] at hraw
      simpa using hraw.symm
    · rw [(hsides hne).1, (hsides hne).2]
  · obtain ⟨hbefore, hafter⟩ := hsides hne
    cases l
    cases l'
    cases hname
    cases hvalue
    cases hbefore
    cases hafter
    rfl

end

/-! ## Reading what is derived -/

section

variable {head start : Bytes} {headers : Headers} {lines : List Line}

theorem parseLines_bytes (h : ∀ l ∈ lines, l.Ok) (hn : headers.length + lines.length ≤ MAX_HEADERS) :
    parseLines headers (lines.map Line.bytes) = some (headers ++ lines.map Line.read) := by
  induction lines generalizing headers with
  | nil => simp [parseLines]
  | cons l lines ih =>
    rw [List.forall_mem_cons] at h
    have hlen : (headers.length == MAX_HEADERS) = false := by
      simp only [List.length_cons] at hn
      simp only [beq_eq_false_iff_ne]
      omega
    rw [List.map_cons, parseLines, h.1.cut.1]
    simp only [h.1.cut.2, h.1.name, isValue_iff_plain.mpr h.1.value, hlen, Bool.not_true, Bool.or_self,
      Bool.false_eq_true, if_false]
    rw [ih h.2 (by simp only [List.length_append, List.length_cons, List.length_nil] at hn ⊢; omega)]
    simp [Line.read]

theorem written_eq : written start lines
    = start ++ (lines.map Line.bytes).flatMap (fun p => 13 :: 10 :: p) ++ ascii "\r\n\r\n" := by
  rw [← lines_eq, written, List.flatMap_map]

theorem Derives.cr_not_mem (h : Derives head start lines) : 13 ∉ start ∧ ∀ p ∈ lines.map Line.bytes, 13 ∉ p := by
  refine ⟨h.start.not_mem (by decide), fun p hp => ?_⟩
  obtain ⟨l, hl, rfl⟩ := List.mem_map.mp hp
  exact (h.lines l hl).not_mem (by decide) (by decide) (by decide)

/-- The lines of a derived head are its pieces between the line ends. -/
theorem Derives.pieces (h : Derives head start lines) :
    ∃ text, head = text ++ ascii "\r\n\r\n" ∧ splitPair 13 10 text = start :: lines.map Line.bytes :=
  ⟨_, h.head.trans written_eq, splitPair_lines h.cr_not_mem.1 h.cr_not_mem.2⟩

theorem parse_of_derives (h : Derives head start lines) (hn : lines.length ≤ MAX_HEADERS)
    (hlen : head.length ≤ MAX_HEAD) (hv : Utf8.Valid head) : parse head = some (start, lines.map Line.read) := by
  have htext : Str.fromUtf8 head = some ⟨head, hv⟩ := Str.fromUtf8_eq_some.mpr rfl
  obtain ⟨text, hhead, hpieces⟩ := h.pieces
  have hdrop : head.dropSuffix? (ascii "\r\n\r\n") = some text :=
    List.dropSuffix?_eq_some_iff.mpr ⟨_, hhead, BEq.rfl⟩
  have hread : parseLines [] (lines.map Line.bytes) = some (lines.map Line.read) := by
    simpa using @parseLines_bytes [] lines h.lines (by simpa using hn)
  unfold parse
  rw [if_neg (Nat.not_lt.mpr hlen), htext]
  simp only [Option.bind_eq_bind, Option.bind_some, hdrop, hpieces, hread, isValue_iff_plain.mpr h.start, if_true]

/-- The blank line at the end of a derived head is its first. -/
theorem Derives.headEnd_eq (h : Derives head start lines) : headEnd head = some head.length := by
  have hlines : ∀ p ∈ lines.map Line.bytes, 13 ∉ p ∧ p ≠ [] := by
    intro p hp
    refine ⟨h.cr_not_mem.2 p hp, ?_⟩
    obtain ⟨l, -, rfl⟩ := List.mem_map.mp hp
    exact l.bytes_ne_nil
  have hfind := find_blank (y := 10) (by decide) h.cr_not_mem.1 hlines
  rw [headEnd, h.head, written_eq, show ascii "\r\n\r\n" = [13, 10, 13, 10] by decide, hfind]
  simp [Nat.add_assoc]

/-! ## Deriving what is read -/

/-- A line that passed. -/
theorem line_of_cut {line name raw : Bytes} (hcut : splitOnce 58 line = some (name, raw)) (ht : isToken name = true)
    (hv : isValue (trimMatches raw) = true) : ∃ l : Line, l.Ok ∧ line = l.bytes ∧ l.read = (lowercase name, trimMatches raw) := by
  obtain ⟨hline, -⟩ := splitOnce_eq_some hcut
  obtain ⟨b, e, hraw, hb, he⟩ := trim_split blank raw
  refine ⟨⟨name, b, trimMatches raw, e⟩, ⟨ht, fun c hc => blank_iff.mp (hb c hc), isValue_iff_plain.mp hv,
    trimmed_trim blank raw, fun c hc => blank_iff.mp (he c hc)⟩, ?_, rfl⟩
  rw [Line.bytes, trimMatches, ← hraw]
  exact hline

theorem lines_of_parseLines {ls : List Bytes} {out : Headers} (h : parseLines headers ls = some out)
    (hn : headers.length ≤ MAX_HEADERS) :
    ∃ lines : List Line, (∀ l ∈ lines, l.Ok) ∧ ls = lines.map Line.bytes ∧ out = headers ++ lines.map Line.read ∧
      out.length ≤ MAX_HEADERS := by
  induction ls generalizing headers with
  | nil =>
    cases h
    exact ⟨[], nofun, rfl, (List.append_nil _).symm, hn⟩
  | cons line ls ih =>
    rw [parseLines] at h
    split at h
    · cases h
    · rename_i name raw hcut
      dsimp only at h
      split at h
      · cases h
      · rename_i hbad
        simp only [Bool.or_eq_true, Bool.not_eq_true', not_or, Bool.not_eq_false, beq_iff_eq] at hbad
        obtain ⟨l, hl, hline, hread⟩ := line_of_cut hcut hbad.1.1 hbad.1.2
        obtain ⟨lines, hlines, hls, hout, hlen⟩ :=
          ih h (by rw [List.length_append, List.length_singleton]; have := hbad.2; omega)
        refine ⟨l :: lines, List.forall_mem_cons.mpr ⟨hl, hlines⟩, by rw [List.map_cons, ← hline, ← hls], ?_, hlen⟩
        rw [hout, List.map_cons, hread, List.append_assoc]
        rfl

theorem derives_of_parse (h : parse head = some (start, headers)) :
    Utf8.Valid head ∧ head.length ≤ MAX_HEAD ∧
      ∃ lines, Derives head start lines ∧ lines.length ≤ MAX_HEADERS ∧ headers = lines.map Line.read := by
  unfold parse at h
  split at h
  · cases h
  · rename_i hlen
    obtain ⟨text, htext, h⟩ := Option.bind_eq_some_iff.mp h
    obtain ⟨body, hbody, h⟩ := Option.bind_eq_some_iff.mp h
    have hbytes := Str.fromUtf8_eq_some.mp htext
    split at h
    · cases h
    · rename_i start' ls hsplit
      obtain ⟨out, hout, h⟩ := Option.bind_eq_some_iff.mp h
      split at h
      · rename_i hs
        cases h
        obtain ⟨lines, hok, hls, hread, hn⟩ := lines_of_parseLines hout (Nat.zero_le _)
        rw [List.nil_append] at hread
        refine ⟨hbytes ▸ text.valid, Nat.le_of_not_lt hlen, lines, ⟨?_, isValue_iff_plain.mp hs, hok⟩, ?_, hread⟩
        · obtain ⟨t, ht, hsuf⟩ := List.dropSuffix?_eq_some_iff.mp hbody
          rw [written_eq, ← hls, ← eq_of_splitPair hsplit, ← hbytes, ht, eq_of_beq hsuf]
        · rwa [hread, List.length_map] at hn
      · cases h

theorem forall₂_same {lines' : List Line} (h : ∀ l ∈ lines, l.Ok) (h' : ∀ l ∈ lines', l.Ok)
    (he : lines.map Line.bytes = lines'.map Line.bytes) : List.Forall₂ Line.Same lines lines' := by
  induction lines generalizing lines' with
  | nil =>
    rw [List.map_nil] at he
    rw [List.map_eq_nil_iff.mp he.symm]
    exact .nil
  | cons l lines ih =>
    rw [List.map_cons] at he
    obtain ⟨l', lines', rfl, hl, hlines⟩ := List.map_eq_cons_iff.mp he.symm
    rw [List.forall_mem_cons] at h h'
    exact .cons (h.1.same h'.1 hl.symm) (ih h.2 h'.2 hlines.symm)

/-- A head is derived in one way. -/
theorem Derives.unique {start' : Bytes} {lines' : List Line} (h : Derives head start lines)
    (h' : Derives head start' lines') : start = start' ∧ List.Forall₂ Line.Same lines lines' := by
  obtain ⟨text, ht, hp⟩ := h.pieces
  obtain ⟨text', ht', hp'⟩ := h'.pieces
  obtain rfl : text = text' := List.append_cancel_right (ht.symm.trans ht')
  obtain ⟨hstart, hlines⟩ := List.cons.inj (hp.symm.trans hp')
  exact ⟨hstart, forall₂_same h.lines h'.lines hlines⟩

/-- Neither half of a line end stands inside a line. -/
theorem Derives.no_line_end (h : Derives head start lines) :
    ∀ p ∈ start :: lines.map Line.bytes, 13 ∉ p ∧ 10 ∉ p := by
  refine List.forall_mem_cons.mpr ⟨⟨h.cr_not_mem.1, h.start.not_mem (by decide)⟩, fun p hp => ⟨h.cr_not_mem.2 p hp, ?_⟩⟩
  obtain ⟨l, hl, rfl⟩ := List.mem_map.mp hp
  exact (h.lines l hl).not_mem (by decide) (by decide) (by decide)

end

/-- `parse` accepts exactly the heads of the grammar, each derived in one way; the head ends with the
first blank line, and line ends stand only between its lines. -/
theorem parse_grammar (head start : Bytes) (headers : Headers) :
    (parse head = some (start, headers) ↔
      Utf8.Valid head ∧ head.length ≤ MAX_HEAD ∧
        ∃ lines, Derives head start lines ∧ lines.length ≤ MAX_HEADERS ∧ headers = lines.map Line.read) ∧
    (∀ lines start' lines', Derives head start lines → Derives head start' lines' →
      start = start' ∧ List.Forall₂ Line.Same lines lines') ∧
    (parse head = some (start, headers) → headEnd head = some head.length ∧
      ∀ lines, Derives head start lines → ∀ p ∈ start :: lines.map Line.bytes, 13 ∉ p ∧ 10 ∉ p) := by
  refine ⟨⟨derives_of_parse, ?_⟩, fun _ _ _ h h' => h.unique h', fun h => ⟨?_, fun _ hd => hd.no_line_end⟩⟩
  · rintro ⟨hv, hlen, lines, hd, hn, rfl⟩
    exact parse_of_derives hd hn hlen hv
  · obtain ⟨-, -, lines, hd, -⟩ := derives_of_parse h
    exact hd.headEnd_eq

end WebSocket.Proto.Http
