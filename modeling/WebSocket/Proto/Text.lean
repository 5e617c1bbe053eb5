import WebSocket.Proto.Stream

/-!
# Text messages in fragments

The reader validates a text message as its fragments come in: each check starts at
`checked`, where the last one stopped, and may end inside a character. Here the frames of
one text message are laid out, cut anywhere and with control frames in between, and the
reader is followed along them. The message comes out exactly when the whole text is valid;
otherwise the reader fails at the first fragment behind which no valid text goes on, or at
the last one.
-/

namespace WebSocket.Proto

open Lib Lib.Incremental

/-- A control frame that a reader of the given role accepts. -/
structure Wire.Control (server : Bool) (w : Wire) : Prop where
  fin : w.fin = true
  masked : w.mask.isSome = server
  short : w.payload.length ≤ 125
  kind : w.op = PING ∨ w.op = PONG ∨ w.op = CLOSE ∧ ∃ status, CloseStatus w.payload status

/-- A fragment of a message to a reader of the given role, with the control frames sent before it. -/
structure Fragment (server : Bool) where
  controls : List Wire
  payload : Bytes
  mask : Option Key
  control : ∀ w ∈ controls, w.Control server
  masked : mask.isSome = server
  short : payload.length < 2 ^ 63

/-- The text can still become valid. -/
def Extends (d : Bytes) : Prop := ∃ t, Utf8.Valid (d ++ t)

section Frames

variable {server : Bool}

/-- The frame of a fragment. The first one of a message has the opcode. -/
def Fragment.data (first fin : Bool) (f : Fragment server) : Wire :=
  ⟨fin, if first then TEXT else CONTINUATION, f.payload, f.mask⟩

def Fragment.frames (first fin : Bool) (f : Fragment server) : List Wire := f.controls ++ [f.data first fin]

/-- The frames of fragments that more are to follow. -/
def openFrames : Bool → List (Fragment server) → List Wire
  | _, [] => []
  | first, f :: fs => f.frames first false ++ openFrames false fs

/-- The frames of a message with the fragments `fs` and then `f`. -/
def textFrames (fs : List (Fragment server)) (f : Fragment server) : List Wire :=
  openFrames true fs ++ f.frames fs.isEmpty true

/-- What the fragments carry. -/
def text (fs : List (Fragment server)) : Bytes := fs.flatMap Fragment.payload

/-- The messages of the control frames. -/
def controlMsgs (fs : List (Fragment server)) : List Msg := fs.flatMap fun f => f.controls.map Wire.msg

end Frames

/-! ## One frame -/

theorem nextFrame_control {server : Bool} {max : Nat} {p : Option Partial} {w : Wire} (h : w.Control server)
    (rest : Bytes) : nextFrame server max p (w.bytes ++ rest) = .item (some w.msg) p rest := by
  obtain ⟨hfin, hmask, hl, hkind⟩ := h
  obtain ⟨fin, op, payload, mask⟩ := w
  obtain rfl : fin = true := hfin
  rcases hkind with hop | hop | ⟨hop, status, hs⟩
  · obtain rfl : op = PING := hop
    rw [nextFrame_bytes (admits_control (.inr (.inl rfl)) hmask hl)]
    rfl
  · obtain rfl : op = PONG := hop
    rw [nextFrame_bytes (admits_control (.inr (.inr rfl)) hmask hl)]
    rfl
  · obtain rfl : op = CLOSE := hop
    rw [nextFrame_bytes (admits_control (.inl rfl) hmask hl), verdict, assemblePayload_close,
      close_ok_iff.mpr ⟨status, hs, rfl⟩, Wire.msg_close rfl hs]
    rfl

/-- Control frames come out at once and leave the open message alone. -/
theorem drain_controls {server : Bool} {max : Nat} {p : Option Partial} {ws : List Wire}
    (h : ∀ w ∈ ws, w.Control server) (rest : Bytes) :
    (decoder server max).drain p (ws.flatMap Wire.bytes ++ rest) =
      (ws.map Wire.msg ++ ((decoder server max).drain p rest).1, ((decoder server max).drain p rest).2) := by
  induction ws with
  | nil => rfl
  | cons w ws ih =>
    rw [List.forall_mem_cons] at h
    have hnext : (decoder server max).next p (w.bytes ++ (ws.flatMap Wire.bytes ++ rest)) =
        .item (some w.msg) p (ws.flatMap Wire.bytes ++ rest) := nextFrame_control h.1 _
    rw [List.flatMap_cons, List.append_assoc, (decoder server max).drain_item hnext, ih h.2]
    rfl

/-! ## The open text -/

/-- Where validation stands: what is before `checked` is valid, and the rest is a proper beginning of one
encoded character. -/
structure Cursor (data : Bytes) (checked : Nat) : Prop where
  le : checked ≤ data.length
  valid : Utf8.Valid (data.take checked)
  rest : ∃ t c, t ≠ [] ∧ String.utf8EncodeChar c = data.drop checked ++ t

/-- The reader's open message after the fragments that carry `d`. -/
inductive OpenText : Bool → Bytes → Option Partial → Prop where
  | fresh : OpenText true [] none
  | amid {d : Bytes} {checked : Nat} (cursor : Cursor d checked) : OpenText false d (some ⟨TEXT, d, checked⟩)

theorem Cursor.sound {d : Bytes} {checked : Nat} (h : Cursor d checked) : Partial.Sound ⟨TEXT, d, checked⟩ :=
  ⟨.inl rfl, h.le, h.valid⟩

theorem OpenText.sound {first : Bool} {d : Bytes} {p : Option Partial} (h : OpenText first d p) : OpenSound p := by
  cases h with
  | fresh => exact openSound_none
  | amid cursor =>
    intro q hq
    cases hq
    exact cursor.sound

/-- The open message with one more fragment. -/
theorem OpenText.extend {first : Bool} {d : Bytes} {p : Option Partial} (h : OpenText first d p) (payload : Bytes) :
    (extendPartial p (if first then TEXT else CONTINUATION) payload).op = TEXT ∧
      (extendPartial p (if first then TEXT else CONTINUATION) payload).data = d ++ payload := by
  cases h with
  | fresh => exact ⟨rfl, rfl⟩
  | amid cursor => exact ⟨rfl, rfl⟩

/-- A check that passes in the middle of a message leaves a proper beginning of one character. -/
theorem cursor_of_checkText {p q : Partial} (h : p.Sound) (hop : p.op = TEXT) (hq : checkText false p = some q) :
    q = ⟨TEXT, p.data, q.checked⟩ ∧ Cursor p.data q.checked := by
  obtain ⟨qop, qdata, qsound⟩ := checkText_some h hq
  refine ⟨?_, qdata ▸ qsound.checked, qdata ▸ qsound.valid, ?_⟩
  · rw [← hop, ← qop, ← qdata]
  · unfold checkText at hq
    rw [if_pos hop] at hq
    cases hu : Utf8.fromUtf8 (p.data.drop p.checked) with
    | ok _ =>
      rw [hu] at hq
      cases hq
      exact ⟨String.utf8EncodeChar 'a', 'a', by decide, by simp⟩
    | error e =>
      rw [hu] at hq
      dsimp only at hq
      split at hq
      · rename_i hcut
        cases hq
        rw [Bool.and_eq_true, Option.isNone_iff_eq_none] at hcut
        obtain ⟨-, t, c, ht, hc⟩ := (Utf8.fromUtf8_cut_iff hu).mp hcut.1
        exact ⟨t, c, ht, by rw [hc, List.drop_drop]⟩
      · cases hq

section Fragments

variable {server : Bool} {max : Nat} {first : Bool} {d : Bytes} {p : Option Partial} {f : Fragment server}

theorem OpenText.admits (h : OpenText first d p) (fin : Bool) (size : (d ++ f.payload).length ≤ max) :
    Admits server max p (f.data first fin) := by
  cases h with
  | fresh => exact admits_start (.inl rfl) f.masked size f.short
  | amid cursor => exact admits_continue f.masked size f.short

theorem OpenText.nextFrame (h : OpenText first d p) (fin : Bool) (size : (d ++ f.payload).length ≤ max) (rest : Bytes) :
    (decoder server max).next p ((f.data first fin).bytes ++ rest) =
      match checkText fin (extendPartial p (if first then TEXT else CONTINUATION) f.payload) with
      | none => .fail ⟨1007, "invalid UTF-8 in text message"⟩
      | some q => if !fin then .item none (some q) rest else .item (some (msgOf q.op q.data)) none rest := by
  have hop : (f.data first fin).op = TEXT ∨ (f.data first fin).op = BINARY ∨ (f.data first fin).op = CONTINUATION := by
    cases first
    · exact .inr (.inr rfl)
    · exact .inl rfl
  rw [decoder_next, nextFrame_bytes (h.admits fin size), verdict, assemblePayload_data _ hop]
  have hdata : checkText (f.data first fin).fin (extendPartial p (f.data first fin).op (f.data first fin).payload)
      = checkText fin (extendPartial p (if first then TEXT else CONTINUATION) f.payload) := rfl
  rw [hdata]
  cases checkText fin (extendPartial p (if first then TEXT else CONTINUATION) f.payload) with
  | none => rfl
  | some q => cases fin <;> rfl

theorem OpenText.extend_sound (h : OpenText first d p) (payload : Bytes) :
    (extendPartial p (if first then TEXT else CONTINUATION) payload).Sound := by
  refine h.sound.extend payload fun hp => .inl ?_
  cases h with
  | fresh => rfl
  | amid cursor => cases hp

/-- A fragment that valid text can follow stays open. -/
theorem OpenText.fragment (h : OpenText first d p) (size : (d ++ f.payload).length ≤ max)
    (ext : Extends (d ++ f.payload)) :
    ∃ q, OpenText false (d ++ f.payload) (some q) ∧
      ∀ rest, (decoder server max).next p ((f.data first false).bytes ++ rest) = .item none (some q) rest := by
  have sound := h.extend_sound f.payload
  obtain ⟨hop, hdata⟩ := h.extend f.payload
  obtain ⟨q, hq⟩ := Option.isSome_iff_exists.mp ((checkText_more_iff sound).mpr fun _ => hdata ▸ ext)
  obtain ⟨heq, cursor⟩ := cursor_of_checkText sound hop hq
  rw [hdata] at heq cursor
  refine ⟨q, by rw [heq]; exact .amid cursor, fun rest => ?_⟩
  rw [h.nextFrame false size, hq]
  rfl

/-- A fragment that no valid text can follow is refused at once. -/
theorem OpenText.broken (h : OpenText first d p) (size : (d ++ f.payload).length ≤ max)
    (ext : ¬ Extends (d ++ f.payload)) (rest : Bytes) :
    (decoder server max).next p ((f.data first false).bytes ++ rest) = .fail ⟨1007, "invalid UTF-8 in text message"⟩ := by
  obtain ⟨hop, hdata⟩ := h.extend f.payload
  have none : checkText false (extendPartial p (if first then TEXT else CONTINUATION) f.payload) = none := by
    rw [← Option.not_isSome_iff_eq_none, checkText_more_iff (h.extend_sound f.payload), hdata]
    exact fun hx => ext (hx hop)
  rw [h.nextFrame false size, none]

/-- The last fragment decides. -/
theorem OpenText.last (h : OpenText first d p) (size : (d ++ f.payload).length ≤ max) (rest : Bytes) :
    (decoder server max).next p ((f.data first true).bytes ++ rest) =
      if Utf8.Valid (d ++ f.payload) then .item (some (.text (d ++ f.payload))) none rest
      else .fail ⟨1007, "invalid UTF-8 in text message"⟩ := by
  have sound := h.extend_sound f.payload
  obtain ⟨hop, hdata⟩ := h.extend f.payload
  rw [h.nextFrame true size]
  by_cases valid : Utf8.Valid (d ++ f.payload)
  · rw [if_pos valid]
    obtain ⟨q, hq⟩ := Option.isSome_iff_exists.mp ((checkText_fin_iff sound).mpr fun _ => hdata ▸ valid)
    obtain ⟨qop, qdata, -⟩ := checkText_some sound hq
    rw [hq]
    dsimp only
    rw [qop, hop, qdata, hdata]
    rfl
  · rw [if_neg valid]
    have none : checkText true (extendPartial p (if first then TEXT else CONTINUATION) f.payload) = none := by
      rw [← Option.not_isSome_iff_eq_none, checkText_fin_iff sound, hdata]
      exact fun hx => valid (hx hop)
    rw [none]

/-- The frames of one fragment: its control frames, then the verdict on it. -/
theorem drain_frames (fin : Bool) (rest : Bytes) :
    (decoder server max).drain p ((f.frames first fin).flatMap Wire.bytes ++ rest) =
      (f.controls.map Wire.msg ++ ((decoder server max).drain p ((f.data first fin).bytes ++ rest)).1,
        ((decoder server max).drain p ((f.data first fin).bytes ++ rest)).2) := by
  rw [Fragment.frames, List.flatMap_append, List.append_assoc, drain_controls f.control, List.flatMap_singleton]

/-! ## All fragments -/

theorem Extends.of_append {a b : Bytes} (h : Extends (a ++ b)) : Extends a := by
  obtain ⟨t, ht⟩ := h
  exact ⟨b ++ t, by rwa [← List.append_assoc]⟩

theorem controlMsgs_cons (f : Fragment server) (fs : List (Fragment server)) :
    controlMsgs (f :: fs) = f.controls.map Wire.msg ++ controlMsgs fs := List.flatMap_cons

theorem controlMsgs_snoc (fs : List (Fragment server)) (f : Fragment server) :
    controlMsgs (fs ++ [f]) = controlMsgs fs ++ f.controls.map Wire.msg := by
  rw [controlMsgs, List.flatMap_append, List.flatMap_singleton, controlMsgs]

theorem text_append (a b : List (Fragment server)) : text (a ++ b) = text a ++ text b := List.flatMap_append

theorem text_singleton (f : Fragment server) : text [f] = f.payload := List.flatMap_singleton _ _

theorem openFrames_append (first : Bool) (a b : List (Fragment server)) :
    openFrames first (a ++ b) = openFrames first a ++ openFrames (first && a.isEmpty) b := by
  induction a generalizing first with
  | nil => simp [openFrames]
  | cons f a ih => simp [openFrames, ih]

/-- The reader takes in fragments as long as valid text can follow. -/
theorem drain_open {fs : List (Fragment server)} (h : OpenText first d p) (size : (d ++ text fs).length ≤ max)
    (ext : Extends (d ++ text fs)) :
    ∃ q, OpenText (first && fs.isEmpty) (d ++ text fs) q ∧ ∀ rest,
      (decoder server max).drain p ((openFrames first fs).flatMap Wire.bytes ++ rest) =
        (controlMsgs fs ++ ((decoder server max).drain q rest).1, ((decoder server max).drain q rest).2) := by
  induction fs generalizing first d p with
  | nil =>
    refine ⟨p, ?_, fun rest => rfl⟩
    simpa [text] using h
  | cons f fs ih =>
    have split : d ++ text (f :: fs) = d ++ f.payload ++ text fs := by
      rw [text, List.flatMap_cons, ← List.append_assoc, text]
    rw [split] at size ext ⊢
    have size' : (d ++ f.payload).length ≤ max := by
      rw [List.length_append] at size
      omega
    obtain ⟨q, open', hnext⟩ := h.fragment size' ext.of_append
    obtain ⟨q', open'', hrest⟩ := ih open' size ext
    refine ⟨q', by simpa using open'', fun rest => ?_⟩
    rw [openFrames, List.flatMap_append, List.append_assoc, drain_frames,
      (decoder server max).drain_item (hnext _), hrest, controlMsgs_cons, List.append_assoc]
    rfl

/-- The first of the fragments behind which no valid text goes on. -/
theorem exists_first {P : List (Fragment server) → Prop} {fs : List (Fragment server)} (h0 : P []) (h : ¬ P fs) :
    ∃ a f b, fs = a ++ f :: b ∧ P a ∧ ¬ P (a ++ [f]) := by
  induction fs using List.reverseRecOn with
  | nil => exact absurd h0 h
  | append_singleton fs f ih =>
    by_cases hp : P fs
    · exact ⟨fs, f, [], rfl, hp, h⟩
    · obtain ⟨a, g, b, rfl, ha, hg⟩ := ih hp
      exact ⟨a, g, b ++ [f], by simp, ha, hg⟩

theorem drain_nil (p : Option Partial) : (decoder server max).drain p [] = ([], .ok (p, [])) :=
  (decoder server max).drain_more rfl

/-- What a reader makes of these bytes. -/
def readAll (server : Bool) (max : Nat) (b : Bytes) : Reader × List Msg × Option Fail :=
  ((Reader.new server max).push b).drain

theorem readAll_error {b : Bytes} {ms : List Msg} {e : Fail} (h : (decoder server max).drain none b = (ms, .error e)) :
    (readAll server max b).2 = (ms, some e) := by
  obtain ⟨hms, hres⟩ := ((Reader.new_at server max).push b).drain
  rw [List.nil_append, h] at hms hres
  exact Prod.ext hms hres

theorem readAll_ok {b : Bytes} {ms : List Msg} {q : Option Partial} {rest : Bytes}
    (h : (decoder server max).drain none b = (ms, .ok (q, rest))) :
    (readAll server max b).2 = (ms, none) ∧ (readAll server max b).1.partialMsg = q := by
  obtain ⟨hms, hres⟩ := ((Reader.new_at server max).push b).drain
  rw [List.nil_append, h] at hms hres
  exact ⟨Prod.ext hms hres.1, hres.2.partialMsg⟩

/-- The frames up to and with a fragment that is not the last. -/
theorem drain_upto {a : List (Fragment server)} (size : (text a ++ f.payload).length ≤ max) (ext : Extends (text a))
    (broken : ¬ Extends (text a ++ f.payload)) (rest : Bytes) :
    (decoder server max).drain none ((openFrames true (a ++ [f])).flatMap Wire.bytes ++ rest) =
      (controlMsgs (a ++ [f]), .error ⟨1007, "invalid UTF-8 in text message"⟩) := by
  have size' : ([] ++ text a).length ≤ max := by
    rw [List.length_append] at size
    rw [List.nil_append]
    omega
  obtain ⟨q, hopen, hd⟩ := @drain_open server max true [] none a .fresh size' (by simpa using ext)
  rw [List.nil_append] at hopen
  rw [openFrames_append, List.flatMap_append, List.append_assoc, hd, openFrames, openFrames, List.append_nil,
    drain_frames, (decoder server max).drain_fail (hopen.broken size broken rest), controlMsgs_snoc]
  simp

theorem drain_text {fs : List (Fragment server)} (size : (text fs ++ f.payload).length ≤ max) (ext : Extends (text fs))
    (rest : Bytes) :
    (decoder server max).drain none ((textFrames fs f).flatMap Wire.bytes ++ rest) =
      if Utf8.Valid (text fs ++ f.payload) then
        (controlMsgs (fs ++ [f]) ++ .text (text fs ++ f.payload) :: ((decoder server max).drain none rest).1,
          ((decoder server max).drain none rest).2)
      else (controlMsgs (fs ++ [f]), .error ⟨1007, "invalid UTF-8 in text message"⟩) := by
  have size' : ([] ++ text fs).length ≤ max := by
    rw [List.length_append] at size
    rw [List.nil_append]
    omega
  obtain ⟨q, hopen, hd⟩ := @drain_open server max true [] none fs .fresh size' (by simpa using ext)
  rw [List.nil_append, Bool.true_and] at hopen
  have last := hopen.last size rest
  rw [textFrames, List.flatMap_append, List.append_assoc, hd, drain_frames]
  by_cases valid : Utf8.Valid (text fs ++ f.payload)
  · rw [if_pos valid] at last ⊢
    rw [(decoder server max).drain_item last, controlMsgs_snoc]
    simp [Decoder.emit]
  · rw [if_neg valid] at last ⊢
    rw [(decoder server max).drain_fail last, controlMsgs_snoc]
    simp

/-- **Incremental validation is validation of the whole.** For a text message in fragments: the reader
returns it exactly when the text is valid. Otherwise it fails with 1007 at the first fragment
behind which no valid text goes on, whatever follows, or at the last fragment. As long as valid
text can follow, nothing fails, and the open message holds the text so far with `checked` at the
start of at most one unfinished character. -/
theorem text_fragments {fs : List (Fragment server)} (size : (text fs ++ f.payload).length ≤ max) :
    ((readAll server max ((textFrames fs f).flatMap Wire.bytes)).2 =
        (controlMsgs (fs ++ [f]) ++ [.text (text fs ++ f.payload)], none) ↔ Utf8.Valid (text fs ++ f.payload)) ∧
    (¬ Utf8.Valid (text fs ++ f.payload) →
      (∃ a g b, fs = a ++ g :: b ∧ Extends (text a) ∧ ¬ Extends (text (a ++ [g])) ∧ ∀ rest,
        (readAll server max ((openFrames true (a ++ [g])).flatMap Wire.bytes ++ rest)).2 =
          (controlMsgs (a ++ [g]), some ⟨1007, "invalid UTF-8 in text message"⟩)) ∨
      Extends (text fs) ∧ ∀ rest,
        (readAll server max ((textFrames fs f).flatMap Wire.bytes ++ rest)).2 =
          (controlMsgs (fs ++ [f]), some ⟨1007, "invalid UTF-8 in text message"⟩)) ∧
    ∀ a b, fs = a ++ b → Extends (text a) →
      (readAll server max ((openFrames true a).flatMap Wire.bytes)).2 = (controlMsgs a, none) ∧
      (a ≠ [] → ∃ checked, Cursor (text a) checked ∧
        (readAll server max ((openFrames true a).flatMap Wire.bytes)).1.partialMsg = some ⟨TEXT, text a, checked⟩) := by
  have part {a b : List (Fragment server)} (h : fs = a ++ b) : (text a).length ≤ max := by
    rw [h, text_append, List.length_append, List.length_append] at size
    omega
  have fails (invalid : ¬ Utf8.Valid (text fs ++ f.payload)) :
      (∃ a g b, fs = a ++ g :: b ∧ Extends (text a) ∧ ¬ Extends (text (a ++ [g])) ∧ ∀ rest,
        (readAll server max ((openFrames true (a ++ [g])).flatMap Wire.bytes ++ rest)).2 =
          (controlMsgs (a ++ [g]), some ⟨1007, "invalid UTF-8 in text message"⟩)) ∨
      Extends (text fs) ∧ ∀ rest,
        (readAll server max ((textFrames fs f).flatMap Wire.bytes ++ rest)).2 =
          (controlMsgs (fs ++ [f]), some ⟨1007, "invalid UTF-8 in text message"⟩) := by
    by_cases ext : Extends (text fs)
    · refine .inr ⟨ext, fun rest => readAll_error ?_⟩
      rw [drain_text size ext, if_neg invalid]
    · obtain ⟨a, g, b, heq, ha, hg⟩ :=
        @exists_first server (fun a => Extends (text a)) fs ⟨[], Utf8.valid_nil⟩ ext
      refine .inl ⟨a, g, b, heq, ha, hg, fun rest => readAll_error ?_⟩
      rw [text_append, text_singleton] at hg
      have size' := part (a := a ++ [g]) (b := b) (by simpa using heq)
      rw [text_append, text_singleton] at size'
      exact drain_upto size' ha hg rest
  refine ⟨⟨fun hout => ?_, fun valid => ?_⟩, fails, fun a b heq ext => ?_⟩
  · -- a message that is not valid fails
    by_contra invalid
    rcases fails invalid with ⟨a, g, b, heq, -, -, hfail⟩ | ⟨-, hfail⟩
    · have frames : textFrames fs f =
          openFrames true (a ++ [g]) ++ (openFrames (true && (a ++ [g]).isEmpty) b ++ f.frames fs.isEmpty true) := by
        rw [textFrames, ← List.append_assoc, ← openFrames_append, List.append_assoc, List.singleton_append, ← heq]
      rw [frames, List.flatMap_append, hfail] at hout
      exact nomatch congrArg Prod.snd hout
    · rw [← List.append_nil ((textFrames fs f).flatMap Wire.bytes), hfail []] at hout
      exact nomatch congrArg Prod.snd hout
  · have hd := drain_text size ⟨f.payload, valid⟩ []
    rw [if_pos valid, List.append_nil, drain_nil] at hd
    exact (readAll_ok hd).1
  · obtain ⟨q, hopen, hd⟩ := @drain_open server max true [] none a .fresh (by simpa using part heq) (by simpa using ext)
    have hd := hd []
    rw [List.append_nil, drain_nil, List.append_nil] at hd
    obtain ⟨hout, hpart⟩ := readAll_ok hd
    refine ⟨hout, fun hne => ?_⟩
    rw [List.nil_append, Bool.true_and, List.isEmpty_eq_false_iff.mpr hne] at hopen
    rw [hpart]
    cases hopen with
    | amid cursor => exact ⟨_, cursor, rfl⟩

end Fragments

/-- One byte, with nothing before it. -/
def byteFragment (b : UInt8) : Fragment false := ⟨[], [b], none, nofun, rfl, Nat.one_lt_two_pow (by decide)⟩

/-- A character of two bytes, cut in the middle. -/
theorem text_fragments_cut :
    (text [byteFragment 0xC3] ++ (byteFragment 0xA9).payload).length ≤ 2 ∧
      (readAll false 2 ((textFrames [byteFragment 0xC3] (byteFragment 0xA9)).flatMap Wire.bytes)).2 =
        ([.text [0xC3, 0xA9]], none) :=
  ⟨by decide, (@text_fragments false 2 (byteFragment 0xA9) [byteFragment 0xC3] (by decide)).1.mpr (by decide)⟩

end WebSocket.Proto
