import WebSocket.Proto.Reader

/-!
# What a reader fails with

The reader checks frames in several functions, each with texts of its own. Together they
are one short list.
-/

namespace WebSocket.Proto
/-- The texts a `Reader` fails with. -/
def Fail.texts : List String :=
  ["reserved bits set", "unknown opcode", "unmasked client frame", "masked server frame",
    "unexpected continuation frame", "expected continuation frame", "invalid payload length encoding",
    "invalid control frame", "message too big", "invalid close frame", "invalid close code",
    "invalid UTF-8 in close reason", "invalid UTF-8 in text message"]

theorem checkFirst_text {server isOpen : Bool} {b0 b1 : UInt8} {f : Fail} (h : checkFirst server isOpen b0 b1 = some f) :
    f.why ∈ Fail.texts := by
  unfold checkFirst at h
  dsimp only at h
  split at h
  · cases h; decide
  split at h
  · cases h; decide
  split at h
  · cases h
    cases server <;> decide
  split at h
  · split at h
    · cases h; decide
    · split at h
      · cases h; decide
      · cases h
  · cases h

theorem checkLen_text {max pending : Nat} {fin : Bool} {op : UInt8} {len at_ : Nat} {f : Fail}
    (h : checkLen max pending fin op len at_ = some f) : f.why ∈ Fail.texts := by
  unfold checkLen at h
  split at h
  · cases h; decide
  split at h
  · split at h
    · cases h; decide
    · cases h
  · split at h
    · cases h; decide
    · cases h

theorem head_text {server : Bool} {max : Nat} {p : Option Partial} {b : Bytes} {f : Fail}
    (h : head server max p b = .error f) : f.why ∈ Fail.texts := by
  unfold head at h
  split at h
  · cases h
  dsimp only at h
  split at h
  · rename_i f' hf
    cases h
    exact checkFirst_text hf
  split at h
  · cases h
  split at h
  · rename_i f' hf
    cases h
    exact checkLen_text hf
  split at h <;> cases h

theorem close_text {payload : Bytes} {f : Fail} (h : close payload = .error f) : f.why ∈ Fail.texts := by
  unfold close at h
  split at h
  · cases h
  · cases h; decide
  · dsimp only at h
    split at h
    · cases h; decide
    · split at h
      · cases h; decide
      · cases h

theorem assemblePayload_text {p : Option Partial} {fin : Bool} {op : UInt8} {payload : Bytes} {f : Fail}
    (h : (assemblePayload p fin op payload).2 = .error f) : f.why ∈ Fail.texts := by
  unfold assemblePayload at h
  split at h
  · cases h
  split at h
  · cases h
  split at h
  · dsimp only at h
    cases hc : close payload with
    | error f' =>
      rw [hc] at h
      cases h
      exact close_text hc
    | ok m =>
      rw [hc] at h
      cases h
  · dsimp only at h
    split at h
    · cases h; decide
    · split at h <;> cases h

theorem Reader.frame_text {r r' : Reader} {f : Fail} (h : r.frame = (r', .error f)) : f.why ∈ Fail.texts := by
  unfold Reader.frame at h
  dsimp only at h
  split at h
  · rename_i f' hf
    cases h
    exact head_text hf
  · cases h
  · split at h <;> cases h

theorem Reader.messageWith_text {f : Fail} :
    ∀ {fuel : Nat} {r r' : Reader}, messageWith fuel r = (r', .error f) → f.why ∈ Fail.texts := by
  intro fuel
  induction fuel with
  | zero =>
    intro r r' h
    cases h
  | succ fuel ih =>
    intro r r' h
    rw [messageWith] at h
    split at h
    · rename_i r₁ f₁ hf
      cases h
      exact frame_text hf
    · cases h
    · split at h
      · rename_i r₁ g hg r₂ f₂ ha
        cases h
        exact assemblePayload_text (congrArg Prod.snd ha)
      · cases h
      · exact ih h

/-- Whatever the input, a `Reader` fails with one of its texts. -/
theorem Reader.message_text {r r' : Reader} {f : Fail} (h : r.message = (r', .error f)) : f.why ∈ Fail.texts :=
  messageWith_text h

end WebSocket.Proto
