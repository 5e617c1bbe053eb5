import WebSocket.Proto.Handshake
import WebSocket.Proto.Heads

/-!
# Heads the server cannot tell apart

The checks of `handshake::request` read the headers through four lookups: all values of a name,
the one value, the items of a list, its distinct tokens. So the verdict depends on the values of
each name in order, and for the three lists on their items only (`SameFields`): lines of different
names may stand in any order, and a list may be spread over lines or joined in one.
-/

namespace WebSocket.Proto.Handshake

open Lib Lib.Text Http

/-- The headers that are read as lists. -/
def LISTS : List Bytes := ["upgrade", "connection", "sec-websocket-protocol"].map ascii

/-- The same items of every list, and the same values of every other name. -/
structure SameFields (hs hs' : Headers) : Prop where
  lists : ∀ name ∈ LISTS, items hs name = items hs' name
  others : ∀ name, name ∉ LISTS → all hs name = all hs' name

/-- The same status, or the same target, key and subprotocols. -/
def Agree (a b : Except UInt16 Request) : Prop :=
  (∃ status, a = .error status ∧ b = .error status) ∨
    ∃ r r', a = .ok r ∧ b = .ok r' ∧ r.target = r'.target ∧ r.key = r'.key ∧ r.protocols = r'.protocols

theorem Agree.error (status : UInt16) : Agree (.error status) (.error status) := .inl ⟨status, rfl, rfl⟩

/-- A check that both heads pass or neither. -/
theorem Agree.check {c : Prop} [Decidable c] {status : UInt16} {a b : Except UInt16 Request} (h : Agree a b) :
    Agree (if c then .error status else a) (if c then .error status else b) := by
  split
  · exact .error status
  · exact h

/-! ## The lookups -/

namespace SameFields

variable {hs hs' : Headers}

theorem one_eq (h : SameFields hs hs') {name : Bytes} (hn : name ∉ LISTS) : one hs' name = one hs name := by
  rw [one, one, h.others name hn]

theorem hasToken_eq (h : SameFields hs hs') {name : Bytes} (hn : name ∈ LISTS) (token : Bytes) :
    hasToken hs' name token = hasToken hs name token := by
  rw [hasToken, hasToken, h.lists name hn]

theorem tokens_eq (h : SameFields hs hs') {name : Bytes} (hn : name ∈ LISTS) : tokens hs' name = tokens hs name := by
  rw [tokens, tokens, h.lists name hn]

/-- Equal values are enough for every name. -/
theorem of_all (h : ∀ name, all hs name = all hs' name) : SameFields hs hs' :=
  ⟨fun name _ => by rw [items, items, h name], fun name _ => h name⟩

theorem trans {hs'' : Headers} (h : SameFields hs hs') (h' : SameFields hs' hs'') : SameFields hs hs'' :=
  ⟨fun name hn => (h.lists name hn).trans (h'.lists name hn), fun name hn => (h.others name hn).trans (h'.others name hn)⟩

/-- Lines of different names may change places. -/
theorem swap (a b : Headers) {x y : Bytes × Bytes} (h : x.1 ≠ y.1) : SameFields (a ++ x :: y :: b) (a ++ y :: x :: b) := by
  refine of_all fun name => ?_
  simp only [all, List.filter_append, List.filter_cons]
  by_cases hx : (x.1 == name) = true
  · have hy : (y.1 == name) = false := by
      rw [beq_iff_eq] at hx
      simp [← hx, Ne.symm h]
    simp [hx, hy]
  · simp [hx]

/-- Two lines of a list may be joined by a comma. -/
theorem join (a b : Headers) {name : Bytes} (hn : name ∈ LISTS) (v w : Bytes) :
    SameFields (a ++ (name, v) :: (name, w) :: b) (a ++ (name, v ++ 44 :: w) :: b) := by
  have hitems : (v ++ 44 :: w).splitOn 44 = v.splitOn 44 ++ w.splitOn 44 := List.splitOn_append_cons_self v w
  refine ⟨fun n _ => ?_, fun n hne => ?_⟩
  · simp only [items, all, List.filter_append, List.filter_cons]
    by_cases hname : (name == n) = true
    · simp [hname, hitems]
    · simp [hname]
  · have hname : (name == n) = false := by
      rw [beq_eq_false_iff_ne]
      rintro rfl
      exact hne hn
    simp [all, List.filter_append, hname]

end SameFields

/-! ## The verdict -/

theorem agree_request {head head' start : Bytes} {hs hs' : Headers} (h : parse head = some (start, hs))
    (h' : parse head' = some (start, hs')) (same : SameFields hs hs') : Agree (request head) (request head') := by
  have hhost : one hs' (ascii "host") = one hs (ascii "host") := same.one_eq (by decide)
  have horigin : all hs (ascii "origin") = all hs' (ascii "origin") := same.others _ (by decide)
  have hcoding : all hs (ascii "transfer-encoding") = all hs' (ascii "transfer-encoding") := same.others _ (by decide)
  have hlength : all hs (ascii "content-length") = all hs' (ascii "content-length") := same.others _ (by decide)
  have hupgrade := same.hasToken_eq (by decide : ascii "upgrade" ∈ LISTS) (ascii "websocket")
  have hconnection := same.hasToken_eq (by decide : ascii "connection" ∈ LISTS) (ascii "upgrade")
  have hversion : one hs' (ascii "sec-websocket-version") = one hs (ascii "sec-websocket-version") :=
    same.one_eq (by decide)
  have hkey : one hs' (ascii "sec-websocket-key") = one hs (ascii "sec-websocket-key") := same.one_eq (by decide)
  have hprotocols := same.tokens_eq (by decide : ascii "sec-websocket-protocol" ∈ LISTS)
  unfold request
  rw [h, h']
  dsimp only
  rw [hhost, ← horigin, ← hcoding, ← hlength, hupgrade, hconnection, hversion, hkey, hprotocols]
  rcases start.splitOn 32 with _ | ⟨method, _ | ⟨target, _ | ⟨version, _ | ⟨more, rest⟩⟩⟩⟩
  · exact .error 400
  · exact .error 400
  · exact .error 400
  · dsimp only
    refine .check (.check (.check (.check (.check (.check (.check (.check ?_)))))))
    cases one hs (ascii "sec-websocket-key") with
    | none => exact .error 400
    | some key =>
      refine .check ?_
      cases tokens hs (ascii "sec-websocket-protocol") with
      | none => exact .error 400
      | some protocols => exact .inr ⟨_, _, rfl, rfl, rfl, rfl, rfl⟩
  · exact .error 400

/-- Heads with the same request line and equivalent headers get the same verdict; in particular lines of
different names may change places and lists may be joined or split. Names are compared in lower
case and values without the blanks around them, since `parse` reads them so. -/
theorem equivalent_heads {head head' start : Bytes} {hs hs' : Headers} (h : parse head = some (start, hs))
    (h' : parse head' = some (start, hs')) (same : SameFields hs hs') :
    Agree (request head) (request head') ∧
    (∀ (a b : Headers) (x y : Bytes × Bytes), x.1 ≠ y.1 → SameFields (a ++ x :: y :: b) (a ++ y :: x :: b)) ∧
    ∀ (a b : Headers) (name v w : Bytes), name ∈ LISTS →
      SameFields (a ++ (name, v) :: (name, w) :: b) (a ++ (name, v ++ 44 :: w) :: b) :=
  ⟨agree_request h h' same, fun a b _ _ hne => .swap a b hne, fun a b _ v w hn => .join a b hn v w⟩

/-- A list in two lines before `Host`, and in one line after it, with other letters and blanks. -/
theorem equivalent_heads_joined : Agree
    (request (ascii "GET / HTTP/1.1\r\nConnection: keep-alive\r\nConnection:Upgrade\r\nHost: a\r\n\r\n"))
    (request (ascii "GET / HTTP/1.1\r\nHOST:a\t\r\nconnection: keep-alive,Upgrade \r\n\r\n")) :=
  (@equivalent_heads _ _ (ascii "GET / HTTP/1.1")
    [(ascii "connection", ascii "keep-alive"), (ascii "connection", ascii "Upgrade"), (ascii "host", ascii "a")]
    [(ascii "host", ascii "a"), (ascii "connection", ascii "keep-alive,Upgrade")]
    (by decide +kernel) (by decide +kernel)
    ((SameFields.join [] [(ascii "host", ascii "a")] (by decide) (ascii "keep-alive") (ascii "Upgrade")).trans
      (.swap [] [] (by decide)))).1

end WebSocket.Proto.Handshake
