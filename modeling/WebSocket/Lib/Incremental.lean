import Mathlib.Data.List.Basic

/-!
# Incremental decoders

A decoder looks at the front of its unread input and says one of three things:
it needs more, the input is bad, or it consumed some of it, perhaps completing an
output (`Verdict`). Input arrives in pieces, so the one law that matters is that a
decision, once taken, does not change when more input arrives behind it
(`Decoder.fail_append`, `Decoder.item_append`).

From that law alone, the outputs depend on the concatenation of the pieces and on
nothing else: `drain_append` splits a drain at any cut, and `poll` — one output at
a time, the way a caller usually asks — takes the same outputs off the front
(`drain_poll`).
-/

namespace Lib.Incremental

/-- The front of the unread input: too short to say, bad, or consumed up to `rest`. -/
inductive Verdict (σ α μ ε : Type) where
  | more
  | fail (e : ε)
  | item (out : Option μ) (next : σ) (rest : List α)

/-- A decoder whose decisions are stable under more input. -/
structure Decoder (σ α μ ε : Type) where
  next : σ → List α → Verdict σ α μ ε
  shrinks : ∀ {s b out s' rest}, next s b = .item out s' rest → rest.length < b.length
  fail_append : ∀ {s b e}, next s b = .fail e → ∀ c, next s (b ++ c) = .fail e
  item_append : ∀ {s b out s' rest}, next s b = .item out s' rest →
    ∀ c, next s (b ++ c) = .item out s' (rest ++ c)

namespace Decoder

variable {σ α μ ε : Type} (d : Decoder σ α μ ε)

/-- The outputs of everything complete, then the failure or the state and the input left over. -/
abbrev Outcome (σ α μ ε : Type) := List μ × Except ε (σ × List α)

/-- An output in front of an outcome. -/
def emit (out : Option μ) (o : Outcome σ α μ ε) : Outcome σ α μ ε := (out.toList ++ o.1, o.2)

def drainWith : Nat → σ → List α → Outcome σ α μ ε
  | 0, s, b => ([], .ok (s, b))
  | fuel + 1, s, b =>
    match d.next s b with
    | .more => ([], .ok (s, b))
    | .fail e => ([], .error e)
    | .item out s' rest => emit out (drainWith fuel s' rest)

/-- Decode until the input is incomplete or bad. -/
def drain (s : σ) (b : List α) : Outcome σ α μ ε := d.drainWith (b.length + 1) s b

/-- One output at a time: the next output, or what stopped the search. -/
inductive Poll (σ α μ ε : Type) where
  | fail (e : ε)
  | idle (s : σ) (b : List α)
  | out (m : μ) (s : σ) (b : List α)

def pollWith : Nat → σ → List α → Poll σ α μ ε
  | 0, s, b => .idle s b
  | fuel + 1, s, b =>
    match d.next s b with
    | .more => .idle s b
    | .fail e => .fail e
    | .item (some m) s' rest => .out m s' rest
    | .item none s' rest => pollWith fuel s' rest

/-- Decode until one output is complete, the input is incomplete, or it is bad. -/
def poll (s : σ) (b : List α) : Poll σ α μ ε := d.pollWith (b.length + 1) s b

/-! ## The fuel is enough -/

theorem drainWith_eq : ∀ {n m : Nat} (s : σ) (b : List α), b.length < n → b.length < m →
    d.drainWith n s b = d.drainWith m s b
  | 0, _, _, _, h, _ => absurd h (by omega)
  | _, 0, _, _, _, h => absurd h (by omega)
  | n + 1, m + 1, s, b, hn, hm => by
    rw [drainWith, drainWith]
    cases h : d.next s b with
    | more => rfl
    | fail e => rfl
    | item out s' rest =>
      have hlt := d.shrinks h
      exact congrArg (emit out) (drainWith_eq s' rest (by omega) (by omega))

theorem drain_more {s : σ} {b : List α} (h : d.next s b = .more) : d.drain s b = ([], .ok (s, b)) := by
  rw [drain, drainWith, h]

theorem drain_fail {s : σ} {b : List α} {e : ε} (h : d.next s b = .fail e) :
    d.drain s b = ([], .error e) := by
  rw [drain, drainWith, h]

theorem drain_item {s s' : σ} {b rest : List α} {out : Option μ} (h : d.next s b = .item out s' rest) :
    d.drain s b = emit out (d.drain s' rest) := by
  have hlt := d.shrinks h
  rw [drain, drainWith, h]
  exact congrArg (emit out) (d.drainWith_eq s' rest (by omega) (by omega))

theorem pollWith_eq : ∀ {n m : Nat} (s : σ) (b : List α), b.length < n → b.length < m →
    d.pollWith n s b = d.pollWith m s b
  | 0, _, _, _, h, _ => absurd h (by omega)
  | _, 0, _, _, _, h => absurd h (by omega)
  | n + 1, m + 1, s, b, hn, hm => by
    rw [pollWith, pollWith]
    cases h : d.next s b with
    | more => rfl
    | fail e => rfl
    | item out s' rest =>
      cases out with
      | some m => rfl
      | none =>
        have hlt := d.shrinks h
        exact pollWith_eq s' rest (by omega) (by omega)

theorem poll_more {s : σ} {b : List α} (h : d.next s b = .more) : d.poll s b = .idle s b := by
  rw [poll, pollWith, h]

theorem poll_fail {s : σ} {b : List α} {e : ε} (h : d.next s b = .fail e) : d.poll s b = .fail e := by
  rw [poll, pollWith, h]

theorem poll_some {s s' : σ} {b rest : List α} {m : μ} (h : d.next s b = .item (some m) s' rest) :
    d.poll s b = .out m s' rest := by
  rw [poll, pollWith, h]

theorem poll_none {s s' : σ} {b rest : List α} (h : d.next s b = .item none s' rest) :
    d.poll s b = d.poll s' rest := by
  have hlt := d.shrinks h
  rw [poll, pollWith, h]
  exact d.pollWith_eq s' rest (by omega) (by omega)

/-! ## Induction along a drain -/

/-- Induction on the input left: what holds of a stop, and of a consumed item once it holds of
the rest, holds of every state and input. -/
theorem induct {motive : σ → List α → Prop}
    (more : ∀ s b, d.next s b = .more → motive s b)
    (fail : ∀ s b e, d.next s b = .fail e → motive s b)
    (item : ∀ s b out s' rest, d.next s b = .item out s' rest → motive s' rest → motive s b)
    (s : σ) (b : List α) : motive s b := by
  induction hn : b.length using Nat.strongRecOn generalizing s b with
  | ind n ih =>
    cases h : d.next s b with
    | more => exact more s b h
    | fail e => exact fail s b e h
    | item out s' rest =>
      exact item s b out s' rest h (ih rest.length (hn ▸ d.shrinks h) s' rest rfl)

/-! ## Cuts do not matter -/

/-- Continue an outcome with more input. -/
def extend (o : Outcome σ α μ ε) (c : List α) : Outcome σ α μ ε :=
  match o.2 with
  | .error e => (o.1, .error e)
  | .ok (s, rest) => (o.1 ++ (d.drain s (rest ++ c)).1, (d.drain s (rest ++ c)).2)

theorem extend_emit (out : Option μ) (o : Outcome σ α μ ε) (c : List α) :
    d.extend (emit out o) c = emit out (d.extend o c) := by
  obtain ⟨ms, res⟩ := o
  cases res <;> simp [extend, emit]

/-- **A drain splits at any cut**: what the first piece completes comes first, and the drain goes
on from what it left. -/
theorem drain_append (s : σ) (b c : List α) : d.drain s (b ++ c) = d.extend (d.drain s b) c := by
  induction s, b using d.induct with
  | more s b h => simp [d.drain_more h, extend]
  | fail s b e h => rw [d.drain_fail h, d.drain_fail (d.fail_append h c)]; rfl
  | item s b out s' rest h ih =>
    rw [d.drain_item h, d.drain_item (d.item_append h c), ih, extend_emit]

/-- What a drain leaves over is incomplete. -/
theorem drain_left {s s' : σ} {b rest : List α} (h : (d.drain s b).2 = .ok (s', rest)) :
    d.next s' rest = .more := by
  induction s, b using d.induct with
  | more s b hm =>
    rw [d.drain_more hm] at h
    cases h
    exact hm
  | fail s b e hf => rw [d.drain_fail hf] at h; cases h
  | item s b out s'' rest' hi ih =>
    rw [d.drain_item hi] at h
    exact ih h

/-- **Polling takes the drain's outputs off the front.** -/
theorem drain_poll (s : σ) (b : List α) :
    d.drain s b = match d.poll s b with
      | .fail e => ([], .error e)
      | .idle s' b' => ([], .ok (s', b'))
      | .out m s' b' => (m :: (d.drain s' b').1, (d.drain s' b').2) := by
  induction s, b using d.induct with
  | more s b h => rw [d.drain_more h, d.poll_more h]
  | fail s b e h => rw [d.drain_fail h, d.poll_fail h]
  | item s b out s' rest h ih =>
    rw [d.drain_item h]
    cases out with
    | none =>
      rw [d.poll_none h, ← ih]
      rfl
    | some m =>
      rw [d.poll_some h]
      rfl

/-- An output consumes input. -/
theorem poll_out_shrinks {s s' : σ} {b b' : List α} {m : μ} (h : d.poll s b = .out m s' b') :
    b'.length < b.length := by
  induction s, b using d.induct with
  | more s b hm => rw [d.poll_more hm] at h; cases h
  | fail s b e hf => rw [d.poll_fail hf] at h; cases h
  | item s b out s'' rest hi ih =>
    have hlt := d.shrinks hi
    cases out with
    | none =>
      rw [d.poll_none hi] at h
      exact Nat.lt_trans (ih h) hlt
    | some m' =>
      rw [d.poll_some hi] at h
      cases h
      exact hlt

/-- A poll without an output adds nothing. -/
theorem poll_idle_le {s s' : σ} {b b' : List α} (h : d.poll s b = .idle s' b') : b'.length ≤ b.length := by
  induction s, b using d.induct with
  | more s b hm =>
    rw [d.poll_more hm] at h
    cases h
    exact Nat.le_refl _
  | fail s b e hf => rw [d.poll_fail hf] at h; cases h
  | item s b out s'' rest hi ih =>
    cases out with
    | none =>
      rw [d.poll_none hi] at h
      exact Nat.le_trans (ih h) (Nat.le_of_lt (d.shrinks hi))
    | some m' => rw [d.poll_some hi] at h; cases h

/-- An idle poll leaves an incomplete front. -/
theorem poll_idle {s s' : σ} {b b' : List α} (h : d.poll s b = .idle s' b') : d.next s' b' = .more := by
  refine d.drain_left (s := s) (b := b) ?_
  rw [drain_poll, h]

/-- An output comes from one item, a failure from one verdict. -/
theorem exists_next_of_poll_out {s s' : σ} {b b' : List α} {m : μ} (h : d.poll s b = .out m s' b') :
    ∃ t c, d.next t c = .item (some m) s' b' := by
  induction s, b using d.induct with
  | more s b hm => rw [d.poll_more hm] at h; cases h
  | fail s b e hf => rw [d.poll_fail hf] at h; cases h
  | item s b out s'' rest hi ih =>
    cases out with
    | none =>
      rw [d.poll_none hi] at h
      exact ih h
    | some m' =>
      rw [d.poll_some hi] at h
      cases h
      exact ⟨s, b, hi⟩

theorem exists_next_of_poll_fail {s : σ} {b : List α} {e : ε} (h : d.poll s b = .fail e) :
    ∃ t c, d.next t c = .fail e := by
  induction s, b using d.induct with
  | more s b hm => rw [d.poll_more hm] at h; cases h
  | fail s b e' hf =>
    rw [d.poll_fail hf] at h
    cases h
    exact ⟨s, b, hf⟩
  | item s b out s'' rest hi ih =>
    cases out with
    | none =>
      rw [d.poll_none hi] at h
      exact ih h
    | some m' => rw [d.poll_some hi] at h; cases h

/-- The three ends of a poll, with more input to come. -/
theorem drain_of_idle {s s' : σ} {b b' : List α} (h : d.poll s b = .idle s' b') (c : List α) :
    d.drain s (b ++ c) = d.drain s' (b' ++ c) := by
  rw [d.drain_append s b c, drain_poll, h]
  simp [extend]

theorem drain_of_out {s s' : σ} {b b' : List α} {m : μ} (h : d.poll s b = .out m s' b') (c : List α) :
    d.drain s (b ++ c) = (m :: (d.drain s' (b' ++ c)).1, (d.drain s' (b' ++ c)).2) := by
  rw [d.drain_append s b c, drain_poll, h, d.drain_append s' b' c]
  exact d.extend_emit (some m) (d.drain s' b') c

theorem drain_of_fail {s : σ} {b : List α} {e : ε} (h : d.poll s b = .fail e) (c : List α) :
    d.drain s (b ++ c) = ([], .error e) := by
  rw [d.drain_append s b c, drain_poll, h]
  rfl

/-! ## Streams of encoded items -/

/-- A strict beginning of an item is incomplete. -/
theorem next_beginning {s s' : σ} {b c : List α} {out : Option μ} (h : d.next s (b ++ c) = .item out s' [])
    (hc : c ≠ []) : d.next s b = .more := by
  cases hb : d.next s b with
  | more => rfl
  | fail e =>
    rw [d.fail_append hb c] at h
    cases h
  | item out' t rest =>
    rw [d.item_append hb c] at h
    injection h with _ _ hrest
    exact absurd (List.append_eq_nil_iff.mp hrest).2 hc

section Streams

variable {ω : Type} (enc : ω → List α)

/-- The items of a stream that end within its first `n` symbols. -/
def complete : Nat → List ω → List ω
  | _, [] => []
  | n, w :: ws => if (enc w).length ≤ n then w :: complete (n - (enc w).length) ws else []

theorem complete_all (ws : List ω) : complete enc (ws.flatMap enc).length ws = ws := by
  induction ws with
  | nil => rfl
  | cons w ws ih =>
    rw [List.flatMap_cons, List.length_append, complete, if_pos (Nat.le_add_right ..), Nat.add_sub_cancel_left, ih]

variable {enc} {msg : ω → μ} {s : σ}

/-- **A beginning of a stream gives the messages of its complete items.** -/
theorem drain_take : ∀ (ws : List ω) (n : Nat),
    (∀ w ∈ ws, ∀ rest, d.next s (enc w ++ rest) = .item (some (msg w)) s rest) → d.next s [] = .more →
    ∃ rest, d.drain s ((ws.flatMap enc).take n) = ((complete enc n ws).map msg, .ok (s, rest))
  | [], n, _, empty => ⟨[], by simpa [complete] using d.drain_more empty⟩
  | w :: ws, n, h, empty => by
    rw [List.forall_mem_cons] at h
    rw [List.flatMap_cons, complete]
    by_cases hn : (enc w).length ≤ n
    · obtain ⟨rest, ih⟩ := drain_take ws (n - (enc w).length) h.2 empty
      refine ⟨rest, ?_⟩
      rw [if_pos hn, List.take_append, List.take_of_length_le hn, d.drain_item (h.1 _), ih]
      rfl
    · -- the cut falls inside the first item
      refine ⟨(enc w).take n, ?_⟩
      have hitem := h.1 []
      rw [List.append_nil, ← List.take_append_drop n (enc w)] at hitem
      have hmore := d.next_beginning hitem (by rw [ne_eq, List.drop_eq_nil_iff]; exact hn)
      rw [if_neg hn, List.take_append_of_le_length (by omega), d.drain_more hmore]
      rfl

end Streams

end Decoder

end Lib.Incremental
