import Mathlib.Data.List.DropRight
import Mathlib.Data.List.Infix

/-!
# Cutting texts

The string operations that line formats are read with, over an arbitrary alphabet: the first
place of a separator, all places of a two-symbol separator, trimming at both ends. Each comes
with its reading law: what was joined with a separator that the pieces do not contain is cut into
those pieces again. The search for a pattern can also be resumed when more text comes
(`find_append`).
-/

namespace Lib.Text

universe u

variable {α : Type u} {a x y : α} {l m r : List α}

/-! ## Joining -/

theorem intercalate_cons {sep p : List α} {ps : List (List α)} :
    sep.intercalate (p :: ps) = p ++ ps.flatMap fun q => sep ++ q := by
  induction ps generalizing p with
  | nil => simp
  | cons q ps ih =>
    rw [List.intercalate_cons_cons, ih]
    simp

/-- What holds of the pieces and the separator holds of the text. -/
theorem forall_mem_intercalate {P : α → Prop} {sep : List α} {ps : List (List α)} (hs : ∀ b ∈ sep, P b)
    (hp : ∀ p ∈ ps, ∀ b ∈ p, P b) : ∀ b ∈ sep.intercalate ps, P b := by
  cases ps with
  | nil => exact nofun
  | cons p ps =>
    rw [List.forall_mem_cons] at hp
    rw [intercalate_cons]
    refine List.forall_mem_append.mpr ⟨hp.1, fun b hb => ?_⟩
    obtain ⟨q, hq, hb⟩ := List.mem_flatMap.mp hb
    rcases List.mem_append.mp hb with hb | hb
    · exact hs b hb
    · exact hp.2 q hq b hb

theorem length_le_intercalate {sep p : List α} {ps : List (List α)} (h : p ∈ ps) :
    p.length ≤ (sep.intercalate ps).length := by
  cases ps with
  | nil => cases h
  | cons q ps =>
    rw [intercalate_cons, List.length_append]
    rcases List.mem_cons.mp h with rfl | h
    · exact Nat.le_add_right _ _
    · obtain ⟨s, t, rfl⟩ := List.append_of_mem h
      simp only [List.flatMap_append, List.flatMap_cons, List.length_append]
      omega

section Cutting

variable [DecidableEq α]

/-! ## One separator -/

/-- What stands before and after the first `a`. -/
def splitOnce (a : α) : List α → Option (List α × List α)
  | [] => none
  | b :: l => if b = a then some ([], l) else (splitOnce a l).map fun p => (b :: p.1, p.2)

theorem splitOnce_append (h : a ∉ l) : splitOnce a (l ++ a :: r) = some (l, r) := by
  induction l with
  | nil => simp [splitOnce]
  | cons b l ih =>
    have hb : b ≠ a := fun e => h (e ▸ List.mem_cons_self)
    simp [splitOnce, hb, ih fun hm => h (List.mem_cons_of_mem b hm)]

theorem splitOnce_eq_none (h : a ∉ l) : splitOnce a l = none := by
  induction l with
  | nil => rfl
  | cons b l ih =>
    have hb : b ≠ a := fun e => h (e ▸ List.mem_cons_self)
    simp [splitOnce, hb, ih fun hm => h (List.mem_cons_of_mem b hm)]

theorem splitOnce_eq_some (h : splitOnce a l = some (m, r)) : l = m ++ a :: r ∧ a ∉ m := by
  induction l generalizing m with
  | nil => cases h
  | cons b l ih =>
    rw [splitOnce] at h
    split at h
    · rename_i hb
      cases h
      exact ⟨by simp [hb], List.not_mem_nil⟩
    · rename_i hb
      obtain ⟨⟨m', r'⟩, hp, heq⟩ := Option.map_eq_some_iff.mp h
      cases heq
      obtain ⟨rfl, hm⟩ := ih hp
      exact ⟨rfl, by simp [Ne.symm hb, hm]⟩

/-! ## Lines -/

/-- Lines are read back as they were written, each with `a` behind it. -/
theorem splitOn_lines {ls : List (List α)} (h : ∀ p ∈ ls, a ∉ p) :
    (ls.flatMap fun p => p ++ [a]).splitOn a = ls ++ [[]] := by
  have heq : (ls.flatMap fun p => p ++ [a]) = [a].intercalate (ls ++ [[]]) := by
    induction ls with
    | nil => rfl
    | cons p ls ih =>
      rw [List.flatMap_cons, ih fun q hq => h q (List.mem_cons_of_mem p hq)]
      cases ls <;> simp [List.intercalate_cons_cons]
  rw [heq, List.splitOn_intercalate]
  · exact List.forall_mem_append.mpr ⟨h, List.forall_mem_singleton.mpr List.not_mem_nil⟩
  · simp

/-- The pieces that end with `a`, and what is left. -/
def splitInclusive (a : α) : List α → List (List α)
  | [] => []
  | b :: l =>
    if b = a then [b] :: splitInclusive a l
    else
      match splitInclusive a l with
      | [] => [[b]]
      | p :: ps => (b :: p) :: ps

theorem splitInclusive_append (h : a ∉ l) (r : List α) :
    splitInclusive a (l ++ a :: r) = (l ++ [a]) :: splitInclusive a r := by
  induction l with
  | nil => exact if_pos rfl
  | cons b l ih =>
    rw [List.mem_cons, not_or] at h
    rw [List.cons_append, splitInclusive, if_neg (Ne.symm h.1), ih h.2]
    rfl

theorem splitInclusive_of_not_mem (h : a ∉ l) (hne : l ≠ []) : splitInclusive a l = [l] := by
  induction l with
  | nil => exact absurd rfl hne
  | cons b l ih =>
    rw [List.mem_cons, not_or] at h
    rw [splitInclusive, if_neg (Ne.symm h.1)]
    cases l with
    | nil => rfl
    | cons c l => rw [ih h.2 (List.cons_ne_nil c l)]

def stripSuffix (a : α) (l : List α) : Option (List α) := if l.getLast? = some a then some l.dropLast else none

theorem stripSuffix_concat (a : α) (l : List α) : stripSuffix a (l ++ [a]) = some l := by
  rw [stripSuffix, List.getLast?_concat, if_pos rfl, List.dropLast_concat]

theorem stripSuffix_of_not_mem (h : a ∉ l) : stripSuffix a l = none :=
  if_neg fun last => h (List.mem_of_getLast? last)

/-- The lines of a text: each ends with `lf`, or with `cr` and `lf`, or is the last. -/
def lines (lf cr : α) (l : List α) : List (List α) := (splitInclusive lf l).map line
where
  line (l : List α) : List α :=
    match stripSuffix lf l with
    | none => l
    | some l => (stripSuffix cr l).getD l

theorem lines_append {lf cr : α} (hl : lf ∉ l) (hc : cr ∉ l) (r : List α) :
    lines lf cr (l ++ lf :: r) = l :: lines lf cr r := by
  have first : lines.line lf cr (l ++ [lf]) = l := by
    rw [lines.line, stripSuffix_concat]
    exact congrArg (Option.getD · l) (stripSuffix_of_not_mem hc)
  rw [lines, splitInclusive_append hl, List.map_cons, first, lines]

theorem lines_of_not_mem {lf cr : α} (h : lf ∉ l) (hne : l ≠ []) : lines lf cr l = [l] := by
  have only : lines.line lf cr l = l := by rw [lines.line, stripSuffix_of_not_mem h]
  rw [lines, splitInclusive_of_not_mem h hne, List.map_singleton, only]

/-- Lines that are each ended are read back. -/
theorem lines_flatMap {lf cr : α} {ls : List (List α)} (h : ∀ p ∈ ls, lf ∉ p ∧ cr ∉ p) :
    lines lf cr (ls.flatMap fun p => p ++ [lf]) = ls := by
  induction ls with
  | nil => rfl
  | cons p ls ih =>
    rw [List.forall_mem_cons] at h
    rw [List.flatMap_cons, List.append_assoc, List.singleton_append, lines_append h.1.1 h.1.2, ih h.2]

/-- Lines that are separated are read back, if none is empty. -/
theorem lines_intercalate {lf cr : α} {ls : List (List α)} (h : ∀ p ∈ ls, lf ∉ p ∧ cr ∉ p) (hne : ∀ p ∈ ls, p ≠ []) :
    lines lf cr ([lf].intercalate ls) = ls := by
  induction ls with
  | nil => rfl
  | cons p ls ih =>
    rw [List.forall_mem_cons] at h hne
    cases ls with
    | nil =>
      rw [List.intercalate_singleton]
      exact lines_of_not_mem h.1.1 hne.1
    | cons q ls =>
      rw [List.intercalate_cons_cons, List.append_assoc, List.singleton_append, lines_append h.1.1 h.1.2, ih h.2 hne.2]

/-! ## A separator of two symbols -/

/-- The pieces between the occurrences of `x y`, from the left. -/
def splitPair (x y : α) : List α → List (List α)
  | [] => [[]]
  | [b] => [[b]]
  | b :: c :: l =>
    if b = x ∧ c = y then [] :: splitPair x y l
    else match splitPair x y (c :: l) with
      | [] => [[b]]
      | p :: ps => (b :: p) :: ps

theorem splitPair_cons (h : a ≠ x) (l : List α) :
    splitPair x y (a :: l) = match splitPair x y l with
      | [] => [[a]]
      | p :: ps => (a :: p) :: ps := by
  cases l with
  | nil => rfl
  | cons c l => simp [splitPair, h]

theorem splitPair_of_not_mem (h : x ∉ l) : splitPair x y l = [l] := by
  induction l with
  | nil => rfl
  | cons b l ih =>
    have hb : b ≠ x := fun e => h (e ▸ List.mem_cons_self)
    rw [splitPair_cons hb, ih fun hm => h (List.mem_cons_of_mem b hm)]

theorem splitPair_append (h : x ∉ l) (r : List α) : splitPair x y (l ++ x :: y :: r) = l :: splitPair x y r := by
  induction l with
  | nil => simp [splitPair]
  | cons b l ih =>
    have hb : b ≠ x := fun e => h (e ▸ List.mem_cons_self)
    rw [List.cons_append, splitPair_cons hb, ih fun hm => h (List.mem_cons_of_mem b hm)]

/-- Lines are read back as they were written, each with `x y` before it. -/
theorem splitPair_lines {ls : List (List α)} (hl : x ∉ l) (h : ∀ p ∈ ls, x ∉ p) :
    splitPair x y (l ++ ls.flatMap fun p => x :: y :: p) = l :: ls := by
  induction ls generalizing l with
  | nil => simpa using splitPair_of_not_mem hl
  | cons p ls ih =>
    rw [List.forall_mem_cons] at h
    rw [List.flatMap_cons, List.cons_append, List.cons_append, splitPair_append hl, ih h.1 h.2]

theorem splitPair_ne_nil (l : List α) : splitPair x y l ≠ [] := by
  fun_induction splitPair x y l with
  | case1 => simp
  | case2 b => simp
  | case3 => simp
  | case4 => simp
  | case5 => simp

/-- The pieces joined again. -/
theorem eq_of_splitPair {p : List α} {ps : List (List α)} (h : splitPair x y l = p :: ps) :
    l = p ++ ps.flatMap fun q => x :: y :: q := by
  fun_induction splitPair x y l generalizing p ps with
  | case1 => cases h; rfl
  | case2 b => cases h; rfl
  | case3 b c l hbc ih =>
    cases h
    obtain ⟨rfl, rfl⟩ := hbc
    cases hs : splitPair b c l with
    | nil => exact absurd hs (splitPair_ne_nil l)
    | cons q qs => simp [ih hs]
  | case4 b c l hbc hs ih => exact absurd hs (splitPair_ne_nil (c :: l))
  | case5 b c l hbc q qs hs ih =>
    cases h
    rw [ih hs]
    rfl

/-! ## The first occurrence -/

/-- Where `pat` first starts. -/
def find (pat : List α) : List α → Option Nat
  | [] => if pat = [] then some 0 else none
  | a :: l => if pat <+: a :: l then some 0 else (find pat l).map (· + 1)

section

variable {pat : List α}

theorem find_eq_none_iff (hne : pat ≠ []) : find pat l = none ↔ ∀ n, ¬ pat <+: l.drop n := by
  induction l with
  | nil => simp [find, hne]
  | cons b l ih =>
    rw [find]
    split
    · rename_i h
      exact ⟨fun h' => (by cases h'), fun h' => absurd h (h' 0)⟩
    · rename_i h
      rw [Option.map_eq_none_iff, ih]
      refine ⟨fun h' n => ?_, fun h' n => h' (n + 1)⟩
      cases n with
      | zero => exact h
      | succ n => exact h' n

theorem find_eq_some_iff (hne : pat ≠ []) {n : Nat} :
    find pat l = some n ↔ pat <+: l.drop n ∧ ∀ k < n, ¬ pat <+: l.drop k := by
  induction l generalizing n with
  | nil => simp [find, hne]
  | cons b l ih =>
    rw [find]
    split
    · rename_i h
      rw [Option.some.injEq]
      refine ⟨fun h' => ?_, fun h' => ?_⟩
      · subst h'
        exact ⟨h, fun k hk => absurd hk (Nat.not_lt_zero k)⟩
      · exact (Nat.eq_zero_of_not_pos fun hn => h'.2 0 hn h).symm
    · rename_i h
      rw [Option.map_eq_some_iff]
      cases n with
      | zero => exact ⟨fun h' => (by obtain ⟨_, _, h'⟩ := h'; omega), fun h' => absurd h'.1 h⟩
      | succ n =>
        constructor
        · rintro ⟨k, hk, he⟩
          cases he
          obtain ⟨h1, h2⟩ := ih.mp hk
          refine ⟨h1, fun k hk => ?_⟩
          cases k with
          | zero => exact h
          | succ k => exact h2 k (by omega)
        · rintro ⟨h1, h2⟩
          exact ⟨n, ih.mpr ⟨h1, fun k hk => h2 (k + 1) (by omega)⟩, rfl⟩

/-- Where no occurrence starts, the search may begin. -/
theorem find_skip (hne : pat ≠ []) {k : Nat} (h : ∀ n < k, ¬ pat <+: l.drop n) :
    find pat l = (find pat (l.drop k)).map (· + k) := by
  cases hf : find pat (l.drop k) with
  | none =>
    rw [find_eq_none_iff hne] at hf
    refine (find_eq_none_iff hne).mpr fun n => ?_
    by_cases hn : n < k
    · exact h n hn
    · have := hf (n - k)
      rwa [List.drop_drop, show k + (n - k) = n by omega] at this
  | some n =>
    obtain ⟨h1, h2⟩ := (find_eq_some_iff hne).mp hf
    rw [List.drop_drop, Nat.add_comm] at h1
    refine (find_eq_some_iff hne).mpr ⟨h1, fun j hj => ?_⟩
    by_cases hk : j < k
    · exact h j hk
    · have := h2 (j - k) (by dsimp only at hj; omega)
      rwa [List.drop_drop, show k + (j - k) = j by omega] at this

omit [DecidableEq α] in
/-- An occurrence that ends in the first part is one of the first part. -/
theorem prefix_drop_append_iff {k : Nat} (hk : k + pat.length ≤ l.length) :
    pat <+: (l ++ r).drop k ↔ pat <+: l.drop k := by
  rw [List.drop_append_of_le_length (by omega)]
  refine ⟨fun h => ?_, fun h => h.trans (List.prefix_append _ _)⟩
  exact List.prefix_of_prefix_length_le h (List.prefix_append _ _) (by rw [List.length_drop]; omega)

theorem find_le (hne : pat ≠ []) {n : Nat} (h : find pat l = some n) : n + pat.length ≤ l.length := by
  have hp := ((find_eq_some_iff hne).mp h).1.length_le
  have hpos := List.length_pos_iff.mpr hne
  rw [List.length_drop] at hp
  omega

/-- What comes later does not move the first occurrence. -/
theorem find_append_of_some (hne : pat ≠ []) {n : Nat} (h : find pat l = some n) (r : List α) :
    find pat (l ++ r) = some n := by
  have hle := find_le hne h
  obtain ⟨h1, h2⟩ := (find_eq_some_iff hne).mp h
  refine (find_eq_some_iff hne).mpr ⟨(prefix_drop_append_iff hle).mpr h1, fun k hk hp => ?_⟩
  exact h2 k hk ((prefix_drop_append_iff (by omega)).mp hp)

/-- A search that found nothing goes on a little before its end when more comes. -/
theorem find_append (hne : pat ≠ []) (h : find pat l = none) (r : List α) :
    find pat (l ++ r) =
      (find pat ((l ++ r).drop (l.length - (pat.length - 1)))).map (· + (l.length - (pat.length - 1))) := by
  refine find_skip hne fun n hn hp => ?_
  have hpos := List.length_pos_iff.mpr hne
  exact (find_eq_none_iff hne).mp h n ((prefix_drop_append_iff (by omega)).mp hp)

/-- What is found only with more text ends in it. -/
theorem lt_of_find_append (hne : pat ≠ []) (h : find pat l = none) {n : Nat} (hn : find pat (l ++ r) = some n) :
    l.length < n + pat.length := by
  refine Nat.lt_of_not_le fun hle => ?_
  exact (find_eq_none_iff hne).mp h n ((prefix_drop_append_iff hle).mp ((find_eq_some_iff hne).mp hn).1)

end

theorem find_cons_of_ne {pat : List α} (h : x ≠ a) : find (x :: pat) (a :: l) = (find (x :: pat) l).map (· + 1) := by
  simp [find, h]

theorem find_append_of_not_mem {pat : List α} (h : x ∉ l) (r : List α) :
    find (x :: pat) (l ++ r) = (find (x :: pat) r).map (· + l.length) := by
  induction l with
  | nil => simp
  | cons b l ih =>
    have hb : x ≠ b := fun e => h (e ▸ List.mem_cons_self)
    rw [List.cons_append, find_cons_of_ne hb, ih fun hm => h (List.mem_cons_of_mem b hm), Option.map_map]
    rfl

/-- The first blank line of a text of lines that are not blank is the one at its end. -/
theorem find_blank {ls : List (List α)} (hxy : x ≠ y) (hl : x ∉ l) (h : ∀ p ∈ ls, x ∉ p ∧ p ≠ []) :
    find [x, y, x, y] (l ++ (ls.flatMap fun p => x :: y :: p) ++ [x, y, x, y])
      = some (l ++ ls.flatMap fun p => x :: y :: p).length := by
  induction ls generalizing l with
  | nil =>
    rw [List.flatMap_nil, List.append_nil, find_append_of_not_mem hl]
    simp [find]
  | cons p ls ih =>
    rw [List.forall_mem_cons] at h
    obtain ⟨⟨hp, hne⟩, hls⟩ := h
    obtain ⟨b, p, rfl⟩ := List.exists_cons_of_ne_nil hne
    have hb : x ≠ b := fun e => hp (e ▸ List.mem_cons_self)
    have hrest := ih hp hls
    rw [List.flatMap_cons, List.append_assoc, find_append_of_not_mem hl, List.cons_append, List.cons_append,
      List.cons_append, List.cons_append, find, if_neg (by simp [hb]), find_cons_of_ne hxy, hrest]
    simp only [Option.map_some, List.length_append, List.length_cons]
    congr 1
    omega

end Cutting

/-! ## Trimming -/

/-- Without the leading and trailing symbols that satisfy `p`. -/
def trim (p : α → Bool) (l : List α) : List α := (l.dropWhile p).rdropWhile p

variable {p : α → Bool}

theorem trim_cons (h : p a = true) : trim p (a :: l) = trim p l := by
  simp [trim, h]

/-- A text with no such symbol at either end is trimmed already. -/
theorem trim_eq_self_of_ends (hh : ∀ b ∈ l.head?, p b = false) (hl : ∀ b ∈ l.getLast?, p b = false) :
    trim p l = l := by
  have hd : l.dropWhile p = l := by
    cases l with
    | nil => rfl
    | cons b l => simp [hh b rfl]
  rw [trim, hd, List.rdropWhile_eq_self_iff]
  intro hne
  simp [hl _ (List.getLast?_eq_some_getLast hne)]

theorem trim_eq_self (h : ∀ b ∈ l, p b = false) : trim p l = l :=
  trim_eq_self_of_ends (fun b hb => h b (List.mem_of_mem_head? hb)) fun b hb => h b (List.mem_of_mem_getLast? hb)

/-- What is trimmed off stands around the rest. -/
theorem trim_split (p : α → Bool) (l : List α) :
    ∃ b e, l = b ++ trim p l ++ e ∧ (∀ c ∈ b, p c = true) ∧ ∀ c ∈ e, p c = true := by
  refine ⟨l.takeWhile p, (l.dropWhile p).rtakeWhile p, ?_, fun c hc => List.mem_takeWhile_imp hc,
    fun c hc => List.mem_rtakeWhile_imp hc⟩
  rw [trim, List.append_assoc, List.rdropWhile_append_rtakeWhile, List.takeWhile_append_dropWhile]

/-- A text with no symbol to be trimmed at either end. -/
structure Trimmed (p : α → Bool) (l : List α) : Prop where
  head : ∀ b ∈ l.head?, p b = false
  last : ∀ b ∈ l.getLast?, p b = false

theorem trimmed_trim (p : α → Bool) (l : List α) : Trimmed p (trim p l) := by
  refine ⟨fun b hb => ?_, fun b hb => ?_⟩
  · -- the first symbol of a beginning is that of the whole
    obtain ⟨t, ht⟩ := List.rdropWhile_prefix p (l.dropWhile p)
    have hd : b ∈ (l.dropWhile p).head? := by
      rw [← ht, List.head?_append, Option.mem_def, show (l.dropWhile p).rdropWhile p = trim p l from rfl,
        Option.mem_def.mp hb, Option.some_or]
    have := List.head?_dropWhile_not p l
    rw [Option.mem_def.mp hd] at this
    exact this
  · have hne : trim p l ≠ [] := fun h => by rw [h] at hb; cases hb
    have hlast := List.rdropWhile_last_not p (l.dropWhile p) hne
    rw [Option.mem_def, List.getLast?_eq_some_getLast hne] at hb
    cases hb
    exact Bool.eq_false_iff.mpr hlast

/-- What stands around a trimmed text is trimmed off. -/
theorem trim_append {v b e : List α} (hb : ∀ c ∈ b, p c = true) (he : ∀ c ∈ e, p c = true) (hv : Trimmed p v) :
    trim p (b ++ v ++ e) = v := by
  rw [trim, List.append_assoc, List.dropWhile_append_of_pos hb]
  cases v with
  | nil => rw [List.nil_append, List.dropWhile_eq_nil_iff.mpr he]; rfl
  | cons c v =>
    rw [List.cons_append, List.dropWhile_cons_of_neg (by simp [hv.head c rfl]), ← List.cons_append, List.rdropWhile,
      List.reverse_append, List.dropWhile_append_of_pos (fun c hc => he c (List.mem_reverse.mp hc))]
    exact List.rdropWhile_eq_self_iff.mpr fun hne => by simp [hv.last _ (List.getLast?_eq_some_getLast hne)]

/-- A trimmed text that is not empty shows where it starts. -/
theorem takeWhile_append_trimmed {v b : List α} (hb : ∀ c ∈ b, p c = true) (hv : Trimmed p v) (hne : v ≠ [])
    (e : List α) : (b ++ v ++ e).takeWhile p = b := by
  obtain ⟨c, v, rfl⟩ := List.exists_cons_of_ne_nil hne
  rw [List.append_assoc, List.takeWhile_append_of_pos hb, List.cons_append,
    List.takeWhile_cons_of_neg (by simp [hv.head c rfl]), List.append_nil]

theorem mem_of_mem_trim (h : a ∈ trim p l) : a ∈ l :=
  (List.dropWhile_suffix p).subset ((List.rdropWhile_prefix p _).subset h)

end Lib.Text
