import WebSocket.Proto.Http

/-!
# IPv6 addresses

`Ipv6Addr::from_str` of the standard library, which both `url.rs` and the server's check of the
`Host` header call: a parser over bytes whose readers take a piece off the front or leave the
input alone. Three facts about it carry the handshake: it does not see the case of letters, an
address holds hexadecimal digits, colons and dots only, and it holds a colon.
-/

namespace WebSocket.Proto.Ipv6

open Http

/-- The value of a digit or letter; anything else is past every radix. -/
def digitValue (n : Nat) : Nat :=
  if 48 ≤ n ∧ n ≤ 57 then n - 48
  else if 97 ≤ n ∧ n ≤ 122 then n - 87
  else if 65 ≤ n ∧ n ≤ 90 then n - 55
  else 36

/-- `char::to_digit`. -/
def toDigit (radix : Nat) (b : UInt8) : Option Nat :=
  if digitValue b.toNat < radix then some (digitValue b.toNat) else none

/-- The loop of `read_number`: the value and the number of the digits, and what follows. -/
def readDigits (radix maxDigits result count : Nat) : Bytes → Option ((Nat × Nat) × Bytes)
  | [] => some ((result, count), [])
  | b :: l =>
    match toDigit radix b with
    | none => some ((result, count), b :: l)
    | some d =>
      if maxDigits < count + 1 then none
      else readDigits radix maxDigits (result * radix + d) (count + 1) l

/-- `read_number` into an integer type below `bound`. -/
def readNumber (radix maxDigits : Nat) (allowZeroPrefix : Bool) (bound : Nat) (l : Bytes) :
    Option (Nat × Bytes) :=
  match readDigits radix maxDigits 0 0 l with
  | none => none
  | some ((result, count), rest) =>
    if count = 0 then none
    else if allowZeroPrefix = false ∧ l.head? = some 48 ∧ 1 < count then none
    else if result < bound then some (result, rest)
    else none

/-- `read_separator`: a separator before every item but the first. -/
def readSeparator {α : Type} (sep : UInt8) (index : Nat) (inner : Bytes → Option (α × Bytes)) (l : Bytes) :
    Option (α × Bytes) :=
  if 0 < index then
    match l with
    | b :: l => if b = sep then inner l else none
    | [] => none
  else inner l

def readOctet (index : Nat) : Bytes → Option (Nat × Bytes) :=
  readSeparator 46 index (readNumber 10 3 false (2 ^ 8))

/-- `read_ipv4_addr`, as the two groups it stands for. -/
def readIpv4Addr (l : Bytes) : Option ((Nat × Nat) × Bytes) := do
  let (a, l) ← readOctet 0 l
  let (b, l) ← readOctet 1 l
  let (c, l) ← readOctet 2 l
  let (d, l) ← readOctet 3 l
  some ((a * 2 ^ 8 + b, c * 2 ^ 8 + d), l)

/-- `read_groups` from group `i` on with `left` groups still to fill: the groups read, whether
they end in an IPv4 address, and what follows. -/
def readGroups (i : Nat) : (left : Nat) → Bytes → (List Nat × Bool) × Bytes
  | 0, l => (([], false), l)
  | left + 1, l =>
    match if 0 < left then readSeparator 58 i readIpv4Addr l else none with
    | some ((g, h), rest) => (([g, h], true), rest)
    | none =>
      match readSeparator 58 i (readNumber 16 4 true (2 ^ 16)) l with
      | none => (([], false), l)
      | some (g, rest) =>
        let ((groups, ipv4), rest) := readGroups (i + 1) left rest
        ((g :: groups, ipv4), rest)

/-- `read_ipv6_addr`: eight groups, or two runs of groups around `::`. -/
def readIpv6Addr (l : Bytes) : Option (List Nat × Bytes) :=
  let ((head, ipv4), l) := readGroups 0 8 l
  if head.length = 8 then some (head, l)
  else if ipv4 then none
  else match l with
    | 58 :: 58 :: l =>
      let ((tail, _), l) := readGroups 0 (8 - (head.length + 1)) l
      some (head ++ List.replicate (8 - head.length - tail.length) 0 ++ tail, l)
    | _ => none

/-- `str::parse::<Ipv6Addr>`. -/
def parse (l : Bytes) : Option (List Nat) :=
  match readIpv6Addr l with
  | some (addr, []) => some addr
  | _ => none

/-! ## Letters and case -/

theorem toNat_lowercase (b : UInt8) :
    (toAsciiLowercase b).toNat = if 65 ≤ b.toNat ∧ b.toNat ≤ 90 then b.toNat + 32 else b.toNat := by
  unfold toAsciiLowercase
  simp only [Bool.and_eq_true, decide_eq_true_eq, UInt8.le_iff_toNat_le]
  split
  · rename_i h
    obtain ⟨h1, h2⟩ := h
    have h2' : b.toNat ≤ 90 := h2
    rw [if_pos ⟨h1, h2⟩, UInt8.toNat_add]
    exact Nat.mod_eq_of_lt (by show b.toNat + 32 < 256; omega)
  · rename_i h
    exact (if_neg h).symm

theorem lowercase_eq_iff {b c : UInt8} (hc : c.toNat < 65) : toAsciiLowercase b = c ↔ b = c := by
  rw [← UInt8.toNat_inj, ← UInt8.toNat_inj, toNat_lowercase]
  split <;> omega

theorem toDigit_lowercase (radix : Nat) (b : UInt8) : toDigit radix (toAsciiLowercase b) = toDigit radix b := by
  have h : digitValue (toAsciiLowercase b).toNat = digitValue b.toNat := by
    rw [toNat_lowercase]
    split
    · rename_i hb
      have h1 : ¬ (48 ≤ b.toNat + 32 ∧ b.toNat + 32 ≤ 57) := by omega
      have h2 : 97 ≤ b.toNat + 32 ∧ b.toNat + 32 ≤ 122 := by omega
      have h3 : ¬ (48 ≤ b.toNat ∧ b.toNat ≤ 57) := by omega
      have h4 : ¬ (97 ≤ b.toNat ∧ b.toNat ≤ 122) := by omega
      rw [digitValue, digitValue, if_neg h1, if_pos h2, if_neg h3, if_neg h4, if_pos hb]
      omega
    · rfl
  rw [toDigit, toDigit, h]

/-- The bytes of an address. -/
def addrByte (b : UInt8) : Bool := (toDigit 16 b).isSome || b == 58 || b == 46

/-- A reader that takes address bytes off the front, in either case alike. -/
structure Reads {α : Type} (f : Bytes → Option (α × Bytes)) : Prop where
  lower : ∀ l, f (lowercase l) = (f l).map fun p => (p.1, lowercase p.2)
  used : ∀ l v r, f l = some (v, r) → ∃ u, l = u ++ r ∧ ∀ b ∈ u, addrByte b = true

theorem Reads.bind {α β : Type} {f : Bytes → Option (α × Bytes)} {g : α → Bytes → Option (β × Bytes)}
    (hf : Reads f) (hg : ∀ a, Reads (g a)) : Reads fun l => (f l).bind fun p => g p.1 p.2 where
  lower l := by
    rw [hf.lower]
    cases f l with
    | none => rfl
    | some p => exact (hg p.1).lower p.2
  used l v r h := by
    obtain ⟨⟨a, m⟩, hm, hv⟩ := Option.bind_eq_some_iff.mp h
    obtain ⟨u, rfl, hu⟩ := hf.used l a m hm
    obtain ⟨w, rfl, hw⟩ := (hg a).used m v r hv
    exact ⟨u ++ w, by simp, List.forall_mem_append.mpr ⟨hu, hw⟩⟩

theorem Reads.pure {α : Type} (a : α) : Reads fun l => some (a, l) where
  lower l := rfl
  used l v r h := by
    cases h
    exact ⟨[], rfl, nofun⟩

theorem Reads.separator {α : Type} {f : Bytes → Option (α × Bytes)} {sep : UInt8} (hf : Reads f)
    (hs : addrByte sep = true) (hl : sep.toNat < 65) (i : Nat) : Reads (readSeparator sep i f) where
  lower l := by
    unfold readSeparator
    split
    · cases l with
      | nil => rfl
      | cons b l =>
        show (if toAsciiLowercase b = sep then f (lowercase l) else none) = _
        simp only [lowercase_eq_iff hl]
        split
        · exact hf.lower l
        · rfl
    · exact hf.lower l
  used l v r h := by
    unfold readSeparator at h
    split at h
    · split at h
      · split at h
        · rename_i b l hb
          obtain ⟨u, rfl, hu⟩ := hf.used l v r h
          exact ⟨b :: u, rfl, List.forall_mem_cons.mpr ⟨hb ▸ hs, hu⟩⟩
        · cases h
      · cases h
    · exact hf.used l v r h

theorem addrByte_of_toDigit {radix d : Nat} {b : UInt8} (hr : radix ≤ 16) (h : toDigit radix b = some d) :
    addrByte b = true := by
  unfold toDigit at h
  split at h
  · have : digitValue b.toNat < 16 := by omega
    simp [addrByte, toDigit, this]
  · cases h

theorem reads_digits {radix m : Nat} (hr : radix ≤ 16) (result count : Nat) :
    Reads (readDigits radix m result count) where
  lower l := by
    induction l generalizing result count with
    | nil => rfl
    | cons b l ih =>
      show readDigits radix m result count (toAsciiLowercase b :: lowercase l) = _
      rw [readDigits, readDigits, toDigit_lowercase]
      cases toDigit radix b with
      | none => rfl
      | some d =>
        dsimp only
        split
        · rfl
        · exact ih _ _
  used l := by
    induction l generalizing result count with
    | nil =>
      intro v r h
      cases h
      exact ⟨[], rfl, nofun⟩
    | cons b l ih =>
      intro v r h
      rw [readDigits] at h
      cases hd : toDigit radix b with
      | none =>
        rw [hd] at h
        cases h
        exact ⟨[], rfl, nofun⟩
      | some d =>
        simp only [hd] at h
        split at h
        · cases h
        · obtain ⟨u, rfl, hu⟩ := ih _ _ v r h
          exact ⟨b :: u, rfl, List.forall_mem_cons.mpr ⟨addrByte_of_toDigit hr hd, hu⟩⟩

theorem head?_lowercase {l : Bytes} : (lowercase l).head? = some 48 ↔ l.head? = some 48 := by
  cases l with
  | nil => simp [lowercase]
  | cons b l => simp [lowercase, lowercase_eq_iff]

theorem reads_number {radix m bound : Nat} {zero : Bool} (hr : radix ≤ 16) :
    Reads (readNumber radix m zero bound) where
  lower l := by
    unfold readNumber
    rw [(reads_digits hr 0 0).lower]
    cases readDigits radix m 0 0 l with
    | none => rfl
    | some p =>
      simp only [Option.map_some, head?_lowercase]
      split
      · rfl
      · split
        · rfl
        · split <;> rfl
  used l v r h := by
    unfold readNumber at h
    split at h
    · cases h
    · rename_i hd
      split at h
      · cases h
      · split at h
        · cases h
        · split at h
          · cases h
            exact (reads_digits hr 0 0).used _ _ _ hd
          · cases h

theorem reads_octet (i : Nat) : Reads (readOctet i) :=
  (reads_number (by decide)).separator (by decide) (by decide) i

theorem reads_ipv4 : Reads readIpv4Addr :=
  (reads_octet 0).bind fun a => (reads_octet 1).bind fun b => (reads_octet 2).bind fun c =>
    (reads_octet 3).bind fun d => .pure (a * 2 ^ 8 + b, c * 2 ^ 8 + d)

theorem reads_group (i : Nat) : Reads (readSeparator 58 i (readNumber 16 4 true (2 ^ 16))) :=
  (reads_number (by decide)).separator (by decide) (by decide) i

/-- An embedded IPv4 address, where there is room for one. -/
theorem reads_embedded (i left : Nat) :
    Reads fun l => if 0 < left then readSeparator 58 i readIpv4Addr l else none := by
  split
  · exact reads_ipv4.separator (by decide) (by decide) i
  · exact ⟨fun _ => rfl, nofun⟩

theorem readGroups_lowercase (i left : Nat) (l : Bytes) :
    readGroups i left (lowercase l) = ((readGroups i left l).1, lowercase (readGroups i left l).2) := by
  induction left generalizing i l with
  | zero => rfl
  | succ left ih =>
    have h4 := (reads_embedded i left).lower l
    have hg := (reads_group i).lower l
    rw [readGroups, readGroups, h4, hg]
    cases if 0 < left then readSeparator 58 i readIpv4Addr l else none with
    | some p => rfl
    | none =>
      cases readSeparator 58 i (readNumber 16 4 true (2 ^ 16)) l with
      | none => rfl
      | some p =>
        show ((p.1 :: (readGroups (i + 1) left (lowercase p.2)).1.1, (readGroups (i + 1) left (lowercase p.2)).1.2),
          (readGroups (i + 1) left (lowercase p.2)).2) = _
        rw [ih]

theorem readGroups_used (i left : Nat) (l : Bytes) :
    ∃ u, l = u ++ (readGroups i left l).2 ∧ ∀ b ∈ u, addrByte b = true := by
  induction left generalizing i l with
  | zero => exact ⟨[], rfl, nofun⟩
  | succ left ih =>
    rw [readGroups]
    split
    · rename_i h4
      exact (reads_embedded i left).used _ _ _ h4
    · split
      · exact ⟨[], rfl, nofun⟩
      · rename_i g m hg
        obtain ⟨u, hl, hu⟩ := (reads_group i).used _ _ _ hg
        obtain ⟨w, hm, hw⟩ := ih (i + 1) m
        refine ⟨u ++ w, ?_, List.forall_mem_append.mpr ⟨hu, hw⟩⟩
        rw [List.append_assoc]
        exact hl.trans (congrArg (u ++ ·) hm)

/-- Groups after the first have a colon before them. -/
theorem readSeparator_colon {α : Type} {f : Bytes → Option (α × Bytes)} {i : Nat} {l : Bytes} (hi : 0 < i)
    {p : α × Bytes} (h : readSeparator 58 i f l = some p) : 58 ∈ l := by
  unfold readSeparator at h
  rw [if_pos hi] at h
  split at h
  · split at h
    · rename_i hb
      exact hb ▸ List.mem_cons_self
    · cases h
  · cases h

theorem readGroups_colon {i left : Nat} {l : Bytes} (hi : 0 < i) (h : (readGroups i left l).1.1 ≠ []) : 58 ∈ l := by
  cases left with
  | zero => exact absurd rfl h
  | succ left =>
    rw [readGroups] at h
    split at h
    · rename_i h4
      split at h4
      · exact readSeparator_colon hi h4
      · cases h4
    · split at h
      · exact absurd rfl h
      · rename_i hg
        exact readSeparator_colon hi hg

theorem readIpv6Addr_lowercase (l : Bytes) :
    readIpv6Addr (lowercase l) = (readIpv6Addr l).map fun p => (p.1, lowercase p.2) := by
  unfold readIpv6Addr
  rw [readGroups_lowercase]
  generalize readGroups 0 8 l = r
  obtain ⟨⟨head, ipv4⟩, m⟩ := r
  dsimp only
  split
  · rfl
  · split
    · rfl
    · split
      · rename_i k hk
        -- the two colons are colons in any case
        obtain ⟨k, rfl, rfl⟩ : ∃ k', m = 58 :: 58 :: k' ∧ k = lowercase k' := by
          have hcolon {b : UInt8} : toAsciiLowercase b = 58 ↔ b = 58 := lowercase_eq_iff (by decide)
          match m, hk with
          | [_], hk => simp [lowercase] at hk
          | b :: c :: m, hk =>
            simp only [lowercase, List.map_cons, List.cons.injEq, hcolon] at hk
            exact ⟨m, by rw [hk.1, hk.2.1], hk.2.2.symm⟩
        simp only [readGroups_lowercase, Option.map_some]
      · rename_i hno
        split
        · exact absurd rfl (hno _)
        · rfl

/-- The parser does not see the case of letters. -/
theorem parse_lowercase (l : Bytes) : parse (lowercase l) = parse l := by
  unfold parse
  rw [readIpv6Addr_lowercase]
  cases readIpv6Addr l with
  | none => rfl
  | some p =>
    obtain ⟨addr, r⟩ := p
    cases r <;> rfl

/-- Eight groups do not fit into an IPv4 address alone. -/
theorem readGroups_eight {l : Bytes} (h : (readGroups 0 8 l).1.1.length = 8) : 58 ∈ l := by
  rw [readGroups] at h
  split at h
  · cases h
  · split at h
    · cases h
    · rename_i g m hg
      have hrest : (readGroups 1 7 m).1.1 ≠ [] := by
        intro he
        have hlen : (readGroups 1 7 m).1.1.length + 1 = 8 := h
        simp [he] at hlen
      obtain ⟨u, rfl, -⟩ := (reads_group 0).used _ _ _ hg
      exact List.mem_append_right u (readGroups_colon Nat.one_pos hrest)

theorem readIpv6Addr_used {l r : Bytes} {addr : List Nat} (h : readIpv6Addr l = some (addr, r)) :
    58 ∈ l ∧ ∃ u, l = u ++ r ∧ ∀ b ∈ u, addrByte b = true := by
  obtain ⟨u, hl, hu⟩ := readGroups_used 0 8 l
  have height := @readGroups_eight l
  unfold readIpv6Addr at h
  revert h hl height
  generalize readGroups 0 8 l = p
  obtain ⟨⟨head, ipv4⟩, m⟩ := p
  intro h hl height
  dsimp only at h hl height
  split at h
  · rename_i hlen
    cases h
    exact ⟨height hlen, u, hl, hu⟩
  · split at h
    · cases h
    · split at h
      · rename_i k
        cases h
        obtain ⟨w, hk, hw⟩ := readGroups_used 0 (8 - (head.length + 1)) k
        refine ⟨hl ▸ List.mem_append_right u List.mem_cons_self, u ++ 58 :: 58 :: w, ?_, ?_⟩
        · rw [hl]
          simpa using congrArg (fun k => u ++ 58 :: 58 :: k) hk
        · refine List.forall_mem_append.mpr ⟨hu, ?_⟩
          simp only [List.forall_mem_cons]
          exact ⟨by decide, by decide, hw⟩
      · cases h

/-- An address has address bytes only, and a colon. -/
theorem parse_bytes {l : Bytes} {addr : List Nat} (h : parse l = some addr) :
    58 ∈ l ∧ ∀ b ∈ l, addrByte b = true := by
  unfold parse at h
  split at h
  · rename_i hr
    obtain ⟨hc, u, hl, hu⟩ := readIpv6Addr_used hr
    rw [List.append_nil] at hl
    exact ⟨hc, hl ▸ hu⟩
  · cases h

end WebSocket.Proto.Ipv6
