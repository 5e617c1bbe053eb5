import WebSocket.Proto.Upgrade
import Mathlib.Data.List.Perm.Basic
import Mathlib.Data.List.Sort

/-!
# Client options between Lua and Rust

The kinds `list` and `headers` of `ws/opts.lua` check the options and write them as lines, and `ws_connect` of
`native/src/hub.rs` cuts the lines again: `str::lines`, which also takes off a carriage return, and the first
colon. Nothing is escaped, so the two agree because of what the patterns refuse (`options_survive`).

A table is a list of its entries, in the order `pairs` goes through them. It has no metatable.
-/

namespace WebSocket.Lua

open Proto Lib Lib.Text Http

/-- A Lua value, as a key or a value of a table. The `other` ones, numbers that are not integers among them,
are told apart by their tags. -/
inductive Datum where
  | string (s : Bytes)
  | integer (n : Int)
  | other (tag : Nat)
  deriving DecidableEq

structure Table where
  entries : List (Datum × Datum)
  distinct : (entries.map Prod.fst).Nodup

/-- The value of an option. -/
inductive Setting where
  | string (s : Bytes)
  | table (t : Table)
  | other

namespace Table

def get (t : Table) (key : Datum) : Option Datum := t.entries.lookup key

/-- `ipairs`: the values at 1, 2 and so on, up to the first that is missing. There are no more than entries. -/
def ipairs (t : Table) : List Datum := go t.entries.length 1
where
  go : Nat → Nat → List Datum
    | 0, _ => []
    | n + 1, i =>
      match t.get (.integer i) with
      | some v => v :: go n (i + 1)
      | none => []

/-- The table `{ v }`. -/
def single (v : Datum) : Table := ⟨[(.integer 1, v)], List.nodup_singleton _⟩

end Table

/-! ## `ws/opts.lua` -/

/-- The pattern of `list`. -/
def tokenPattern (s : Bytes) : Bool :=
  !s.isEmpty && s.all fun b => isAsciiAlphanumeric b || (ascii "!#$%&'*+.^_`|~-").contains b

/-- The first loop of `list`, with what it has put out. -/
def listItems (out : List Bytes) : List Datum → Option (List Bytes)
  | [] => some out
  | .string s :: rest => if !tokenPattern s || out.contains s then none else listItems (out ++ [s]) rest
  | _ :: _ => none

/-- `integer(key, 1, max)`. -/
def integerKey (max : Nat) : Datum → Bool
  | .integer n => decide (1 ≤ n ∧ n ≤ max)
  | _ => false

def listTable (t : Table) : Except String (List Bytes) :=
  match listItems [] t.ipairs with
  | none => .error "an array of distinct nonempty tokens"
  | some out =>
    if t.entries.all fun e => integerKey out.length e.1 then .ok out else .error "a dense array of tokens"

/-- The kind `list`: the array to use, or what was expected. -/
def list : Setting → Except String (List Bytes)
  | .string s => listTable (.single (.string s))
  | .table t => listTable t
  | .other => .error "a string or an array of strings"

/-- The class `%c`. -/
def isCntrl (b : UInt8) : Bool := b < 32 || b == 127

/-- A line of `headers`, if the name and the value are ones. -/
def headerLine : Datum × Datum → Option Bytes
  | (.string name, .string value) =>
    if name.any (fun b => isCntrl b || b == 58) || value.any (fun b => b == 13 || b == 10 || b == 0) then none
    else some (name ++ [58] ++ value ++ [10])
  | _ => none

/-- The kind `headers`. `table.sort` compares bytes. -/
def headers : Setting → Except String Bytes
  | .table t =>
    match t.entries.mapM headerLine with
    | some lines => .ok (lines.insertionSort (· ≤ ·)).flatten
    | none => .error "a table of valid header names and values"
  | _ => .error "a table of strings"

/-- `table.concat(o.protocols, "\n")`. -/
def concat (protocols : List Bytes) : Bytes := [10].intercalate protocols

/-! ## `native/src/hub.rs` -/

/-- `WsStr::text`. -/
def text (s : Option Bytes) (what : String) : Except String (Option Bytes) :=
  match s with
  | none => .ok none
  | some b =>
    match Utf8.fromUtf8 b with
    | .ok () => .ok (some b)
    | .error _ => .error (what ++ " must be valid UTF-8")

def lines (s : Option Bytes) (what : String) : Except String (List Bytes) :=
  (text s what).map fun b => Text.lines 10 13 (b.getD [])

def header (line : Bytes) : Except String (Bytes × Bytes) :=
  match splitOnce 58 line with
  | some h => .ok h
  | none => .error "invalid header"

/-- The fields `protocols` and `headers` of the `ClientOptions` that `ws_connect` makes. -/
def clientOptions (protocols headers : Option Bytes) : Except String (List Bytes × List (Bytes × Bytes)) := do
  let protocols ← lines protocols "protocols"
  let headers ← (← lines headers "headers").mapM header
  return (protocols, headers)

/-! ## Tables -/

theorem Table.get_of_mem {t : Table} {k v : Datum} (h : (k, v) ∈ t.entries) : t.get k = some v := by
  obtain ⟨entries, distinct⟩ := t
  induction entries with
  | nil => cases h
  | cons e entries ih =>
    rw [List.map_cons, List.nodup_cons] at distinct
    show List.lookup k (e :: entries) = some v
    rcases List.mem_cons.mp h with rfl | later
    · exact List.lookup_cons_self
    · have ne : k ≠ e.1 := by
        rintro rfl
        exact distinct.1 (List.mem_map.mpr ⟨_, later, rfl⟩)
      rw [List.lookup_cons, beq_eq_false_iff_ne.mpr ne]
      exact ih distinct.2 later

theorem Table.mem_of_get {t : Table} {k v : Datum} (h : t.get k = some v) : (k, v) ∈ t.entries := by
  obtain ⟨before, after, eq, -⟩ := List.lookup_eq_some_iff.mp h
  rw [eq]
  exact List.mem_append_right _ List.mem_cons_self

theorem Table.get_of_go {t : Table} {n i j : Nat} {v : Datum} (h : (Table.ipairs.go t n i)[j]? = some v) :
    t.get (.integer (i + j : Nat)) = some v := by
  induction n generalizing i j with
  | zero => cases h
  | succ n ih =>
    rw [Table.ipairs.go] at h
    split at h
    · rename_i u hu
      cases j with
      | zero =>
        cases h
        exact hu
      | succ j =>
        have next := ih (i := i + 1) (j := j) h
        rw [show i + (j + 1) = i + 1 + j by omega]
        exact next
    · cases h

theorem Table.get_of_ipairs {t : Table} {j : Nat} {v : Datum} (h : t.ipairs[j]? = some v) :
    t.get (.integer (j + 1 : Nat)) = some v := by
  rw [Nat.add_comm j 1]
  exact Table.get_of_go h

/-! ## What the kinds let through -/

theorem tokenPattern_eq (s : Bytes) : tokenPattern s = isToken s := by
  have same (b : UInt8) : (ascii "!#$%&'*+.^_`|~-").contains b = (ascii "!#$%&'*+-.^_`|~").contains b := by
    have perm : (ascii "!#$%&'*+.^_`|~-").Perm (ascii "!#$%&'*+-.^_`|~") := by decide
    rw [Bool.eq_iff_iff, List.contains_iff_mem, List.contains_iff_mem]
    exact perm.mem_iff
  rw [tokenPattern, isToken]
  simp only [same]
  rfl

theorem listItems_some {out res : List Bytes} {items : List Datum} (h : listItems out items = some res) :
    ∃ new, res = out ++ new ∧ items = new.map .string ∧ ∀ s ∈ new, isToken s = true := by
  induction items generalizing out with
  | nil =>
    cases h
    exact ⟨[], (List.append_nil _).symm, rfl, fun s hs => by cases hs⟩
  | cons item items ih =>
    cases item with
    | integer n => cases h
    | other tag => cases h
    | string s =>
      rw [listItems] at h
      split at h
      · cases h
      · rename_i ok
        obtain ⟨new, rfl, rfl, tokens⟩ := ih h
        rw [Bool.or_eq_true, not_or, Bool.not_eq_true', Bool.not_eq_false, tokenPattern_eq] at ok
        refine ⟨s :: new, ?_, rfl, List.forall_mem_cons.mpr ⟨ok.1, tokens⟩⟩
        rw [List.append_assoc, List.singleton_append]

/-- The array that was put out: tokens, and all that the table has. -/
structure Lists (t : Table) (out : List Bytes) : Prop where
  tokens : ∀ s ∈ out, isToken s = true
  entries : ∀ k v, (k, v) ∈ t.entries ↔ ∃ (i : Nat) (s : Bytes), k = .integer (i + 1 : Nat) ∧ v = .string s ∧ out[i]? = some s

theorem listTable_ok {t : Table} {out : List Bytes} (h : listTable t = .ok out) : Lists t out := by
  rw [listTable] at h
  split at h
  · cases h
  · rename_i res items
    split at h
    · rename_i dense
      cases h
      obtain ⟨new, eq, pairs, tokens⟩ := listItems_some items
      rw [List.nil_append] at eq
      subst eq
      have at_ {i : Nat} {s : Bytes} (hi : out[i]? = some s) : t.get (.integer (i + 1 : Nat)) = some (.string s) := by
        apply Table.get_of_ipairs
        rw [pairs, List.getElem?_map, hi]
        rfl
      refine ⟨tokens, fun k v => ⟨fun mem => ?_, ?_⟩⟩
      · have key := List.all_eq_true.mp dense _ mem
        cases k with
        | string s => cases key
        | other tag => cases key
        | integer n =>
          have bounds := of_decide_eq_true key
          have index : n = ((n.toNat - 1 + 1 : Nat) : Int) := by omega
          obtain ⟨s, hs⟩ : ∃ s, out[n.toNat - 1]? = some s := by
            refine ⟨_, List.getElem?_eq_getElem ?_⟩
            omega
          have value := Table.get_of_mem mem
          rw [index, at_ hs] at value
          cases value
          exact ⟨n.toNat - 1, s, congrArg _ index, rfl, hs⟩
      · rintro ⟨i, s, rfl, rfl, hi⟩
        exact Table.mem_of_get (at_ hi)
    · cases h

theorem list_string {s : Bytes} {out : List Bytes} (h : list (.string s) = .ok out) : out = [s] := by
  have lists := listTable_ok h
  have first : out[0]? = some s := by
    obtain ⟨i, s', index, value, hi⟩ := (lists.entries (.integer 1) (.string s)).mp List.mem_cons_self
    cases value
    cases index
    exact hi
  cases out with
  | nil => cases first
  | cons a out =>
    cases first
    cases out with
    | nil => rfl
    | cons b out =>
      -- a second item would be a second entry
      have mem := (lists.entries (.integer 2) (.string b)).mpr ⟨1, b, rfl, rfl, rfl⟩
      cases List.mem_singleton.mp mem

/-- A name and a value that `headers` takes. -/
structure Plain (h : Bytes × Bytes) : Prop where
  name : ∀ b ∈ h.1, isCntrl b = false ∧ b ≠ 58
  value : ∀ b ∈ h.2, b ≠ 13 ∧ b ≠ 10

/-- The line of a header, without its end. -/
def fieldLine (h : Bytes × Bytes) : Bytes := h.1 ++ 58 :: h.2

def asEntry (h : Bytes × Bytes) : Datum × Datum := (.string h.1, .string h.2)

theorem headerLine_some {e : Datum × Datum} {line : Bytes} (h : headerLine e = some line) :
    ∃ f, e = asEntry f ∧ line = fieldLine f ++ [10] ∧ Plain f := by
  rw [headerLine.eq_def] at h
  split at h
  · rename_i name value
    split at h
    · cases h
    · rename_i ok
      cases h
      rw [Bool.or_eq_true, not_or, List.any_eq_true, List.any_eq_true] at ok
      refine ⟨(name, value), rfl, by simp [fieldLine], ⟨fun b hb => ?_, fun b hb => ?_⟩⟩
      · have := fun bad => ok.1 ⟨b, hb, bad⟩
        simpa using this
      · have := fun bad => ok.2 ⟨b, hb, bad⟩
        simp only [Bool.or_eq_true, beq_iff_eq] at this
        exact ⟨fun cr => this (.inl (.inl cr)), fun lf => this (.inl (.inr lf))⟩
  · cases h

theorem mapM_headerLine {entries : List (Datum × Datum)} {ls : List Bytes} (h : entries.mapM headerLine = some ls) :
    ∃ fs : List (Bytes × Bytes), entries = fs.map asEntry ∧ (ls = fs.map fun f => fieldLine f ++ [10]) ∧ ∀ f ∈ fs, Plain f := by
  induction entries generalizing ls with
  | nil =>
    cases h
    exact ⟨[], rfl, rfl, fun f hf => by cases hf⟩
  | cons e entries ih =>
    rw [List.mapM_cons] at h
    obtain ⟨line, first, h⟩ := Option.bind_eq_some_iff.mp h
    obtain ⟨rest, later, h⟩ := Option.bind_eq_some_iff.mp h
    cases h
    obtain ⟨f, rfl, rfl, plain⟩ := headerLine_some first
    obtain ⟨fs, rfl, rfl, plains⟩ := ih later
    exact ⟨f :: fs, rfl, rfl, List.forall_mem_cons.mpr ⟨plain, plains⟩⟩

/-- A rearrangement of a mapped list is one of the list, mapped. -/
theorem exists_map_of_perm {α β : Type} {f : α → β} {l : List α} {m : List β} (h : m.Perm (l.map f)) :
    ∃ k : List α, k.Perm l ∧ m = k.map f := by
  have related : List.Forall₂ (fun b a => b = f a) (l.map f) l := by
    rw [List.forall₂_map_left_iff]
    exact List.forall₂_same.mpr fun _ _ => rfl
  obtain ⟨k, mapped, perm⟩ := List.perm_comp_forall₂ h related
  refine ⟨k, perm, ?_⟩
  rw [← List.forall₂_eq_eq_eq, List.forall₂_map_right_iff]
  exact mapped

/-- The text of `headers`: the lines of the table's entries, in some order. -/
theorem headers_ok {setting : Setting} {b : Bytes} (h : headers setting = .ok b) :
    ∃ (t : Table) (fs : List (Bytes × Bytes)), setting = .table t ∧ (fs.map asEntry).Perm t.entries ∧
      (b = (fs.map fieldLine).flatMap fun line => line ++ [10]) ∧ ∀ f ∈ fs, Plain f := by
  cases setting with
  | string s => cases h
  | other => cases h
  | table t =>
    rw [headers] at h
    split at h
    · rename_i ls entries
      cases h
      obtain ⟨fs, eq, rfl, plain⟩ := mapM_headerLine entries
      obtain ⟨sorted, perm, lines⟩ := exists_map_of_perm (List.perm_insertionSort (fun a b : Bytes => a ≤ b) _)
      refine ⟨t, sorted, rfl, ?_, ?_, fun f hf => plain f (perm.mem_iff.mp hf)⟩
      · rw [eq]
        exact perm.map asEntry
      · rw [lines, List.flatMap_map, List.flatMap_def]
    · cases h

/-! ## What `ws_connect` reads -/

theorem lines_some {b : Bytes} (valid : Utf8.Valid b) (what : String) : lines (some b) what = .ok (Text.lines 10 13 b) := by
  rw [lines, text, (Utf8.fromUtf8_ok_iff b).mpr valid]
  rfl

/-- The protocols come back. -/
theorem lines_concat {out : List Bytes} (tokens : ∀ s ∈ out, isToken s = true) :
    lines (some (concat out)) "protocols" = .ok out := by
  have ascii : ∀ b ∈ concat out, b.toNat < 0x80 := by
    refine forall_mem_intercalate (List.forall_mem_singleton.mpr (by decide)) fun s hs b hb => ?_
    have := graphic_iff.mp (Handshake.graphic_of_isToken (tokens s hs) b hb)
    omega
  rw [lines_some (Utf8.valid_of_ascii ascii), concat, lines_intercalate]
  · exact fun s hs => ⟨not_mem_of_isToken (tokens s hs) (by decide), not_mem_of_isToken (tokens s hs) (by decide)⟩
  · exact fun s hs => (isToken_iff.mp (tokens s hs)).1

/-- A control character that the value refuses is not in the line. -/
theorem Plain.not_mem {f : Bytes × Bytes} (h : Plain f) {c : UInt8} (control : isCntrl c = true) (colon : c ≠ 58)
    (value : c ∉ f.2) : c ∉ fieldLine f := by
  intro mem
  rcases List.mem_append.mp mem with name | rest
  · rw [(h.name c name).1] at control
    cases control
  · rcases List.mem_cons.mp rest with same | mem
    · exact colon same
    · exact value mem

theorem Plain.line {f : Bytes × Bytes} (h : Plain f) : 10 ∉ fieldLine f ∧ 13 ∉ fieldLine f :=
  ⟨h.not_mem (by decide) (by decide) fun mem => (h.value 10 mem).2 rfl,
    h.not_mem (by decide) (by decide) fun mem => (h.value 13 mem).1 rfl⟩

theorem Plain.cut {f : Bytes × Bytes} (h : Plain f) : header (fieldLine f) = .ok f := by
  have colon : (58 : UInt8) ∉ f.1 := fun mem => (h.name 58 mem).2 rfl
  rw [header, fieldLine, splitOnce_append colon]

theorem mapM_header {fs : List (Bytes × Bytes)} (plain : ∀ f ∈ fs, Plain f) : (fs.map fieldLine).mapM header = .ok fs := by
  induction fs with
  | nil => rfl
  | cons f fs ih =>
    rw [List.forall_mem_cons] at plain
    rw [List.map_cons, List.mapM_cons, plain.1.cut, ih plain.2]
    rfl

/-- Every string in the table is UTF-8. -/
def Table.Valid (t : Table) : Prop := ∀ e ∈ t.entries, ∀ s, .string s = e.1 ∨ .string s = e.2 → Utf8.Valid s

theorem valid_lines {fs : List (Bytes × Bytes)} (h : ∀ f ∈ fs, Utf8.Valid f.1 ∧ Utf8.Valid f.2) :
    Utf8.Valid ((fs.map fieldLine).flatMap fun line => line ++ [10]) := by
  induction fs with
  | nil => exact Utf8.valid_nil
  | cons f fs ih =>
    rw [List.forall_mem_cons] at h
    have colon : Utf8.Valid ([58] : Bytes) := Utf8.valid_of_ascii (List.forall_mem_singleton.mpr (by decide))
    have newline : Utf8.Valid ([10] : Bytes) := Utf8.valid_of_ascii (List.forall_mem_singleton.mpr (by decide))
    rw [List.map_cons, List.flatMap_cons]
    exact ((h.1.1.append (colon.append h.1.2)).append newline).append (ih h.2)

/-- The headers come back, in the order of their lines. -/
theorem lines_headers {t : Table} {b : Bytes} (h : headers (.table t) = .ok b) (valid : t.Valid) :
    ∃ fs : List (Bytes × Bytes), (lines (some b) "headers" >>= fun ls => ls.mapM header) = .ok fs ∧
      (fs.map asEntry).Perm t.entries := by
  obtain ⟨u, fs, same, perm, rfl, plain⟩ := headers_ok h
  cases same
  refine ⟨fs, ?_, perm⟩
  have utf8 : ∀ f ∈ fs, Utf8.Valid f.1 ∧ Utf8.Valid f.2 := by
    intro f hf
    have mem := perm.mem_iff.mp (List.mem_map_of_mem (f := asEntry) hf)
    exact ⟨valid _ mem f.1 (.inl rfl), valid _ mem f.2 (.inr rfl)⟩
  have read : Text.lines 10 13 ((fs.map fieldLine).flatMap fun line => line ++ [10]) = fs.map fieldLine := by
    refine lines_flatMap fun line hl => ?_
    obtain ⟨f, hf, rfl⟩ := List.mem_map.mp hl
    exact (plain f hf).line
  rw [lines_some (valid_lines utf8), read]
  exact mapM_header plain

theorem mapM_ok {α β : Type} {f : α → Except String β} {o : Option α} {r : Option β} (h : o.mapM f = .ok r) :
    (o = none ∧ r = none) ∨ ∃ x y, o = some x ∧ r = some y ∧ f x = .ok y := by
  cases o with
  | none =>
    cases h
    exact .inl ⟨rfl, rfl⟩
  | some x =>
    change (some <$> f x) = Except.ok r at h
    cases hx : f x with
    | error e =>
      rw [hx] at h
      cases h
    | ok y =>
      rw [hx] at h
      cases h
      exact .inr ⟨x, y, rfl, rfl, hx⟩

theorem bind_ok {α β : Type} {x : Except String α} {f : α → Except String β} {b : β} (h : x >>= f = .ok b) :
    ∃ a, x = .ok a ∧ f a = .ok b := by
  cases x with
  | error e => cases h
  | ok a => exact ⟨a, rfl, h⟩

/-- What `list` accepts are tokens, and all that the option has. -/
theorem list_ok {setting : Setting} {out : List Bytes} (h : list setting = .ok out) :
    (∀ s ∈ out, isToken s = true) ∧ (∀ s, setting = .string s → out = [s]) ∧ ∀ t, setting = .table t → Lists t out := by
  cases setting with
  | other => cases h
  | string s =>
    refine ⟨(listTable_ok h).tokens, ?_, ?_⟩
    · rintro _ ⟨⟩
      exact list_string h
    · rintro t ⟨⟩
  | table t =>
    refine ⟨(listTable_ok h).tokens, ?_, ?_⟩
    · rintro s ⟨⟩
    · rintro _ ⟨⟩
      exact listTable_ok h

/-- **Client options survive the line encoding.** Of the options that the kinds accept, or that are absent,
`ws_connect` has the protocols in their order, and the headers each once, names and values as they were. -/
theorem options_survive {ps hs : Option Setting} {protocols : Option (List Bytes)} {hdrs : Option Bytes}
    (hp : ps.mapM list = .ok protocols) (hh : hs.mapM headers = .ok hdrs) (valid : ∀ t, hs = some (.table t) → t.Valid) :
    ∃ fs, clientOptions (protocols.map concat) hdrs = .ok (protocols.getD [], fs) ∧
      (∀ t, hs = some (.table t) → (fs.map asEntry).Perm t.entries) ∧ (hs = none → fs = []) ∧
      (∀ s, ps = some (.string s) → protocols = some [s]) ∧
      ∀ t, ps = some (.table t) → ∃ out, protocols = some out ∧ Lists t out := by
  have first : lines (protocols.map concat) "protocols" = .ok (protocols.getD []) ∧
      (∀ s, ps = some (.string s) → protocols = some [s]) ∧
      ∀ t, ps = some (.table t) → ∃ out, protocols = some out ∧ Lists t out := by
    rcases mapM_ok hp with ⟨rfl, rfl⟩ | ⟨setting, out, rfl, rfl, ok⟩
    · exact ⟨rfl, (fun s h => by cases h), (fun t h => by cases h)⟩
    · obtain ⟨tokens, string, table⟩ := list_ok ok
      refine ⟨lines_concat tokens, ?_, ?_⟩
      · rintro s ⟨⟩
        exact congrArg some (string s rfl)
      · rintro t ⟨⟩
        exact ⟨out, rfl, table t rfl⟩
  have second : ∃ fs : List (Bytes × Bytes), (lines hdrs "headers" >>= fun ls => ls.mapM header) = .ok fs ∧
      (∀ t, hs = some (.table t) → (fs.map asEntry).Perm t.entries) ∧ (hs = none → fs = []) := by
    rcases mapM_ok hh with ⟨rfl, rfl⟩ | ⟨setting, b, rfl, rfl, ok⟩
    · exact ⟨[], rfl, (fun t h => by cases h), fun _ => rfl⟩
    · obtain ⟨t, -, rfl, -⟩ := headers_ok ok
      obtain ⟨fs, read, perm⟩ := lines_headers ok (valid t rfl)
      refine ⟨fs, read, ?_, (fun h => by cases h)⟩
      rintro _ ⟨⟩
      exact perm
  obtain ⟨fs, read, perm, empty⟩ := second
  refine ⟨fs, ?_, perm, empty, first.2⟩
  obtain ⟨ls, hl, hm⟩ := bind_ok read
  rw [clientOptions, first.1, hl]
  show (ls.mapM header >>= fun headers => pure (protocols.getD [], headers)) = _
  rw [hm]
  rfl

/-- The headers `b` without a value, and `a` with the value of a blank and a colon. -/
def twoHeaders : Table := ⟨[(.string [98], .string []), (.string [97], .string [32, 58])], by decide⟩

/-- The protocols `q` and `p`. -/
def twoProtocols : Table := ⟨[(.integer 1, .string [113]), (.integer 2, .string [112])], by decide⟩

/-- They are read back from the lines, the headers by name. -/
theorem options_survive_two :
    ∃ fs, clientOptions (some [113, 10, 112]) (some [97, 58, 32, 58, 10, 98, 58, 10]) = .ok ([[113], [112]], fs) ∧
      (fs.map asEntry).Perm twoHeaders.entries := by
  have hp : (some (Setting.table twoProtocols)).mapM list = .ok (some [[113], [112]]) := rfl
  have hh : (some (Setting.table twoHeaders)).mapM headers = .ok (some [97, 58, 32, 58, 10, 98, 58, 10]) := rfl
  have valid : twoHeaders.Valid := by
    have one (b : UInt8) (h : b.toNat < 0x80) : Utf8.Valid ([b] : Bytes) :=
      Utf8.valid_of_ascii (List.forall_mem_singleton.mpr h)
    intro e he s hs
    rcases List.mem_cons.mp he with rfl | he
    · rcases hs with ⟨⟨⟩⟩ | ⟨⟨⟩⟩
      · exact one 98 (by decide)
      · exact Utf8.valid_nil
    · cases List.mem_singleton.mp he
      rcases hs with ⟨⟨⟩⟩ | ⟨⟨⟩⟩
      · exact one 97 (by decide)
      · exact (one 32 (by decide)).append (one 58 (by decide))
  have same : ∀ t, some (Setting.table twoHeaders) = some (Setting.table t) → t.Valid := by
    rintro t ⟨⟩
    exact valid
  obtain ⟨fs, read, perm, -⟩ := options_survive hp hh same
  exact ⟨fs, read, perm _ rfl⟩

end WebSocket.Lua
