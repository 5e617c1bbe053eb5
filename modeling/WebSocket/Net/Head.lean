import WebSocket.Proto.Http

/-!
# Reading a head from the transport

`Stream::read_head` of `core/src/net/stream.rs`. A transport is what its next reads return: some
bytes, no bytes at its end, or an error. The loop appends each read to its buffer and searches
only the new bytes and three before them.

`Ended` says how the loop ends in terms of the whole stream, so the outcome does not depend on
where the reads cut it: the search of the whole buffer finds the same blank line
(`headEnd_append`), and the limit is compared with the end of the head if it has one.
-/

namespace WebSocket.Net

open Proto Http Lib.Text

/-! ## `stream.rs` -/

inductive IoError where
  | unexpectedEof
  | other (text : String)
  deriving DecidableEq

inductive HeadError where
  | io (e : IoError)
  | tooLarge
  deriving DecidableEq

/-- What the next reads of a transport return. -/
abbrev Transport := List (Except IoError Bytes)

/-- The size of `read_head`'s chunk: the most that one read returns. -/
def HEAD_CHUNK : Nat := 4096

/-- The loop of `read_head`: its result and the reads that are left, once there is a result. -/
def readHeadFrom (buf : Bytes) : Transport → Option (Except HeadError (Bytes × Bytes) × Transport)
  | [] => none
  | .error e :: reads => some (.error (.io e), reads)
  | .ok [] :: reads => some (.error (.io .unexpectedEof), reads)
  | .ok (b :: chunk) :: reads =>
    let start := buf.length - 3
    let buf := buf ++ b :: chunk
    let stop := (headEnd (buf.drop start)).map (· + start)
    if MAX_HEAD < stop.getD buf.length then some (.error .tooLarge, reads)
    else
      match stop with
      | some stop => some (.ok (buf.take stop, buf.drop stop), reads)
      | none => readHeadFrom buf reads

def readHead (reads : Transport) : Option (Except HeadError (Bytes × Bytes) × Transport) := readHeadFrom [] reads

/-! ## The blank line -/

/-- The shortest beginning of `b` that ends in a blank line. -/
structure IsHead (b h : Bytes) : Prop where
  starts : h <+: b
  ends : ascii "\r\n\r\n" <:+ h
  shortest : ∀ h', h' <+: b → ascii "\r\n\r\n" <:+ h' → h.length ≤ h'.length

theorem blank_ne_nil : ascii "\r\n\r\n" ≠ [] := by decide

theorem length_blank : (ascii "\r\n\r\n").length = 4 := by decide

section

variable {b c h : Bytes} {e : Nat}

theorem headEnd_eq_some : headEnd b = some e ↔ ∃ n, find (ascii "\r\n\r\n") b = some n ∧ n + 4 = e :=
  Option.map_eq_some_iff

theorem headEnd_le (h : headEnd b = some e) : e ≤ b.length := by
  obtain ⟨n, hn, rfl⟩ := headEnd_eq_some.mp h
  exact find_le blank_ne_nil hn

theorem headEnd_append_of_some (h : headEnd b = some e) (c : Bytes) : headEnd (b ++ c) = some e := by
  obtain ⟨n, hn, rfl⟩ := headEnd_eq_some.mp h
  exact headEnd_eq_some.mpr ⟨n, find_append_of_some blank_ne_nil hn c, rfl⟩

theorem find_of_headEnd_none (h : headEnd b = none) : find (ascii "\r\n\r\n") b = none := Option.map_eq_none_iff.mp h

/-- The search that starts three bytes before the new ones finds what a search of all bytes finds. -/
theorem headEnd_append (h : headEnd b = none) (c : Bytes) :
    headEnd (b ++ c) = (headEnd ((b ++ c).drop (b.length - 3))).map (· + (b.length - 3)) := by
  rw [headEnd, find_append blank_ne_nil (find_of_headEnd_none h), length_blank, headEnd, Option.map_map, Option.map_map]
  congr 1
  funext n
  simp only [Function.comp_apply]
  omega

theorem lt_of_headEnd_append (h : headEnd b = none) (he : headEnd (b ++ c) = some e) : b.length < e := by
  obtain ⟨n, hn, rfl⟩ := headEnd_eq_some.mp he
  exact lt_of_find_append blank_ne_nil (find_of_headEnd_none h) hn

/-- A beginning that ends in a blank line holds one before its last four bytes. -/
theorem blank_prefix_of_suffix (hs : h <+: b) (he : ascii "\r\n\r\n" <:+ h) :
    4 ≤ h.length ∧ ascii "\r\n\r\n" <+: b.drop (h.length - 4) := by
  obtain ⟨x, rfl⟩ := he
  obtain ⟨t, rfl⟩ := hs
  rw [List.length_append, length_blank, Nat.add_sub_cancel, List.append_assoc, List.drop_left]
  exact ⟨Nat.le_add_left _ _, List.prefix_append _ _⟩

theorem suffix_take_of_blank {n : Nat} (hn : ascii "\r\n\r\n" <+: b.drop n) :
    n + 4 ≤ b.length ∧ ascii "\r\n\r\n" <:+ b.take (n + 4) := by
  have hlen := hn.length_le
  rw [length_blank, List.length_drop] at hlen
  obtain ⟨t, ht⟩ := hn
  refine ⟨by omega, b.take n, ?_⟩
  rw [List.take_add, ← ht, ← length_blank, List.take_left]

theorem isHead_iff : IsHead b h ↔ h <+: b ∧ headEnd b = some h.length := by
  constructor
  · intro hh
    refine ⟨hh.starts, ?_⟩
    obtain ⟨h4, hp⟩ := blank_prefix_of_suffix hh.starts hh.ends
    refine headEnd_eq_some.mpr ⟨h.length - 4, (find_eq_some_iff blank_ne_nil).mpr ⟨hp, fun k hk hp => ?_⟩, by omega⟩
    obtain ⟨hle, hsuf⟩ := suffix_take_of_blank hp
    have := hh.shortest _ (List.take_prefix _ _) hsuf
    rw [List.length_take] at this
    omega
  · rintro ⟨hs, he⟩
    obtain ⟨n, hn, hlen⟩ := headEnd_eq_some.mp he
    obtain ⟨hp, hmin⟩ := (find_eq_some_iff blank_ne_nil).mp hn
    refine ⟨hs, ?_, fun h' hs' he' => ?_⟩
    · rw [List.prefix_iff_eq_take.mp hs, ← hlen]
      exact (suffix_take_of_blank hp).2
    · obtain ⟨h4, hp'⟩ := blank_prefix_of_suffix hs' he'
      have := mt (hmin (h'.length - 4)) (not_not_intro hp')
      omega

end

/-! ## The loop -/

/-- How the loop ends, from the buffer `buf` and the reads `chunks` of the rest of the stream. -/
inductive Ended (buf : Bytes) (chunks : List Bytes) : Except HeadError (Bytes × Bytes) × Transport → Prop where
  | found {e cs cs'} (cut : chunks = cs ++ cs') (hend : headEnd (buf ++ cs.flatten) = some e) (le : e ≤ MAX_HEAD) :
      Ended buf chunks
        (.ok ((buf ++ cs.flatten).take e, (buf ++ cs.flatten).drop e), cs'.map .ok ++ [.ok []])
  | tooLarge {left} (long : MAX_HEAD < (buf ++ chunks.flatten).length)
      (none : ∀ e, headEnd (buf ++ chunks.flatten) = some e → MAX_HEAD < e) :
      Ended buf chunks (.error .tooLarge, left)
  | eof (none : headEnd (buf ++ chunks.flatten) = none) (short : (buf ++ chunks.flatten).length ≤ MAX_HEAD) :
      Ended buf chunks (.error (.io .unexpectedEof), [])

theorem Ended.cons {buf chunk : Bytes} {chunks : List Bytes} {res : Except HeadError (Bytes × Bytes) × Transport}
    (h : Ended (buf ++ chunk) chunks res) : Ended buf (chunk :: chunks) res := by
  have hflat (cs : List Bytes) : buf ++ chunk ++ cs.flatten = buf ++ (chunk :: cs).flatten := by
    rw [List.flatten_cons, List.append_assoc]
  cases h with
  | @found e cs cs' cut hend le =>
    rw [hflat] at hend ⊢
    exact .found (by rw [cut, List.cons_append]) hend le
  | tooLarge long none => exact .tooLarge (hflat chunks ▸ long) (hflat chunks ▸ none)
  | eof none short => exact .eof (hflat chunks ▸ none) (hflat chunks ▸ short)

/-- While no blank line has come the buffer is within the limit and the loop goes on. -/
theorem readHeadFrom_ended : ∀ (chunks : List Bytes) (buf : Bytes), (∀ c ∈ chunks, c ≠ []) → headEnd buf = none →
    buf.length ≤ MAX_HEAD → ∃ res, readHeadFrom buf (chunks.map .ok ++ [.ok []]) = some res ∧ Ended buf chunks res := by
  intro chunks
  induction chunks with
  | nil =>
    intro buf _ hnone hle
    exact ⟨_, rfl, .eof (by simpa using hnone) (by simpa using hle)⟩
  | cons chunk chunks ih =>
    intro buf hne hnone hle
    obtain ⟨hc, hcs⟩ := List.forall_mem_cons.mp hne
    obtain ⟨x, chunk, rfl⟩ := List.exists_cons_of_ne_nil hc
    rw [List.map_cons, List.cons_append, readHeadFrom]
    simp only [← headEnd_append hnone]
    cases he : headEnd (buf ++ x :: chunk) with
    | none =>
      rw [Option.getD_none]
      split
      · rename_i hlong
        refine ⟨_, rfl, Ended.cons (.tooLarge ?_ fun e h => ?_)⟩
        · rw [List.length_append]
          omega
        · exact Nat.lt_trans hlong (lt_of_headEnd_append he h)
      · rename_i hlong
        obtain ⟨res, hres, hended⟩ := ih _ hcs he (Nat.le_of_not_lt hlong)
        exact ⟨res, hres, hended.cons⟩
    | some e =>
      rw [Option.getD_some]
      split
      · rename_i hlong
        have hlen := headEnd_le he
        refine ⟨_, rfl, Ended.cons (.tooLarge ?_ fun e' h => ?_)⟩
        · rw [List.length_append]
          omega
        · rw [headEnd_append_of_some he] at h
          cases h
          exact hlong
      · rename_i hlong
        have hone : [x :: chunk].flatten = x :: chunk := List.flatten_singleton
        have hfound := @Ended.found buf ((x :: chunk) :: chunks) e [x :: chunk] chunks rfl
          (by rw [hone]; exact he) (Nat.le_of_not_lt hlong)
        rw [hone] at hfound
        exact ⟨_, rfl, hfound⟩

/-- The beginnings that the loop looks for are those of the bytes it read. -/
theorem isHead_of_headEnd {b c : Bytes} {e : Nat} (h : headEnd b = some e) : IsHead (b ++ c) (b.take e) := by
  have hlen : (b.take e).length = e := by
    rw [List.length_take]
    exact Nat.min_eq_left (headEnd_le h)
  refine isHead_iff.mpr ⟨(List.take_prefix e b).trans (List.prefix_append b c), ?_⟩
  rw [hlen]
  exact headEnd_append_of_some h c

/-- However the stream is cut into reads, the head and the outcome are those of the whole stream, and
what was read beyond the head is handed on once. -/
theorem read_head_whole (chunks : List Bytes) (hc : ∀ c ∈ chunks, c ≠ [] ∧ c.length ≤ HEAD_CHUNK) :
    ((∃ head rest left, readHead (chunks.map .ok ++ [.ok []]) = some (.ok (head, rest), left)) ↔
      ∃ h, IsHead chunks.flatten h ∧ h.length ≤ MAX_HEAD) ∧
    (∀ head rest left, readHead (chunks.map .ok ++ [.ok []]) = some (.ok (head, rest), left) →
      IsHead chunks.flatten head ∧
      ∃ cs cs', chunks = cs ++ cs' ∧ head ++ rest = cs.flatten ∧ left = cs'.map .ok ++ [.ok []]) ∧
    ((∃ left, readHead (chunks.map .ok ++ [.ok []]) = some (.error .tooLarge, left)) ↔
      MAX_HEAD < chunks.flatten.length ∧ ¬ ∃ h, IsHead chunks.flatten h ∧ h.length ≤ MAX_HEAD) ∧
    (readHead (chunks.map .ok ++ [.ok []]) = some (.error (.io .unexpectedEof), []) ↔
      chunks.flatten.length ≤ MAX_HEAD ∧ ¬ ∃ h, IsHead chunks.flatten h ∧ h.length ≤ MAX_HEAD) := by
  obtain ⟨res, hres, hended⟩ := readHeadFrom_ended chunks [] (fun c h => (hc c h).1) rfl (Nat.zero_le _)
  rw [readHead, hres]
  cases hended with
  | @found e cs cs' cut hend le =>
    rw [List.nil_append] at hend ⊢
    have hhead : IsHead chunks.flatten (cs.flatten.take e) := by
      rw [cut, List.flatten_append]
      exact isHead_of_headEnd hend
    have hshort : (cs.flatten.take e).length ≤ MAX_HEAD := (List.length_take_le _ _).trans le
    refine ⟨⟨fun _ => ⟨_, hhead, hshort⟩, fun _ => ⟨_, _, _, rfl⟩⟩, fun head rest left h => ?_, ?_, ?_⟩
    · cases h
      exact ⟨hhead, cs, cs', cut, List.take_append_drop _ _, rfl⟩
    · exact ⟨fun h => (by obtain ⟨_, h⟩ := h; cases h), fun h => absurd ⟨_, hhead, hshort⟩ h.2⟩
    · exact ⟨fun h => (by cases h), fun h => absurd ⟨_, hhead, hshort⟩ h.2⟩
  | tooLarge long none =>
    rw [List.nil_append] at long none
    have hnone : ¬ ∃ h, IsHead chunks.flatten h ∧ h.length ≤ MAX_HEAD := by
      rintro ⟨h, hh, hle⟩
      exact absurd (none _ (isHead_iff.mp hh).2) (Nat.not_lt.mpr hle)
    refine ⟨⟨fun h => (by obtain ⟨_, _, _, h⟩ := h; cases h), fun h => absurd h hnone⟩, fun _ _ _ h => (by cases h),
      ⟨fun _ => ⟨long, hnone⟩, fun _ => ⟨_, rfl⟩⟩, ?_⟩
    exact ⟨fun h => (by cases h), fun h => absurd h.1 (Nat.not_le.mpr long)⟩
  | eof none short =>
    rw [List.nil_append] at none short
    have hnone : ¬ ∃ h, IsHead chunks.flatten h ∧ h.length ≤ MAX_HEAD := by
      rintro ⟨h, hh, -⟩
      rw [(isHead_iff.mp hh).2] at none
      cases none
    refine ⟨⟨fun h => (by obtain ⟨_, _, _, h⟩ := h; cases h), fun h => absurd h hnone⟩, fun _ _ _ h => (by cases h),
      ⟨fun h => (by obtain ⟨_, h⟩ := h; cases h), fun h => absurd h.1 (Nat.not_lt.mpr short)⟩, ?_⟩
    exact ⟨fun _ => ⟨short, hnone⟩, fun _ => rfl⟩

/-- A blank line cut by the reads, with one byte behind it. -/
theorem read_head_whole_cut :
    readHead [.ok [65, 13, 10, 13], .ok [10, 66], .ok []] = some (.ok ([65, 13, 10, 13, 10], [66]), [.ok []]) ∧
    IsHead [65, 13, 10, 13, 10, 66] [65, 13, 10, 13, 10] :=
  have run : readHead [.ok [65, 13, 10, 13], .ok [10, 66], .ok []] =
      some (.ok ([65, 13, 10, 13, 10], [66]), [.ok []]) := by decide
  ⟨run, ((read_head_whole [[65, 13, 10, 13], [10, 66]] (by decide)).2.1 _ _ _ run).1⟩

end WebSocket.Net
