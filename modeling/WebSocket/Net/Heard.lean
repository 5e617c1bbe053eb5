import WebSocket.Net.Course

/-!
# What an undisturbed link makes of its input

Two steps lead from the bytes to the events. The reader decodes messages until it meets
a close, a violation or the end of the input: `Heard` compares what it has decoded so far
with what the whole input decodes to, and says where it stands. Each message then goes
through `handle` and `deliver` and becomes an event: `Told` compares the two.

Nothing is lost on the second way unless the application itself has called `close`: only
then may `deliver` find a full inbox on a link that is not open.
-/

namespace WebSocket.Proto

open Lib.Incremental

namespace Reader

/-- What the unread bytes and `u` behind them decode to. -/
def ahead (r : Reader) (u : Bytes) : Decoder.Outcome (Option Partial) UInt8 Msg Fail :=
  (decoder r.server r.max).drain r.partialMsg (r.unread ++ u)

variable {r r' : Reader} {server : Bool} {max : Nat} {p : Option Partial} {b : Bytes}

theorem At.ahead (h : r.At server max p b) (u : Bytes) : r.ahead u = (decoder server max).drain p (b ++ u) := by
  rw [Reader.ahead, h.server, h.max, h.partialMsg, h.unread]

namespace Standing

theorem ahead_push (h : r.Standing server max) (c u : Bytes) : (r.push c).ahead u = r.ahead (c ++ u) := by
  obtain ⟨p, b, h⟩ := h
  rw [(h.push c).ahead, h.ahead, List.append_assoc]

theorem ahead_idle (h : r.Standing server max) (hm : r.message = (r', .ok none)) :
    (∀ u, r.ahead u = r'.ahead u) ∧ ∃ left, r'.ahead [] = ([], .ok left) := by
  obtain ⟨p, b, h⟩ := h
  have hp := h.message
  rw [hm] at hp
  cases hd : (decoder server max).poll p b with
  | fail f => rw [hd] at hp; cases hp
  | out m p' b' => rw [hd] at hp; cases hp.1
  | idle p' b' =>
    rw [hd] at hp
    refine ⟨fun u => ?_, (p', b'), ?_⟩
    · rw [h.ahead, hp.2.ahead, Decoder.drain_of_idle _ hd]
    · rw [hp.2.ahead, List.append_nil, Decoder.drain_more _ (Decoder.poll_idle _ hd)]

theorem ahead_out {m : Msg} (h : r.Standing server max) (hm : r.message = (r', .ok (some m))) (u : Bytes) :
    r.ahead u = (m :: (r'.ahead u).1, (r'.ahead u).2) := by
  obtain ⟨p, b, h⟩ := h
  have hp := h.message
  rw [hm] at hp
  cases hd : (decoder server max).poll p b with
  | fail f => rw [hd] at hp; cases hp
  | idle p' b' => rw [hd] at hp; cases hp.1
  | out m' p' b' =>
    rw [hd] at hp
    obtain ⟨hmm, hat⟩ := hp
    cases hmm
    rw [h.ahead, hat.ahead, Decoder.drain_of_out _ hd]

theorem ahead_fail {f : Fail} (h : r.Standing server max) (hm : r.message = (r', .error f)) (u : Bytes) :
    r.ahead u = ([], .error f) := by
  obtain ⟨p, b, h⟩ := h
  have hp := h.message
  rw [hm] at hp
  cases hd : (decoder server max).poll p b with
  | idle p' b' => rw [hd] at hp; cases hp.1
  | out m p' b' => rw [hd] at hp; cases hp.1
  | fail f' =>
    rw [hd] at hp
    cases hp
    rw [h.ahead, Decoder.drain_of_fail _ hd]

end Standing

end Reader

end WebSocket.Proto

namespace WebSocket.Net

open Proto Lib.Incremental Lib.Transition

/-! ## Where the reader stands -/

/-- The reader's loop is over and its last dispatch is done. -/
def ReadPc.past : ReadPc → Bool
  | .flush | .flushing _ | .ending | .finished => true
  | _ => false

/-- The status a close message stands for. -/
def closeStatus (status : Option (UInt16 × Str)) : UInt16 × Str := status.getD (1005, .empty)

/-- What the whole input decodes to if `u` is still to come. -/
def Sys.whole (cfg : Config) (s : Sys) (u : Bytes) : Decoder.Outcome (Option Partial) UInt8 Msg Fail :=
  (decoder cfg.server cfg.max).drain none (s.rd.inn ++ u)

/-- The decoded messages against the input, and the error that was told for a violation. -/
inductive Heard (cfg : Config) (s : Sys) : List Event → Prop where
  | parsing (parses : s.rd.parses = true) (here : s.rd.pc.past = false)
      (plain : ∀ m ∈ s.decoded, Sys.isClose m = false)
      (whole : ∀ u, s.whole cfg u = (s.decoded ++ (s.rd.reader.ahead u).1, (s.rd.reader.ahead u).2)) :
      Heard cfg s []
  | closing {ms status} (silent : s.rd.parses = false) (plain : ∀ m ∈ ms, Sys.isClose m = false)
      (decoded : s.decoded = ms ++ [.close status]) (whole : ∀ u, s.decoded <+: (s.whole cfg u).1)
      (record : .handle (.close status) ∈ s.rd.ops ∧ s.link.flags.recorded = false ∨
        s.link.flags.received = some (closeStatus status)) :
      Heard cfg s []
  | failing {f} (silent : s.rd.parses = false) (plain : ∀ m ∈ s.decoded, Sys.isClose m = false)
      (whole : ∀ u, s.whole cfg u = (s.decoded, .error f))
      (record : .violation f ∈ s.rd.ops ∧ s.link.flags.recorded = false ∨
        s.link.flags.received = none ∧ s.link.flags.failed = some f.code) :
      Heard cfg s [.error f.why]
  | ended (parses : s.rd.parses = true) (past : s.rd.pc.past = true)
      (plain : ∀ m ∈ s.decoded, Sys.isClose m = false) (whole : ∃ left, s.whole cfg [] = (s.decoded, .ok left)) :
      Heard cfg s []

section Hearing

variable {cfg : Config} {s s' : Sys} {lab : Label} {used new : List Op} {tail : List Event}

theorem recorded_eq (received : s'.link.flags.received = s.link.flags.received)
    (failed : s'.link.flags.failed = s.link.flags.failed) : s'.link.flags.recorded = s.link.flags.recorded := by
  rw [Flags.recorded, received, failed, Flags.recorded]

theorem Heard.aside (h : Heard cfg s tail) (aside : Aside s s') : Heard cfg s' tail := by
  obtain ⟨rd, -, decoded, received, failed, -⟩ := aside
  have recorded := recorded_eq received failed
  have whole (u : Bytes) : s'.whole cfg u = s.whole cfg u := by rw [Sys.whole, rd, Sys.whole]
  cases h with
  | parsing parses here plain hw =>
    refine .parsing (by rwa [rd]) (by rwa [rd]) (by rwa [decoded]) fun u => ?_
    rw [whole, decoded, rd]
    exact hw u
  | closing silent plain hd hw record =>
    refine .closing (by rwa [rd]) plain (decoded.trans hd) (fun u => ?_) ?_
    · rw [whole, decoded]
      exact hw u
    · rwa [rd, recorded, received]
  | failing silent plain hw record =>
    refine .failing (by rwa [rd]) (by rwa [decoded]) (fun u => ?_) ?_
    · rw [whole, decoded]
      exact hw u
    · rwa [rd, recorded, received, failed]
  | ended parses past plain hw =>
    refine .ended (by rwa [rd]) (by rwa [rd]) (by rwa [decoded]) ?_
    rw [whole, decoded]
    exact hw

/-- A section that ends the conversation is the only one in hand that does. -/
theorem Single.eq_of_ends (single : Single s) {op o : Op} {rest : List Op} (ops : s.rd.ops = op :: rest)
    (hop : op.ends = true) (ho : o ∈ s.rd.ops) (hends : o.ends = true) : o = op := by
  rw [ops, List.mem_cons] at ho
  refine ho.resolve_right fun ho => ?_
  have once := single.once
  have h1 : 0 < rest.countP Op.ends := List.countP_pos_iff.mpr ⟨o, ho, hends⟩
  simp only [Sys.ops, ops, List.countP_append, List.countP_cons, hop, if_true] at once
  omega

/-- While such a section is in hand nothing is recorded. -/
theorem Single.unrecorded (single : Single s) {op : Op} (hop : op ∈ s.ops) (hends : op.ends = true) :
    s.link.flags.recorded = false := by
  have once := single.once
  have h1 : 0 < s.ops.countP Op.ends := List.countP_pos_iff.mpr ⟨op, hop, hends⟩
  cases hr : s.link.flags.recorded with
  | false => rfl
  | true =>
    rw [hr, Bool.toNat_true] at once
    omega

theorem received_closing {l : Link} {status : Option (UInt16 × Str)} (alive : l.flags.state ≠ .closed)
    (fresh : l.flags.recorded = false) :
    (l.exec cfg (.handle (.close status))).1.flags.received = some (closeStatus status) := by
  have hr : l.flags.received.isSome = false := (Bool.or_eq_false_iff.mp fresh).1
  rw [Link.exec, Link.handle, Link.closing]
  dsimp only
  rw [if_neg (by rw [hr]; rintro (h | h); exacts [alive h, Bool.false_ne_true h])]
  rfl

theorem failed_violation {l : Link} {f : Fail} (alive : l.flags.state ≠ .closed) (fresh : l.flags.recorded = false) :
    (l.exec cfg (.violation f)).1.flags.received = none ∧
      (l.exec cfg (.violation f)).1.flags.failed = some f.code := by
  have hr : l.flags.received.isSome = false := (Bool.or_eq_false_iff.mp fresh).1
  rw [Link.exec, Link.violate]
  dsimp only
  rw [if_neg alive]
  exact ⟨by simpa using hr, rfl⟩

/-- What a section in hand that ends the conversation becomes when the reader runs one: it is
still in hand with nothing recorded, or it was the one that ran. -/
theorem pending_exec (single : Single s) {op o : Op} {rest : List Op} (ops : s.rd.ops = op :: rest)
    (hends : o.ends = true) (ho : o ∈ s.rd.ops) (link : s'.link = (s.link.exec cfg op).1)
    (rd : s'.rd.ops = (s.link.exec cfg op).2 ++ rest) :
    o = op ∨ o ∈ s'.rd.ops ∧ s'.link.flags.recorded = s.link.flags.recorded := by
  by_cases hop : op.ends = true
  · exact .inl (single.eq_of_ends ops hop ho hends)
  · refine .inr ⟨?_, ?_⟩
    · rw [ops, List.mem_cons] at ho
      rw [rd]
      exact List.mem_append_right _ (ho.resolve_left fun h => hop (h ▸ hends))
    · have record := record_exec cfg s.link op (.inl (Bool.eq_false_iff.mpr hop))
      exact recorded_eq (by rw [link]; exact record.1) (by rw [link]; exact record.2)

/-- What is recorded stays as it is when the reader runs a section. -/
theorem recorded_exec_eq (single : Single s) {op : Op} {rest : List Op} (ops : s.rd.ops = op :: rest)
    (hr : s.link.flags.recorded = true) (link : s'.link = (s.link.exec cfg op).1) :
    s'.link.flags.received = s.link.flags.received ∧ s'.link.flags.failed = s.link.flags.failed := by
  rw [link]
  refine record_exec _ _ _ (.inl (Bool.eq_false_iff.mpr fun hends => ?_))
  have hmem : op ∈ s.ops := by
    simp only [Sys.ops, ops, List.cons_append]
    exact List.mem_cons_self ..
  rw [single.unrecorded hmem hends] at hr
  cases hr

theorem Heard.exec (h : Heard cfg s tail) (course : Course cfg s) (single : Single s) {op : Op} {rest : List Op}
    (ops : s.rd.ops = op :: rest) (link : s'.link = (s.link.exec cfg op).1)
    (rd : s'.rd = { s.rd with ops := (s.link.exec cfg op).2 ++ rest }) : Heard cfg s' tail := by
  have decoded : s'.decoded = s.decoded := decoded_exec link
  have whole (u : Bytes) : s'.whole cfg u = s.whole cfg u := by rw [Sys.whole, rd, Sys.whole]
  have rdOps : s'.rd.ops = (s.link.exec cfg op).2 ++ rest := by rw [rd]
  have alive {o : Op} (ho : o ∈ s.rd.ops) (hends : o.ends = true) : s.link.flags.state ≠ .closed := by
    intro hc
    rcases course.final (course.closed hc) with ⟨-, hcl⟩ | ⟨hne, -⟩
    · have := hcl o ho
      cases o <;> first | exact absurd this Bool.false_ne_true | exact absurd hends Bool.false_ne_true
    · exact hne hc
  cases h with
  | parsing parses here plain hw =>
    refine .parsing (by rw [rd]; exact parses) (by rw [rd]; exact here) (by rwa [decoded]) fun u => ?_
    rw [whole, decoded, rd]
    exact hw u
  | @closing ms status silent plain hd hw record =>
    refine .closing (by rw [rd]; exact silent) plain (decoded.trans hd) (fun u => by rw [whole, decoded]; exact hw u) ?_
    rcases record with ⟨ho, hr⟩ | hr
    · rcases pending_exec single ops rfl ho link rdOps with rfl | ⟨ho', hr'⟩
      · exact .inr (by rw [link]; exact received_closing (alive ho rfl) hr)
      · exact .inl ⟨ho', hr'.trans hr⟩
    · refine .inr ?_
      rw [(recorded_exec_eq single ops (by rw [Flags.recorded, hr]; rfl) link).1, hr]
  | @failing f silent plain hw record =>
    refine .failing (by rw [rd]; exact silent) (by rwa [decoded]) (fun u => by rw [whole, decoded]; exact hw u) ?_
    rcases record with ⟨ho, hr⟩ | ⟨hr, hf⟩
    · rcases pending_exec single ops rfl ho link rdOps with rfl | ⟨ho', hr'⟩
      · exact .inr (by rw [link]; exact failed_violation (alive ho rfl) hr)
      · exact .inl ⟨ho', hr'.trans hr⟩
    · refine .inr ?_
      have same := recorded_exec_eq single ops (by rw [Flags.recorded, hf]; exact Bool.or_true _) link
      exact ⟨same.1.trans hr, same.2.trans hf⟩
  | ended parses past plain hw =>
    refine .ended (by rw [rd]; exact parses) (by rw [rd]; exact past) (by rwa [decoded]) ?_
    rw [whole, decoded]
    exact hw

/-! ### The reader's own moves -/

theorem ReadLoop.parses_iff {rd : ReadLoop} :
    rd.parses = true ↔ rd.ok = true ∧ ∀ last, rd.pc ≠ .handled true last := by
  rw [ReadLoop.parses, Bool.and_eq_true]
  refine and_congr_right fun _ => ?_
  split
  · rename_i stop last hpc
    rw [hpc]
    cases stop with
    | false => exact ⟨fun _ _ => (by simp), fun _ => rfl⟩
    | true => exact ⟨(by simp), fun h => absurd rfl (h last)⟩
  · rename_i hpc
    exact ⟨fun _ last => hpc true last, fun _ => rfl⟩

/-- No move of the loop leads to a message in hand. -/
theorem Next.not_handled {pc : ReadPc} (h : Next cfg s lab pc) : ∀ stop last, pc ≠ .handled stop last := by
  cases h <;> exact fun _ _ => nofun

theorem Next.parses {pc : ReadPc} (h : Next cfg s lab pc) (parses : s.rd.parses = true) :
    ({ s.rd with pc := pc } : ReadLoop).parses = true :=
  ReadLoop.parses_iff.mpr ⟨(ReadLoop.parses_iff.mp parses).1, h.not_handled true⟩

/-- While the reader parses, a move keeps it in its loop; after the loop it stays out. -/
theorem Next.past_eq {pc : ReadPc} (h : Next cfg s lab pc) (parses : s.rd.parses = true) :
    pc.past = s.rd.pc.past := by
  have ok := (ReadLoop.parses_iff.mp parses).1
  cases h with
  | flush hpc hok => rw [ok] at hok; cases hok
  | wake hpc => rcases hpc with hpc | hpc <;> rw [hpc] <;> rfl
  | stopped hpc => rcases hpc with hpc | hpc <;> rw [hpc] <;> rfl
  | parse hpc => rw [hpc]; rfl
  | skip hpc => rw [hpc]; rfl
  | again hpc => rw [hpc]; rfl
  | expired hpc => rw [hpc]; rfl
  | check hpc => rw [hpc]; rfl
  | throttled hpc => rw [hpc]; rfl
  | read hpc => rw [hpc]; rfl
  | final hpc => rw [hpc]; rfl
  | unrecorded hpc => rw [hpc]; rfl
  | flushing hpc => rw [hpc]; rfl
  | flushed hpc => rw [hpc]; rfl
  | beat hpc => rw [hpc]; rfl
  | unsent hpc => rw [hpc]; rfl
  | eof hpc => rw [hpc]; rfl

/-- What comes in was still to come before. -/
theorem Reads.whole {rd : ReadLoop} (h : Reads cfg s lab rd new) (u : Bytes) :
    ∃ v, Sys.whole cfg { s with rd := rd } u = s.whole cfg v := by
  cases h with
  | @input bytes => exact ⟨bytes ++ u, by rw [Sys.whole, Sys.whole, List.append_assoc]⟩
  | _ => exact ⟨u, rfl⟩

theorem Heard.reads (h : Heard cfg s tail) (course : Course cfg s) (sane : Sane cfg s)
    (peace : s.peaceful cfg lab = true) (run : s.task = .running) (idle : s.rd.ops = []) {rd : ReadLoop}
    (hr : Reads cfg s lab rd new) : Heard cfg { s with rd := rd } tail := by
  have silent (hs : s.rd.parses = false) : rd.parses = false :=
    Bool.eq_false_iff.mpr fun hp => Bool.eq_false_iff.mp hs ((Effect.reading run idle hr).parses hp)
  have nothing {op : Op} {P : Prop} (h : op ∈ s.rd.ops) : P := by
    rw [idle] at h
    cases h
  cases h with
  | closing hs plain decoded hw record =>
    refine .closing (silent hs) plain decoded (fun u => ?_) (.inr (record.elim (fun h => nothing h.1) id))
    obtain ⟨v, hv⟩ := hr.whole u
    rw [hv]
    exact hw v
  | failing hs plain hw record =>
    refine .failing (silent hs) plain (fun u => ?_) (.inr (record.elim (fun h => nothing h.1) id))
    obtain ⟨v, hv⟩ := hr.whole u
    exact hv.trans (hw v)
  | ended parses past plain hw =>
    have off {pc : ReadPc} {P : Prop} (h : s.rd.pc = pc) (hne : pc.past = false) : P := by
      rw [h, hne] at past
      cases past
    cases hr with
    | goto h => exact .ended (h.parses parses) ((h.past_eq parses).trans past) plain hw
    | ending pc =>
      exact .ended (ReadLoop.parses_iff.mpr ⟨(ReadLoop.parses_iff.mp parses).1, fun _ => nofun⟩) rfl plain hw
    | hub pc h => rw [course.hub] at h; cases h
    | silent pc => exact off pc rfl
    | stop pc => exact off pc rfl
    | input pc => exact off pc rfl
    | error pc => exact off pc rfl
    | quiet pc => exact off pc rfl
    | probe pc => exact off pc rfl
    | dead pc => exact off pc rfl
  | parsing parses here plain hw =>
    have ok := (ReadLoop.parses_iff.mp parses).1
    have goes {rd : ReadLoop} (hok : rd.ok = true) (hpc : ∀ last, rd.pc ≠ .handled true last) : rd.parses = true :=
      ReadLoop.parses_iff.mpr ⟨hok, hpc⟩
    cases hr with
    | goto h => exact .parsing (h.parses parses) ((h.past_eq parses).trans here) plain hw
    | hub pc h => rw [course.hub] at h; cases h
    | @silent last r pc msg =>
      obtain ⟨ahead, left, hleft⟩ := sane.reader.ahead_idle msg
      cases last with
      | false =>
        refine .parsing (goes ok fun _ => nofun) rfl plain fun u => ?_
        rw [← ahead u]
        exact hw u
      | true =>
        refine .ended (goes ok fun _ => nofun) rfl plain ⟨left, (hw []).trans ?_⟩
        rw [ahead, hleft]
        exact congrArg (·, _) (List.append_nil _)
    | @stop stop last pc why =>
      rcases why with rfl | hc
      · exact absurd pc ((ReadLoop.parses_iff.mp parses).2 last)
      · rw [course.closed hc] at pc
        cases pc
    | ending pc => rw [pc] at here; cases here
    | @input bytes pc hlab =>
      refine .parsing (goes ok fun _ => nofun) rfl plain fun u => ?_
      dsimp only
      rw [if_pos ok, sane.reader.ahead_push, Sys.whole, List.append_assoc]
      exact hw (bytes ++ u)
    | error pc hlab => rw [hlab] at peace; cases peace
    | quiet pc => exact .parsing (goes ok fun _ => nofun) rfl plain hw
    | probe pc => exact .parsing (goes ok fun _ => nofun) rfl plain hw
    | dead pc hlab verdict =>
      rw [hlab, Sys.peaceful, pc] at peace
      exact absurd verdict (of_decide_eq_true peace)

/-- A reader that may parse and has not left its loop has heard nothing that ends it. -/
theorem Heard.of_parses (h : Heard cfg s tail) (parses : s.rd.parses = true) (here : s.rd.pc.past = false) :
    tail = [] ∧ (∀ m ∈ s.decoded, Sys.isClose m = false) ∧
      ∀ u, s.whole cfg u = (s.decoded ++ (s.rd.reader.ahead u).1, (s.rd.reader.ahead u).2) := by
  cases h with
  | parsing _ _ plain hw => exact ⟨rfl, plain, hw⟩
  | closing silent => rw [parses] at silent; cases silent
  | failing silent => rw [parses] at silent; cases silent
  | ended _ past => rw [here] at past; cases past

theorem Heard.of_dispatch {last : Bool} (h : Heard cfg s tail) (single : Single s) (pc : s.rd.pc = .dispatch last) :
    tail = [] ∧ (∀ m ∈ s.decoded, Sys.isClose m = false) ∧
      ∀ u, s.whole cfg u = (s.decoded ++ (s.rd.reader.ahead u).1, (s.rd.reader.ahead u).2) := by
  refine h.of_parses (ReadLoop.parses_iff.mpr ⟨single.dispatch last pc, fun _ => ?_⟩) (by rw [pc]; rfl)
  rw [pc]
  exact nofun

theorem silent_of_handled {rd : ReadLoop} (last : Bool) (pc : rd.pc = .handled true last) : rd.parses = false :=
  Bool.eq_false_iff.mpr fun hp => (ReadLoop.parses_iff.mp hp).2 last pc

theorem Heard.decoded {last : Bool} {r : Reader} {m : Msg} (h : Heard cfg s tail) (single : Single s)
    (sane : Sane cfg s) (pc : s.rd.pc = .dispatch last) (msg : s.rd.reader.message = (r, .ok (some m)))
    (rd : s'.rd = { s.rd with reader := r, ops := [.handle m], pc := .handled (Sys.isClose m) last })
    (link : s'.link = s.link.note (.decoded m)) : Heard cfg s' tail := by
  obtain ⟨rfl, plain, hw⟩ := h.of_dispatch single pc
  have ok := single.dispatch last pc
  have fresh := (single.fresh (ReadLoop.parses_iff.mpr ⟨ok, fun _ => by rw [pc]; simp⟩)).2
  have decoded : s'.decoded = s.decoded ++ [m] := by
    rw [Sys.decoded, link, Link.note, List.filterMap_append]
    rfl
  have whole (u : Bytes) : s'.whole cfg u = (s'.decoded ++ (r.ahead u).1, (r.ahead u).2) := by
    have hs : s'.whole cfg u = s.whole cfg u := by rw [Sys.whole, rd, Sys.whole]
    rw [hs, hw u, sane.reader.ahead_out msg, decoded, List.append_assoc]
    rfl
  cases hm : Sys.isClose m with
  | true =>
    cases m with
    | close status =>
      refine .closing (silent_of_handled last (by rw [rd]; rfl)) plain decoded (fun u => ?_) (.inl ⟨?_, ?_⟩)
      · rw [whole u]
        exact List.prefix_append ..
      · rw [rd]
        exact List.mem_singleton_self _
      · rw [link]
        exact fresh
    | _ => cases hm
  | false =>
    refine .parsing (ReadLoop.parses_iff.mpr ⟨by rw [rd]; exact ok, fun _ => ?_⟩) (by rw [rd]; rfl) ?_ fun u => ?_
    · rw [rd, hm]
      simp
    · rw [decoded]
      exact List.forall_mem_append.mpr ⟨plain, List.forall_mem_singleton.mpr hm⟩
    · rw [whole u, rd]

theorem Heard.failed {last : Bool} {r : Reader} {f : Fail} (h : Heard cfg s tail) (single : Single s)
    (sane : Sane cfg s) (pc : s.rd.pc = .dispatch last) (msg : s.rd.reader.message = (r, .error f)) :
    tail = [] ∧ Heard cfg { s with rd := { s.rd with
      reader := r, ops := [.emit (.error f.why), .violation f], pc := .handled true last } } [.error f.why] := by
  obtain ⟨rfl, plain, hw⟩ := h.of_dispatch single pc
  refine ⟨rfl, .failing (silent_of_handled last rfl) plain (fun u => ?_) (.inl ⟨by simp, ?_⟩)⟩
  · refine (hw u).trans ?_
    rw [sane.reader.ahead_fail msg, List.append_nil]
    rfl
  · refine (single.fresh (ReadLoop.parses_iff.mpr ⟨single.dispatch last pc, fun _ => ?_⟩)).2
    rw [pc]
    exact nofun

/-- A heartbeat leaves the input alone. -/
theorem Heard.ping (h : Heard cfg s tail) (idle : s.rd.ops = []) (pc : s.rd.pc = .pinging) {alive : Alive}
    (rd : s'.rd = { s.rd with alive := alive, ops := [.released], pc := .top })
    (flags : s'.link.flags = s.link.flags) (trace : s'.link.trace = s.link.trace) : Heard cfg s' tail := by
  have decoded : s'.decoded = s.decoded := by rw [Sys.decoded, trace, Sys.decoded]
  have whole (u : Bytes) : s'.whole cfg u = s.whole cfg u := by rw [Sys.whole, rd, Sys.whole]
  have parses : s'.rd.parses = s.rd.parses := by rw [ReadLoop.parses, ReadLoop.parses, pc, rd]
  have nothing {op : Op} {P : Prop} (h : op ∈ s.rd.ops) : P := by
    rw [idle] at h
    cases h
  cases h with
  | parsing hp here plain hw =>
    refine .parsing (parses.trans hp) (by rw [rd]; rfl) (by rwa [decoded]) fun u => ?_
    rw [whole, decoded, rd]
    exact hw u
  | closing silent plain hd hw record =>
    refine .closing (parses.trans silent) plain (decoded.trans hd) (fun u => by rw [whole, decoded]; exact hw u) ?_
    rw [flags]
    exact .inr (record.elim (fun h => nothing h.1) id)
  | failing silent plain hw record =>
    refine .failing (parses.trans silent) (by rwa [decoded]) (fun u => by rw [whole, decoded]; exact hw u) ?_
    rw [flags]
    exact .inr (record.elim (fun h => nothing h.1) id)
  | ended _ past => rw [pc] at past; cases past

/-- The bytes behind the handshake are the beginning of the input. -/
theorem Heard.started {rest : Bytes} {alive : Alive} (h : Heard cfg s tail) (course : Course cfg s) (sane : Sane cfg s)
    (task : s.task = .opening rest)
    (rd : s'.rd = { s.rd with reader := s.rd.reader.push rest, alive := alive, inn := rest })
    (link : s'.link = s.link) : Heard cfg s' tail := by
  have fresh := course.fresh (by rw [task]; exact nofun) (by rw [task]; exact nofun)
  have decoded : s'.decoded = s.decoded := by rw [Sys.decoded, link, Sys.decoded]
  obtain ⟨rfl, plain, hw⟩ := h.of_parses (by rw [fresh]; rfl) (by rw [fresh]; rfl)
  refine .parsing ?_ ?_ (by rwa [decoded]) fun u => ?_
  · rw [rd, fresh]
    rfl
  · rw [rd, fresh]
    rfl
  · have hs : s'.whole cfg u = s.whole cfg (rest ++ u) := by
      rw [Sys.whole, rd, Sys.whole, fresh]
      rfl
    rw [hs, hw, rd, decoded]
    dsimp only
    rw [sane.reader.ahead_push]

end Hearing

/-! ## From messages to events -/

/-- The event of a message. Answers to heartbeats are internal, and a close is told by `finish`. -/
def due (cfg : Config) : Msg → List Event
  | .text data => [.message data false]
  | .binary data => [.message data true]
  | .ping data => [.ping data]
  | .pong data => if data = cfg.token then [] else [.pong data]
  | .close _ => []

/-- The event a section in hand will tell. -/
def Op.owes (cfg : Config) : Op → List Event
  | .emit e | .deliver e | .deliverOpen e | .deliverNow e => [e]
  | .handle m => due cfg m
  | _ => []

namespace Sys

/-- The events the reader has in hand. -/
def owed (cfg : Config) (s : Sys) : List Event := s.rd.ops.flatMap (Op.owes cfg)

/-- The close, once the link is closed. -/
def last (s : Sys) : List Event :=
  if s.state = .closed then [.close (Link.endStatus s.link.flags).1 (Link.endStatus s.link.flags).2] else []

/-- The events of what was decoded, the error of a violation, and the end. -/
def script (cfg : Config) (s : Sys) (tail : List Event) : List Event :=
  s.decoded.flatMap (due cfg) ++ tail ++ s.last

end Sys

/-- What was told, and is about to be, against what was decoded. Only a `close` of the
application can make the link drop an event. -/
structure Told (cfg : Config) (s : Sys) (tail : List Event) : Prop where
  sub : List.Sublist (s.told ++ s.owed cfg) (s.script cfg tail)
  all : s.called = false → s.told ++ s.owed cfg = s.script cfg tail
  one : (s.owed cfg).length ≤ 1

section Telling

variable {cfg : Config} {s s' : Sys} {lab : Label} {used new : List Op} {tail tail' : List Event}

/-- Both sides grow by the same events. -/
theorem Told.grow {x : List Event} (h : Told cfg s tail) (called : s.called = true → s'.called = true)
    (said : s'.told ++ s'.owed cfg = s.told ++ s.owed cfg ++ x) (script : s'.script cfg tail' = s.script cfg tail ++ x)
    (one : (s'.owed cfg).length ≤ 1) : Told cfg s' tail' := by
  refine ⟨?_, fun hc => ?_, one⟩
  · rw [said, script]
    exact h.sub.append_right x
  · rw [said, script, h.all (Bool.eq_false_iff.mpr fun ht => Bool.eq_false_iff.mp hc (called ht))]

theorem Told.same (h : Told cfg s tail) (called : s.called = true → s'.called = true) (told : s'.told = s.told)
    (owed : s'.owed cfg = s.owed cfg) (script : s'.script cfg tail' = s.script cfg tail) : Told cfg s' tail' :=
  h.grow (x := []) called (by rw [told, owed, List.append_nil]) (by rw [script, List.append_nil])
    (by rw [owed]; exact h.one)

theorem last_eq (closed : s'.state = .closed ↔ s.state = .closed)
    (received : s'.link.flags.received = s.link.flags.received)
    (failed : s'.link.flags.failed = s.link.flags.failed) : s'.last = s.last := by
  have status : Link.endStatus s'.link.flags = Link.endStatus s.link.flags := by
    rw [Link.endStatus, received, failed, Link.endStatus]
  unfold Sys.last
  rw [status]
  exact if_congr closed rfl rfl

theorem last_nil (h : s.state ≠ .closed) : s.last = [] := if_neg h

theorem Told.aside (h : Told cfg s tail) (aside : Aside s s') (called : s.called = true → s'.called = true) :
    Told cfg s' tail := by
  refine h.same called aside.told (by rw [Sys.owed, aside.rd, Sys.owed]) ?_
  rw [Sys.script, aside.decoded, last_eq aside.closed aside.received aside.failed, Sys.script]

/-- A section passes on what it owes. -/
theorem owes_exec {l : Link} {op : Op} (hub : l.hubClosed = false)
    (handles : ∀ m, op = .handle m → Sys.isClose m = false → l.flags.received = none)
    (opened : ∀ e, op = .deliverOpen e → l.flags.state = .opened) (hne : ∀ e, op ≠ .emit e) :
    (l.exec cfg op).2.flatMap (Op.owes cfg) = op.owes cfg := by
  cases op with
  | handle m =>
    have received := handles m rfl
    cases m with
    | text data => rw [Link.exec, Link.handle, received rfl]; rfl
    | binary data => rw [Link.exec, Link.handle, received rfl]; rfl
    | ping data => rfl
    | pong data =>
      rw [Link.exec, Link.handle, Op.owes, due]
      dsimp only
      split <;> rfl
    | close status => rfl
  | emit e => exact absurd rfl (hne e)
  | checkHub => rw [Link.exec, hub]; rfl
  | finish code reason => rw [Link.exec]; split <;> rfl
  | deliver e => rw [Link.exec]; dsimp only; split <;> rfl
  | deliverOpen e => rw [Link.exec, opened e rfl]; rfl
  | deliverNow e => rfl
  | violation f => rfl
  | stopWriter => rfl
  | setStopped => rfl
  | shutdownIo => rfl
  | endLink => rfl
  | released => rfl

theorem told_exec {op : Op} (hl : s'.link = (s.link.exec cfg op).1) (h1 : ∀ e, op ≠ .emit e)
    (h2 : ∀ code reason, op ≠ .finish code reason) : s'.told = s.told := by
  rcases trace_exec cfg s.link op with ht | ⟨e, ht, -, he | ⟨code, reason, he, -⟩⟩
  · exact told_quiet (t := []) (by rw [hl, ht, List.append_nil]) fun _ h => nomatch h
  · exact absurd he (h1 e)
  · exact absurd he (h2 code reason)

/-- Only `finish` closes the link. -/
theorem closed_exec {l : Link} {op : Op} (h2 : ∀ code reason, op ≠ .finish code reason) :
    (l.exec cfg op).1.flags.state = .closed ↔ l.flags.state = .closed := by
  cases op with
  | finish code reason => exact absurd rfl (h2 code reason)
  | emit e => rw [Link.exec]; dsimp only; split <;> rfl
  | handle m =>
    cases m with
    | ping data => rw [Link.exec, Link.handle, Link.handlePing]; dsimp only; split <;> rfl
    | close status =>
      rw [Link.exec, Link.handle, Link.closing]
      dsimp only
      split
      · rfl
      · rename_i h
        exact ⟨(by simp), fun hc => absurd (.inl hc) h⟩
    | _ => rfl
  | violation f =>
    rw [Link.exec, Link.violate]
    dsimp only
    split
    · rfl
    · rename_i h
      exact ⟨(by simp), fun hc => absurd hc h⟩
  | _ => rfl

theorem last_exec {op : Op} (hl : s'.link = (s.link.exec cfg op).1) (h2 : ∀ code reason, op ≠ .finish code reason) :
    s'.last = s.last := by
  have closed : s'.state = .closed ↔ s.state = .closed := by
    rw [Sys.state, hl]
    exact closed_exec h2
  by_cases hc : s.state = .closed
  · have record := record_exec cfg s.link op (.inr hc)
    exact last_eq closed (by rw [hl]; exact record.1) (by rw [hl]; exact record.2)
  · rw [last_nil hc, last_nil (mt closed.mp hc)]

/-- A reader in the middle of a message parses, and the link is open unless the application closed it. -/
theorem Course.amid (course : Course cfg s) (single : Single s) (sec : Sections s) (run : s.task = .running)
    {last : Bool} (pc : s.rd.pc = .handled false last) :
    s.link.flags.recorded = false ∧ (s.called = false → s.state = .opened) := by
  have parses : s.rd.parses = true :=
    ReadLoop.parses_iff.mpr ⟨single.handled last pc, fun _ => by rw [pc]; exact nofun⟩
  have fresh := (single.fresh parses).2
  refine ⟨fresh, fun hc => ?_⟩
  cases hs : s.state with
  | opened => rfl
  | connecting => exact absurd hs (sec.task (by rw [run]; rfl))
  | closing =>
    rcases course.closing hs with h | h
    · rw [fresh] at h; cases h
    · rw [hc] at h; cases h
  | closed => rw [course.closed hs] at pc; cases pc

/-- The sections that tell something are run amid a message. -/
theorem amid_of_runs {pc : ReadPc} {op : Op} (h : pc.runs op = true) :
    (∀ e, op = .emit e → (∃ stop last, pc = .handled stop last) ∧ e.isTold = true) ∧
      (∀ m, op = .handle m → Sys.isClose m = false → ∃ last, pc = .handled false last) ∧
      (∀ e, op = .deliverOpen e → ∃ last, pc = .handled false last) ∧
      ∀ code reason, op = .finish code reason → pc = .finished := by
  refine ⟨?_, ?_, ?_, ?_⟩
  · rintro e rfl
    cases pc with
    | handled stop last =>
      refine ⟨⟨stop, last, rfl⟩, ?_⟩
      cases stop <;> cases e <;> first | rfl | cases h
    | _ => cases h
  · rintro m rfl hm
    cases pc with
    | handled stop last =>
      cases stop with
      | false => exact ⟨last, rfl⟩
      | true =>
        have hc : Sys.isClose m = true := h
        rw [hm] at hc
        cases hc
    | _ => cases h
  · rintro e rfl
    cases pc with
    | handled stop last =>
      cases stop with
      | false => exact ⟨last, rfl⟩
      | true => cases h
    | _ => cases h
  · rintro code reason rfl
    cases pc with
    | handled stop last => cases stop <;> cases h
    | finished => rfl
    | _ => cases h

/-- `emit` tells what it owed. -/
theorem told_emit {e : Event} (hl : s'.link = (s.link.exec cfg (.emit e)).1) (alive : s.state ≠ .closed)
    (ht : e.isTold = true) : s'.told = s.told ++ [e] := by
  have alive' : s.link.flags.state ≠ .closed := alive
  have trace : s'.link.trace = s.link.trace ++ [.event e (!s.link.hubClosed)] := by
    rw [hl, Link.exec]
    dsimp only
    rw [if_neg alive']
    rfl
  rw [told_append trace]
  simp [Obs.event?, ht]

theorem told_finish {code : UInt16} {reason : Str} (hl : s'.link = (s.link.exec cfg (.finish code reason)).1)
    (alive : s.state ≠ .closed) : s'.told = s.told ++ [.close code reason] ∧ s'.state = .closed := by
  have alive' : s.link.flags.state ≠ .closed := alive
  rw [Link.exec, if_neg alive'] at hl
  refine ⟨?_, by rw [Sys.state, hl]; rfl⟩
  have trace : s'.link.trace = s.link.trace ++ [.event (.close code reason) (!s.link.hubClosed)] := by
    rw [hl]
    rfl
  rw [told_append trace]
  rfl

theorem Told.exec (h : Told cfg s tail) (course : Course cfg s) (single : Single s) (sec : Sections s)
    (run : s.task = .running) {op : Op} {rest : List Op} (ops : s.rd.ops = op :: rest)
    (link : s'.link = (s.link.exec cfg op).1) (rd : s'.rd.ops = (s.link.exec cfg op).2 ++ rest)
    (called : s.called = true → s'.called = true) : Told cfg s' tail := by
  have runs := course.reader op (by rw [ops]; exact List.mem_cons_self ..)
  obtain ⟨emits, handles, opens, finishes⟩ := amid_of_runs runs
  have owed : s.owed cfg = op.owes cfg ++ rest.flatMap (Op.owes cfg) := by rw [Sys.owed, ops, List.flatMap_cons]
  have owed' : s'.owed cfg = (s.link.exec cfg op).2.flatMap (Op.owes cfg) ++ rest.flatMap (Op.owes cfg) := by
    rw [Sys.owed, rd, List.flatMap_append]
  have script (hf : ∀ code reason, op ≠ .finish code reason) : s'.script cfg tail = s.script cfg tail := by
    rw [Sys.script, decoded_exec link, last_exec link hf, Sys.script]
  by_cases he : ∃ e, op = .emit e
  · obtain ⟨e, rfl⟩ := he
    obtain ⟨⟨stop, last, pc⟩, ht⟩ := emits e rfl
    have alive : s.state ≠ .closed := by
      intro hc
      rw [course.closed hc] at pc
      cases pc
    have hone := h.one
    rw [owed] at hone
    refine h.grow (x := []) called ?_ (by rw [script fun _ _ => nofun, List.append_nil]) ?_
    · rw [told_emit link alive ht, owed, owed', List.append_nil, List.append_assoc]
      rfl
    · rw [owed']
      exact Nat.le_trans (Nat.le_add_left _ 1) (by simpa [Op.owes, Link.exec] using hone)
  by_cases hf : ∃ code reason, op = .finish code reason
  · obtain ⟨code, reason, rfl⟩ := hf
    -- the one event that is not owed: both sides get the close
    rcases course.final (finishes code reason rfl) with ⟨-, clears⟩ | ⟨alive, hops | hops⟩
    · rw [ops, List.forall_mem_cons] at clears
      cases clears.1
    · rw [ops] at hops
      cases hops
    · rw [ops] at hops
      cases hops
      obtain ⟨told, closed⟩ := told_finish link alive
      have record := record_exec cfg s.link (.finish (Link.endStatus s.link.flags).1 (Link.endStatus s.link.flags).2)
        (.inl rfl)
      have status : Link.endStatus s'.link.flags = Link.endStatus s.link.flags := by
        rw [Link.endStatus, link, record.1, record.2, Link.endStatus]
      have nothing : s'.owed cfg = [] := by
        have alive' : s.link.flags.state ≠ .closed := alive
        rw [owed', Link.exec, if_neg alive']
        rfl
      refine h.grow (x := [.close (Link.endStatus s.link.flags).1 (Link.endStatus s.link.flags).2]) called ?_ ?_ ?_
      · rw [told, nothing, owed, List.append_nil]
        simp [Op.owes]
      · rw [Sys.script, decoded_exec link, Sys.last, if_pos closed, status, Sys.script, last_nil alive, List.append_nil]
      · rw [nothing]
        exact Nat.zero_le 1
  have noEmit (e : Event) : op ≠ .emit e := fun h => he ⟨e, h⟩
  have noFinish (code : UInt16) (reason : Str) : op ≠ .finish code reason := fun h => hf ⟨code, reason, h⟩
  have told := told_exec link noEmit noFinish
  by_cases hd : ∃ e, op = .deliverOpen e ∧ s.state ≠ .opened
  · obtain ⟨e, rfl, hs⟩ := hd
    obtain ⟨last, pc⟩ := opens e rfl
    have hs' : s.link.flags.state ≠ .opened := hs
    have fewer : s'.owed cfg = rest.flatMap (Op.owes cfg) := by
      rw [owed', Link.exec]
      dsimp only
      rw [if_neg hs']
      rfl
    refine ⟨?_, fun hc => ?_, ?_⟩
    · rw [told, fewer, script noFinish]
      refine List.Sublist.trans ?_ h.sub
      rw [owed]
      exact (List.Sublist.refl _).append (List.sublist_append_right ..)
    · refine absurd ((course.amid single sec run pc).2 (Bool.eq_false_iff.mpr fun ht => ?_)) hs
      exact Bool.eq_false_iff.mp hc (called ht)
    · have hone := h.one
      rw [owed, List.length_append] at hone
      rw [fewer]
      exact Nat.le_trans (Nat.le_add_left ..) hone
  · refine h.same called told ?_ (script noFinish)
    rw [owed, owed', owes_exec course.hub ?_ ?_ noEmit]
    · intro m hm hc
      obtain ⟨last, pc⟩ := handles m hm hc
      have fresh := (course.amid single sec run pc).1
      simpa using (Bool.or_eq_false_iff.mp fresh).1
    · intro e hop
      exact Decidable.not_not.mp fun hs => hd ⟨e, hop, hs⟩

theorem owed_idle (idle : s.rd.ops = []) : s.owed cfg = [] := by
  rw [Sys.owed, idle]
  rfl

/-- The moves of the reader that leave the link alone owe nothing. -/
theorem Reads.owes {rd : ReadLoop} (h : Reads cfg s lab rd new) (course : Course cfg s)
    (peace : s.peaceful cfg lab = true) : new.flatMap (Op.owes cfg) = [] := by
  cases h with
  | hub pc h => rw [course.hub] at h; cases h
  | error pc hlab => rw [hlab] at peace; cases peace
  | dead pc hlab verdict =>
    rw [hlab, Sys.peaceful, pc] at peace
    exact absurd verdict (of_decide_eq_true peace)
  | _ => rfl

/-- The reader takes events in hand. -/
theorem Told.takes {x : List Event} (h : Told cfg s []) (idle : s.rd.ops = []) (alive : s.state ≠ .closed)
    (flags : s'.link.flags = s.link.flags) (called : s.called = true → s'.called = true) (told : s'.told = s.told)
    (owed : s'.owed cfg = x) (one : x.length ≤ 1)
    (dues : s'.decoded.flatMap (due cfg) ++ tail = s.decoded.flatMap (due cfg) ++ x) : Told cfg s' tail := by
  have alive' : s'.state ≠ .closed := by rwa [Sys.state, flags]
  refine h.grow (x := x) called ?_ ?_ (owed ▸ one)
  · rw [told, owed, owed_idle idle, List.append_nil]
  · rw [Sys.script, dues, last_nil alive', Sys.script, last_nil alive]
    simp only [List.append_nil]

theorem length_due_le (m : Msg) : (due cfg m).length ≤ 1 := by
  cases m with
  | pong data =>
    rw [due]
    split
    · exact Nat.zero_le 1
    · exact Nat.le_refl 1
  | close status => exact Nat.zero_le 1
  | _ => exact Nat.le_refl 1

/-- What an undisturbed link has heard and told. -/
def Account (cfg : Config) (s : Sys) : Prop := ∃ tail, Heard cfg s tail ∧ Told cfg s tail

theorem Account.step (h : Account cfg s) (course : Course cfg s) (reach : Reachable (Sys.step cfg) (.init cfg) s)
    (he : Effect cfg s lab s' used new) (peace : s.peaceful cfg lab = true) : Account cfg s' := by
  obtain ⟨tail, heard, told⟩ := h
  have single := Single.of_reachable reach
  have sane := Sane.of_reachable reach
  have sec := Sections.of_reachable reach
  have called := he.called
  have aside (rd : s'.rd = s.rd) (other : ∀ op ∈ used, op ∈ s.wr.ops ∨ op ∈ s.pool.flatten) : Account cfg s' := by
    have ha := he.aside course rd other
    exact ⟨tail, heard.aside ha, told.aside ha called⟩
  have alive {last : Bool} (pc : s.rd.pc = .dispatch last) : s.state ≠ .closed := by
    intro hc
    rw [course.closed hc] at pc
    cases pc
  cases he with
  | execReader run ops free =>
    exact ⟨tail, heard.exec course single ops rfl rfl, told.exec course single sec run ops rfl rfl called⟩
  | reading run idle h =>
    refine ⟨tail, heard.reads course sane peace run idle h, told.same called rfl ?_ rfl⟩
    rw [owed_idle idle, Sys.owed, h.ops_eq idle, h.owes course peace]
  | @decoded last r m run idle pc msg =>
    obtain ⟨rfl, -, -⟩ := heard.of_dispatch single pc
    refine ⟨[], heard.decoded single sane pc msg rfl rfl, told.takes idle (alive pc) rfl called
      (told_quiet rfl (List.forall_mem_singleton.mpr rfl)) (List.append_nil _) (length_due_le m) ?_⟩
    rw [Sys.decoded, Link.note, List.filterMap_append, List.flatMap_append, List.append_nil]
    exact congrArg (_ ++ ·) (List.append_nil _)
  | @failed last r f run idle pc msg =>
    obtain ⟨rfl, heard'⟩ := heard.failed single sane pc msg
    exact ⟨_, heard', told.takes idle (alive pc) rfl called rfl rfl (Nat.le_refl 1) rfl⟩
  | ping run idle free state pc =>
    refine ⟨tail, heard.ping idle pc rfl rfl rfl, told.same called rfl ?_ rfl⟩
    rw [owed_idle idle]
    rfl
  | started task =>
    refine ⟨tail, heard.started course sane task rfl rfl, told.same called rfl rfl rfl⟩
  | execPool ops free =>
    refine aside rfl (List.forall_mem_singleton.mpr (.inr ?_))
    exact List.mem_flatten.mpr ⟨_, List.mem_of_getElem? ops, List.mem_cons_self ..⟩
  | execWriter run ops free =>
    refine aside rfl (List.forall_mem_singleton.mpr (.inl ?_))
    rw [ops]
    exact List.mem_cons_self ..
  | _ => exact aside rfl fun _ h => by cases h

theorem Account.init (cfg : Config) : Account cfg (.init cfg) := by
  refine ⟨[], .parsing rfl rfl (fun _ h => nomatch h) fun u => rfl, ⟨List.nil_sublist _, fun _ => rfl, Nat.zero_le 1⟩⟩

end Telling

end WebSocket.Net
