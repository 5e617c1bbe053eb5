import WebSocket.Proto.Upgrade

/-!
# URLs in normal form

What `url::parse` returns is in a normal form (`Normal`): the host in lower case, the default port
left out of the authority, a target with its slash. A URL in that form, written out again, is cut
where it was joined, so parsing it gives the same URL.
-/

namespace WebSocket.Proto.Handshake

open Lib Lib.Text

/-- The scheme of a URL. -/
def schemeText (tls : Bool) : Bytes := if tls then ascii "wss" else ascii "ws"

/-- A URL written out. -/
def urlText (u : Url) : Bytes := schemeText u.tls ++ ascii "://" ++ u.authority ++ u.target

section

variable {host auth : Bytes} {tls : Bool} {n : UInt16} {u : Url}

theorem HostOk.ne_nil (h : HostOk host) : host ≠ [] := by
  rcases h with h | ⟨hne, -⟩
  · obtain ⟨addr, haddr⟩ := Option.ne_none_iff_exists'.mp h
    rintro rfl
    exact absurd (Ipv6.parse_bytes haddr).1 List.not_mem_nil
  · exact hne

theorem HostOk.not_mem (h : HostOk host) {b : UInt8} (hb : authorityByte b = false) : b ∉ host := fun hm => by
  rw [h.bytes b hm] at hb
  cases hb

/-! ## The parts -/

/-- The text of the port that an authority shows. -/
def portText (tls : Bool) (n : UInt16) : Option Bytes := if n = Url.defaultPort tls then none else some (decimal n)

theorem portNumber_portText (hn : n ≠ 0) : Url.portNumber tls (portText tls n) = .ok n := by
  unfold portText
  split
  · rename_i hd
    rw [Url.portNumber, hd]
  · have hu16 : parseU16 (decimal n) = some n := by
      rw [parseU16, digitsValue_decimal, if_pos n.toNat_lt, UInt16.ofNat_toNat]
    simp only [Url.portNumber, isPort_decimal, hu16, if_true, if_neg hn]

theorem hostPort_authorityOf (h : HostOk host) : Url.hostPort (Url.authorityOf tls host n) = .ok (host, portText tls n) ∧
    ((Url.authorityOf tls host n).head? ≠ some 91 → host.all Url.hostByte = true) := by
  rw [authorityOf_eq]
  rcases h with h | ⟨hne, h⟩
  · obtain ⟨addr, haddr⟩ := Option.ne_none_iff_exists'.mp h
    obtain ⟨hcolon, -⟩ := Ipv6.parse_bytes haddr
    have hclose : 93 ∉ host := HostOk.not_mem (.inl h) (by decide)
    have hcut : splitOnce 93 (host ++ 93 :: suffix tls n) = some (host, suffix tls n) := splitOnce_append hclose
    have hform : (if host.contains 58 then 91 :: host ++ [93] else host) ++ suffix tls n
        = 91 :: (host ++ 93 :: suffix tls n) := by simp [hcolon]
    rw [hform]
    refine ⟨?_, fun hne => absurd rfl hne⟩
    simp only [Url.hostPort, hcut, if_neg h]
    by_cases hd : n = Url.defaultPort tls
    · simp only [suffix, portText, if_pos hd]
    · simp only [suffix, portText, if_neg hd]
  · have hcolon : 58 ∉ host := fun hm => absurd (h 58 hm) (by decide)
    have hform : (if host.contains 58 then 91 :: host ++ [93] else host) ++ suffix tls n = host ++ suffix tls n := by
      simp [hcolon]
    obtain ⟨b, t, rfl⟩ := List.exists_cons_of_ne_nil hne
    have hb : b ≠ 91 := by
      rintro rfl
      exact HostOk.not_mem (.inr ⟨hne, h⟩) (by decide) List.mem_cons_self
    rw [hform]
    refine ⟨?_, fun _ => List.all_eq_true.mpr h⟩
    rw [List.cons_append, Url.hostPort]
    · rw [← List.cons_append]
      by_cases hd : n = Url.defaultPort tls
      · simp only [suffix, portText, if_pos hd, List.append_nil, splitOnce_eq_none hcolon]
      · simp only [suffix, portText, if_neg hd, splitOnce_append hcolon]
    · intro v6 he
      cases he
      exact hb rfl

/-! ## The whole -/

theorem targetOf_of_slash {t : Bytes} (h : t.head? = some 47) : Url.targetOf t = t := by
  cases t with
  | nil => cases h
  | cons b t =>
    cases h
    rfl

/-- The authority ends where the target's slash is. -/
theorem Normal.cut (h : Normal u) :
    (u.authority ++ u.target).takeWhile (fun b => b != 47 && b != 63) = u.authority ∧
      (u.authority ++ u.target).dropWhile (fun b => b != 47 && b != 63) = u.target := by
  have hauth : ∀ b ∈ u.authority, (b != 47 && b != 63) = true := by
    rw [h.authority]
    refine forall_mem_authorityOf (fun b hb => ?_) (by decide) (by decide) (by decide) fun b hb => ?_
    · have hb := h.host.bytes b hb
      exact forall_byte (P := fun b => authorityByte b = true → (b != 47 && b != 63) = true) (by decide +kernel) b hb
    · exact forall_byte (P := fun b => isAsciiDigit b = true → (b != 47 && b != 63) = true) (by decide +kernel) b hb
  have hslash := (validTarget_iff.mp h.target).1
  rw [List.takeWhile_append_of_pos hauth, List.dropWhile_append_of_pos hauth]
  cases ht : u.target with
  | nil => rw [ht] at hslash; cases hslash
  | cons b t =>
    rw [ht] at hslash
    cases hslash
    exact ⟨List.append_nil _, rfl⟩

theorem Normal.no_credentials (h : Normal u) : u.authority.contains 64 = false := by
  have : ∀ b ∈ u.authority, b ≠ 64 := by
    rw [h.authority]
    refine forall_mem_authorityOf (fun b hb he => ?_) (by decide) (by decide) (by decide) fun b hb he => ?_
    · subst he
      exact h.host.not_mem (by decide) hb
    · subst he
      cases hb
  simpa using fun hm => this 64 hm rfl

theorem Normal.parseRest (h : Normal u) : Url.parseRest u.tls (u.authority ++ u.target) = .ok u := by
  obtain ⟨hport, hname⟩ := @hostPort_authorityOf u.host u.tls u.port h.host
  rw [← h.authority] at hport hname
  have hempty : u.host.isEmpty = false := by simpa using h.host.ne_nil
  have hbytes : ¬ (u.authority.head? ≠ some 91 ∧ ¬ u.host.all Url.hostByte = true) := fun hbad =>
    hbad.2 (hname hbad.1)
  unfold Url.parseRest
  simp only [h.cut.1, h.cut.2, h.no_credentials, hport, bind, Except.bind, hempty, if_neg hbytes,
    portNumber_portText h.port, h.lower, ← h.authority, targetOf_of_slash (validTarget_iff.mp h.target).1,
    Bool.false_eq_true, if_false]

theorem find_scheme (tls : Bool) (rest : Bytes) : find (ascii "://") (schemeText tls ++ ascii "://" ++ rest) =
    some (schemeText tls).length := by
  have hnot : 58 ∉ schemeText tls := by cases tls <;> decide
  rw [List.append_assoc, show ascii "://" = [58, 47, 47] by decide, find_append_of_not_mem hnot]
  simp [find]

theorem scheme_schemeText (tls : Bool) : Url.scheme (schemeText tls) = .ok tls := by
  cases tls <;> decide

theorem Normal.parse (h : Normal u) : Url.parse (urlText u) = .ok u := by
  have hbytes : ∀ b ∈ u.authority ++ u.target, graphic b = true ∧ b ≠ 35 :=
    List.forall_mem_append.mpr ⟨h.graphic_authority, (validTarget_iff.mp h.target).2⟩
  have htext : urlText u = schemeText u.tls ++ ascii "://" ++ (u.authority ++ u.target) := by
    rw [urlText, List.append_assoc]
  have htake : (urlText u).take (schemeText u.tls).length = schemeText u.tls := by
    rw [htext, List.append_assoc, List.take_left]
  have hdrop : (urlText u).drop ((schemeText u.tls).length + 3) = u.authority ++ u.target := by
    have hlen : (schemeText u.tls ++ ascii "://").length = (schemeText u.tls).length + 3 := List.length_append
    rw [htext, ← hlen, List.drop_left]
  have hchars : ((u.authority ++ u.target).any fun b => b ≤ 32 || 0x7f ≤ b) = false := by
    refine List.any_eq_false.mpr fun b hb hbad => ?_
    have := graphic_iff.mp (hbytes b hb).1
    simp only [Bool.or_eq_true, decide_eq_true_eq, UInt8.le_iff_toNat_le] at hbad
    rcases hbad with hle | hle
    · exact absurd hle (Nat.not_le.mpr this.1)
    · exact absurd hle (Nat.not_le.mpr this.2)
  have hfragment : (u.authority ++ u.target).contains 35 = false := by
    have : 35 ∉ u.authority ++ u.target := fun hm => (hbytes 35 hm).2 rfl
    simpa using this
  unfold Url.parse
  rw [show find (ascii "://") (urlText u) = some (schemeText u.tls).length by rw [htext, find_scheme]]
  simp only [htake, hdrop, scheme_schemeText, bind, Except.bind, hchars, hfragment, Bool.false_eq_true, if_false]
  exact h.parseRest

end

theorem lower_of_lowercase {b : UInt8} : toAsciiLowercase b = b → ¬ (65 ≤ b ∧ b ≤ 90) :=
  forall_byte (P := fun b => toAsciiLowercase b = b → ¬ (65 ≤ b ∧ b ≤ 90)) (by decide +kernel) b

/-- Parsing a URL normalises it: the parts are well formed, and the URL written from them parses to the
same parts. -/
theorem parse_normalises {input : Bytes} {u : Url} (h : Url.parse input = .ok u) :
    (1 ≤ u.port.toNat ∧ u.port.toNat ≤ 65535) ∧
    (u.host ≠ [] ∧ ∀ b ∈ u.host, ¬ (65 ≤ b ∧ b ≤ 90) ∧ b ≠ 91 ∧ b ≠ 93) ∧
    u.target.head? = some 47 ∧
    (∀ b ∈ u.authority ++ u.target, 0x20 < b ∧ b < 0x7f ∧ b ≠ 35) ∧
    validHost u.authority = true ∧ validTarget u.target = true ∧
    Url.parse (schemeText u.tls ++ ascii "://" ++ u.authority ++ u.target) = .ok u := by
  have hn := parse_normal h
  obtain ⟨hslash, htarget⟩ := validTarget_iff.mp hn.target
  refine ⟨⟨?_, ?_⟩, ⟨hn.host.ne_nil, fun b hb => ⟨?_, ?_, ?_⟩⟩, hslash, fun b hb => ?_, hn.validHost, hn.target, hn.parse⟩
  · refine Nat.pos_of_ne_zero fun hz => hn.port ?_
    rw [← UInt16.toNat_inj]
    exact hz
  · exact Nat.le_of_lt_succ u.port.toNat_lt
  · exact lower_of_lowercase (List.map_eq_map_iff.mp (hn.lower.trans (List.map_id _).symm) b hb)
  · rintro rfl
    exact hn.host.not_mem (by decide) hb
  · rintro rfl
    exact hn.host.not_mem (by decide) hb
  · obtain ⟨hg, h35⟩ := List.forall_mem_append.mpr ⟨hn.graphic_authority, htarget⟩ b hb
    simp only [graphic, Bool.and_eq_true, decide_eq_true_eq] at hg
    exact ⟨hg.1, hg.2, h35⟩

/-- A host in capitals, a padded port and a query without a path. -/
theorem parse_normalises_query :
    Url.parse (ascii "wss://A.b:0444?q") = .ok ⟨true, ascii "a.b", 444, ascii "/?q", ascii "a.b:444"⟩ ∧
    Url.parse (ascii "wss" ++ ascii "://" ++ ascii "a.b:444" ++ ascii "/?q")
      = .ok ⟨true, ascii "a.b", 444, ascii "/?q", ascii "a.b:444"⟩ :=
  have parsed : Url.parse (ascii "wss://A.b:0444?q") = .ok ⟨true, ascii "a.b", 444, ascii "/?q", ascii "a.b:444"⟩ := rfl
  ⟨parsed, (parse_normalises parsed).2.2.2.2.2.2⟩

end WebSocket.Proto.Handshake
