import Mathlib.Data.Finset.Card
import Mathlib.Data.Finset.Insert
import Mathlib.Data.Multiset.AddSub

/-!
# Shared resources under a counter

A `Pool` is a machine counter and the shared resources it counts. A resource is named by a
number and lives behind reference counts: `mint` raises the counter and makes the first
reference, `clone` makes another, and whoever drops the last one lowers the counter again.

Dropping is two moves of two words of memory, and other threads may run before, between and
after them. `abandon` puts references whose owner is gone on `dying`; `release` lowers the
reference count of one of them; a resource whose count reached zero is on `falling` until
`settle` lowers the counter.

`Sound P owned` relates a pool to the references that are still owned. `Flow` lists the moves,
and `Flow.sound` is the one proof that they keep it.
-/

namespace Lib.RefCount

structure Pool where
  count : UInt64
  next : Nat
  strong : Nat → Nat
  dying : List Nat
  falling : List Nat

namespace Pool

def empty : Pool := ⟨0, 0, fun _ => 0, [], []⟩

def mint (P : Pool) : Pool :=
  { P with
    count := P.count + 1
    next := P.next + 1
    strong := Function.update P.strong P.next 1 }

def clone (P : Pool) (p : Nat) : Pool :=
  { P with strong := Function.update P.strong p (P.strong p + 1) }

def abandon (P : Pool) (ps : List Nat) : Pool := { P with dying := ps ++ P.dying }

def release (P : Pool) (p : Nat) : Pool :=
  { P with
    strong := Function.update P.strong p (P.strong p - 1)
    dying := P.dying.erase p
    falling := if P.strong p = 1 then p :: P.falling else P.falling }

def settle (P : Pool) (p : Nat) : Pool :=
  { P with count := P.count - 1, falling := P.falling.erase p }

/-- The resources that still have a holder: an owner, or a thread that is dropping them. -/
def held (P : Pool) (owned : Multiset Nat) : Finset Nat :=
  (owned + P.dying + P.falling).toFinset

@[simp] theorem mem_held {P : Pool} {owned : Multiset Nat} {p : Nat} :
    p ∈ P.held owned ↔ p ∈ owned ∨ p ∈ P.dying ∨ p ∈ P.falling := by
  simp [held]

end Pool

/-- The pool counts what is owned: reference by reference, and resource by resource. -/
structure Sound (P : Pool) (owned : Multiset Nat) : Prop where
  strong : ∀ p, P.strong p = owned.count p + P.dying.count p
  known : ∀ p ∈ P.held owned, p < P.next
  distinct : P.falling.Nodup
  fallen : ∀ p ∈ P.falling, P.strong p = 0
  count : P.count.toNat = (P.held owned).card

/-- The moves on a pool under a limit, with what they do to the owned references. -/
inductive Flow (limit : UInt64) (P : Pool) (owned : Multiset Nat) : Pool → Multiset Nat → Prop where
  | stay : Flow limit P owned P owned
  | mint (room : P.count < limit) : Flow limit P owned P.mint (P.next ::ₘ owned)
  | clone (p : Nat) (hp : p ∈ owned) : Flow limit P owned (P.clone p) (p ::ₘ owned)
  | abandon (ps : List Nat) {owned' : Multiset Nat} (hps : owned = ps + owned') :
      Flow limit P owned (P.abandon ps) owned'
  | release (p : Nat) (hp : p ∈ P.dying) : Flow limit P owned (P.release p) owned
  | settle (p : Nat) (hp : p ∈ P.falling) : Flow limit P owned (P.settle p) owned

section

variable {P : Pool} {owned : Multiset Nat} {p : Nat}

theorem Sound.empty : Sound .empty 0 where
  strong p := by simp [Pool.empty]
  known p hp := by simp [Pool.empty] at hp
  distinct := List.nodup_nil
  fallen p hp := by simp [Pool.empty] at hp
  count := rfl

/-- A counted resource keeps the counter from being lowered below zero. -/
theorem Sound.one_le (h : Sound P owned) (hp : p ∈ P.held owned) : 1 ≤ P.count := by
  rw [UInt64.le_iff_toNat_le, h.count]
  exact Finset.card_pos.mpr ⟨p, hp⟩

theorem Sound.strong_eq_zero (h : Sound P owned) : P.strong p = 0 ↔ p ∉ owned ∧ p ∉ P.dying := by
  rw [h.strong, Nat.add_eq_zero_iff, Multiset.count_eq_zero, List.count_eq_zero]

theorem Sound.fresh (h : Sound P owned) : P.next ∉ P.held owned := fun hn =>
  absurd (h.known _ hn) (Nat.lt_irrefl _)

/-- Below a limit the counter does not wrap. -/
theorem toNat_mint_count {limit : UInt64} (room : P.count < limit) : P.mint.count.toNat = P.count.toNat + 1 := by
  have hlt := UInt64.lt_iff_toNat_lt.mp room
  have hl := limit.toNat_lt
  have hone : (1 : UInt64).toNat = 1 := rfl
  rw [Pool.mint, UInt64.toNat_add, hone]
  exact Nat.mod_eq_of_lt (by omega)

theorem Sound.mint {limit : UInt64} (h : Sound P owned) (room : P.count < limit) :
    Sound P.mint (P.next ::ₘ owned) := by
  have hheld : P.mint.held (P.next ::ₘ owned) = insert P.next (P.held owned) := by
    ext q
    simp [Pool.mint, or_assoc]
  have hnew := h.fresh
  refine ⟨fun q => ?_, fun q hq => ?_, h.distinct, fun q hq => ?_, ?_⟩
  · by_cases hq : q = P.next
    · subst hq
      have hz : P.strong P.next = 0 := h.strong_eq_zero.mpr ⟨fun hm => hnew (by simp [hm]), fun hm => hnew (by simp [hm])⟩
      have hs := h.strong P.next
      simp only [Pool.mint, Function.update_self, Multiset.count_cons_self]
      omega
    · simp [Pool.mint, hq, h.strong q]
  · rw [hheld, Finset.mem_insert] at hq
    rcases hq with rfl | hq
    · exact Nat.lt_succ_self _
    · exact Nat.lt_succ_of_lt (h.known q hq)
  · have hne : q ≠ P.next := by
      rintro rfl
      exact hnew (by simp [show P.next ∈ P.falling from hq])
    simpa [Pool.mint, hne] using h.fallen q hq
  · rw [hheld, Finset.card_insert_of_notMem hnew, ← h.count]
    exact toNat_mint_count room

theorem Sound.clone (h : Sound P owned) (hp : p ∈ owned) : Sound (P.clone p) (p ::ₘ owned) := by
  have hheld : (P.clone p).held (p ::ₘ owned) = P.held owned := by
    ext q
    simp only [Pool.mem_held, Multiset.mem_cons, Pool.clone]
    constructor
    · rintro ((rfl | hq) | hq)
      · exact .inl hp
      · exact .inl hq
      · exact .inr hq
    · rintro (hq | hq)
      · exact .inl (.inr hq)
      · exact .inr hq
  refine ⟨fun q => ?_, fun q hq => h.known q (hheld ▸ hq), h.distinct, fun q hq => ?_, hheld ▸ h.count⟩
  · by_cases hq : q = p
    · subst hq
      simp only [Pool.clone, Function.update_self, Multiset.count_cons_self, h.strong q]
      omega
    · simp [Pool.clone, hq, h.strong q]
  · have hne : q ≠ p := by
      rintro rfl
      exact (h.strong_eq_zero.mp (h.fallen q hq)).1 hp
    simpa [Pool.clone, hne] using h.fallen q hq

theorem Sound.abandon {ps : List Nat} (h : Sound P (ps + owned)) : Sound (P.abandon ps) owned := by
  have hheld : (P.abandon ps).held owned = P.held (ps + owned) := by
    ext q
    simp only [Pool.mem_held, Pool.abandon, List.mem_append, Multiset.mem_add, Multiset.mem_coe]
    tauto
  refine ⟨fun q => ?_, fun q hq => h.known q (hheld ▸ hq), h.distinct, h.fallen, hheld ▸ h.count⟩
  have hs := h.strong q
  simp only [Multiset.count_add, Multiset.coe_count] at hs
  simp only [Pool.abandon, List.count_append, hs]
  omega

/-- The resource does not change sides: it is dying still, or it falls. -/
theorem Sound.release (h : Sound P owned) (hp : p ∈ P.dying) : Sound (P.release p) owned := by
  have hpos := List.count_pos_iff.mpr hp
  have hstrong (q : Nat) : (P.release p).strong q = owned.count q + (P.release p).dying.count q := by
    by_cases hq : q = p
    · subst hq
      simp only [Pool.release, Function.update_self, List.count_erase_self, h.strong q]
      omega
    · simp [Pool.release, hq, h.strong q, List.count_erase_of_ne hq]
  have hheld : (P.release p).held owned = P.held owned := by
    ext q
    simp only [Pool.mem_held]
    by_cases hq : q = p
    · subst hq
      refine iff_of_true ?_ (.inr (.inl hp))
      by_cases hlast : P.strong q = 1
      · exact .inr (.inr (by simp [Pool.release, hlast]))
      · have hs := h.strong q
        have hr := hstrong q
        simp only [Pool.release, Function.update_self] at hr
        by_cases ho : q ∈ owned
        · exact .inl ho
        · have hz := Multiset.count_eq_zero.mpr ho
          exact .inr (.inl (List.count_pos_iff.mp (by simp only [Pool.release]; omega)))
    · by_cases hlast : P.strong p = 1
      · simp [Pool.release, hlast, hq, List.mem_erase_of_ne hq]
      · simp [Pool.release, hlast, List.mem_erase_of_ne hq]
  have hout : p ∉ P.falling := fun hf => (h.strong_eq_zero.mp (h.fallen p hf)).2 hp
  refine ⟨hstrong, fun q hq => h.known q (hheld ▸ hq), ?_, fun q hq => ?_, hheld ▸ h.count⟩
  · simp only [Pool.release]
    split
    · exact List.nodup_cons.mpr ⟨hout, h.distinct⟩
    · exact h.distinct
  · by_cases hqp : q = p
    · subst hqp
      simp only [Pool.release] at hq
      split at hq
      · rename_i hlast
        simp [Pool.release, hlast]
      · exact absurd hq hout
    · have hq' : q ∈ P.falling := by
        simp only [Pool.release] at hq
        split at hq
        · exact (List.mem_cons.mp hq).resolve_left hqp
        · exact hq
      simpa [Pool.release, hqp] using h.fallen q hq'

theorem Sound.settle (h : Sound P owned) (hp : p ∈ P.falling) : Sound (P.settle p) owned := by
  have hgone := h.strong_eq_zero.mp (h.fallen p hp)
  have hmem : p ∈ P.held owned := by simp [hp]
  have hheld : (P.settle p).held owned = (P.held owned).erase p := by
    ext q
    simp only [Pool.mem_held, Finset.mem_erase, Pool.settle]
    by_cases hq : q = p
    · subst hq
      simp [hgone.1, hgone.2, h.distinct.not_mem_erase]
    · simp [hq, List.mem_erase_of_ne hq]
  refine ⟨h.strong, fun q hq => ?_, h.distinct.erase p, fun q hq => h.fallen q (List.mem_of_mem_erase hq), ?_⟩
  · rw [hheld] at hq
    exact h.known q (Finset.mem_of_mem_erase hq)
  · rw [hheld, Finset.card_erase_of_mem hmem, ← h.count]
    exact UInt64.toNat_sub_of_le _ _ (h.one_le hmem)

variable {limit : UInt64} {P' : Pool} {owned' : Multiset Nat}

theorem Flow.sound (hf : Flow limit P owned P' owned') (h : Sound P owned) : Sound P' owned' := by
  cases hf with
  | stay => exact h
  | mint room => exact h.mint room
  | clone p hp => exact h.clone hp
  | abandon ps hps => exact (hps ▸ h).abandon
  | release p hp => exact h.release hp
  | settle p hp => exact h.settle hp

/-- The counter stays within the limit that every `mint` checks. -/
theorem Flow.le_limit (hf : Flow limit P owned P' owned') (h : Sound P owned) (hl : P.count ≤ limit) :
    P'.count ≤ limit := by
  cases hf with
  | stay => exact hl
  | mint room =>
    rw [UInt64.le_iff_toNat_le]
    exact toNat_mint_count room ▸ UInt64.lt_iff_toNat_lt.mp room
  | clone p hp => exact hl
  | abandon ps hps => exact hl
  | release p hp => exact hl
  | settle p hp =>
    have hone := h.one_le (show p ∈ P.held owned by simp [hp])
    rw [UInt64.le_iff_toNat_le] at hl ⊢
    have hsub : (P.settle p).count.toNat = P.count.toNat - 1 := UInt64.toNat_sub_of_le _ _ hone
    omega

end

end Lib.RefCount
