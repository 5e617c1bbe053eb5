import Mathlib.Data.List.Basic

/-!
# Histories

Facts about the order of events in a history that only grows at its end. `Since P Q t`:
there was a `Q` after the last `P` of `t`. `Between P Q t`: there is a `Q` between any two
`P`s. `Each P Q t`: every `P` has a `Q` of its own before it. `Always J t`: every event
is one that those before it allow. The snoc lemmas say how one
more event keeps them. `Recent a t`: `a` has some of the events of `t` in order, the latest among
them.
-/

namespace Lib.History

universe u

variable {α : Type u} {P Q : α → Prop} {t : List α} {z : α}

/-- After the last `P`, if any, there was a `Q`. -/
def Since (P Q : α → Prop) (t : List α) : Prop := ∃ a b, t = a ++ b ∧ (∀ x ∈ b, ¬ P x) ∧ ∃ q ∈ b, Q q

/-- Between any two `P`s there is a `Q`. -/
def Between (P Q : α → Prop) (t : List α) : Prop :=
  ∀ a b c x y, t = a ++ x :: (b ++ y :: c) → P x → P y → ∃ q ∈ b, Q q

/-- Before every `P` there was a `Q` since the `P` before. -/
def Each (P Q : α → Prop) (t : List α) : Prop := ∀ a x c, t = a ++ x :: c → P x → Since P Q a

theorem Since.snoc (h : Since P Q t) (hz : ¬ P z) : Since P Q (t ++ [z]) := by
  obtain ⟨a, b, rfl, hb, q, hq, hQ⟩ := h
  refine ⟨a, b ++ [z], List.append_assoc .., ?_, q, List.mem_append_left _ hq, hQ⟩
  exact List.forall_mem_append.mpr ⟨hb, List.forall_mem_singleton.mpr hz⟩

theorem Since.append (h : Since P Q t) {u : List α} (hu : ∀ x ∈ u, ¬ P x) : Since P Q (t ++ u) := by
  obtain ⟨a, b, rfl, hb, q, hq, hQ⟩ := h
  exact ⟨a, b ++ u, List.append_assoc .., List.forall_mem_append.mpr ⟨hb, hu⟩, q, List.mem_append_left _ hq, hQ⟩

theorem Since.of_last (hz : ¬ P z) (hQ : Q z) : Since P Q (t ++ [z]) :=
  ⟨t, [z], rfl, List.forall_mem_singleton.mpr hz, z, List.mem_singleton_self z, hQ⟩

theorem Between.nil : Between P Q ([] : List α) := by
  intro a b c x y h
  simp at h

/-- The end of `a ++ x :: (b ++ y :: c)` is its last event, or lies in `c`. -/
theorem split_snoc {a b c : List α} {x y : α} (h : t ++ [z] = a ++ x :: (b ++ y :: c)) :
    (c = [] ∧ z = y ∧ t = a ++ x :: b) ∨ ∃ d, c = d ++ [z] ∧ t = a ++ x :: (b ++ y :: d) := by
  rcases List.eq_nil_or_concat c with rfl | ⟨d, w, rfl⟩
  · left
    have h' : t ++ [z] = (a ++ x :: b) ++ [y] := by simpa using h
    obtain ⟨h1, h2⟩ := List.append_inj' h' rfl
    exact ⟨rfl, by simpa using h2, h1⟩
  · right
    have h' : t ++ [z] = (a ++ x :: (b ++ y :: d)) ++ [w] := by simpa using h
    obtain ⟨h1, h2⟩ := List.append_inj' h' rfl
    refine ⟨d, ?_, h1⟩
    rw [show z = w by simpa using h2, List.concat_eq_append]

theorem Between.snoc_other (h : Between P Q t) (hz : ¬ P z) : Between P Q (t ++ [z]) := by
  intro a b c x y heq hx hy
  rcases split_snoc heq with ⟨-, rfl, -⟩ | ⟨d, -, ht⟩
  · exact absurd hy hz
  · exact h a b d x y ht hx hy

theorem Between.append (h : Between P Q t) {u : List α} (hu : ∀ x ∈ u, ¬ P x) : Between P Q (t ++ u) := by
  induction u generalizing t with
  | nil => simpa using h
  | cons z u ih =>
    rw [List.forall_mem_cons] at hu
    have := ih (h.snoc_other hu.1) hu.2
    simpa using this

/-- One more `P` after a `Q`. -/
theorem Between.snoc (h : Between P Q t) (hs : Since P Q t) : Between P Q (t ++ [z]) := by
  intro a b c x y heq hx hy
  rcases split_snoc heq with ⟨-, -, ht⟩ | ⟨d, -, ht⟩
  · -- the last `P` of `t` is `x` or later, so the `Q` since then lies in `b`
    obtain ⟨a', b', rfl, hb', q, hq, hQ⟩ := hs
    rcases List.append_eq_append_iff.mp ht with ⟨l, rfl, hl⟩ | ⟨l, rfl, hl⟩
    · cases l with
      | nil =>
        have : x ∈ b' := by
          rw [List.nil_append] at hl
          rw [hl]
          exact List.mem_cons_self ..
        exact absurd hx (hb' x this)
      | cons w l =>
        have : x ∈ b' := by
          rw [hl]
          simp
        exact absurd hx (hb' x this)
    · cases l with
      | nil =>
        have : x ∈ b' := by
          rw [List.nil_append] at hl
          rw [← hl]
          exact List.mem_cons_self ..
        exact absurd hx (hb' x this)
      | cons w l =>
        simp only [List.cons_append, List.cons.injEq] at hl
        refine ⟨q, ?_, hQ⟩
        rw [hl.2]
        exact List.mem_append_right _ hq
  · exact h a b d x y ht hx hy

theorem Each.nil : Each P Q ([] : List α) := by
  intro a x c h
  simp at h

theorem snoc_cases {a c : List α} {x : α} (h : t ++ [z] = a ++ x :: c) :
    (z = x ∧ t = a) ∨ ∃ d, t = a ++ x :: d := by
  rcases List.eq_nil_or_concat c with rfl | ⟨d, w, rfl⟩
  · obtain ⟨h1, h2⟩ := List.append_inj' h rfl
    exact .inl ⟨by simpa using h2, h1⟩
  · have h' : t ++ [z] = (a ++ x :: d) ++ [w] := by simpa using h
    exact .inr ⟨d, (List.append_inj' h' rfl).1⟩

theorem Each.snoc_other (h : Each P Q t) (hz : ¬ P z) : Each P Q (t ++ [z]) := by
  intro a x c heq hx
  rcases snoc_cases heq with ⟨rfl, -⟩ | ⟨d, ht⟩
  · exact absurd hx hz
  · exact h a x d ht hx

theorem Each.snoc (h : Each P Q t) (hs : Since P Q t) : Each P Q (t ++ [z]) := by
  intro a x c heq hx
  rcases snoc_cases heq with ⟨-, rfl⟩ | ⟨d, ht⟩
  · exact hs
  · exact h a x d ht hx

/-- Every event is one that those before it allow. -/
def Always (J : List α → α → Prop) (t : List α) : Prop := ∀ a x c, t = a ++ x :: c → J a x

theorem Always.nil {J : List α → α → Prop} : Always J [] := by
  intro a x c h
  simp at h

theorem Always.snoc {J : List α → α → Prop} (h : Always J t) (hz : J t z) : Always J (t ++ [z]) := by
  intro a x c heq
  rcases snoc_cases heq with ⟨rfl, rfl⟩ | ⟨d, ht⟩
  · exact hz
  · exact h a x d ht

/-- Events of which none may follow another happen once at most. -/
theorem countP_le_one {p : α → Bool} (h : t.Pairwise fun a b => p a = true → p b = false) : t.countP p ≤ 1 := by
  induction t with
  | nil => exact Nat.zero_le 1
  | cons a t ih =>
    rw [List.pairwise_cons] at h
    cases ha : p a with
    | false =>
      rw [List.countP_cons_of_neg (by simp [ha])]
      exact ih h.2
    | true =>
      have none : t.countP p = 0 := List.countP_eq_zero.mpr fun b hb => by simp [h.1 b hb ha]
      have one : (a :: t).countP p = 1 := by rw [List.countP_cons_of_pos ha, none]
      exact Nat.le_of_eq one

/-! ## The latest event -/

/-- `a` has some of the events of `t`, in order, and the latest of them last. -/
def Recent (a t : List α) : Prop := t = [] ∨ ∃ x y z, a = x ++ [z] ∧ t = y ++ [z] ∧ x.Sublist y

theorem Recent.snoc {a : List α} (h : a.Sublist t) (z : α) : Recent (a ++ [z]) (t ++ [z]) :=
  .inr ⟨a, t, z, rfl, rfl, h⟩

/-- Earlier events may be dropped. -/
theorem Recent.drop {u v w : List α} (h : Recent (u ++ v ++ w) t) (hw : w ≠ []) : Recent (u ++ w) t := by
  rcases h with h | ⟨x, y, z, ha, ht, hs⟩
  · exact .inl h
  · obtain ⟨w', z', rfl⟩ : ∃ w' z', w = w' ++ [z'] := by
      rcases List.eq_nil_or_concat w with rfl | ⟨w', z', rfl⟩
      · exact absurd rfl hw
      · exact ⟨w', z', List.concat_eq_append⟩
    rw [← List.append_assoc] at ha
    obtain ⟨rfl, hz⟩ := List.append_inj' ha rfl
    cases hz
    refine .inr ⟨u ++ w', y, z, (List.append_assoc ..).symm, ht, List.Sublist.trans ?_ hs⟩
    exact (List.sublist_append_left u v).append (List.Sublist.refl w')

end Lib.History
