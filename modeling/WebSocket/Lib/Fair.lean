import WebSocket.Lib.Transition

/-!
# Fair executions

An execution is a run that never ends. Labels are grouped into classes, one for each party that
takes steps; an execution is just to a class if the class is not left out forever while it could
always have moved, and compassionate if it is not left out while it could move again and again.

`Helped.reaches` is the rule for what must happen at last: wherever the goal is not reached, one
class is named that can move and whose move brings the goal nearer in a well-founded order, and
the other classes neither undo the progress nor take the turn away.
-/

namespace Lib.Transition

universe u v w

variable {σ : Type u} {ℓ : Type v} {step : σ → ℓ → Option σ}

/-- Some label of the class is not refused. -/
def Enabled (step : σ → ℓ → Option σ) (A : ℓ → Prop) (s : σ) : Prop := ∃ l t, A l ∧ step s l = some t

structure Execution (step : σ → ℓ → Option σ) where
  state : Nat → σ
  label : Nat → ℓ
  next : ∀ i, step (state i) (label i) = some (state (i + 1))

namespace Execution

variable (e : Execution step)

/-- A class that can move from some time on moves. -/
def Just (A : ℓ → Prop) : Prop :=
  ∀ i, (∀ j, i ≤ j → Enabled step A (e.state j)) → ∃ j, i ≤ j ∧ A (e.label j)

/-- A class that can move again and again moves. -/
def Compassionate (A : ℓ → Prop) : Prop :=
  ∀ i, (∀ j, i ≤ j → ∃ k, j ≤ k ∧ Enabled step A (e.state k)) → ∃ j, i ≤ j ∧ A (e.label j)

theorem reachable {i j : Nat} (h : i ≤ j) : Reachable step (e.state i) (e.state j) := by
  induction h with
  | refl => exact .refl _
  | step _ ih => exact ih.next (e.next _)

/-- A class that cannot move any more is treated justly. -/
theorem Just.of_disabled {e : Execution step} {A : ℓ → Prop} {n : Nat}
    (h : ∀ i, n ≤ i → ¬ Enabled step A (e.state i)) : e.Just A := by
  intro i enabled
  exact absurd (enabled (max n i) (Nat.le_max_right ..)) (h _ (Nat.le_max_left ..))

theorem Compassionate.of_disabled {e : Execution step} {A : ℓ → Prop} {n : Nat}
    (h : ∀ i, n ≤ i → ¬ Enabled step A (e.state i)) : e.Compassionate A := by
  intro i again
  obtain ⟨k, hk, enabled⟩ := again (max n i) (Nat.le_max_right ..)
  exact absurd enabled (h k (Nat.le_trans (Nat.le_max_left ..) hk))

/-- A run that goes on by one label for ever. -/
def lasting {s : σ} (ls : List ℓ) (l : ℓ) (tail : Nat → σ) (run : runs step s ls = some (tail 0))
    (next : ∀ n, step (tail n) l = some (tail (n + 1))) : Execution step where
  state i := if i < ls.length then (runs step s (ls.take i)).getD s else tail (i - ls.length)
  label i := ls.getD i l
  next i := by
    rcases Nat.lt_or_ge i ls.length with hi | hi
    · -- the run up to `i` and its next step
      have split : runs step s (ls.take i ++ ls[i] :: ls.drop (i + 1)) = some (tail 0) := by
        rw [List.getElem_cons_drop, List.take_append_drop]
        exact run
      obtain ⟨t, before, rest⟩ := runs_append_iff.mp split
      obtain ⟨u, move, after⟩ := runs_cons_iff.mp rest
      have upto : runs step s (ls.take (i + 1)) = some u := by
        rw [List.take_succ_eq_append_getElem hi]
        exact runs_append_iff.mpr ⟨t, before, runs_cons_iff.mpr ⟨u, move, rfl⟩⟩
      rw [if_pos hi, before, List.getD_eq_getElem?_getD, List.getElem?_eq_getElem hi, Option.getD_some, Option.getD_some,
        move]
      split
      · rw [upto, Option.getD_some]
      · have all : i + 1 = ls.length := by omega
        rw [all, List.take_length, run] at upto
        rw [all, Nat.sub_self, Option.some.inj upto]
    · rw [if_neg (by omega), if_neg (by omega), List.getD_eq_getElem?_getD, List.getElem?_eq_none hi, Nat.succ_sub hi]
      exact next _

end Execution

/-- From a state with `P` and without `goal` it is the turn of the class `help`: every step keeps `P`
or reaches the goal, and it comes nearer to the goal or leaves the turn where it is. -/
def Helped {κ : Type w} {α : Type w} (step : σ → ℓ → Option σ) (A : κ → ℓ → Prop) (r : α → α → Prop)
    (P goal : σ → Prop) (μ : σ → α) (help : σ → κ) : Prop :=
  ∀ s l t, P s → ¬ goal s → step s l = some t →
    goal t ∨ P t ∧ (r (μ t) (μ s) ∨ μ t = μ s ∧ help t = help s ∧ ¬ A (help s) l)

namespace Helped

variable {κ : Type w} {α : Type w} {A : κ → ℓ → Prop} {r : α → α → Prop} {P goal : σ → Prop} {μ : σ → α}
  {help : σ → κ} {e : Execution step}

/-- Up to any later time the goal was reached, the measure fell, or the same class has the turn. -/
theorem waits (h : Helped step A r P goal μ help) {i : Nat} (hi : P (e.state i)) {j : Nat} (hij : i ≤ j) :
    (∃ k, i ≤ k ∧ goal (e.state k)) ∨ (∃ k, i ≤ k ∧ P (e.state k) ∧ r (μ (e.state k)) (μ (e.state i))) ∨
      P (e.state j) ∧ μ (e.state j) = μ (e.state i) ∧ help (e.state j) = help (e.state i) ∧
        ∀ k, i ≤ k → k < j → ¬ A (help (e.state i)) (e.label k) := by
  induction hij with
  | refl => exact .inr (.inr ⟨hi, rfl, rfl, fun k h1 h2 => absurd h1 (Nat.not_le_of_lt h2)⟩)
  | @step j hij ih =>
    rcases ih with found | fell | ⟨hP, hμ, hh, idle⟩
    · exact .inl found
    · exact .inr (.inl fell)
    · by_cases hg : goal (e.state j)
      · exact .inl ⟨j, hij, hg⟩
      · rcases h _ _ _ hP hg (e.next j) with found | ⟨hP', lower | ⟨same, turn, other⟩⟩
        · exact .inl ⟨j + 1, Nat.le_succ_of_le hij, found⟩
        · exact .inr (.inl ⟨j + 1, Nat.le_succ_of_le hij, hP', hμ ▸ lower⟩)
        · refine .inr (.inr ⟨hP', same.trans hμ, turn.trans hh, fun k hik hkj => ?_⟩)
          rcases Nat.lt_or_eq_of_le (Nat.le_of_lt_succ hkj) with hlt | rfl
          · exact idle k hik hlt
          · rw [hh] at other
            exact other

/-- If a class that keeps the turn moves at last, the goal is reached. -/
theorem reaches (h : Helped step A r P goal μ help) (wf : WellFounded r)
    (moves : ∀ i k, (∀ j, i ≤ j → P (e.state j) ∧ ¬ goal (e.state j) ∧ help (e.state j) = k) →
      ∃ j, i ≤ j ∧ A k (e.label j)) {i : Nat} (hi : P (e.state i)) : ∃ j, i ≤ j ∧ goal (e.state j) := by
  induction hm : μ (e.state i) using wf.induction generalizing i with
  | _ m ih =>
    by_cases stuck : ∀ j, i ≤ j → P (e.state j) ∧ ¬ goal (e.state j) ∧ help (e.state j) = help (e.state i) ∧
        ∀ k, i ≤ k → k < j → ¬ A (help (e.state i)) (e.label k)
    · -- nothing happened, though the class that helps had the turn all the time
      obtain ⟨j, hij, took⟩ := moves i _ fun j hij =>
        ⟨(stuck j hij).1, (stuck j hij).2.1, (stuck j hij).2.2.1⟩
      exact absurd took ((stuck (j + 1) (Nat.le_succ_of_le hij)).2.2.2 j hij (Nat.lt_succ_self j))
    · obtain ⟨j, hj⟩ := Classical.not_forall.mp stuck
      obtain ⟨hij, hj⟩ := Classical.not_imp.mp hj
      rcases h.waits hi hij with found | ⟨k, hik, hP, lower⟩ | ⟨hP, -, hh, idle⟩
      · exact found
      · obtain ⟨j', hkj, found⟩ := ih _ (hm ▸ lower) hP rfl
        exact ⟨j', Nat.le_trans hik hkj, found⟩
      · by_cases hg : goal (e.state j)
        · exact ⟨j, hij, hg⟩
        · exact absurd ⟨hP, hg, hh, idle⟩ hj

/-- An execution that is just to every class reaches the goal, if the class that has the turn can move. -/
theorem reaches_just (h : Helped step A r P goal μ help) (wf : WellFounded r) (just : ∀ k, e.Just (A k))
    (enabled : ∀ s, P s → ¬ goal s → Enabled step (A (help s)) s) {i : Nat} (hi : P (e.state i)) :
    ∃ j, i ≤ j ∧ goal (e.state j) := by
  refine h.reaches wf (fun i k turn => just k i fun j hij => ?_) hi
  obtain ⟨hP, hg, hh⟩ := turn j hij
  rw [← hh]
  exact enabled _ hP hg

end Helped

end Lib.Transition
