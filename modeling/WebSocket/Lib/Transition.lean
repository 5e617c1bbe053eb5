/-!
# Transition systems given by a step function

A step function takes a state and a label to the next state, or refuses. The label
carries every choice of the environment (which thread moves, how many bytes a write
takes), so one label has one outcome and a run is a list of labels.

`runs_induct` is the one induction of every safety proof: a relation that holds of no
step and is kept by one more step holds of whole runs. `invariant` and `monotone` are
its two common readings.
-/

namespace Lib.Transition

universe u v

variable {σ : Type u} {ℓ : Type v} {step : σ → ℓ → Option σ}

/-- The state after a list of labels, if none of them is refused. -/
def runs (step : σ → ℓ → Option σ) : σ → List ℓ → Option σ
  | s, [] => some s
  | s, l :: ls =>
    match step s l with
    | none => none
    | some t => runs step t ls

@[simp] theorem runs_nil (s : σ) : runs step s [] = some s := rfl

theorem runs_cons_iff {s t : σ} {l : ℓ} {ls : List ℓ} :
    runs step s (l :: ls) = some t ↔ ∃ u, step s l = some u ∧ runs step u ls = some t := by
  rw [runs]
  cases h : step s l with
  | none => simp
  | some u => simp

theorem runs_append_iff {s t : σ} {ls ms : List ℓ} :
    runs step s (ls ++ ms) = some t ↔ ∃ u, runs step s ls = some u ∧ runs step u ms = some t := by
  induction ls generalizing s with
  | nil => simp
  | cons l ls ih =>
    rw [List.cons_append, runs_cons_iff]
    constructor
    · rintro ⟨u, hu, h⟩
      obtain ⟨v, hv, hm⟩ := ih.mp h
      exact ⟨v, runs_cons_iff.mpr ⟨u, hu, hv⟩, hm⟩
    · rintro ⟨v, hv, hm⟩
      obtain ⟨u, hu, hl⟩ := runs_cons_iff.mp hv
      exact ⟨u, hu, ih.mpr ⟨v, hl, hm⟩⟩

/-- What holds of the empty run and survives one more step holds of every run. -/
theorem runs_induct {R : σ → Prop} {s : σ} (h0 : R s)
    (h1 : ∀ u l v, R u → step u l = some v → R v) :
    ∀ {ls : List ℓ} {t : σ}, runs step s ls = some t → R t := by
  intro ls
  induction ls generalizing s with
  | nil =>
    intro t h
    cases h
    exact h0
  | cons l ls ih =>
    intro t h
    obtain ⟨u, hu, ht⟩ := runs_cons_iff.mp h
    exact ih (h1 s l u h0 hu) ht

/-- The states a run from `s` can reach. -/
def Reachable (step : σ → ℓ → Option σ) (s t : σ) : Prop := ∃ ls, runs step s ls = some t

theorem Reachable.refl (s : σ) : Reachable step s s := ⟨[], rfl⟩

theorem Reachable.next {s t u : σ} {l : ℓ} (h : Reachable step s t) (hl : step t l = some u) :
    Reachable step s u := by
  obtain ⟨ls, h⟩ := h
  exact ⟨ls ++ [l], runs_append_iff.mpr ⟨t, h, runs_cons_iff.mpr ⟨u, hl, rfl⟩⟩⟩

theorem Reachable.trans {s t u : σ} (h : Reachable step s t) (h' : Reachable step t u) :
    Reachable step s u := by
  obtain ⟨ls, h⟩ := h
  obtain ⟨ms, h'⟩ := h'
  exact ⟨ls ++ ms, runs_append_iff.mpr ⟨t, h, h'⟩⟩

/-- An invariant of the steps from reachable states is one of the reachable states. -/
theorem Reachable.invariant {I : σ → Prop} {s t : σ} (h : Reachable step s t) (h0 : I s)
    (h1 : ∀ u l v, Reachable step s u → I u → step u l = some v → I v) : I t := by
  obtain ⟨ls, h⟩ := h
  have := runs_induct (R := fun u => Reachable step s u ∧ I u) ⟨Reachable.refl s, h0⟩
    (fun u l v hu hv => ⟨hu.1.next hv, h1 u l v hu.1 hu.2 hv⟩) h
  exact this.2

/-- A preorder that every step from a reachable state respects relates the ends of a run. -/
theorem Reachable.monotone {R : σ → σ → Prop} {s t u : σ} (hs : Reachable step s t)
    (h : Reachable step t u) (hr : ∀ a, R a a) (ht : ∀ a b c, R a b → R b c → R a c)
    (h1 : ∀ a l b, Reachable step s a → step a l = some b → R a b) : R t u :=
  h.invariant (hr t) fun _ l _ ha hR hv => ht _ _ _ hR (h1 _ l _ (hs.trans ha) hv)

end Lib.Transition
