import Mathlib.Data.List.Basic

/-!
# Runs of a labelled transition relation

`Steps R s as t` is a run from `s` to `t` whose labels are `as`. Every prefix of a
run is a run, so a statement about the last state of every run is one about every
state on the way.
-/

namespace Lts

variable {σ α : Type*} {R : σ → α → σ → Prop}

inductive Steps (R : σ → α → σ → Prop) : σ → List α → σ → Prop
  | nil (s : σ) : Steps R s [] s
  | snoc {s t u : σ} {as : List α} {a : α} :
      Steps R s as t → R t a u → Steps R s (as ++ [a]) u

namespace Steps
variable {s t u : σ} {as bs : List α}

theorem single {a : α} (h : R s a t) : Steps R s [a] t := snoc (nil s) h

theorem trans (h : Steps R s as t) (h' : Steps R t bs u) : Steps R s (as ++ bs) u := by
  induction h' with
  | nil => simpa using h
  | snoc _ hstep ih => simpa only [List.append_assoc] using snoc ih hstep

theorem cons {a : α} (h : R s a t) (h' : Steps R t as u) : Steps R s (a :: as) u :=
  (single h).trans h'

theorem invariant {P : σ → Prop} (hstep : ∀ s a t, P s → R s a t → P t)
    (h : Steps R s as t) (h0 : P s) : P t := by
  induction h with
  | nil => exact h0
  | snoc _ hs ih => exact hstep _ _ _ ih hs

theorem trace_invariant {P : List α → σ → Prop}
    (hstep : ∀ as s a t, P as s → R s a t → P (as ++ [a]) t)
    (h : Steps R s as t) (h0 : P [] s) : P as t := by
  induction h with
  | nil => exact h0
  | snoc _ hs ih => exact hstep _ _ _ _ ih hs

theorem mono {R' : σ → α → σ → Prop} (hle : ∀ s a t, R s a t → R' s a t)
    (h : Steps R s as t) : Steps R' s as t := by
  induction h with
  | nil => exact nil _
  | snoc _ hs ih => exact snoc ih (hle _ _ _ hs)

theorem simulation_of_invariant {τ β : Type*} {R' : τ → β → τ → Prop} {P : σ → Prop} (f : σ → τ)
    (hkeep : ∀ s a t, P s → R s a t → P t)
    (hstep : ∀ s a t, P s → R s a t → ∃ bs, Steps R' (f s) bs (f t)) (h : Steps R s as t)
    (h0 : P s) : ∃ bs, Steps R' (f s) bs (f t) := by
  induction h with
  | nil => exact ⟨[], nil _⟩
  | snoc hsteps hs ih =>
    have hp := hsteps.invariant hkeep h0
    obtain ⟨bs, hbs⟩ := ih
    obtain ⟨bs', hbs'⟩ := hstep _ _ _ hp hs
    exact ⟨bs ++ bs', hbs.trans hbs'⟩

theorem simulation {τ β : Type*} {R' : τ → β → τ → Prop} (f : σ → τ)
    (hstep : ∀ s a t, R s a t → ∃ bs, Steps R' (f s) bs (f t)) (h : Steps R s as t) :
    ∃ bs, Steps R' (f s) bs (f t) :=
  h.simulation_of_invariant (P := fun _ => True) f (fun _ _ _ _ _ => trivial)
    (fun _ _ _ _ hs => hstep _ _ _ hs) trivial

end Steps

/-- Where a measure can be lowered as long as it is not zero, zero can be reached. -/
theorem reach_zero {P : σ → Prop} {T : σ → σ → Prop} (measure : σ → ℕ) (hrefl : ∀ s, T s s)
    (htrans : ∀ s t u, T s t → T t u → T s u)
    (hlower : ∀ s, P s → 0 < measure s → ∃ t, T s t ∧ P t ∧ measure t < measure s) (s : σ)
    (hs : P s) : ∃ t, T s t ∧ P t ∧ measure t = 0 := by
  induction hn : measure s using Nat.strongRecOn generalizing s with
  | ind n ih =>
    by_cases hzero : measure s = 0
    · exact ⟨s, hrefl s, hs, hzero⟩
    · obtain ⟨t, hst, ht, hlt⟩ := hlower s hs (Nat.pos_of_ne_zero hzero)
      obtain ⟨u, htu, hu, hdone⟩ := ih _ (hn ▸ hlt) t ht rfl
      exact ⟨u, htrans s t u hst htu, hu, hdone⟩

def labels (act : ℕ → α) (n : ℕ) : List α := (List.range n).map act

theorem labels_succ (act : ℕ → α) (n : ℕ) : labels act (n + 1) = labels act n ++ [act n] := by
  rw [labels, List.range_succ, List.map_append]
  rfl

theorem steps_of_forall {run : ℕ → σ} {act : ℕ → α}
    (h : ∀ i, R (run i) (act i) (run (i + 1))) (n : ℕ) :
    Steps R (run 0) (labels act n) (run n) := by
  induction n with
  | zero => exact .nil _
  | succ n ih =>
    rw [labels_succ]
    exact .snoc ih (h n)

theorem countP_labels_mono (act : ℕ → α) (p : α → Bool) {i j : ℕ} (h : i ≤ j) :
    (labels act i).countP p ≤ (labels act j).countP p := by
  induction h with
  | refl => exact Nat.le_refl _
  | @step j _ ih =>
    rw [Nat.succ_eq_add_one, labels_succ, List.countP_append]
    omega

/-- Labels of one kind occur a bounded number of times, and one of them follows as long as
the goal has not been reached. Then it is reached. -/
theorem eventually_of_bounded {act : ℕ → α} {p : α → Bool} {bound start : ℕ} {goal : ℕ → Prop}
    (hbound : ∀ n, (labels act n).countP p ≤ bound)
    (hfair : ∀ i, start ≤ i → ¬ goal i → ∃ j, i ≤ j ∧ p (act j) = true) :
    ∃ i, start ≤ i ∧ goal i := by
  by_contra hnever
  have hgoal : ∀ i, start ≤ i → ¬ goal i := fun i hi h => hnever ⟨i, hi, h⟩
  have hmany : ∀ k, ∃ n, start ≤ n ∧ k ≤ (labels act n).countP p := by
    intro k
    induction k with
    | zero => exact ⟨start, Nat.le_refl _, Nat.zero_le _⟩
    | succ k ih =>
      obtain ⟨n, hn, hk⟩ := ih
      obtain ⟨j, hj, hp⟩ := hfair n hn (hgoal n hn)
      have hle := countP_labels_mono act p hj
      refine ⟨j + 1, by omega, ?_⟩
      rw [labels_succ, List.countP_append, List.countP_singleton, if_pos hp]
      omega
  obtain ⟨n, -, hn⟩ := hmany (bound + 1)
  have hle := hbound n
  omega

end Lts
