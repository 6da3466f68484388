import Mathlib.Data.List.Basic
import Mathlib.Data.List.TakeDrop

/-!
# Runs of a deterministic machine with outputs

A machine is a step function `σ → δ → σ × ρ`. A run consumes a list of inputs
and returns the final state with one output per input. The batch lemmas say
that a run does not depend on how its input list is cut into pieces, and the
simulation rule carries a step-wise relation between two machines to their runs.
-/

namespace Mealy

variable {σ δ ρ : Type*} (step : σ → δ → σ × ρ)

def run : σ → List δ → σ × List ρ
  | s, [] => (s, [])
  | s, d :: ds =>
    let next := step s d
    let rest := run next.1 ds
    (rest.1, next.2 :: rest.2)

def final (s : σ) (ds : List δ) : σ := (run step s ds).1

def outputs (s : σ) (ds : List δ) : List ρ := (run step s ds).2

@[simp] theorem final_nil (s : σ) : final step s [] = s := rfl

@[simp] theorem outputs_nil (s : σ) : outputs step s [] = [] := rfl

@[simp] theorem final_cons (s : σ) (d : δ) (ds : List δ) :
    final step s (d :: ds) = final step (step s d).1 ds := rfl

@[simp] theorem outputs_cons (s : σ) (d : δ) (ds : List δ) :
    outputs step s (d :: ds) = (step s d).2 :: outputs step (step s d).1 ds := rfl

theorem final_append (s : σ) (ds es : List δ) :
    final step s (ds ++ es) = final step (final step s ds) es := by
  induction ds generalizing s with
  | nil => rfl
  | cons d ds ih => exact ih (step s d).1

theorem outputs_append (s : σ) (ds es : List δ) :
    outputs step s (ds ++ es) = outputs step s ds ++ outputs step (final step s ds) es := by
  induction ds generalizing s with
  | nil => rfl
  | cons d ds ih => simp [ih]

@[simp] theorem length_outputs (s : σ) (ds : List δ) :
    (outputs step s ds).length = ds.length := by
  induction ds generalizing s with
  | nil => rfl
  | cons d ds ih => simp [ih]

theorem final_concat (s : σ) (ds : List δ) (d : δ) :
    final step s (ds ++ [d]) = (step (final step s ds) d).1 := by
  rw [final_append]
  rfl

theorem outputs_concat (s : σ) (ds : List δ) (d : δ) :
    outputs step s (ds ++ [d]) = outputs step s ds ++ [(step (final step s ds) d).2] := by
  rw [outputs_append]
  rfl

theorem outputs_getElem? (s : σ) (ds : List δ) (i : ℕ) :
    (outputs step s ds)[i]? = ds[i]?.map fun d => (step (final step s (ds.take i)) d).2 := by
  induction ds generalizing s i with
  | nil => simp
  | cons d ds ih =>
    cases i with
    | zero => simp
    | succ i => simpa using ih (step s d).1 i

def batches : σ → List (List δ) → σ × List ρ
  | s, [] => (s, [])
  | s, b :: bs =>
    let rest := batches (final step s b) bs
    (rest.1, outputs step s b ++ rest.2)

theorem batches_eq_run (s : σ) (bs : List (List δ)) :
    batches step s bs = run step s bs.flatten := by
  induction bs generalizing s with
  | nil => rfl
  | cons b bs ih =>
    have hf := final_append step s b bs.flatten
    have ho := outputs_append step s b bs.flatten
    simp only [batches, ih, List.flatten_cons]
    exact Prod.ext hf.symm ho.symm

section Simulation
variable {σ' δ' ρ' : Type*} (step' : σ' → δ' → σ' × ρ')

theorem run_simulation {R : σ → σ' → Prop} (f : δ → δ') (g : ρ' → ρ)
    (hstep : ∀ s t d, R s t →
      R (step s d).1 (step' t (f d)).1 ∧ (step s d).2 = g (step' t (f d)).2)
    {s : σ} {t : σ'} (h : R s t) (ds : List δ) :
    R (final step s ds) (final step' t (ds.map f)) ∧
      outputs step s ds = (outputs step' t (ds.map f)).map g := by
  induction ds generalizing s t with
  | nil => exact ⟨h, rfl⟩
  | cons d ds ih =>
    obtain ⟨hR, ho⟩ := hstep s t d h
    obtain ⟨hf, hos⟩ := ih hR
    refine ⟨hf, ?_⟩
    simp only [outputs_cons, List.map_cons, ho, hos]

end Simulation

section Projection
variable {τ : Type*} (step' : τ → δ → τ × ρ)

/-- A part of the state that only the inputs in `p` read or write evolves as if the
others were not there, and so do the outputs to those inputs. -/
theorem run_project (f : σ → τ) (p : δ → Bool)
    (hown : ∀ s d, p d = true →
      f (step s d).1 = (step' (f s) d).1 ∧ (step s d).2 = (step' (f s) d).2)
    (hother : ∀ s d, p d = false → f (step s d).1 = f s) (s : σ) (ds : List δ) :
    f (final step s ds) = final step' (f s) (ds.filter p) ∧
      ((ds.zip (outputs step s ds)).filter fun x => p x.1).map Prod.snd =
        outputs step' (f s) (ds.filter p) := by
  induction ds generalizing s with
  | nil => exact ⟨rfl, rfl⟩
  | cons d ds ih =>
    obtain ⟨hf, ho⟩ := ih (step s d).1
    cases hp : p d with
    | true =>
      obtain ⟨hstep, hout⟩ := hown s d hp
      rw [hstep] at hf ho
      simp only [final_cons, outputs_cons, List.zip_cons_cons, List.filter_cons, hp, if_true,
        List.map_cons]
      exact ⟨hf, by rw [ho, hout]⟩
    | false =>
      rw [hother s d hp] at hf ho
      simp only [final_cons, outputs_cons, List.zip_cons_cons, List.filter_cons, hp]
      exact ⟨hf, ho⟩

end Projection

section Component
variable {τ β γ : Type*} (step' : τ → β → τ × γ)

/-- A part of the machine that is a machine itself: `pick` is the input it gets from an
input of the whole, `seen` what is to be seen of an output of its own. -/
theorem run_component (f : σ → τ) (pick : δ → Option β) (seen : ρ → Option γ) {ds : List δ}
    (hown : ∀ s, ∀ d ∈ ds, ∀ b ∈ pick d, f (step s d).1 = (step' (f s) b).1 ∧
      seen (step s d).2 = some (step' (f s) b).2)
    (hother : ∀ s, ∀ d ∈ ds, pick d = none → f (step s d).1 = f s ∧ seen (step s d).2 = none)
    (s : σ) :
    f (final step s ds) = final step' (f s) (ds.filterMap pick) ∧
      (outputs step s ds).filterMap seen = outputs step' (f s) (ds.filterMap pick) := by
  induction ds generalizing s with
  | nil => exact ⟨rfl, rfl⟩
  | cons d ds ih =>
    obtain ⟨hf, ho⟩ := ih (fun s x hx => hown s x (List.mem_cons_of_mem _ hx))
      (fun s x hx => hother s x (List.mem_cons_of_mem _ hx)) (step s d).1
    cases hp : pick d with
    | none =>
      obtain ⟨hsame, hseen⟩ := hother s d List.mem_cons_self hp
      rw [hsame] at hf ho
      rw [outputs_cons, List.filterMap_cons_none hseen, List.filterMap_cons_none hp]
      exact ⟨hf, ho⟩
    | some b =>
      obtain ⟨hstep, hseen⟩ := hown s d List.mem_cons_self b hp
      rw [hstep] at hf ho
      rw [outputs_cons, List.filterMap_cons_some hseen, List.filterMap_cons_some hp, ho]
      exact ⟨hf, rfl⟩

end Component
end Mealy
