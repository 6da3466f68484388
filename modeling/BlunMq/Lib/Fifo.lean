import Mathlib.Data.List.Basic
import Mathlib.Data.List.Induction
import Mathlib.Data.List.TakeDrop
import Mathlib.Logic.Function.Basic
import BlunMq.Lib.Mealy

/-!
# First-in first-out queues with numbered elements

`Fifo α` remembers everything ever pushed and how many elements were taken from
the front, so an element keeps the number of pushes before it as its name. A
`Bank κ α` is a family of such queues under keys, driven by a list of requests.
The history theorems read the whole state of a bank off its requests and answers.
-/

structure Fifo (α : Type*) where
  pushed : List α
  taken : ℕ
  taken_le : taken ≤ pushed.length

namespace Fifo
variable {α κ : Type*}

def numbered (xs : List α) : List (ℕ × α) := xs.mapIdx Prod.mk

@[simp] theorem length_numbered (xs : List α) : (numbered xs).length = xs.length := by
  simp [numbered]

@[simp] theorem numbered_concat (xs : List α) (x : α) :
    numbered (xs ++ [x]) = numbered xs ++ [(xs.length, x)] := by
  simp [numbered, List.mapIdx_append]

theorem numbered_getElem? (xs : List α) (i : ℕ) :
    (numbered xs)[i]? = xs[i]?.map fun x => (i, x) := by
  simp [numbered]

theorem mem_numbered {xs : List α} {i : ℕ} {x : α} :
    (i, x) ∈ numbered xs ↔ xs[i]? = some x := by
  simp only [List.mem_iff_getElem?, numbered_getElem?, Option.map_eq_some_iff, Prod.mk.injEq]
  constructor
  · rintro ⟨j, y, hy, rfl, rfl⟩
    exact hy
  · intro h
    exact ⟨i, x, h, rfl, rfl⟩

theorem numbered_map_fst (xs : List α) : (numbered xs).map Prod.fst = List.range xs.length := by
  apply List.ext_getElem?
  intro i
  simp only [List.getElem?_map, numbered_getElem?, Option.map_map]
  by_cases h : i < xs.length
  · simp [h]
  · simp [h]

def empty : Fifo α := ⟨[], 0, Nat.zero_le _⟩

def push (f : Fifo α) (a : α) : Fifo α :=
  ⟨f.pushed ++ [a], f.taken, Nat.le_trans f.taken_le (by simp)⟩

def waiting (f : Fifo α) : List (ℕ × α) := (numbered f.pushed).drop f.taken

def pop (f : Fifo α) : Fifo α × Option (ℕ × α) :=
  if h : f.taken < f.pushed.length then
    (⟨f.pushed, f.taken + 1, h⟩, some (f.taken, f.pushed[f.taken]))
  else (f, none)

@[simp] theorem push_pushed (f : Fifo α) (a : α) : (f.push a).pushed = f.pushed ++ [a] := rfl

@[simp] theorem push_taken (f : Fifo α) (a : α) : (f.push a).taken = f.taken := rfl

@[simp] theorem pop_pushed (f : Fifo α) : f.pop.1.pushed = f.pushed := by
  unfold pop
  split <;> rfl

@[simp] theorem length_waiting (f : Fifo α) :
    f.waiting.length = f.pushed.length - f.taken := by
  simp [waiting]

theorem waiting_push (f : Fifo α) (a : α) :
    (f.push a).waiting = f.waiting ++ [(f.pushed.length, a)] := by
  have h : f.taken ≤ (numbered f.pushed).length := by simpa using f.taken_le
  simp only [waiting, push_pushed, push_taken, numbered_concat]
  exact List.drop_append_of_le_length h

theorem pop_of_lt (f : Fifo α) (h : f.taken < f.pushed.length) :
    f.pop = (⟨f.pushed, f.taken + 1, h⟩, some (f.taken, f.pushed[f.taken])) := dif_pos h

theorem pop_of_not_lt (f : Fifo α) (h : ¬ f.taken < f.pushed.length) : f.pop = (f, none) :=
  dif_neg h

theorem waiting_of_lt (f : Fifo α) (h : f.taken < f.pushed.length) :
    f.waiting = (f.taken, f.pushed[f.taken]) :: (numbered f.pushed).drop (f.taken + 1) := by
  have h' : f.taken < (numbered f.pushed).length := by simpa using h
  rw [waiting, List.drop_eq_getElem_cons h']
  simp [numbered]

theorem waiting_of_not_lt (f : Fifo α) (h : ¬ f.taken < f.pushed.length) : f.waiting = [] := by
  apply List.eq_nil_of_length_eq_zero
  rw [length_waiting]
  omega

theorem pop_waiting (f : Fifo α) :
    f.pop.2 = f.waiting.head? ∧ f.pop.1.waiting = f.waiting.tail := by
  by_cases h : f.taken < f.pushed.length
  · rw [pop_of_lt f h, waiting_of_lt f h]
    exact ⟨rfl, rfl⟩
  · rw [pop_of_not_lt f h, waiting_of_not_lt f h]
    exact ⟨rfl, rfl⟩

theorem pop_none_iff (f : Fifo α) : f.pop.2 = none ↔ f.taken = f.pushed.length := by
  have hle := f.taken_le
  by_cases h : f.taken < f.pushed.length
  · rw [pop_of_lt f h]
    simp
    omega
  · rw [pop_of_not_lt f h]
    simp
    omega

def served (f : Fifo α) : List (ℕ × α) := (numbered f.pushed).take f.taken

theorem served_append_waiting (f : Fifo α) : f.served ++ f.waiting = numbered f.pushed :=
  List.take_append_drop _ _

@[simp] theorem length_served (f : Fifo α) : f.served.length = f.taken := by
  have h := f.taken_le
  simp [served, h]

theorem served_push (f : Fifo α) (a : α) : (f.push a).served = f.served := by
  have h : f.taken ≤ (numbered f.pushed).length := by simpa using f.taken_le
  simp only [served, push_pushed, push_taken, numbered_concat]
  exact List.take_append_of_le_length h

theorem served_pop (f : Fifo α) : f.pop.1.served = f.served ++ f.pop.2.toList := by
  by_cases h : f.taken < f.pushed.length
  · rw [pop_of_lt f h]
    simp only [served]
    rw [List.take_add_one, numbered_getElem?, List.getElem?_eq_getElem h]
    rfl
  · rw [pop_of_not_lt f h]
    simp

def Grows (f g : Fifo α) : Prop := f.pushed <+: g.pushed ∧ f.taken ≤ g.taken

theorem Grows.refl (f : Fifo α) : f.Grows f := ⟨List.prefix_rfl, Nat.le_refl _⟩

theorem Grows.trans {f g h : Fifo α} (hfg : f.Grows g) (hgh : g.Grows h) : f.Grows h :=
  ⟨hfg.1.trans hgh.1, Nat.le_trans hfg.2 hgh.2⟩

theorem Grows.eq_of_counts {f g : Fifo α} (h : f.Grows g)
    (hp : f.pushed.length = g.pushed.length) (ht : f.taken = g.taken) : f = g := by
  cases f
  cases g
  congr
  exact h.1.eq_of_length hp

theorem Grows.antisymm {f g : Fifo α} (hfg : f.Grows g) (hgf : g.Grows f) : f = g :=
  hfg.eq_of_counts (Nat.le_antisymm hfg.1.length_le hgf.1.length_le)
    (Nat.le_antisymm hfg.2 hgf.2)

theorem grows_push (f : Fifo α) (a : α) : f.Grows (f.push a) :=
  ⟨List.prefix_append _ _, Nat.le_refl _⟩

theorem grows_pop (f : Fifo α) : f.Grows f.pop.1 := by
  unfold pop
  split
  · exact ⟨List.prefix_rfl, Nat.le_succ _⟩
  · exact Grows.refl f

inductive Request (κ α : Type*)
  | push (k : κ) (a : α)
  | pop (k : κ)

inductive Answer (α : Type*)
  | pushed (n : ℕ)
  | popped (r : Option (ℕ × α))

abbrev Bank (κ α : Type*) := κ → Fifo α

namespace Bank
variable [DecidableEq κ]

def step (b : Bank κ α) : Request κ α → Bank κ α × Answer α
  | .push k a => (Function.update b k ((b k).push a), .pushed (b k).pushed.length)
  | .pop k => (Function.update b k (b k).pop.1, .popped (b k).pop.2)

def start : Bank κ α := fun _ => Fifo.empty

def pushesTo (k : κ) (rs : List (Request κ α)) : List α :=
  rs.filterMap fun
    | .push k' a => if k' = k then some a else none
    | .pop _ => none

def popsFrom (k : κ) (rs : List (Request κ α)) (as : List (Answer α)) : List (ℕ × α) :=
  (rs.zip as).filterMap fun
    | (.pop k', .popped r) => if k' = k then r else none
    | _ => none

theorem pushesTo_append (k : κ) (rs ss : List (Request κ α)) :
    pushesTo k (rs ++ ss) = pushesTo k rs ++ pushesTo k ss := List.filterMap_append

theorem popsFrom_concat (k : κ) (rs : List (Request κ α)) (as : List (Answer α))
    (h : rs.length = as.length) (r : Request κ α) (a : Answer α) :
    popsFrom k (rs ++ [r]) (as ++ [a]) = popsFrom k rs as ++ popsFrom k [r] [a] := by
  simp only [popsFrom, List.zip_append h, List.filterMap_append]

theorem step_at (b : Bank κ α) (r : Request κ α) (k : κ) :
    ((step b r).1 k).pushed = (b k).pushed ++ pushesTo k [r] ∧
      ((step b r).1 k).served = (b k).served ++ popsFrom k [r] [(step b r).2] := by
  cases r with
  | push k' a =>
    by_cases h : k' = k
    · subst h
      simp [step, pushesTo, popsFrom, served_push]
    · simp [step, pushesTo, popsFrom, h, Ne.symm h]
  | pop k' =>
    by_cases h : k' = k
    · subst h
      have hp := served_pop (b k')
      cases hr : (b k').pop.2 with
      | none => simpa [step, pushesTo, popsFrom, hr] using hp
      | some x => simpa [step, pushesTo, popsFrom, hr] using hp
    · simp [step, pushesTo, popsFrom, h, Ne.symm h]

theorem run_at (rs : List (Request κ α)) (k : κ) :
    (Mealy.final step start rs k).pushed = pushesTo k rs ∧
      (Mealy.final step start rs k).served =
        popsFrom k rs (Mealy.outputs step start rs) := by
  induction rs using List.reverseRecOn with
  | nil => exact ⟨rfl, rfl⟩
  | append_singleton rs r ih =>
    obtain ⟨hp, hs⟩ := step_at (Mealy.final step start rs) r k
    rw [Mealy.final_concat, Mealy.outputs_concat, pushesTo_append,
      popsFrom_concat k rs _ (by simp), hp, hs, ih.1, ih.2]
    exact ⟨rfl, rfl⟩

theorem step_grows (b : Bank κ α) (r : Request κ α) (k : κ) : (b k).Grows ((step b r).1 k) := by
  cases r with
  | push k' a =>
    by_cases h : k = k'
    · subst h
      simpa [step] using grows_push (b k) a
    · simpa [step, h] using Grows.refl (b k)
  | pop k' =>
    by_cases h : k = k'
    · subst h
      simpa [step] using grows_pop (b k)
    · simpa [step, h] using Grows.refl (b k)

theorem final_grows (b : Bank κ α) (rs : List (Request κ α)) (k : κ) :
    (b k).Grows (Mealy.final step b rs k) := by
  induction rs generalizing b with
  | nil => exact Grows.refl _
  | cons r rs ih => exact (step_grows b r k).trans (ih (step b r).1)

end Bank
end Fifo
