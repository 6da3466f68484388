import Mathlib.Algebra.BigOperators.Group.Finset.Basic
import Mathlib.Algebra.BigOperators.Intervals
import Mathlib.Algebra.BigOperators.Group.Multiset.Basic
import Mathlib.Data.Multiset.AddSub
import Mathlib.Tactic.Abel

/-!
# Counting the contents of a list of containers

The total of a list of containers under a weight `f`, and what replacing one
container does to it. The rules are used with multisets of carried elements.
-/

namespace Tally

variable {α M : Type*}

def total [AddCommMonoid M] (f : α → M) (l : List α) : M := (l.map f).sum

section Monoid
variable [AddCommMonoid M] (f : α → M)

@[simp] theorem total_nil : total f [] = 0 := rfl

@[simp] theorem total_cons (a : α) (l : List α) : total f (a :: l) = f a + total f l := by
  simp [total]

theorem total_append (l l' : List α) : total f (l ++ l') = total f l + total f l' := by
  simp [total]

theorem total_set {l : List α} {i : ℕ} {a : α} (h : l[i]? = some a) (b : α) :
    total f (l.set i b) + f a = total f l + f b := by
  induction l generalizing i with
  | nil => simp at h
  | cons x l ih =>
    cases i with
    | zero =>
      cases h
      rw [List.set_cons_zero, total_cons, total_cons]
      abel
    | succ i =>
      rw [List.set_cons_succ, total_cons, total_cons, add_assoc, ih (by simpa using h)]
      abel

theorem total_eraseIdx {l : List α} {i : ℕ} {a : α} (h : l[i]? = some a) :
    total f (l.eraseIdx i) + f a = total f l := by
  obtain ⟨hlt, rfl⟩ := List.getElem?_eq_some_iff.mp h
  have hperm := (List.getElem_cons_eraseIdx_perm hlt).map f
  have hsum := hperm.sum_eq
  rw [List.map_cons, List.sum_cons] at hsum
  rw [add_comm]
  exact hsum

theorem total_replicate_zero (n : ℕ) {a : α} (h : f a = 0) :
    total f (List.replicate n a) = 0 := by
  induction n with
  | zero => rfl
  | succ n ih => rw [List.replicate_succ, total_cons, h, ih, zero_add]

theorem total_eq_sum (l : List α) :
    total f l = ∑ i ∈ Finset.range l.length, (l[i]?.map f).getD 0 := by
  induction l using List.reverseRecOn with
  | nil => rfl
  | append_singleton l a ih =>
    have hinit : ∑ i ∈ Finset.range l.length, ((l ++ [a])[i]?.map f).getD 0 =
        ∑ i ∈ Finset.range l.length, (l[i]?.map f).getD 0 :=
      Finset.sum_congr rfl fun i hi => by
        rw [List.getElem?_append_left (Finset.mem_range.mp hi)]
    rw [total_append, ih, List.length_append, List.length_singleton, Finset.sum_range_succ, hinit,
      List.getElem?_concat_length]
    simp

end Monoid

theorem total_eq_zero [AddCommMonoid M] {f : α → M} {l : List α} (h : ∀ a ∈ l, f a = 0) :
    total f l = 0 := by
  induction l with
  | nil => rfl
  | cons a l ih =>
    rw [total_cons, h a List.mem_cons_self, ih fun b hb => h b (List.mem_cons_of_mem _ hb),
      zero_add]

theorem eq_zero_of_total {f : α → ℕ} {l : List α} (h : total f l = 0) : ∀ a ∈ l, f a = 0 := by
  induction l with
  | nil => exact fun _ ha => by cases ha
  | cons b l ih =>
    rw [total_cons] at h
    intro a ha
    rcases List.mem_cons.mp ha with rfl | ha
    · omega
    · exact ih (by omega) a ha

theorem total_le_length {f : α → ℕ} {l : List α} (h : ∀ a ∈ l, f a ≤ 1) :
    total f l ≤ l.length := by
  induction l with
  | nil => exact Nat.le_refl 0
  | cons a l ih =>
    have ha := h a List.mem_cons_self
    have hl := ih fun b hb => h b (List.mem_cons_of_mem _ hb)
    rw [total_cons, List.length_cons]
    omega

theorem mem_total {β : Type*} {f : α → Multiset β} {l : List α} {x : β} :
    x ∈ total f l ↔ ∃ a ∈ l, x ∈ f a := by
  induction l with
  | nil => simp
  | cons a l ih => simp [ih]

end Tally
