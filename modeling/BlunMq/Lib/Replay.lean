import Mathlib.Data.List.Basic

/-!
# Going through a list with steps back

`Replay falls xs n ys`: something went through the list `xs` and stands at position `n` now.
Every now and then it may have fallen back to an earlier position, if `falls` allows that,
and gone on from there. In `ys` is what it has met on its way.
-/

variable {α : Type*}

inductive Replay (falls : Prop) (xs : List α) : ℕ → List α → Prop
  | start : Replay falls xs 0 []
  | next {n : ℕ} {ys : List α} {x : α} (h : Replay falls xs n ys) (hx : xs[n]? = some x) :
      Replay falls xs (n + 1) (ys ++ [x])
  | back {n i : ℕ} {ys : List α} (hfalls : falls) (h : Replay falls xs n ys) (hi : i ≤ n) :
      Replay falls xs i ys

namespace Replay
variable {falls : Prop} {xs ys : List α} {n : ℕ}

theorem grow {zs : List α} (h : Replay falls xs n ys) (hxs : xs <+: zs) :
    Replay falls zs n ys := by
  induction h with
  | start => exact start
  | @next n ys x _ hx ih =>
    refine ih.next ?_
    obtain ⟨more, rfl⟩ := hxs
    rw [List.getElem?_append_left (List.getElem?_eq_some_iff.mp hx).1]
    exact hx
  | back hfalls _ hi ih => exact ih.back hfalls hi

theorem take_sublist (h : Replay falls xs n ys) : (xs.take n).Sublist ys := by
  induction h with
  | start => exact List.nil_sublist _
  | next _ hx ih =>
    rw [List.take_add_one, hx]
    exact ih.append (List.Sublist.refl _)
  | back _ _ hi ih => exact (List.take_sublist_take_left hi).trans ih

theorem eq_take (h : Replay falls xs n ys) (hfalls : ¬ falls) : ys = xs.take n := by
  induction h with
  | start => rfl
  | next _ hx ih => rw [List.take_add_one, hx, ih, Option.toList_some]
  | back hf _ _ _ => exact absurd hf hfalls

end Replay
