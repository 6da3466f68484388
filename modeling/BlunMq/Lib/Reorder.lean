import Mathlib.Data.List.Induction
import Mathlib.Data.List.Nodup
import Mathlib.Data.List.TakeDrop

/-!
# Sequences served slightly out of order

`Within n l seq` says that the `i`-th element of `l` is one of the first `i + n` of
`seq`, as it is when up to `n` hands each take the next element and put it down when
they please. One hand keeps the order.
-/

namespace Reorder

variable {α : Type*} {n : ℕ} {l l' seq seq' : List α} {x : α}

def Within (n : ℕ) (l seq : List α) : Prop := ∀ i x, l[i]? = some x → x ∈ seq.take (i + n)

theorem Within.nil (n : ℕ) (seq : List α) : Within n [] seq := by
  intro i x h
  simp at h

theorem Within.mono (h : Within n l seq) (hs : seq <+: seq') : Within n l seq' := by
  obtain ⟨t, rfl⟩ := hs
  intro i x hx
  rw [List.take_append]
  exact List.mem_append_left _ (h i x hx)

theorem Within.of_append (h : Within n (l ++ l') seq) : Within n l seq := by
  intro i x hx
  refine h i x ?_
  rw [List.getElem?_append_left (List.getElem?_eq_some_iff.mp hx).1, hx]

theorem Within.concat (h : Within n l seq) (hx : x ∈ seq) (hlen : seq.length ≤ l.length + n) :
    Within n (l ++ [x]) seq := by
  intro i y hy
  by_cases hi : i < l.length
  · rw [List.getElem?_append_left hi] at hy
    exact h i y hy
  · have hlt := (List.getElem?_eq_some_iff.mp hy).1
    have hil : i = l.length := by
      rw [List.length_append, List.length_singleton] at hlt
      omega
    subst hil
    rw [List.getElem?_concat_length] at hy
    cases hy
    rwa [List.take_of_length_le hlen]

theorem Within.isPrefix (h : Within 1 l seq) (hn : l.Nodup) : l <+: seq := by
  induction l using List.reverseRecOn with
  | nil => exact List.nil_prefix
  | append_singleton l x ih =>
    obtain ⟨t, rfl⟩ := ih h.of_append (List.nodup_append.mp hn).1
    have hx : x ∈ (l ++ t).take (l.length + 1) := h l.length x (by simp)
    rw [List.take_length_add_append] at hx
    have hnot : x ∉ l := fun hmem => (List.nodup_append.mp hn).2.2 x hmem x (by simp) rfl
    have hxt := (List.mem_append.mp hx).resolve_left hnot
    cases t with
    | nil => cases hxt
    | cons y t =>
      have hxy : x = y := by simpa using hxt
      subst hxy
      exact ⟨t, by simp⟩

end Reorder
