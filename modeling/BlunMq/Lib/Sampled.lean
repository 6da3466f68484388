import Mathlib.Data.List.Forall2
import Mathlib.Order.Basic

/-!
# Samples of a position that never falls

`Sampled Shows lo hi xs`: the values `xs` were read in this order while a position moved up
from `lo` to `hi`. Each shows one position, and none shows a position below one read before.
-/

variable {ι α : Type*} [Preorder ι]

def Sampled (Shows : ι → α → Prop) (lo hi : ι) (xs : List α) : Prop :=
  ∃ ns : List ι, List.Forall₂ Shows ns xs ∧ ns.Pairwise (· ≤ ·) ∧ ∀ n ∈ ns, lo ≤ n ∧ n ≤ hi

namespace Sampled
variable {Shows : ι → α → Prop} {lo hi : ι} {xs ys : List α}

theorem nil : Sampled Shows lo hi [] := ⟨[], .nil, .nil, by simp⟩

theorem rise {top : ι} (h : Sampled Shows lo hi xs) (hle : hi ≤ top) :
    Sampled Shows lo top xs := by
  obtain ⟨ns, hshows, hsorted, hbounds⟩ := h
  exact ⟨ns, hshows, hsorted, fun n hn => ⟨(hbounds n hn).1, (hbounds n hn).2.trans hle⟩⟩

theorem mono {Shows' : ι → α → Prop} (h : Sampled Shows lo hi xs)
    (hle : ∀ n x, Shows n x → Shows' n x) : Sampled Shows' lo hi xs := by
  obtain ⟨ns, hshows, hrest⟩ := h
  exact ⟨ns, hshows.imp hle, hrest⟩

theorem read {x : α} (h : Sampled Shows lo hi xs) (hlo : lo ≤ hi) (hx : Shows hi x) :
    Sampled Shows lo hi (xs ++ [x]) := by
  obtain ⟨ns, hshows, hsorted, hbounds⟩ := h
  refine ⟨ns ++ [hi], List.rel_append hshows (.cons hx .nil), ?_, fun n hn => ?_⟩
  · rw [List.pairwise_append]
    refine ⟨hsorted, List.pairwise_singleton _ _, fun n hn m hm => ?_⟩
    rw [List.mem_singleton.mp hm]
    exact (hbounds n hn).2
  · rcases List.mem_append.mp hn with hn | hn
    · exact hbounds n hn
    · rw [List.mem_singleton.mp hn]
      exact ⟨hlo, le_rfl⟩

theorem of_append (h : Sampled Shows lo hi (xs ++ ys)) : Sampled Shows lo hi xs := by
  obtain ⟨ns, hshows, hsorted, hbounds⟩ := h
  refine ⟨ns.take xs.length, ?_, hsorted.sublist (List.take_sublist _ _), fun n hn => ?_⟩
  · exact List.forall₂_take_append ns xs ys hshows
  · exact hbounds n (List.mem_of_mem_take hn)

theorem pairwise {P : α → α → Prop} (h : Sampled Shows lo hi xs)
    (hP : ∀ n m x y, n ≤ m → Shows n x → Shows m y → P x y) : xs.Pairwise P := by
  obtain ⟨ns, hshows, hsorted, -⟩ := h
  induction hshows with
  | nil => exact .nil
  | @cons n x ns xs hx hxs ih =>
    rw [List.pairwise_cons] at hsorted ⊢
    refine ⟨fun y hy => ?_, ih hsorted.2⟩
    obtain ⟨i, hi⟩ := List.mem_iff_getElem?.mp hy
    obtain ⟨hlt, rfl⟩ := List.getElem?_eq_some_iff.mp hi
    have hlen : i < ns.length := by rwa [hxs.length_eq]
    exact hP n ns[i] x xs[i] (hsorted.1 _ (List.getElem_mem hlen)) hx (hxs.get hlen hlt)

end Sampled
