import Mathlib.Data.List.Nodup
import Mathlib.Order.Basic
import Std.Data.ExtTreeMap.Lemmas

/-!
# Tables of things made on demand

A table makes the value of a key when it is first asked for and hands out the same value
from then on. Making may fail; then nothing is noted and the next request tries again.
`made` lists everything that was ever made, so that nothing is made twice or thrown away
can be said.
-/

namespace Memo

variable {κ α ε : Type*} {cmp : κ → κ → Ordering} [Std.TransCmp cmp]

structure Table (κ α : Type*) (cmp : κ → κ → Ordering) where
  entries : Std.ExtTreeMap κ α cmp
  made : List (κ × α)

namespace Table

def empty : Table κ α cmp := ⟨∅, []⟩

/-- `make` is told how many values were made before. -/
def get (t : Table κ α cmp) (k : κ) (make : ℕ → Except ε α) : Table κ α cmp × Except ε α :=
  match t.entries[k]? with
  | some a => (t, .ok a)
  | none =>
    match make t.made.length with
    | .error e => (t, .error e)
    | .ok a => (⟨t.entries.insert k a, t.made ++ [(k, a)]⟩, .ok a)

structure Sound (t : Table κ α cmp) : Prop where
  once : (t.made.map Prod.fst).Nodup
  entries : ∀ k a, t.entries[k]? = some a ↔ (k, a) ∈ t.made

theorem sound_empty : (empty : Table κ α cmp).Sound where
  once := List.nodup_nil
  entries k a := by simp [empty]

variable {t : Table κ α cmp} {k : κ} {a : α} {make : ℕ → Except ε α}

theorem get_cases (t : Table κ α cmp) (k : κ) (make : ℕ → Except ε α) :
    (∃ a, t.entries[k]? = some a ∧ t.get k make = (t, .ok a)) ∨
    (∃ e, t.entries[k]? = none ∧ make t.made.length = .error e ∧ t.get k make = (t, .error e)) ∨
    ∃ a, t.entries[k]? = none ∧ make t.made.length = .ok a ∧
      t.get k make = (⟨t.entries.insert k a, t.made ++ [(k, a)]⟩, .ok a) := by
  unfold get
  cases hk : t.entries[k]? with
  | some a => exact .inl ⟨a, rfl, rfl⟩
  | none =>
    cases hm : make t.made.length with
    | error e => exact .inr (.inl ⟨e, rfl, rfl, rfl⟩)
    | ok a => exact .inr (.inr ⟨a, rfl, rfl, rfl⟩)

theorem Sound.insert [Std.LawfulEqCmp cmp] (h : t.Sound) (hk : t.entries[k]? = none) (a : α) :
    (⟨t.entries.insert k a, t.made ++ [(k, a)]⟩ : Table κ α cmp).Sound where
  once := by
    rw [List.map_append]
    refine List.nodup_append.mpr ⟨h.once, List.nodup_singleton k, fun x hx y hy heq => ?_⟩
    obtain ⟨⟨x, b⟩, hmem, rfl⟩ := List.mem_map.mp hx
    have hxk : x = k := heq.trans (List.mem_singleton.mp hy)
    rw [hxk, ← h.entries, hk] at hmem
    cases hmem
  entries k' a' := by
    rw [Std.ExtTreeMap.getElem?_insert, List.mem_append, List.mem_singleton, ← h.entries]
    by_cases heq : k = k'
    · subst heq
      simp [hk, Std.ReflCmp.compare_self, eq_comm]
    · simp [heq, Ne.symm heq]

theorem Sound.get [Std.LawfulEqCmp cmp] (h : t.Sound) (k : κ) (make : ℕ → Except ε α) :
    (t.get k make).1.Sound := by
  rcases t.get_cases k make with ⟨a, -, heq⟩ | ⟨e, -, -, heq⟩ | ⟨a, hk, -, heq⟩
  · rwa [heq]
  · rwa [heq]
  · rw [heq]
    exact h.insert hk a

theorem made_get (t : Table κ α cmp) (k : κ) (make : ℕ → Except ε α) :
    t.made <+: (t.get k make).1.made := by
  rcases t.get_cases k make with ⟨a, -, heq⟩ | ⟨e, -, -, heq⟩ | ⟨a, -, -, heq⟩
  · exact heq ▸ List.prefix_rfl
  · exact heq ▸ List.prefix_rfl
  · rw [heq]
    exact List.prefix_append _ _

theorem Sound.mem_made (h : t.Sound) (hget : (t.get k make).2 = .ok a) :
    (k, a) ∈ (t.get k make).1.made :=  by
  rcases t.get_cases k make with ⟨b, hk, heq⟩ | ⟨e, -, -, heq⟩ | ⟨b, -, -, heq⟩
  · rw [heq] at hget ⊢
    cases hget
    exact (h.entries k a).mp hk
  · rw [heq] at hget
    cases hget
  · rw [heq] at hget ⊢
    cases hget
    exact List.mem_append_right _ (List.mem_singleton.mpr rfl)

theorem mem_made_get {x : κ × α} (h : x ∈ (t.get k make).1.made) :
    x ∈ t.made ∨ x.1 = k ∧ make t.made.length = .ok x.2 := by
  rcases t.get_cases k make with ⟨a, -, heq⟩ | ⟨e, -, -, heq⟩ | ⟨a, -, hm, heq⟩
  · rw [heq] at h
    exact .inl h
  · rw [heq] at h
    exact .inl h
  · rw [heq] at h
    rcases List.mem_append.mp h with h | h
    · exact .inl h
    · rw [List.mem_singleton.mp h]
      exact .inr ⟨rfl, hm⟩

theorem Sound.unique {b : α} (h : t.Sound) (ha : (k, a) ∈ t.made) (hb : (k, b) ∈ t.made) :
    a = b := by
  rw [← h.entries] at ha hb
  exact Option.some.inj (ha.symm.trans hb)

end Table
end Memo
