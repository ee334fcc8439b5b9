import Mathlib.Data.List.Nodup

/-!
# Vectors without duplicates

`stl_remove` and `stl_add_unique` of `include/mwr/stl/containers.h`, for vectors.
-/

namespace Mwr.Containers

variable {α : Type} [DecidableEq α] {v : List α} {t x : α}

/-- `stl_remove(v, t)`. -/
def stlRemove (v : List α) (t : α) : List α :=
  v.filter (· ≠ t)

/-- `stl_add_unique(v, t)`. -/
def stlAddUnique (v : List α) (t : α) : List α :=
  if t ∈ v then v else v ++ [t]

theorem mem_stlRemove : x ∈ stlRemove v t ↔ x ∈ v ∧ x ≠ t := by
  simp [stlRemove]

theorem mem_stlAddUnique : x ∈ stlAddUnique v t ↔ x ∈ v ∨ x = t := by
  rw [stlAddUnique]
  split
  · constructor
    · exact .inl
    · rintro (h | rfl) <;> assumption
  · rw [List.mem_append, List.mem_singleton]

theorem stlRemove_nodup (h : v.Nodup) (t : α) : (stlRemove v t).Nodup :=
  h.filter _

theorem stlAddUnique_nodup (h : v.Nodup) (t : α) : (stlAddUnique v t).Nodup := by
  rw [stlAddUnique]
  split
  · exact h
  · rename_i hnot
    rw [List.nodup_append]
    refine ⟨h, List.pairwise_singleton _ t, fun a ha b hb => ?_⟩
    rw [List.mem_singleton] at hb
    rintro rfl
    exact hnot (hb ▸ ha)

end Mwr.Containers
