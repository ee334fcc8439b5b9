import Mathlib.Data.Multiset.MapFold
import Mathlib.Tactic.Common

/-!
# The entries of a finite map

`entries` is what a `Std.TreeMap` holds, as a multiset of keys with their values, so
that an insertion and an erasure are `::ₘ`.

* `mem_entries`, `map_fst_entries` and `map_snd_entries` read it.
* `entries_insert` says what an insertion adds, and `entries_of_getElem?` what an
  erasure takes.
-/

namespace Mwr.CodeLib.MapEntries

variable {κ α : Type} {cmp : κ → κ → Ordering} {t t' : Std.TreeMap κ α cmp} {k : κ} {v : α}

/-- The keys with their values. -/
def entries (t : Std.TreeMap κ α cmp) : Multiset (κ × α) := t.toList

theorem map_fst_entries (t : Std.TreeMap κ α cmp) : (entries t).map Prod.fst = t.keys := by
  rw [entries, Multiset.map_coe, Std.TreeMap.map_fst_toList_eq_keys]

theorem map_snd_entries (t : Std.TreeMap κ α cmp) : (entries t).map Prod.snd = t.values := by
  have hvalues : t.toList.map Prod.snd = t.values := by
    show (Std.DTreeMap.Internal.Impl.Const.toList _).map Prod.snd =
      Std.DTreeMap.Internal.Impl.values _
    rw [Std.DTreeMap.Internal.Impl.values_eq_map_snd,
      Std.DTreeMap.Internal.Impl.Const.toList_eq_toListModel_map, List.map_map]
    rfl
  rw [entries, Multiset.map_coe, hvalues]

theorem entries_eq_zero (h : t.isEmpty) : entries t = 0 := by
  rw [← Std.TreeMap.isEmpty_toList, List.isEmpty_iff] at h
  rw [entries, h]
  rfl

variable [Std.TransCmp cmp]

theorem nodup_entries (t : Std.TreeMap κ α cmp) : (entries t).Nodup := by
  refine Multiset.Nodup.of_map Prod.fst ?_
  rw [map_fst_entries, Multiset.coe_nodup]
  exact Std.TreeMap.nodup_keys

variable [Std.LawfulEqCmp cmp]

theorem mem_entries : (k, v) ∈ entries t ↔ t[k]? = some v :=
  Std.TreeMap.mem_toList_iff_getElem?_eq_some

/-- A map that has one entry more than another one. -/
theorem entries_eq_cons (hk : t[k]? = none) (hk' : t'[k]? = some v)
    (h : ∀ k', k ≠ k' → t'[k']? = t[k']?) : entries t' = (k, v) ::ₘ entries t := by
  have hnot : (k, v) ∉ entries t := by
    rw [mem_entries, hk]
    exact nofun
  rw [(nodup_entries t').ext (Multiset.nodup_cons.2 ⟨hnot, nodup_entries t⟩)]
  rintro ⟨k', v'⟩
  rw [Multiset.mem_cons, mem_entries, mem_entries, Prod.mk.injEq]
  by_cases hne : k = k'
  · cases hne
    rw [hk, hk', Option.some.injEq]
    constructor
    · exact fun hv => .inl ⟨rfl, hv.symm⟩
    · rintro (⟨-, hv⟩ | hv)
      · exact hv.symm
      · cases hv
  · rw [h k' hne]
    constructor
    · exact .inr
    · rintro (⟨hkk', -⟩ | hv)
      · exact absurd hkk'.symm hne
      · exact hv

theorem entries_insert (h : t[k]? = none) (v : α) :
    entries (t.insert k v) = (k, v) ::ₘ entries t := by
  refine entries_eq_cons h Std.TreeMap.getElem?_insert_self fun k' hne => ?_
  rw [Std.TreeMap.getElem?_insert, if_neg fun hcmp => hne (Std.LawfulEqCmp.eq_of_compare hcmp)]

theorem entries_of_getElem? (h : t[k]? = some v) : entries t = (k, v) ::ₘ entries (t.erase k) := by
  refine entries_eq_cons Std.TreeMap.getElem?_erase_self h fun k' hne => ?_
  rw [Std.TreeMap.getElem?_erase, if_neg fun hcmp => hne (Std.LawfulEqCmp.eq_of_compare hcmp)]

end Mwr.CodeLib.MapEntries
