import Mathlib.Data.List.TakeWhile
import Mathlib.Tactic.Common

/-!
# Insertion into a sorted vector

`std::upper_bound` and an insertion at the place that it finds, for any comparison that is a
strict weak order.

* `upperBound` is the binary search, and `upperBound_eq` is what it finds in a vector that is
  partitioned.
* `insertSorted` is the insertion.  `Sorted.insertSorted` keeps the order, and
  `filter_insertSorted` puts an element behind those that are equivalent to it.
* `stable_foldl_insertSorted` is a sequence of insertions, which is a stable sort.
-/

namespace Mwr.CodeLib.SortedInsert

variable {α : Type}

/-! ## Orders -/

/-- A strict weak order, by its decision procedure. -/
structure WeakOrder (lt : α → α → Bool) : Prop where
  asymm : ∀ a b, lt a b = true → lt b a = false
  cotrans : ∀ a b c, lt a c = true → lt a b = true ∨ lt b c = true

/-- Neither of the two is smaller. -/
def equivalent (lt : α → α → Bool) (a b : α) : Bool := !lt a b && !lt b a

/-- No element is smaller than one before it. -/
def Sorted (lt : α → α → Bool) (xs : List α) : Prop := xs.Pairwise fun a b => lt b a = false

/-! ## The search -/

/-- The loop of `std::upper_bound(first, last, t, lt)`, with the number of elements that are
left.  A round at least halves it, so that the length is fuel enough. -/
def upperLoop (lt : α → α → Bool) (xs : List α) (t : α) : Nat → Nat → Nat → Nat
  | 0, first, _ => first
  | fuel + 1, first, len =>
    if 0 < len then
      let half := len / 2
      let middle := first + half
      if xs[middle]?.any (lt t) then upperLoop lt xs t fuel first half
      else upperLoop lt xs t fuel (middle + 1) (len - half - 1)
    else first

def upperBound (lt : α → α → Bool) (xs : List α) (t : α) : Nat :=
  upperLoop lt xs t xs.length 0 xs.length

/-- `v.insert(std::upper_bound(v.begin(), v.end(), t, lt), t)`. -/
def insertSorted (lt : α → α → Bool) (xs : List α) (t : α) : List α :=
  xs.take (upperBound lt xs t) ++ t :: xs.drop (upperBound lt xs t)

variable {lt : α → α → Bool} {xs : List α} {t : α}

/-- The elements before `k` are not behind `t`, and the others are. -/
structure Splits (lt : α → α → Bool) (xs : List α) (t : α) (k : Nat) : Prop where
  le : k ≤ xs.length
  before : ∀ i a, i < k → xs[i]? = some a → lt t a = false
  behind : ∀ i a, k ≤ i → xs[i]? = some a → lt t a = true

theorem Splits.unique {k k' : Nat} (h : Splits lt xs t k) (h' : Splits lt xs t k') : k = k' := by
  rcases Nat.lt_trichotomy k k' with hlt | heq | hgt
  · have hat := List.getElem?_eq_getElem (Nat.lt_of_lt_of_le hlt h'.le)
    have hfalse := h'.before k _ hlt hat
    rw [h.behind k _ (Nat.le_refl k) hat] at hfalse
    cases hfalse
  · exact heq
  · have hat := List.getElem?_eq_getElem (Nat.lt_of_lt_of_le hgt h.le)
    have hfalse := h.before k' _ hgt hat
    rw [h'.behind k' _ (Nat.le_refl k') hat] at hfalse
    cases hfalse

/-- The search keeps the place between its bounds. -/
theorem upperLoop_eq {k : Nat} (h : Splits lt xs t k) :
    ∀ fuel first len, len ≤ fuel → first ≤ k → k ≤ first + len → first + len ≤ xs.length →
      upperLoop lt xs t fuel first len = k := by
  intro fuel
  induction fuel with
  | zero =>
    intro first len hfuel hfirst hlast _
    show first = k
    omega
  | succ fuel ih =>
    intro first len hfuel hfirst hlast hlen
    rw [upperLoop]
    split
    next hpos =>
      have hmiddle : first + len / 2 < xs.length := by omega
      have hat := List.getElem?_eq_getElem hmiddle
      dsimp only
      rw [hat, Option.any_some]
      split
      next htrue =>
        have hle : k ≤ first + len / 2 := by
          by_contra hgt
          rw [h.before _ _ (Nat.lt_of_not_le hgt) hat] at htrue
          cases htrue
        exact ih first (len / 2) (by omega) hfirst hle (by omega)
      next hfalse =>
        have hlt : first + len / 2 < k := by
          by_contra hge
          exact hfalse (h.behind _ _ (Nat.le_of_not_lt hge) hat)
        exact ih _ _ (by omega) hlt (by omega) (by omega)
    next hzero => omega

theorem upperBound_eq {k : Nat} (h : Splits lt xs t k) : upperBound lt xs t = k :=
  upperLoop_eq h xs.length 0 xs.length (Nat.le_refl _) (Nat.zero_le k)
    (by rw [Nat.zero_add]; exact h.le) (by rw [Nat.zero_add])

/-- A sorted vector is split by any element. -/
theorem Sorted.exists_splits (hlt : WeakOrder lt) (hxs : Sorted lt xs) (t : α) :
    ∃ k, Splits lt xs t k := by
  induction xs with
  | nil => exact ⟨0, Nat.le_refl 0, nofun, nofun⟩
  | cons x xs ih =>
    obtain ⟨hx, htail⟩ := List.pairwise_cons.1 hxs
    cases htx : lt t x with
    | true =>
      refine ⟨0, Nat.zero_le _, nofun, fun i a _ hi => ?_⟩
      cases i with
      | zero =>
        cases hi
        exact htx
      | succ i =>
        -- what is not smaller than `x` is behind `t`, too
        rcases hlt.cotrans t a x htx with hta | hax
        · exact hta
        · rw [hx a (List.mem_of_getElem? hi)] at hax
          cases hax
    | false =>
      obtain ⟨k, hk⟩ := ih htail
      refine ⟨k + 1, Nat.succ_le_succ hk.le, fun i a hlt hi => ?_, fun i a hle hi => ?_⟩
      · cases i with
        | zero =>
          cases hi
          exact htx
        | succ i => exact hk.before i a (Nat.lt_of_succ_lt_succ hlt) hi
      · cases i with
        | zero => omega
        | succ i => exact hk.behind i a (Nat.le_of_succ_le_succ hle) hi

/-! ## Insertions -/

/-- Where the element goes. -/
theorem Sorted.exists_insert (hlt : WeakOrder lt) (hxs : Sorted lt xs) (t : α) :
    ∃ front back, xs = front ++ back ∧ insertSorted lt xs t = front ++ t :: back ∧
      (∀ a ∈ front, lt t a = false) ∧ ∀ a ∈ back, lt t a = true := by
  obtain ⟨k, hk⟩ := hxs.exists_splits hlt t
  refine ⟨xs.take k, xs.drop k, (List.take_append_drop k xs).symm, ?_, fun a ha => ?_,
    fun a ha => ?_⟩
  · rw [insertSorted, upperBound_eq hk]
  · obtain ⟨i, hi⟩ := List.mem_iff_getElem?.1 ha
    rw [List.getElem?_take] at hi
    split at hi
    next hlt => exact hk.before i a hlt hi
    next => cases hi
  · obtain ⟨i, hi⟩ := List.mem_iff_getElem?.1 ha
    rw [List.getElem?_drop] at hi
    exact hk.behind _ a (Nat.le_add_right k i) hi

theorem insertSorted_perm (lt : α → α → Bool) (xs : List α) (t : α) :
    (insertSorted lt xs t).Perm (t :: xs) := by
  rw [insertSorted]
  refine List.perm_middle.trans (List.Perm.cons t ?_)
  rw [List.take_append_drop]

theorem Sorted.insertSorted (hlt : WeakOrder lt) (hxs : Sorted lt xs) (t : α) :
    Sorted lt (insertSorted lt xs t) := by
  obtain ⟨front, back, rfl, heq, hfront, hback⟩ := hxs.exists_insert hlt t
  obtain ⟨hsf, hsb, hcross⟩ := List.pairwise_append.1 hxs
  rw [heq]
  refine List.pairwise_append.2 ⟨hsf, List.pairwise_cons.2 ⟨fun a ha => ?_, hsb⟩,
    fun a ha b hb => ?_⟩
  · exact hlt.asymm t a (hback a ha)
  · rcases List.mem_cons.1 hb with rfl | hb
    · exact hfront a ha
    · exact hcross a ha b hb

/-- An element goes behind those that are equivalent to it. -/
theorem filter_insertSorted (hlt : WeakOrder lt) (hxs : Sorted lt xs) (t a : α) :
    (insertSorted lt xs t).filter (equivalent lt a) =
      xs.filter (equivalent lt a) ++ [t].filter (equivalent lt a) := by
  obtain ⟨front, back, rfl, heq, -, hback⟩ := hxs.exists_insert hlt t
  rw [heq, List.filter_append, List.filter_append, List.append_assoc]
  congr 1
  cases hat : equivalent lt a t with
  | false =>
    have hnot : ¬ equivalent lt a t = true := by
      rw [hat]
      exact Bool.false_ne_true
    rw [List.filter_cons_of_neg hnot, List.filter_cons_of_neg hnot]
    exact (List.append_nil _).symm
  | true =>
    -- nothing behind `t` is equivalent to it
    have hnone : back.filter (equivalent lt a) = [] := by
      rw [List.filter_eq_nil_iff]
      intro b hb hab
      unfold equivalent at hat hab
      rw [Bool.and_eq_true, Bool.not_eq_true', Bool.not_eq_true'] at hat hab
      rcases hlt.cotrans t a b (hback b hb) with hta | hab'
      · rw [hat.2] at hta
        cases hta
      · rw [hab.1] at hab'
        cases hab'
    rw [List.filter_cons_of_pos hat, List.filter_cons_of_pos hat, hnone]
    rfl

/-- Insertions one after the other sort the elements, and leave those that are equivalent in
their order. -/
theorem stable_foldl_insertSorted (hlt : WeakOrder lt) (ts : List α) :
    Sorted lt (ts.foldl (insertSorted lt) []) ∧ (ts.foldl (insertSorted lt) []).Perm ts ∧
      ∀ a, (ts.foldl (insertSorted lt) []).filter (equivalent lt a) =
        ts.filter (equivalent lt a) := by
  have hgeneral : ∀ xs, Sorted lt xs → Sorted lt (ts.foldl (insertSorted lt) xs) ∧
      (ts.foldl (insertSorted lt) xs).Perm (xs ++ ts) ∧
      ∀ a, (ts.foldl (insertSorted lt) xs).filter (equivalent lt a) =
        xs.filter (equivalent lt a) ++ ts.filter (equivalent lt a) := by
    induction ts with
    | nil =>
      intro xs hxs
      exact ⟨hxs, by rw [List.append_nil]; exact List.Perm.refl xs,
        fun a => (List.append_nil _).symm⟩
    | cons t ts ih =>
      intro xs hxs
      obtain ⟨hsorted, hperm, hstable⟩ := ih (insertSorted lt xs t) (hxs.insertSorted hlt t)
      refine ⟨hsorted, ?_, fun a => ?_⟩
      · refine hperm.trans (((insertSorted_perm lt xs t).append_right ts).trans ?_)
        exact List.perm_middle.symm
      · rw [List.foldl_cons, hstable, filter_insertSorted hlt hxs, List.append_assoc,
          ← List.filter_append]
        rfl
  obtain ⟨hsorted, hperm, hstable⟩ := hgeneral [] List.Pairwise.nil
  exact ⟨hsorted, hperm, hstable⟩

end Mwr.CodeLib.SortedInsert
