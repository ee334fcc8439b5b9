import Mathlib.Data.List.Basic

/-!
# Texts that can be taken apart

Whether a text says what it was printed from.  A text stands in front of another one, and the
question is where it ends and what it is the text of.

* `Legible P f a` says that no other value with the property `P` has a text that could be mistaken
  for the one of `a`.
* `until_inj` is about what ends at the first letter of some kind.
* `Legible.until`, `Legible.inl`, `Legible.inr`, `Legible.flatMap` and `legible_separated` put
  texts together: a part with a rest behind it, values of two kinds, a list that ends with a mark,
  and a list with marks between its elements.
-/

namespace Mwr.CodeLib.UniqueText

variable {α β γ : Type*}

/-- A text that begins with the text of `a` begins with the text of no other value. -/
def Legible (P : β → Prop) (f : β → List α) (a : β) : Prop :=
  ∀ b r r', P b → f a ++ r = f b ++ r' → a = b ∧ r = r'

/-- No text begins with both. -/
def Apart (xs ys : List α) : Prop := ∀ r r', xs ++ r ≠ ys ++ r'

/-- Texts that differ in a letter. -/
theorem apart_of_getElem? {xs ys : List α} {i : Nat} {x y : α} (hx : xs[i]? = some x)
    (hy : ys[i]? = some y) (h : x ≠ y) : Apart xs ys := by
  intro r r' heq
  obtain ⟨hi, -⟩ := List.getElem?_eq_some_iff.1 hx
  obtain ⟨hi', -⟩ := List.getElem?_eq_some_iff.1 hy
  have hletter := congrArg (fun l : List α => l[i]?) heq
  simp only [List.getElem?_append_left hi, List.getElem?_append_left hi', hx, hy] at hletter
  exact h (Option.some.inj hletter)

/-- Texts that differ behind a common beginning. -/
theorem Apart.append_left {xs ys : List α} (h : Apart xs ys) (zs : List α) :
    Apart (zs ++ xs) (zs ++ ys) := by
  intro r r' heq
  rw [List.append_assoc, List.append_assoc] at heq
  exact h r r' (List.append_cancel_left heq)

/-- What comes before the first letter of some kind. -/
theorem until_inj {p : α → Prop} {xs ys r r' : List α} {s t : α} (hxs : ∀ x ∈ xs, ¬ p x)
    (hys : ∀ y ∈ ys, ¬ p y) (hs : p s) (ht : p t) (h : xs ++ s :: r = ys ++ t :: r') :
    xs = ys ∧ s :: r = t :: r' := by
  induction xs generalizing ys with
  | nil =>
    cases ys with
    | nil => exact ⟨rfl, h⟩
    | cons y ys =>
      have hy : ¬ p y := hys y List.mem_cons_self
      rw [← (List.cons.inj h).1] at hy
      exact absurd hs hy
  | cons x xs ih =>
    have hx : ¬ p x := hxs x List.mem_cons_self
    cases ys with
    | nil =>
      rw [(List.cons.inj h).1] at hx
      exact absurd ht hx
    | cons y ys =>
      obtain ⟨rfl, htail⟩ := List.cons.inj h
      obtain ⟨rfl, hrest⟩ := ih (fun x' hx' => hxs x' (List.mem_cons_of_mem _ hx'))
        (fun y' hy' => hys y' (List.mem_cons_of_mem _ hy')) htail
      exact ⟨rfl, hrest⟩

section Legible

variable {P : β → Prop} {Q : γ → Prop} {f : β → List α} {g : γ → List α} {a : β} {b : γ}

/-- A mark behind a text. -/
theorem Legible.append_right (h : Legible P f a) (mark : List α) :
    Legible P (fun a => f a ++ mark) a := by
  intro a' r r' ha' heq
  simp only [List.append_assoc] at heq
  obtain ⟨rfl, hrest⟩ := h a' _ _ ha' heq
  exact ⟨rfl, List.append_cancel_left hrest⟩

/-- A part that ends at the first letter of some kind, with which every rest begins. -/
theorem Legible.until {p : α → Prop} {xs : List α} (hxs : ∀ x ∈ xs, ¬ p x)
    (hg : ∀ c, Q c → ∃ s r, p s ∧ g c = s :: r) (hb : Q b) (h : Legible Q g b) :
    Legible (fun q : List α × γ => (∀ x ∈ q.1, ¬ p x) ∧ Q q.2) (fun q => q.1 ++ g q.2)
      (xs, b) := by
  rintro ⟨ys, c⟩ r r' ⟨hys, hc⟩ heq
  obtain ⟨s, t, hs, hbtext⟩ := hg b hb
  obtain ⟨s', t', hs', hctext⟩ := hg c hc
  simp only [List.append_assoc] at heq
  have hparts : xs = ys ∧ g b ++ r = g c ++ r' := by
    rw [hbtext, hctext] at heq ⊢
    exact until_inj hxs hys hs hs' heq
  obtain ⟨rfl, hrest⟩ := hparts
  obtain ⟨rfl, rfl⟩ := h c r r' hc hrest
  exact ⟨rfl, rfl⟩

/-- Values of one kind among values of two kinds. -/
theorem Legible.inl (h : Legible P f a) (happart : ∀ c, Q c → Apart (f a) (g c)) :
    Legible (Sum.elim P Q) (Sum.elim f g) (.inl a) := by
  rintro (a' | c) r r' hq heq
  · obtain ⟨rfl, rfl⟩ := h a' r r' hq heq
    exact ⟨rfl, rfl⟩
  · exact absurd heq (happart c hq r r')

theorem Legible.inr (h : Legible Q g b) (happart : ∀ c, P c → Apart (f c) (g b)) :
    Legible (Sum.elim P Q) (Sum.elim f g) (.inr b) := by
  rintro (c | b') r r' hq heq
  · exact absurd heq.symm (happart c hq r' r)
  · obtain ⟨rfl, rfl⟩ := h b' r r' hq heq
    exact ⟨rfl, rfl⟩

/-- A list behind whose elements there is a mark that no element begins with. -/
theorem Legible.flatMap {stop : List α} {as : List β} (has : ∀ a ∈ as, Legible P f a ∧ P a)
    (hstop : ∀ a, P a → Apart (f a) stop) :
    Legible (fun bs => ∀ b ∈ bs, P b) (fun bs => bs.flatMap f ++ stop) as := by
  intro bs r r' hbs h
  simp only [List.append_assoc] at h
  induction as generalizing bs with
  | nil =>
    cases bs with
    | nil => exact ⟨rfl, List.append_cancel_left h⟩
    | cons b bs =>
      rw [List.flatMap_cons, List.append_assoc] at h
      exact absurd h.symm (hstop b (hbs b List.mem_cons_self) _ _)
  | cons a as ih =>
    obtain ⟨hlegible, ha⟩ := has a List.mem_cons_self
    cases bs with
    | nil =>
      rw [List.flatMap_cons, List.append_assoc] at h
      exact absurd h (hstop a ha _ _)
    | cons b bs =>
      rw [List.flatMap_cons, List.flatMap_cons, List.append_assoc, List.append_assoc] at h
      obtain ⟨rfl, hrest⟩ := hlegible b _ _ (hbs b List.mem_cons_self) h
      obtain ⟨rfl, rfl⟩ := ih (fun a' ha' => has a' (List.mem_cons_of_mem _ ha')) bs
        (fun b' hb' => hbs b' (List.mem_cons_of_mem _ hb')) hrest
      exact ⟨rfl, rfl⟩

end Legible

section Separated

/-- The text of a list with a mark between its elements and one behind the last of them. -/
def separated (f : β → List α) (sep stop : List α) : β → List β → List α
  | a, [] => f a ++ stop
  | a, a' :: as => f a ++ (sep ++ separated f sep stop a' as)

theorem separated_eq (f : β → List α) (sep stop : List α) (a : β) (as : List β) :
    f a ++ (as.flatMap (fun a => sep ++ f a) ++ stop) = separated f sep stop a as := by
  induction as generalizing a with
  | nil => rfl
  | cons a' as ih =>
    rw [separated, ← ih a', List.flatMap_cons]
    simp only [List.append_assoc]

/-- A mark behind each element is one in front of the next. -/
theorem flatMap_rotate (f : β → List α) (mark : List α) (as : List β) :
    mark ++ as.flatMap (fun a => f a ++ mark) = as.flatMap (fun a => mark ++ f a) ++ mark := by
  induction as with
  | nil => exact List.append_nil mark
  | cons a as ih =>
    rw [List.flatMap_cons, List.flatMap_cons, List.append_assoc, ih]
    simp only [List.append_assoc]

variable {P : β → Prop} {f : β → List α} {p : α → Prop} {s t : α} {sep stop : List α}

/-- The elements of such a list can be told apart if they end at the first letter of some kind. -/
theorem legible_separated (hs : p s) (ht : p t) (happart : Apart (s :: sep) (t :: stop))
    (hf : ∀ a, P a → ∀ x ∈ f a, ¬ p x) (hinj : ∀ a b, P a → P b → f a = f b → a = b)
    (a : β) (as : List β) (ha : P a) (has : ∀ a ∈ as, P a) :
    Legible (fun q : β × List β => P q.1 ∧ ∀ b ∈ q.2, P b)
      (fun q => separated f (s :: sep) (t :: stop) q.1 q.2) (a, as) := by
  rintro ⟨b, bs⟩ r r' ⟨hb, hbs⟩ h
  simp only at h
  induction as generalizing a b bs with
  | nil =>
    cases bs with
    | nil =>
      rw [separated, separated, List.append_assoc, List.append_assoc] at h
      obtain ⟨hab, hrest⟩ := until_inj (hf a ha) (hf b hb) ht ht h
      have hrest : t :: stop ++ r = t :: stop ++ r' := hrest
      exact ⟨by rw [hinj a b ha hb hab], List.append_cancel_left hrest⟩
    | cons b' bs =>
      rw [separated, separated, List.append_assoc, List.append_assoc, List.append_assoc] at h
      exact absurd (until_inj (hf a ha) (hf b hb) ht hs h).2.symm (happart _ _)
  | cons a' as ih =>
    cases bs with
    | nil =>
      rw [separated, separated, List.append_assoc, List.append_assoc, List.append_assoc] at h
      exact absurd (until_inj (hf a ha) (hf b hb) hs ht h).2 (happart _ _)
    | cons b' bs =>
      rw [separated, separated, List.append_assoc, List.append_assoc, List.append_assoc,
        List.append_assoc] at h
      obtain ⟨hab, hrest⟩ := until_inj (hf a ha) (hf b hb) hs hs h
      have hrest : s :: sep ++ _ = s :: sep ++ _ := hrest
      obtain ⟨htail, rfl⟩ := ih a' (has a' List.mem_cons_self)
        (fun c hc => has c (List.mem_cons_of_mem _ hc)) b' bs (hbs b' List.mem_cons_self)
        (fun c hc => hbs c (List.mem_cons_of_mem _ hc)) (List.append_cancel_left hrest)
      obtain ⟨rfl, rfl⟩ := Prod.mk.inj htail
      exact ⟨by rw [hinj a b ha hb hab], rfl⟩

end Separated

end Mwr.CodeLib.UniqueText
