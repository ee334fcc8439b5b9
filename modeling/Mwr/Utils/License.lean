import Mathlib.Data.List.DropRight
import Mathlib.Tactic.Common
import Mwr.CodeLib.Bytes
import Mwr.CodeLib.Transition

/-!
# The licenses that a program knows

`src/mwr/utils/license.cpp`: a map from identifiers to objects, into which the constructor of a
license enters the object and from which the destructor takes the identifier.  Neither looks at
whose entry it is, so that two licenses of one identifier get into each other's way.

* `step` creates and destroys objects, and `statics` are the constants of the file.
* `registered` says, from the history of a program alone, which object an identifier stands for.
* `all_eq_registered` is the step lemma and the induction, and `find_describe` the result for
  every history.
-/

namespace Mwr.Licenses

open Mwr.CodeLib (Bytes)
open Mwr.CodeLib.Bytes (str)
open Mwr.CodeLib.Transition (System)

/-! ## The code -/

/-- The members of a `license`. -/
structure License where
  spdx : Bytes
  name : Bytes
  libre : Bool
  deriving DecidableEq

/-- The address of an object. -/
abbrev Address := Nat

/-- The memory of a program, as far as it matters here. -/
structure State where
  /-- `all_licenses()`. -/
  all : Std.TreeMap Bytes Address
  /-- The objects that exist. -/
  objects : Std.TreeMap Address License

/-- What a program does with licenses. -/
inductive Action where
  | construct (addr : Address) (lic : License)
  | destroy (addr : Address) (lic : License)

/-- `UNLICENSED`. -/
def unlicensed : License := ⟨str "UNLICENSED", str "No License/unlicensed", false⟩

/-- `KNOWN_LICENSES`. -/
def knownLicenses : List License :=
  [⟨str "Apache-1.1", str "Apache License 1.1", true⟩,
    ⟨str "Apache-2.0", str "Apache License 2.0", true⟩,
    ⟨str "BSD-1-Clause", str "BSD 1-Clause License", false⟩,
    ⟨str "BSD-2-Clause", str "BSD 2-Clause \"Simplified\" License", true⟩,
    ⟨str "BSD-3-Clause", str "BSD 3-Clause \"New\" or \"Revisited\" License", true⟩,
    ⟨str "GPL-1.0-only", str "GNU General Public License v1.0 only", true⟩,
    ⟨str "GPL-1.0-or-later", str "GNU General Public License v1.0 or later", true⟩,
    ⟨str "GPL-2.0-only", str "GNU General Public License v2.0 only", true⟩,
    ⟨str "GPL-2.0-or-later", str "GNU General Public License v2.0 or later", true⟩,
    ⟨str "GPL-3.0-only", str "GNU General Public License v3.0 only", true⟩,
    ⟨str "GPL-3.0-or-later", str "GNU General Public License v3.0 or later", true⟩,
    ⟨str "LGPL-2.1-only", str "GNU Lesser General Public License v2.1 only", true⟩,
    ⟨str "LGPL-2.1-or-later", str "GNU Lesser General Public License v2.1 or later", true⟩,
    ⟨str "LGPL-3.0-only", str "GNU Lesser General Public License v3.0 only", true⟩,
    ⟨str "LGPL-3.0-or-later", str "GNU Lesser General Public License v3.0 or later", true⟩]

/-- The constants of the file, which live as long as the program. -/
def constants : List License := unlicensed :: knownLicenses

/-- The address of `UNLICENSED`. -/
def unlicensedAddr : Address := 0

/-- The constructors of the constants. -/
def statics : List Action := constants.zipIdx.map fun (lic, addr) => .construct addr lic

/-- The constructor and the destructor: an object is created where none is, and destroyed where it
is.  The constants are not destroyed. -/
def step (s : State) : Action → Option State
  | .construct addr lic =>
    if s.objects[addr]? = none then
      some { all := s.all.insertIfNew lic.spdx addr, objects := s.objects.insert addr lic }
    else none
  | .destroy addr lic =>
    if s.objects[addr]? = some lic ∧ constants.length ≤ addr then
      some { all := s.all.erase lic.spdx, objects := s.objects.erase addr }
    else none

/-- `license::find(spdx)`. -/
def find (s : State) (spdx : Bytes) : Address :=
  match s.all[spdx]? with
  | some addr => addr
  | none => unlicensedAddr

/-- `license::describe(spdx)`, which reads the object that `find` refers to. -/
def describe (s : State) (spdx : Bytes) : Option Bytes :=
  s.objects[find s spdx]?.map fun lic => if lic.spdx = unlicensed.spdx then spdx else lic.name

/-! ## What an identifier stands for -/

/-- A license of the identifier is destroyed. -/
def Action.destroys (spdx : Bytes) : Action → Bool
  | construct _ _ => false
  | destroy _ lic => lic.spdx == spdx

/-- The license of the identifier that is created. -/
def Action.constructs (spdx : Bytes) : Action → Option Address
  | construct addr lic => if lic.spdx = spdx then some addr else none
  | destroy _ _ => none

/-- The first license of the identifier since one was destroyed. -/
def registered (spdx : Bytes) (history : List Action) : Option Address :=
  (history.rtakeWhile fun act => !act.destroys spdx).findSome? (·.constructs spdx)

theorem registered_append_of_destroys {spdx : Bytes} {act : Action} (history : List Action)
    (h : act.destroys spdx = true) : registered spdx (history ++ [act]) = none := by
  unfold registered
  rw [List.rtakeWhile_concat_neg _ _ _ (by simp [h])]
  rfl

theorem registered_append {spdx : Bytes} {act : Action} (history : List Action)
    (h : act.destroys spdx = false) :
    registered spdx (history ++ [act]) =
      (registered spdx history).or (act.constructs spdx) := by
  unfold registered
  rw [List.rtakeWhile_concat_pos _ _ _ (by simp [h]), List.findSome?_append]
  congr 1
  cases hact : act.constructs spdx <;> simp [hact]

/-- The two places that know of an object. -/
structure Inv (s : State) (history : List Action) : Prop where
  all : ∀ spdx : Bytes, s.all[spdx]? = registered spdx history
  /-- An entry refers to an object of its identifier. -/
  live : ∀ (spdx : Bytes) (addr : Address), s.all[spdx]? = some addr →
    ∃ lic, s.objects[addr]? = some lic ∧ lic.spdx = spdx

/-- An insertion that keeps an entry which is there. -/
theorem getElem?_insertIfNew_eq_or {t : Std.TreeMap Bytes Address} (k a : Bytes) (v : Address) :
    (t.insertIfNew k v)[a]? = (t[a]?).or (if k = a then some v else none) := by
  rw [Std.TreeMap.getElem?_insertIfNew]
  by_cases heq : k = a
  · subst heq
    have hself : compare k k = .eq := Std.ReflCmp.compare_self
    simp only [Std.TreeMap.mem_iff_isSome_getElem?, hself, if_true, true_and]
    cases t[k]? with
    | none => rfl
    | some addr => rfl
  · have hne : ¬ compare k a = .eq := fun h => heq (Std.LawfulEqCmp.eq_of_compare h)
    rw [if_neg heq, if_neg fun h => hne h.1, Option.or_none]

/-- Every action keeps the entries in step with the history. -/
theorem Inv.step {s s' : State} {history : List Action} {act : Action} (h : Inv s history)
    (hstep : step s act = some s') : Inv s' (history ++ [act]) := by
  cases act with
  | construct addr lic =>
    rw [Licenses.step, Option.ite_none_right_eq_some] at hstep
    obtain ⟨hnew, heq⟩ := hstep
    cases heq
    refine ⟨fun spdx => ?_, fun spdx addr' hall => ?_⟩
    · show (s.all.insertIfNew lic.spdx addr)[spdx]? = _
      rw [registered_append _ rfl, ← h.all, getElem?_insertIfNew_eq_or]
      rfl
    · change (s.all.insertIfNew lic.spdx addr)[spdx]? = some addr' at hall
      show ∃ l, (s.objects.insert addr lic)[addr']? = some l ∧ l.spdx = spdx
      rw [getElem?_insertIfNew_eq_or, Option.or_eq_some_iff] at hall
      rw [Std.TreeMap.getElem?_insert]
      rcases hall with hold | ⟨-, hif⟩
      · obtain ⟨l, hl, hspdx⟩ := h.live spdx addr' hold
        have hne : ¬ compare addr addr' = .eq := by
          intro heq
          rw [Std.LawfulEqCmp.eq_of_compare heq, hl] at hnew
          cases hnew
        rw [if_neg hne]
        exact ⟨l, hl, hspdx⟩
      · rw [Option.ite_none_right_eq_some] at hif
        obtain ⟨hspdx, haddr⟩ := hif
        cases haddr
        rw [if_pos Std.ReflCmp.compare_self]
        exact ⟨lic, rfl, hspdx⟩
  | destroy addr lic =>
    rw [Licenses.step, Option.ite_none_right_eq_some] at hstep
    obtain ⟨⟨hold, -⟩, heq⟩ := hstep
    cases heq
    refine ⟨fun spdx => ?_, fun spdx addr' hall => ?_⟩
    · show (s.all.erase lic.spdx)[spdx]? = _
      rw [Std.TreeMap.getElem?_erase]
      by_cases heq : lic.spdx = spdx
      · subst heq
        rw [registered_append_of_destroys _ (beq_self_eq_true _),
          if_pos Std.ReflCmp.compare_self]
      · have hne : ¬ compare lic.spdx spdx = .eq := fun h => heq (Std.LawfulEqCmp.eq_of_compare h)
        have hkeeps : (Action.destroy addr lic).destroys spdx = false := beq_eq_false_iff_ne.2 heq
        rw [registered_append _ hkeeps, if_neg hne, h.all]
        exact Option.or_none.symm
    · change (s.all.erase lic.spdx)[spdx]? = some addr' at hall
      show ∃ l, (s.objects.erase addr)[addr']? = some l ∧ l.spdx = spdx
      rw [Std.TreeMap.getElem?_erase, Option.ite_none_left_eq_some] at hall
      obtain ⟨hne, hall⟩ := hall
      obtain ⟨l, hl, hspdx⟩ := h.live spdx addr' hall
      -- the object that goes has another identifier
      have hother : ¬ compare addr addr' = .eq := by
        intro heq
        rw [Std.LawfulEqCmp.eq_of_compare heq, hl] at hold
        cases hold
        rw [hspdx] at hne
        exact hne Std.ReflCmp.compare_self
      rw [Std.TreeMap.getElem?_erase, if_neg hother]
      exact ⟨l, hl, hspdx⟩

theorem Inv.run {s s' : State} {history acts : List Action} (h : Inv s history)
    (hrun : System.run Licenses.step s acts = some s') : Inv s' (history ++ acts) := by
  induction acts generalizing s history with
  | nil =>
    cases hrun
    rw [List.append_nil]
    exact h
  | cons act acts ih =>
    rw [System.run, Option.bind_eq_some_iff] at hrun
    obtain ⟨s₁, hact, hrest⟩ := hrun
    rw [List.append_cons]
    exact ih (h.step hact) hrest

/-- The memory before the first constructor. -/
def empty : State := ⟨∅, ∅⟩

theorem inv_empty : Inv empty [] := by
  refine ⟨fun spdx => Std.TreeMap.getElem?_emptyc, fun spdx addr h => ?_⟩
  have hnone : (∅ : Std.TreeMap Bytes Address)[spdx]? = none := Std.TreeMap.getElem?_emptyc
  rw [show empty.all = ∅ from rfl, hnone] at h
  cases h

/-! ## The constants -/

/-- An action leaves the constants alone. -/
theorem constant_step {s s' : State} {act : Action} {addr : Address} {lic : License}
    (haddr : addr < constants.length) (h : s.objects[addr]? = some lic)
    (hstep : step s act = some s') : s'.objects[addr]? = some lic := by
  cases act with
  | construct addr' lic' =>
    rw [step, Option.ite_none_right_eq_some] at hstep
    obtain ⟨hnew, heq⟩ := hstep
    cases heq
    show (s.objects.insert addr' lic')[addr]? = some lic
    have hne : ¬ compare addr' addr = .eq := by
      intro heq
      rw [Std.LawfulEqCmp.eq_of_compare heq, h] at hnew
      cases hnew
    rw [Std.TreeMap.getElem?_insert, if_neg hne]
    exact h
  | destroy addr' lic' =>
    rw [step, Option.ite_none_right_eq_some] at hstep
    obtain ⟨⟨-, hle⟩, heq⟩ := hstep
    cases heq
    show (s.objects.erase addr')[addr]? = some lic
    have hne : ¬ compare addr' addr = .eq := by
      intro heq
      have hsame : addr' = addr := Std.LawfulEqCmp.eq_of_compare heq
      rw [hsame] at hle
      exact absurd haddr (Nat.not_lt.2 hle)
    rw [Std.TreeMap.getElem?_erase, if_neg hne]
    exact h

theorem constant_run {s s' : State} {acts : List Action} {addr : Address} {lic : License}
    (haddr : addr < constants.length) (h : s.objects[addr]? = some lic)
    (hrun : System.run step s acts = some s') : s'.objects[addr]? = some lic := by
  induction acts generalizing s with
  | nil =>
    cases hrun
    exact h
  | cons act acts ih =>
    rw [System.run, Option.bind_eq_some_iff] at hrun
    obtain ⟨s₁, hact, hrest⟩ := hrun
    exact ih (constant_step haddr h hact) hrest

/-! ## The result -/

/-- What `find` and `describe` say, after any history of a program.  An identifier stands for the
first license of it that was created since one of it was destroyed: a license that is created
later does not replace it, but its destructor removes it.  `find` never refers to an object that
is gone. -/
theorem find_describe {acts : List Action} {s : State}
    (h : System.run step empty (statics ++ acts) = some s) (spdx : Bytes) :
    (∀ addr, registered spdx (statics ++ acts) = some addr →
      find s spdx = addr ∧ ∃ lic, s.objects[addr]? = some lic ∧ lic.spdx = spdx ∧
        describe s spdx = some (if spdx = unlicensed.spdx then spdx else lic.name)) ∧
    (registered spdx (statics ++ acts) = none →
      find s spdx = unlicensedAddr ∧ s.objects[unlicensedAddr]? = some unlicensed ∧
        describe s spdx = some spdx) := by
  have hinv := inv_empty.run h
  rw [List.nil_append] at hinv
  rw [← hinv.all]
  constructor
  · intro addr hall
    obtain ⟨lic, hlic, hspdx⟩ := hinv.live spdx addr hall
    have hfind : find s spdx = addr := by
      unfold find
      rw [hall]
    refine ⟨hfind, lic, hlic, hspdx, ?_⟩
    rw [describe, hfind, hlic, Option.map_some, hspdx]
  · intro hall
    have hfind : find s spdx = unlicensedAddr := by
      unfold find
      rw [hall]
    have hobject : s.objects[unlicensedAddr]? = some unlicensed := by
      have hfirst : statics ++ acts =
          .construct unlicensedAddr unlicensed :: (statics.tail ++ acts) := rfl
      rw [hfirst] at h
      rw [System.run, Option.bind_eq_some_iff] at h
      obtain ⟨s₁, hact, hrest⟩ := h
      rw [step, Option.ite_none_right_eq_some] at hact
      obtain ⟨-, heq⟩ := hact
      cases heq
      refine constant_run (Nat.zero_lt_succ _) ?_ hrest
      exact Std.TreeMap.getElem?_insert_self
    refine ⟨hfind, hobject, ?_⟩
    rw [describe, hfind, hobject, Option.map_some, if_pos rfl]

/-- A license of an identifier that is known, which takes the entry with it. -/
theorem find_describe_apache :
    ∃ s, System.run step empty (statics ++ [.construct 16 ⟨str "Apache-2.0", str "Mine", true⟩,
        .destroy 16 ⟨str "Apache-2.0", str "Mine", true⟩]) = some s ∧
      find s (str "Apache-2.0") = unlicensedAddr ∧
      describe s (str "Apache-2.0") = some (str "Apache-2.0") := by
  have hsome : (System.run step empty (statics ++
      [.construct 16 ⟨str "Apache-2.0", str "Mine", true⟩,
        .destroy 16 ⟨str "Apache-2.0", str "Mine", true⟩])).isSome = true := by
    decide +kernel
  obtain ⟨s, hs⟩ := Option.isSome_iff_exists.1 hsome
  have hfind := (find_describe hs (str "Apache-2.0")).2 (by decide +kernel)
  exact ⟨s, hs, hfind.1, hfind.2.2⟩

end Mwr.Licenses
