import Mathlib.Logic.Function.Basic
import Mwr.CodeLib.Exec
import Mwr.Subprocess.Inherit

/-!
# The variables that a process sets

`setenv`, `clrenv` and `getenv` of `src/mwr/core/utils.cpp` for POSIX, on the strings of a process.
The strings are in an order and may name a variable more than once, which no call gets to see.

* `posixSetenv` and `posixUnsetenv` are the calls of the C library.
* `valueOf` reads a variable, with one lemma for each change of the strings.
* `variables_map` is the result for a run: the strings behave like a map.
-/

namespace Mwr.Subprocess

open Mwr.CodeLib
open Mwr.CodeLib.Exec
open Mwr.Options (CString cStr)

/-! ## The code -/

/-- The string of a variable. -/
def define (name value : CString) : CString := cStr (name.1 ++ '='.toUInt8 :: value.1)

/-- A string begins with the name and a `=`. -/
def Names (name entry : CString) : Prop := name.1 ++ ['='.toUInt8] <+: entry.1

instance (name entry : CString) : Decidable (Names name entry) :=
  inferInstanceAs (Decidable (_ <+: _))

/-- The name of a variable. -/
def Proper (name : CString) : Prop := name.1 ≠ [] ∧ '='.toUInt8 ∉ name.1

instance (name : CString) : Decidable (Proper name) := inferInstanceAs (Decidable (_ ∧ _))

/-- The first string for a name is replaced, or the new one is added at the end. -/
def setLoop (name value : CString) : List CString → List CString
  | [] => [define name value]
  | entry :: rest =>
    if Names name entry then define name value :: rest else entry :: setLoop name value rest

/-- `::setenv(name, value, 1)`. -/
def posixSetenv (strings : List CString) (name value : CString) : Except String (List CString) :=
  if Proper name then .ok (setLoop name value strings) else .error "Invalid argument"

/-- `::unsetenv(name)`, which removes each string for the name. -/
def posixUnsetenv (strings : List CString) (name : CString) : Except String (List CString) :=
  if Proper name then .ok (strings.filter fun entry => ¬ Names name entry)
  else .error "Invalid argument"

/-- `setenv(name, value)`. -/
def setenv (strings : List CString) (name value : Bytes) : Except Fault (List CString) :=
  (posixSetenv strings (cStr name) (cStr value)).mapError fun reason =>
    .error s!"failed to set {Bytes.text (cStr name).1} ({reason})"

/-- `clrenv(name)`. -/
def clrenv (strings : List CString) (name : Bytes) : Except Fault (List CString) :=
  (posixUnsetenv strings (cStr name)).mapError fun reason =>
    .error s!"failed to clear {Bytes.text (cStr name).1} ({reason})"

/-- A call that changes the variables of the process. -/
inductive Change where
  | setenv (name value : Bytes)
  | clrenv (name : Bytes)

def change (strings : List CString) : Change → Except Fault (List CString)
  | .setenv name value => setenv strings name value
  | .clrenv name => clrenv strings name

/-- The vector `environ`. -/
def vectorOf (strings : List CString) : List (Option CString) := strings.map some ++ [none]

/-! ## One variable -/

/-- The value in the first string for a name. -/
def valueOf (strings : List CString) (name : Bytes) : Option Bytes :=
  strings.findSome? fun entry => valueIn name entry.1

theorem getElem?_vectorOf (strings : List CString) (name : Bytes) :
    (getEnvironment (vectorOf strings))[name]? = valueOf strings name :=
  getElem?_getEnvironment name strings []

theorem valueIn_define {name : CString} (h : Proper name) (value : CString) (other : Bytes) :
    valueIn other (define name value).1 = if name.1 = other then some value.1 else none := by
  have hnull : (0 : UInt8) ∉ name.1 ++ '='.toUInt8 :: value.1 := by
    rw [List.mem_append, List.mem_cons, not_or, not_or]
    exact ⟨name.2, by decide, value.2⟩
  have hdefine : define name value = ⟨name.1 ++ '='.toUInt8 :: value.1, hnull⟩ :=
    Options.cStr_eq rfl
  have hparse : parseEntry (define name value).1 = some (name.1, value.1) := by
    rw [hdefine]
    exact parseEntry_eq_some.2 ⟨rfl, h.2⟩
  rw [valueIn, hparse]
  rfl

/-- A string is for a proper name if and only if it has a value for it. -/
theorem valueIn_eq_ite {name : CString} (h : Proper name) (entry : CString) :
    valueIn name.1 entry.1 =
      if Names name entry then some (entry.1.drop (name.1.length + 1)) else none := by
  split
  next hnames =>
    obtain ⟨value, hvalue⟩ := hnames
    rw [valueIn_eq_some, parseEntry_eq_some, ← hvalue]
    refine ⟨?_, h.2⟩
    rw [List.append_assoc, List.drop_length_add_append]
    rfl
  next hnames =>
    rw [Option.eq_none_iff_forall_ne_some]
    intro value hvalue
    obtain ⟨heq, -⟩ := parseEntry_eq_some.1 (valueIn_eq_some.1 hvalue)
    refine hnames ⟨value, ?_⟩
    rw [heq, List.append_assoc]
    rfl

/-- A string for one name has no value for another one. -/
theorem valueIn_of_names {name : CString} (h : Proper name) {entry : CString}
    (hnames : Names name entry) {other : Bytes} (hne : name.1 ≠ other) :
    valueIn other entry.1 = none := by
  have hvalue := valueIn_eq_ite h entry
  rw [if_pos hnames, valueIn_eq_some] at hvalue
  rw [valueIn, hvalue]
  exact if_neg hne

theorem valueOf_cons (entry : CString) (strings : List CString) (name : Bytes) :
    valueOf (entry :: strings) name = (valueIn name entry.1).or (valueOf strings name) := by
  rw [valueOf, List.findSome?_cons]
  cases valueIn name entry.1 <;> rfl

/-- A variable that is set has the new value, and the others keep theirs. -/
theorem valueOf_setLoop {name : CString} (h : Proper name) (value : CString)
    (strings : List CString) :
    valueOf (setLoop name value strings) =
      Function.update (valueOf strings) name.1 (some value.1) := by
  funext other
  induction strings with
  | nil =>
    show valueOf [define name value] other = _
    rw [valueOf_cons, valueIn_define h]
    by_cases hother : other = name.1
    · subst hother
      rw [if_pos rfl, Function.update_self]
      rfl
    · rw [if_neg (Ne.symm hother), Function.update_of_ne hother]
      rfl
  | cons entry strings ih =>
    unfold setLoop
    by_cases hother : other = name.1
    · subst hother
      rw [Function.update_self] at ih ⊢
      split
      next => rw [valueOf_cons, valueIn_define h, if_pos rfl, Option.some_or]
      next hnames => rw [valueOf_cons, valueIn_eq_ite h, if_neg hnames, Option.none_or, ih]
    · rw [Function.update_of_ne hother] at ih ⊢
      rw [valueOf_cons entry]
      split
      next hnames =>
        rw [valueOf_cons, valueIn_define h, if_neg (Ne.symm hother),
          valueIn_of_names h hnames (Ne.symm hother)]
      next => rw [valueOf_cons, ih]

/-- A variable that is cleared has no value, and the others keep theirs. -/
theorem valueOf_filter {name : CString} (h : Proper name) (strings : List CString) :
    valueOf (strings.filter fun entry => ¬ Names name entry) =
      Function.update (valueOf strings) name.1 none := by
  funext other
  induction strings with
  | nil =>
    show none = Function.update (fun _ => none) name.1 none other
    by_cases hother : other = name.1
    · rw [hother, Function.update_self]
    · rw [Function.update_of_ne hother]
  | cons entry strings ih =>
    by_cases hnames : Names name entry
    · rw [List.filter_cons_of_neg (by simp [hnames]), ih]
      by_cases hother : other = name.1
      · rw [hother, Function.update_self, Function.update_self]
      · rw [Function.update_of_ne hother, Function.update_of_ne hother, valueOf_cons,
          valueIn_of_names h hnames (Ne.symm hother), Option.none_or]
    · rw [List.filter_cons_of_pos (by simp [hnames]), valueOf_cons, ih]
      by_cases hother : other = name.1
      · rw [hother, Function.update_self, Function.update_self, valueIn_eq_ite h, if_neg hnames]
        rfl
      · rw [Function.update_of_ne hother, Function.update_of_ne hother, valueOf_cons]

/-- `getenv` reads what `get_environment` finds. -/
theorem getenv_vectorOf {name : CString} (h : Proper name) (strings : List CString) :
    getenv (vectorOf strings) name.1 = valueOf strings name.1 := by
  unfold getenv vectorOf
  rw [if_neg h.1]
  have hall : (strings.map some ++ [none]).takeWhile Option.isSome = strings.map some := by
    rw [List.takeWhile_append_of_pos]
    · exact List.append_nil _
    · intro entry hentry
      obtain ⟨e, -, rfl⟩ := List.mem_map.1 hentry
      rfl
  rw [hall, List.findSome?_map]
  refine congrArg (fun f => strings.findSome? f) (funext fun entry => ?_)
  rw [valueIn_eq_ite h]
  show (if (name.1 ++ ['='.toUInt8]).isPrefixOf entry.1 then _ else _) = _
  simp only [List.isPrefixOf_iff_prefix, List.length_append, List.length_singleton]
  rfl

/-! ## A run -/

/-- The name in a call. -/
def Change.name : Change → CString
  | .setenv name _ => cStr name
  | .clrenv name => cStr name

/-- What a call does to a map of variables. -/
def Change.apply (values : Bytes → Option Bytes) (c : Change) : Bytes → Option Bytes :=
  Function.update values c.name.1 <|
    match c with
    | .setenv _ value => some (cStr value).1
    | .clrenv _ => none

/-- A call aborts for a name that is not proper, and else does to the variables what it does to a
map. -/
theorem change_cases (strings : List CString) (c : Change) :
    (¬ Proper c.name ∧ ∃ message, change strings c = .error (.error message)) ∨
      Proper c.name ∧ ∃ strings', change strings c = .ok strings' ∧
        valueOf strings' = c.apply (valueOf strings) := by
  by_cases h : Proper c.name
  · refine .inr ⟨h, ?_⟩
    cases c with
    | setenv name value =>
      have h : Proper (cStr name) := h
      refine ⟨setLoop (cStr name) (cStr value) strings, ?_, valueOf_setLoop h _ strings⟩
      rw [change, setenv, posixSetenv, if_pos h]
      rfl
    | clrenv name =>
      have h : Proper (cStr name) := h
      refine ⟨strings.filter fun entry => ¬ Names (cStr name) entry, ?_, valueOf_filter h strings⟩
      rw [change, clrenv, posixUnsetenv, if_pos h]
      rfl
  · refine .inl ⟨h, ?_⟩
    cases c with
    | setenv name value =>
      have h : ¬ Proper (cStr name) := h
      exact ⟨_, by rw [change, setenv, posixSetenv, if_neg h]; rfl⟩
    | clrenv name =>
      have h : ¬ Proper (cStr name) := h
      exact ⟨_, by rw [change, clrenv, posixUnsetenv, if_neg h]; rfl⟩

/-- The variables of a process behave like a map.  A run of `setenv` and `clrenv` aborts exactly
if a name is empty or has a `=`, and else `get_environment` returns what the calls do to a map, in
their order, and `getenv` its entries. -/
theorem variables_map (strings : List CString) (changes : List Change) :
    ((∃ strings', changes.foldlM change strings = .ok strings') ↔
      ∀ c ∈ changes, Proper c.name) ∧
    ∀ strings', changes.foldlM change strings = .ok strings' → ∀ name : Bytes,
      (getEnvironment (vectorOf strings'))[name]? =
        changes.foldl Change.apply (fun name => (getEnvironment (vectorOf strings))[name]?) name ∧
      (Proper (cStr name) → getenv (vectorOf strings') (cStr name).1 =
        (getEnvironment (vectorOf strings'))[(cStr name).1]?) := by
  constructor
  · induction changes generalizing strings with
    | nil => exact iff_of_true ⟨strings, rfl⟩ fun c hc => absurd hc List.not_mem_nil
    | cons c changes ih =>
      rw [List.foldlM_cons, List.forall_mem_cons]
      rcases change_cases strings c with ⟨hnot, message, herror⟩ | ⟨hproper, strings₁, hok, -⟩
      · rw [herror, error_bind]
        exact iff_of_false (fun ⟨_, h⟩ => by cases h) fun h => hnot h.1
      · rw [hok, ok_bind, ih, and_iff_right hproper]
  · intro strings' hrun name
    simp only [getElem?_vectorOf]
    refine ⟨congrFun ?_ name, fun hproper => getenv_vectorOf hproper strings'⟩
    induction changes generalizing strings with
    | nil =>
      cases hrun
      rfl
    | cons c changes ih =>
      rw [List.foldlM_cons] at hrun
      obtain ⟨strings₁, hchange, hrun⟩ := bind_eq_ok.1 hrun
      rcases change_cases strings c with ⟨-, message, herror⟩ | ⟨-, strings₂, hok, hvalue⟩
      · cases herror.symm.trans hchange
      · cases hok.symm.trans hchange
        rw [List.foldl_cons, ih strings₁ hrun]
        exact congrArg (fun values => changes.foldl Change.apply values) hvalue

end Mwr.Subprocess
