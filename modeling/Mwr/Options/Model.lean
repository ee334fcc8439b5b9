import Mathlib.Data.List.Pairwise
import Mathlib.Data.List.TakeWhile
import Mwr.CodeLib.Bytes
import Mwr.Core.Report

/-!
# Command line options

A translation of `include/mwr/utils/options.h` and
`src/mwr/utils/options.cpp`, for options that are created without a callback of
their own.  `from_string` of the type of an option is a field of the option.

A command line is the list of its tokens, so that `i++` moves on to the rest of
the list and `i >= argc` is the empty list.

A `Registry` has options that no token matches two of, which `register` checks.
`options_of_run` is about the registry of a program that constructs and destroys
options.
-/

namespace Mwr.Options

open Mwr.CodeLib (Bytes)

/-- What a `const char*` points to: the bytes before the terminating null. -/
abbrev CString := { s : Bytes // 0 ∉ s }

/-- `c_str()`, as its callee reads it. -/
def cStr (s : Bytes) : CString :=
  ⟨s.takeWhile (· ≠ 0), fun h => by simpa using List.mem_takeWhile_imp h⟩

theorem cStr_eq {s : Bytes} {tok : CString} (h : s = tok) : cStr s = tok := by
  subst h
  apply Subtype.ext
  refine List.takeWhile_eq_self_iff.mpr fun b hb => decide_eq_true ?_
  rintro rfl
  exact tok.2 hb

/-- The token starts with `-`. -/
def dash (tok : Bytes) : Bool := tok.head? = some '-'.toUInt8

/-! ## One option -/

/-- The names of an `option_base`, which its constructor has checked. -/
structure OptionBase where
  name : Bytes
  aname : Bytes
  name_dash : dash name
  aname_dash : aname = [] ∨ dash aname

namespace OptionBase

/-- The checks of the constructor of `option_base`. -/
def new (name aname : Bytes) : Except Fault OptionBase :=
  if name = [] then
    .error (.error "option name cannot be empty")
  else if hname : dash name then
    if haname : aname = [] ∨ dash aname then
      .ok { name := name, aname := aname, name_dash := hname, aname_dash := haname }
    else
      .error (.error "alternative option name invalid")
  else
    .error (.error "option name invalid")

/-- `aname()`: null when there is no alternative name. -/
def anamePtr (self : OptionBase) : Option CString :=
  if self.aname = [] then none else some (cStr self.aname)

/-- `matches(argv)` for a string or null. -/
def matchesArg (self : OptionBase) : Option CString → Bool
  | none => false
  | some argv =>
    argv.val ≠ [] &&
      ((self.name ≠ [] && self.name = argv.val) || (self.aname ≠ [] && self.aname = argv.val))

end OptionBase

/-- An `option<T>` with its values, or an `option<bool>` with its flags. -/
inductive Opt : Type 1 where
  | value (base : OptionBase) (T : Type) (fromString : Bytes → T) (values : List T)
  | flag (base : OptionBase) (value hasValue : Bool)

namespace Opt

def base : Opt → OptionBase
  | value base .. => base
  | flag base .. => base

/-- `argc()`: the number of tokens that belong to an occurrence of the option. -/
def argc : Opt → Nat
  | value .. => 1
  | flag .. => 0

/-- The option matches a token of the command line. -/
def matchesTok (self : Opt) (tok : CString) : Bool := self.base.matchesArg (some tok)

end Opt

/-- The loop of `option<T>::parse`. -/
def valueLoop {T : Type} (base : OptionBase) (fromString : Bytes → T) :
    List T → List CString → Bool × List T
  | values, [] => (true, values)
  | values, tok :: rest =>
    if !base.matchesArg (some tok) then
      valueLoop base fromString values rest
    else
      match rest with
      | [] => (false, values)
      | str :: rest =>
        if str.val.isEmpty || dash str then
          (false, values)
        else
          valueLoop base fromString (values ++ [fromString str]) rest

/-- The loop of `option<bool>::parse`. -/
def flagLoop (base : OptionBase) : Bool → Bool → List CString → Bool × Bool
  | value, hasValue, [] => (value, hasValue)
  | value, hasValue, tok :: rest =>
    if !base.matchesArg (some tok) then
      flagLoop base value hasValue rest
    else
      flagLoop base (!value) true rest

/-- `parse(argc, argv)` of an option: its result, and the option afterwards. -/
def Opt.parse (argv : List CString) : Opt → Bool × Opt
  | .value base T fromString _ =>
    let r := valueLoop base fromString [] argv
    (r.1, .value base T fromString r.2)
  | .flag base _ _ =>
    let r := flagLoop base false false argv
    (true, .flag base r.1 r.2)

theorem Opt.parse_base (argv : List CString) (opt : Opt) : (opt.parse argv).2.base = opt.base := by
  cases opt <;> rfl

theorem Opt.parse_argc (argv : List CString) (opt : Opt) : (opt.parse argv).2.argc = opt.argc := by
  cases opt <;> rfl

/-! ## The registry -/

/-- Two options that no token matches both. -/
def Apart (opt other : Opt) : Prop :=
  ∀ tok, ¬ (opt.matchesTok tok ∧ other.matchesTok tok)

/-- The registered options, in the order of `m_options`. -/
structure Registry where
  opts : List Opt
  apart : opts.Pairwise Apart

namespace Registry

/-- No option is registered. -/
def empty : Registry where
  opts := []
  apart := .nil

theorem matchesTok_iff (opt : Opt) (tok : CString) :
    opt.matchesTok tok ↔ tok.val ≠ [] ∧ (opt.base.name = tok ∨ opt.base.aname = tok) := by
  simp only [Opt.matchesTok, OptionBase.matchesArg, Bool.and_eq_true, Bool.or_eq_true,
    decide_eq_true_iff]
  constructor
  · rintro ⟨hne, ⟨_, h⟩ | ⟨_, h⟩⟩
    · exact ⟨hne, .inl h⟩
    · exact ⟨hne, .inr h⟩
  · rintro ⟨hne, h | h⟩
    · exact ⟨hne, .inl ⟨h ▸ hne, h⟩⟩
    · exact ⟨hne, .inr ⟨h ▸ hne, h⟩⟩

/-- The names of options start with `-`. -/
theorem dash_of_matchesTok {opt : Opt} {tok : CString} (h : opt.matchesTok tok) : dash tok := by
  rcases (matchesTok_iff opt tok).mp h with ⟨hne, hname | haname⟩
  · exact hname ▸ opt.base.name_dash
  · rcases opt.base.aname_dash with hnil | hdash
    · exact absurd (haname ▸ hnil) hne
    · exact haname ▸ hdash

/-- The test of `register_option` for one registered option. -/
def Taken (opt other : Opt) : Prop :=
  other.matchesTok (cStr opt.base.name) ∨ other.base.matchesArg opt.base.anamePtr

instance (opt other : Opt) : Decidable (Taken opt other) :=
  inferInstanceAs (Decidable (_ ∨ _))

theorem apart_of_not_taken {opt other : Opt} (h : ¬ Taken opt other) : Apart other opt := by
  rintro tok ⟨hother, hopt⟩
  rcases (matchesTok_iff opt tok).mp hopt with ⟨hne, hname | haname⟩
  · exact h (.inl (cStr_eq hname ▸ hother))
  · have hptr : opt.base.anamePtr = some tok := by
      rw [OptionBase.anamePtr, if_neg (haname ▸ hne), cStr_eq haname]
    exact h (.inr (hptr ▸ hother))

/-- `register_option(opt)`. -/
def register (self : Registry) (opt : Opt) : Except Fault Registry :=
  if h : ∀ other ∈ self.opts, ¬ Taken opt other then
    .ok {
      opts := self.opts ++ [opt]
      apart := by
        rw [List.pairwise_append]
        refine ⟨self.apart, List.pairwise_singleton _ opt, fun other hother opt' hopt' => ?_⟩
        rw [List.mem_singleton.mp hopt']
        exact apart_of_not_taken (h other hother) }
  else
    -- the first option that is in the way, and the first name of the new one that it matches
    let other := self.opts.find? fun other => Taken opt other
    let byName := other.any fun other => other.matchesTok (cStr opt.base.name)
    let name := if byName then opt.base.name else opt.base.aname
    .error (.error ("option " ++ Bytes.text (cStr name) ++ " already defined"))

/-- The constructor of an option, which registers it. -/
def newOption (self : Registry) (name aname : Bytes) (make : OptionBase → Opt) :
    Except Fault Registry :=
  match OptionBase.new name aname with
  | .error fault => .error fault
  | .ok base => self.register (make base)

/-- `unregister_option(opt)`, for the option at an index. -/
def unregister (self : Registry) (i : Nat) : Registry where
  opts := self.opts.eraseIdx i
  apart := self.apart.sublist (List.eraseIdx_sublist self.opts i)

/-- `find(name)`. -/
def find (self : Registry) (name : CString) : Option Opt :=
  self.opts.find? fun opt => opt.matchesTok name

instance : Std.Symm Apart := ⟨fun _ _ h tok ht => h tok ht.symm⟩

/-- Only one option matches a token. -/
theorem eq_of_matchesTok {self : Registry} {opt other : Opt} {tok : CString}
    (hopt : opt ∈ self.opts) (hother : other ∈ self.opts) (h : opt.matchesTok tok)
    (h' : other.matchesTok tok) : opt = other := by
  by_contra hne
  exact self.apart.forall hopt hother hne tok ⟨h, h'⟩

/-- `find` returns the option that matches. -/
theorem find_of_matchesTok {self : Registry} {opt : Opt} {tok : CString} (hopt : opt ∈ self.opts)
    (h : opt.matchesTok tok) : self.find tok = some opt := by
  obtain ⟨found, hfound⟩ := Option.isSome_iff_exists.mp
    (List.find?_isSome (p := fun opt : Opt => opt.matchesTok tok) |>.mpr ⟨opt, hopt, h⟩)
  have hmatch := List.find?_some (p := fun opt : Opt => opt.matchesTok tok) hfound
  rw [Registry.find, hfound, eq_of_matchesTok (List.mem_of_find?_eq_some hfound) hopt hmatch h]

/-- `parse(argc, argv)`: every option parses the whole command line. -/
def parse (self : Registry) (argv : List CString) : Bool × Registry where
  fst := self.opts.all fun opt => (opt.parse argv).1
  snd.opts := self.opts.map fun opt => (opt.parse argv).2
  snd.apart := by
    rw [List.pairwise_map]
    refine self.apart.imp fun h => ?_
    simpa only [Apart, Opt.matchesTok, Opt.parse_base] using h

/-- The second loop of `parse(argc, argv, extra)`.  The counter is the number of
tokens that `i += 1 + argc` still has to jump. -/
def extraLoop (self : Registry) : Nat → List CString → List Bytes → List Bytes
  | _, [], extra => extra
  | skip + 1, _ :: rest, extra => self.extraLoop skip rest extra
  | 0, tok :: rest, extra =>
    if dash tok then
      match self.find tok with
      | some opt => self.extraLoop opt.argc rest extra
      | none => self.extraLoop 0 rest extra
    else
      self.extraLoop 0 rest (extra ++ [tok.val])

/-- `parse(argc, argv, extra)`: its result, the options and `extra` afterwards. -/
def parseExtra (self : Registry) (argv : List CString) (extra : List Bytes) :
    Bool × Registry × List Bytes :=
  let r := self.parse argv
  if r.1 then
    (true, r.2, r.2.extraLoop 0 argv.tail extra)
  else
    (false, r.2, extra)

/-! ## The options of a program -/

/-- What a program does with its options. -/
inductive Change : Type 1 where
  | construct (name aname : Bytes) (make : OptionBase → Opt)
  /-- The option at an index is destroyed. -/
  | destroy (i : Nat)

def change (self : Registry) : Change → Except Fault Registry
  | .construct name aname make => self.newOption name aname make
  | .destroy i => .ok (self.unregister i)

/-- The option is one that the program has constructed. -/
def Constructed (changes : List Change) (opt : Opt) : Prop :=
  ∃ name aname make base, .construct name aname make ∈ changes ∧
    OptionBase.new name aname = .ok base ∧ opt = make base

theorem constructed_change {self self' : Registry} {c : Change} (h : self.change c = .ok self')
    {opt : Opt} (hopt : opt ∈ self'.opts) : opt ∈ self.opts ∨ Constructed [c] opt := by
  cases c with
  | construct name aname make =>
    rw [change, newOption] at h
    split at h
    next => cases h
    next base hbase =>
      rw [register] at h
      split at h
      next =>
        cases h
        rw [List.mem_append, List.mem_singleton] at hopt
        exact hopt.imp_right fun heq =>
          ⟨name, aname, make, base, List.mem_singleton_self _, hbase, heq⟩
      next => cases h
  | destroy i =>
    cases h
    exact .inl (List.mem_of_mem_eraseIdx hopt)

/-- Behind any constructions and destructions, the registered options have been constructed, and
`find` returns the one that a token is a name of. -/
theorem options_of_run {changes : List Change} {self self' : Registry}
    (h : changes.foldlM change self = .ok self') {opt : Opt} (hopt : opt ∈ self'.opts) :
    (opt ∈ self.opts ∨ Constructed changes opt) ∧
      ∀ tok, opt.matchesTok tok → self'.find tok = some opt := by
  refine ⟨?_, fun tok hmatch => find_of_matchesTok hopt hmatch⟩
  induction changes generalizing self with
  | nil =>
    cases h
    exact .inl hopt
  | cons c changes ih =>
    rw [List.foldlM_cons] at h
    cases hmiddle : self.change c with
    | error e =>
      rw [hmiddle] at h
      cases h
    | ok middle =>
      rw [hmiddle] at h
      rcases ih h with hmem | ⟨name, aname, make, base, hchange, hbase, heq⟩
      · refine (constructed_change hmiddle hmem).imp_right ?_
        rintro ⟨name, aname, make, base, hchange, hbase, heq⟩
        rw [List.mem_singleton] at hchange
        exact ⟨name, aname, make, base, hchange ▸ List.mem_cons_self, hbase, heq⟩
      · exact .inr ⟨name, aname, make, base, List.mem_cons_of_mem c hchange, hbase, heq⟩

end Registry

end Mwr.Options
