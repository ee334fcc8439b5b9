import Mathlib.Data.List.Forall2
import Mathlib.Data.List.Pairwise
import Mwr.Options.Model

/-!
# The roles of the tokens

Every option scans the whole command line on its own, and a last loop picks the
tokens that belong to no option.  When every scan succeeds, an occurrence of an
option with a value is followed by a token that is no option itself (`Fed`).
This is what makes the scans agree: no option mistakes the value of another one
for an occurrence, and the last loop jumps exactly over the values.
-/

namespace Mwr.Options

open Mwr.CodeLib (Bytes)

/-! ## Roles -/

/-- What a token behind the first one is on the command line. -/
inductive Role where
  /-- The name or the alternative name of a registered option. -/
  | name
  /-- The value of an option: the token behind an occurrence of it. -/
  | value
  /-- A token with a dash that names no option. -/
  | unknown
  | extra
  deriving DecidableEq, Repr

namespace Registry

/-- The token is an occurrence of an option that takes a value. -/
def takesValue (self : Registry) (tok : CString) : Bool :=
  self.opts.any fun opt => opt.argc = 1 && opt.matchesTok tok

/-- The token `tok` behind `prev` has a role. -/
def HasRole (self : Registry) (prev tok : CString) : Role → Prop
  | .name => ∃ opt ∈ self.opts, opt.matchesTok tok
  | .value => self.takesValue prev
  | .unknown => dash tok ∧ ¬ ∃ opt ∈ self.opts, opt.matchesTok tok
  | .extra => ¬ dash tok ∧ ¬ self.takesValue prev

/-- The extra tokens of a command line, in their order. -/
def extraTokens (self : Registry) (argv : List CString) : List Bytes :=
  ((argv.zip argv.tail).filter fun p => !dash p.2 && !self.takesValue p.1).map fun p => p.2.val

end Registry

/-- The value tokens of an option on a command line, in their order. -/
def valueTokens (base : OptionBase) (argv : List CString) : List CString :=
  ((argv.zip argv.tail).filter fun p => base.matchesArg (some p.1)).map Prod.snd

/-- What `opt` is after a command line has been parsed: an option with values has
those of its value tokens, and an option without is set when it occurs. -/
def Parsed (argv : List CString) : Opt → Opt → Prop
  | .value base T fromString _, opt =>
    opt = .value base T fromString ((valueTokens base argv).map fun tok => fromString tok.val)
  | .flag base _ _, opt =>
    ∃ value hasValue, opt = .flag base value hasValue ∧
      (hasValue ↔ ∃ tok ∈ argv, base.matchesArg (some tok))

/-! ## Tokens without a dash -/

theorem find_eq_none_of_not_dash (r : Registry) {tok : CString} (h : ¬ dash tok) :
    r.find tok = none := by
  rw [Registry.find, List.find?_eq_none]
  exact fun opt _ hopt => h (Registry.dash_of_matchesTok hopt)

theorem matchesArg_of_not_dash (base : OptionBase) {tok : CString} (h : ¬ dash tok) :
    base.matchesArg (some tok) = false := by
  have hopt : ¬ (Opt.flag base false false).matchesTok tok :=
    fun hopt => h (Registry.dash_of_matchesTok hopt)
  exact Bool.not_eq_true _ ▸ hopt

theorem takesValue_of_not_dash (r : Registry) {tok : CString} (h : ¬ dash tok) :
    r.takesValue tok = false := by
  rw [Registry.takesValue, List.any_eq_false]
  intro opt _ hopt
  rw [Bool.and_eq_true] at hopt
  exact h (Registry.dash_of_matchesTok hopt.2)

/-! ## The scan of an option with values -/

/-- Every token that `m` accepts is followed by one that can be its value. -/
def Fed (m : CString → Bool) : List CString → Prop
  | [] => True
  | tok :: rest =>
    (m tok → ∃ str, rest.head? = some str ∧ str.val ≠ [] ∧ ¬ dash str) ∧ Fed m rest

theorem valueTokens_cons (base : OptionBase) (tok : CString) (rest : List CString) :
    valueTokens base (tok :: rest) =
      (if base.matchesArg (some tok) then rest.head?.toList else []) ++ valueTokens base rest := by
  cases rest with
  | nil => simp [valueTokens]
  | cons str rest =>
    by_cases h : base.matchesArg (some tok) <;> simp [valueTokens, h]

/-- A scan that succeeds has read the value tokens, and each occurrence of the
option had one. -/
theorem valueLoop_true {T : Type} (base : OptionBase) (fromString : Bytes → T)
    {values values' : List T} {argv : List CString}
    (h : valueLoop base fromString values argv = (true, values')) :
    values' = values ++ (valueTokens base argv).map (fun tok => fromString tok.val) ∧
      Fed (fun tok => base.matchesArg (some tok)) argv := by
  fun_induction valueLoop base fromString values argv with
  | case1 values =>
    cases h
    simp [valueTokens, Fed]
  | case2 values tok rest hno ih =>
    have hno : base.matchesArg (some tok) = false := by simpa using hno
    rw [valueTokens_cons, hno, Fed]
    simpa [hno] using ih h
  | case3 values tok hyes => cases h
  | case4 values tok hyes str rest hbad => cases h
  | case5 values tok hyes str rest hgood ih =>
    have hyes : base.matchesArg (some tok) = true := by simpa using hyes
    simp only [Bool.or_eq_true, not_or, List.isEmpty_iff] at hgood
    have hstr := matchesArg_of_not_dash base hgood.2
    rcases ih h with ⟨hvalues, hfed⟩
    rw [valueTokens_cons, valueTokens_cons, hyes, hstr, hvalues]
    refine ⟨by simp, fun _ => ⟨str, rfl, hgood⟩, fun hc => ?_, hfed⟩
    exact absurd (hstr ▸ hc) Bool.false_ne_true

theorem flagLoop_snd (base : OptionBase) (value hasValue : Bool) (argv : List CString) :
    (flagLoop base value hasValue argv).2 ↔
      hasValue ∨ ∃ tok ∈ argv, base.matchesArg (some tok) := by
  fun_induction flagLoop base value hasValue argv with
  | case1 value hasValue => simp
  | case2 value hasValue tok rest hno ih =>
    rw [ih]
    simp_all
  | case3 value hasValue tok rest hyes ih =>
    rw [ih]
    simp_all

theorem parse_parsed {argv : List CString} {opt : Opt} (h : (opt.parse argv).1 = true) :
    Parsed argv opt (opt.parse argv).2 := by
  cases opt with
  | value base T fromString values =>
    have hloop : valueLoop base fromString [] argv =
        (true, (valueLoop base fromString [] argv).2) := Prod.ext h rfl
    rw [Parsed, Opt.parse, (valueLoop_true base fromString hloop).1]
    rfl
  | flag base value hasValue =>
    refine ⟨_, _, rfl, ?_⟩
    rw [flagLoop_snd]
    simp

theorem fed_of_parse {argv : List CString} {opt : Opt} (h : (opt.parse argv).1 = true)
    (hargc : opt.argc = 1) : Fed opt.matchesTok argv := by
  cases opt with
  | value base T fromString values =>
    have hloop : valueLoop base fromString [] argv =
        (true, (valueLoop base fromString [] argv).2) := Prod.ext h rfl
    exact (valueLoop_true base fromString hloop).2
  | flag base value hasValue => cases hargc

/-! ## The last loop -/

/-- When each option has its values, the options together have theirs. -/
theorem fed_takesValue (r : Registry) {argv : List CString}
    (h : ∀ opt ∈ r.opts, opt.argc = 1 → Fed opt.matchesTok argv) : Fed r.takesValue argv := by
  induction argv with
  | nil => trivial
  | cons tok rest ih =>
    refine ⟨fun htok => ?_, ih fun opt hopt hargc => (h opt hopt hargc).2⟩
    rcases List.any_eq_true.mp htok with ⟨opt, hopt, hmatch⟩
    rw [Bool.and_eq_true, decide_eq_true_iff] at hmatch
    exact (h opt hopt hmatch.1).1 hmatch.2

/-- Only one option matches a token, so that the one that `find` returns knows
whether a value follows. -/
theorem argc_of_find (r : Registry) {tok : CString} {opt : Opt} (h : r.find tok = some opt) :
    opt.argc = if r.takesValue tok then 1 else 0 := by
  have hmem : opt ∈ r.opts := List.mem_of_find?_eq_some h
  have hmatch : opt.matchesTok tok := List.find?_some (p := fun opt : Opt => opt.matchesTok tok) h
  split
  · rename_i htakes
    rcases List.any_eq_true.mp htakes with ⟨other, hother, hc⟩
    rw [Bool.and_eq_true, decide_eq_true_iff] at hc
    rw [Registry.eq_of_matchesTok hmem hother hmatch hc.2]
    exact hc.1
  · rename_i hnot
    cases opt with
    | value base T fromString values =>
      exact absurd (List.any_eq_true.mpr ⟨_, hmem, by simpa [Opt.argc] using hmatch⟩) hnot
    | flag => rfl

theorem takesValue_of_find_eq_none (r : Registry) {tok : CString} (h : r.find tok = none) :
    r.takesValue tok = false := by
  rw [Registry.find, List.find?_eq_none] at h
  rw [Registry.takesValue, List.any_eq_false]
  intro opt hopt hc
  rw [Bool.and_eq_true] at hc
  exact h opt hopt hc.2

theorem extraTokens_cons (r : Registry) (prev tok : CString) (rest : List CString) :
    r.extraTokens (prev :: tok :: rest) =
      (if !dash tok && !r.takesValue prev then [tok.val] else []) ++
        r.extraTokens (tok :: rest) := by
  rw [Registry.extraTokens, Registry.extraTokens, List.tail_cons, List.tail_cons,
    List.zip_cons_cons, List.filter_cons]
  split <;> rfl

/-- The last loop behind the token `prev`. -/
theorem extraLoop_eq (r : Registry) {prev : CString} {rest : List CString}
    (h : Fed r.takesValue (prev :: rest)) (extra : List Bytes) :
    r.extraLoop (if r.takesValue prev then 1 else 0) rest extra =
      extra ++ r.extraTokens (prev :: rest) := by
  induction rest generalizing prev extra with
  | nil =>
    rw [Registry.extraLoop, Registry.extraTokens]
    simp
  | cons tok rest ih =>
    have ih := fun extra => ih h.2 extra
    rw [extraTokens_cons]
    cases hprev : r.takesValue prev with
    | true =>
      -- `tok` is the value of `prev`, and the loop jumps over it
      rcases h.1 hprev with ⟨str, hstr, _, hdash⟩
      cases hstr
      have htok := takesValue_of_not_dash r hdash
      simp only [htok] at ih
      simpa [Registry.extraLoop] using ih extra
    | false =>
      cases hdash : dash tok with
      | true =>
        cases hfind : r.find tok with
        | none =>
          have htok := takesValue_of_find_eq_none r hfind
          simp only [htok] at ih
          simpa [Registry.extraLoop, hdash, hfind] using ih extra
        | some opt =>
          have hargc := argc_of_find r hfind
          simpa [Registry.extraLoop, hdash, hfind, hargc] using ih extra
      | false =>
        have hnot : ¬ dash tok := by simp [hdash]
        have htok := takesValue_of_not_dash r hnot
        simp only [htok] at ih
        simpa [Registry.extraLoop, hdash] using ih (extra ++ [tok.val])

/-! ## Every option together -/

theorem takesValue_parse (r : Registry) (argv : List CString) :
    (r.parse argv).2.takesValue = r.takesValue := by
  funext tok
  simp only [Registry.takesValue, Registry.parse, List.any_map, Function.comp_def, Opt.parse_argc,
    Opt.matchesTok, Opt.parse_base]

theorem extraTokens_parse (r : Registry) (argv : List CString) :
    (r.parse argv).2.extraTokens = r.extraTokens := by
  funext tokens
  rw [Registry.extraTokens, Registry.extraTokens, takesValue_parse]

theorem fed_parse {r : Registry} {argv : List CString} (h : (r.parse argv).1 = true) :
    Fed r.takesValue argv := by
  have hall := List.all_eq_true.mp h
  exact fed_takesValue r fun opt hopt hargc => fed_of_parse (hall opt hopt) hargc

theorem parse_forall₂ {r : Registry} {argv : List CString} (h : (r.parse argv).1 = true) :
    List.Forall₂ (Parsed argv) r.opts (r.parse argv).2.opts := by
  show List.Forall₂ (Parsed argv) r.opts (r.opts.map fun opt => (opt.parse argv).2)
  rw [List.forall₂_map_right_iff, List.forall₂_same]
  exact fun opt hopt => parse_parsed (List.all_eq_true.mp h opt hopt)

/-- What earlier calls have left in the options is forgotten. -/
theorem parse_parse (r : Registry) (argv₀ argv : List CString) :
    (r.parse argv₀).2.parse argv = r.parse argv := by
  have hopt : ∀ opt : Opt, (opt.parse argv₀).2.parse argv = opt.parse argv := by
    intro opt
    cases opt <;> rfl
  simp only [Registry.parse, List.all_map, List.map_map, Function.comp_def, hopt]

theorem fed_getElem {m : CString → Bool} {argv : List CString} (h : Fed m argv) (i : Nat)
    (hi : i + 1 < argv.length) (hm : m argv[i]) : ¬ dash argv[i + 1] := by
  induction argv generalizing i with
  | nil => cases hi
  | cons tok rest ih =>
    cases i with
    | zero =>
      rcases h.1 hm with ⟨str, hstr, _, hdash⟩
      cases rest with
      | nil => cases hstr
      | cons str' rest =>
        cases hstr
        exact hdash
    | succ i => exact ih h.2 i (Nat.lt_of_succ_lt_succ hi) hm

/-- A token has exactly one role. -/
theorem existsUnique_role {r : Registry} {prev tok : CString}
    (h : r.takesValue prev → ¬ dash tok) : ∃! role, r.HasRole prev tok role := by
  have hname : (∃ opt ∈ r.opts, opt.matchesTok tok) → dash tok :=
    fun ⟨opt, _, hmatch⟩ => Registry.dash_of_matchesTok hmatch
  by_cases hvalue : r.takesValue prev
  · refine ⟨.value, hvalue, fun role hrole => ?_⟩
    cases role with
    | value => rfl
    | name => exact absurd (hname hrole) (h hvalue)
    | unknown => exact absurd hrole.1 (h hvalue)
    | extra => exact absurd hvalue hrole.2
  · by_cases hopt : ∃ opt ∈ r.opts, opt.matchesTok tok
    · refine ⟨.name, hopt, fun role hrole => ?_⟩
      cases role with
      | name => rfl
      | value => exact absurd hrole hvalue
      | unknown => exact absurd hopt hrole.2
      | extra => exact absurd (hname hopt) hrole.1
    · by_cases hdash : dash tok
      · refine ⟨.unknown, ⟨hdash, hopt⟩, fun role hrole => ?_⟩
        cases role with
        | unknown => rfl
        | name => exact absurd hrole hopt
        | value => exact absurd hrole hvalue
        | extra => exact absurd hdash hrole.1
      · refine ⟨.extra, ⟨hdash, hvalue⟩, fun role hrole => ?_⟩
        cases role with
        | extra => rfl
        | name => exact absurd hrole hopt
        | value => exact absurd hrole hvalue
        | unknown => exact absurd hrole.1 hdash

/-- The extra tokens, for a command line whose first token names no option. -/
theorem extraLoop_tail {r : Registry} {argv : List CString} (h : Fed r.takesValue argv)
    (hprog : ∀ tok, argv.head? = some tok → r.takesValue tok = false) (extra : List Bytes) :
    r.extraLoop 0 argv.tail extra = extra ++ r.extraTokens argv := by
  cases argv with
  | nil => simp [Registry.extraLoop, Registry.extraTokens]
  | cons prog rest =>
    have heq := extraLoop_eq r h extra
    rw [hprog prog rfl] at heq
    exact heq

/-- Parsing a command line gives every token behind the first one a single role, and
each option the tokens that are its own; what earlier calls have parsed does not
matter. -/
theorem parse_partition (r : Registry) (argv : List CString) (extra : List Bytes)
    (hprog : ∀ tok, argv.head? = some tok → r.find tok = none) :
    (∀ argv₀, (r.parse argv₀).2.parseExtra argv extra = r.parseExtra argv extra) ∧
    ((r.parseExtra argv extra).1 = true →
      (∀ (i : Nat) (hi : i + 1 < argv.length), ∃! role, r.HasRole argv[i] argv[i + 1] role) ∧
      List.Forall₂ (Parsed argv) r.opts (r.parseExtra argv extra).2.1.opts ∧
      (r.parseExtra argv extra).2.2 = extra ++ r.extraTokens argv) ∧
    ((r.parseExtra argv extra).1 = false → (r.parseExtra argv extra).2.2 = extra) := by
  refine ⟨fun argv₀ => ?_, ?_, ?_⟩
  · simp only [Registry.parseExtra, parse_parse]
  · intro hok
    have hparse : (r.parse argv).1 = true := by
      by_contra hno
      simp only [Registry.parseExtra, hno] at hok
      cases hok
    have hfed := fed_parse hparse
    have hloop : (r.parse argv).2.extraLoop 0 argv.tail extra = extra ++ r.extraTokens argv := by
      rw [← takesValue_parse r argv] at hfed
      rw [← extraTokens_parse r argv]
      refine extraLoop_tail hfed (fun tok htok => ?_) extra
      rw [takesValue_parse]
      exact takesValue_of_find_eq_none r (hprog tok htok)
    simp only [Registry.parseExtra, hparse, if_true]
    exact ⟨fun i hi => existsUnique_role (fed_getElem hfed i hi), parse_forall₂ hparse, hloop⟩
  · intro hno
    cases hparse : (r.parse argv).1 with
    | true =>
      simp only [Registry.parseExtra, hparse, if_true] at hno
      cases hno
    | false => simp only [Registry.parseExtra, hparse, Bool.false_eq_true, if_false]

/-- An option without an alternative name. -/
def plainBase (name : Bytes) (h : dash name) : OptionBase where
  name := name
  aname := []
  name_dash := h
  aname_dash := .inl rfl

/-- An `option<string>` called `-a` and an `option<bool>` called `-b`. -/
def stringAndBool : Registry where
  opts := [.value (plainBase (Bytes.str "-a") (by decide)) Bytes (fun str => str) [],
    .flag (plainBase (Bytes.str "-b") (by decide)) false false]
  apart := by
    rw [List.pairwise_pair]
    exact Registry.apart_of_not_taken (by decide)

/-- A value, a flag and two extra tokens. -/
theorem parse_partition_stringAndBool :
    (stringAndBool.parseExtra
      (["name", "-a", "string", "extra1", "-b", "extra2"].map fun tok => cStr (Bytes.str tok))
      []).2.2 = [Bytes.str "extra1", Bytes.str "extra2"] := by
  have h := parse_partition stringAndBool
    (["name", "-a", "string", "extra1", "-b", "extra2"].map fun tok => cStr (Bytes.str tok)) []
    (fun tok htok => by
      cases htok
      apply find_eq_none_of_not_dash
      decide)
  rw [(h.2.1 (by decide)).2.2]
  decide

end Mwr.Options
