import Mathlib.Data.List.Forall2
import Mwr.Options.Partition

/-!
# One reading of the command line

`options::parse` goes over the command line once for each option and once more for
the extra tokens.  What it is for can be said with one pass from left to right: a
command line behind its first token is a series of items, and each item changes the
option that it names.

* `Item.Legal` is the grammar of the items, and `Registry.read` the one pass.
* `read_eq_some_iff` makes it a parser: it reads exactly the printed legal items.
* `scan_tokens` lets the scan of one option and the pass agree on one item.
* `parse_reads` compares the two on the whole command line.
-/

namespace Mwr.Options

open Mwr.CodeLib (Bytes)

/-! ## Items -/

/-- A piece of a command line. -/
inductive Item where
  /-- An occurrence of an option without a value. -/
  | flag (tok : CString)
  /-- An occurrence of an option, and its value. -/
  | value (tok str : CString)
  /-- A token with a dash that names no option. -/
  | unknown (tok : CString)
  | extra (tok : CString)
  deriving DecidableEq

namespace Item

def tokens : Item → List CString
  | flag tok => [tok]
  | value tok str => [tok, str]
  | unknown tok => [tok]
  | extra tok => [tok]

/-- The item can stand on a command line for the options of `r`. -/
def Legal (r : Registry) : Item → Prop
  | flag tok => ∃ opt, r.find tok = some opt ∧ opt.argc = 0
  | value tok str =>
    (∃ opt, r.find tok = some opt ∧ opt.argc ≠ 0) ∧ str.val ≠ [] ∧ ¬ dash str
  | unknown tok => dash tok ∧ r.find tok = none
  | extra tok => ¬ dash tok

/-- What the item adds to the extra tokens. -/
def extraToken : Item → Option Bytes
  | extra tok => some tok.val
  | flag _ => none
  | value .. => none
  | unknown _ => none

end Item

/-- The option before a command line is read. -/
def Opt.clear : Opt → Opt
  | .value base T fromString _ => .value base T fromString []
  | .flag base _ _ => .flag base false false

/-- What one item does to the option: a value is appended, and a flag changes over. -/
def Opt.apply : Opt → Item → Opt
  | .value base T fromString values, .value tok str =>
    if base.matchesArg (some tok) then
      .value base T fromString (values ++ [fromString str])
    else
      .value base T fromString values
  | .flag base isSet hasValue, .flag tok =>
    if base.matchesArg (some tok) then .flag base (!isSet) true else .flag base isSet hasValue
  | opt, _ => opt

/-- Reads a command line behind its first token, once and from left to right; nothing
when an option lacks its value. -/
def Registry.read (self : Registry) : List CString → Option (List Item)
  | [] => some []
  | tok :: rest =>
    if !dash tok then
      (self.read rest).map (.extra tok :: ·)
    else
      match self.find tok with
      | none => (self.read rest).map (.unknown tok :: ·)
      | some opt =>
        if opt.argc = 0 then
          (self.read rest).map (.flag tok :: ·)
        else
          match rest with
          | [] => none
          | str :: rest =>
            if str.val.isEmpty || dash str then
              none
            else
              (self.read rest).map (.value tok str :: ·)

/-! ## The pass reads the printed items -/

/-- A token that `find` finds has a dash. -/
theorem dash_of_find {r : Registry} {tok : CString} {opt : Opt} (h : r.find tok = some opt) :
    dash tok :=
  Registry.dash_of_matchesTok (List.find?_some (p := fun opt : Opt => opt.matchesTok tok) h)

/-- A legal item is read back from its tokens, whatever follows. -/
theorem read_tokens {r : Registry} {item : Item} (h : item.Legal r) (argv : List CString) :
    r.read (item.tokens ++ argv) = (r.read argv).map (item :: ·) := by
  cases item with
  | flag tok =>
    rcases h with ⟨opt, hfind, hargc⟩
    have hdash := dash_of_find hfind
    rw [Item.tokens, List.singleton_append, Registry.read.eq_def]
    simp [hdash, hfind, hargc]
  | value tok str =>
    rcases h with ⟨⟨opt, hfind, hargc⟩, hne, hstr⟩
    have hdash := dash_of_find hfind
    show r.read (tok :: str :: argv) = _
    rw [Registry.read.eq_def]
    simp [hdash, hfind, hargc, hne, hstr]
  | unknown tok =>
    rw [Item.tokens, List.singleton_append, Registry.read.eq_def]
    simp [h.1, h.2]
  | extra tok =>
    have hdash : dash tok = false := by simpa [Item.Legal] using h
    rw [Item.tokens, List.singleton_append, Registry.read.eq_def]
    simp [hdash]

theorem read_flatMap {r : Registry} {items : List Item} (h : ∀ item ∈ items, item.Legal r) :
    r.read (items.flatMap Item.tokens) = some items := by
  induction items with
  | nil => rfl
  | cons item items ih =>
    rw [List.flatMap_cons, read_tokens (h item List.mem_cons_self),
      ih fun other hother => h other (List.mem_cons_of_mem item hother)]
    rfl

/-- What is read are legal items, and their tokens are the command line. -/
theorem read_sound {r : Registry} {argv : List CString} {items : List Item}
    (h : r.read argv = some items) :
    (∀ item ∈ items, item.Legal r) ∧ items.flatMap Item.tokens = argv := by
  fun_induction Registry.read r argv generalizing items with
  | case1 =>
    cases h
    exact ⟨fun item hitem => absurd hitem List.not_mem_nil, rfl⟩
  | case2 tok rest hdash ih =>
    rcases Option.map_eq_some_iff.mp h with ⟨tail, htail, rfl⟩
    rcases ih htail with ⟨hlegal, htokens⟩
    have hdash : ¬ dash tok := by simpa using hdash
    exact ⟨List.forall_mem_cons.mpr ⟨hdash, hlegal⟩, congrArg (tok :: ·) htokens⟩
  | case3 tok rest hdash hfind ih =>
    rcases Option.map_eq_some_iff.mp h with ⟨tail, htail, rfl⟩
    rcases ih htail with ⟨hlegal, htokens⟩
    have hdash : dash tok := by simpa using hdash
    exact ⟨List.forall_mem_cons.mpr ⟨⟨hdash, hfind⟩, hlegal⟩, congrArg (tok :: ·) htokens⟩
  | case4 tok rest hdash opt hfind hargc ih =>
    rcases Option.map_eq_some_iff.mp h with ⟨tail, htail, rfl⟩
    rcases ih htail with ⟨hlegal, htokens⟩
    exact ⟨List.forall_mem_cons.mpr ⟨⟨opt, hfind, hargc⟩, hlegal⟩, congrArg (tok :: ·) htokens⟩
  | case5 tok hdash opt hfind hargc => cases h
  | case6 tok hdash opt hfind hargc str rest hbad => cases h
  | case7 tok hdash opt hfind hargc str rest hgood ih =>
    rcases Option.map_eq_some_iff.mp h with ⟨tail, htail, rfl⟩
    rcases ih htail with ⟨hlegal, htokens⟩
    simp only [Bool.or_eq_true, not_or, List.isEmpty_iff] at hgood
    refine ⟨List.forall_mem_cons.mpr ⟨⟨⟨opt, hfind, hargc⟩, hgood⟩, hlegal⟩, ?_⟩
    exact congrArg (tok :: str :: ·) htokens

theorem read_eq_some_iff {r : Registry} {argv : List CString} {items : List Item} :
    r.read argv = some items ↔
      (∀ item ∈ items, item.Legal r) ∧ items.flatMap Item.tokens = argv := by
  refine ⟨read_sound, fun h => ?_⟩
  rw [← h.2]
  exact read_flatMap h.1

/-- The pass gets through when every occurrence of an option has its value. -/
theorem read_isSome_of_fed {r : Registry} {argv : List CString} (h : Fed r.takesValue argv) :
    (r.read argv).isSome := by
  fun_induction Registry.read r argv with
  | case1 => rfl
  | case2 tok rest hdash ih =>
    rw [Option.isSome_map]
    exact ih h.2
  | case3 tok rest hdash hfind ih =>
    rw [Option.isSome_map]
    exact ih h.2
  | case4 tok rest hdash opt hfind hargc ih =>
    rw [Option.isSome_map]
    exact ih h.2
  | case5 tok hdash opt hfind hargc =>
    rw [argc_of_find r hfind] at hargc
    rcases h.1 (by simpa using hargc) with ⟨str, hstr, _⟩
    cases hstr
  | case6 tok hdash opt hfind hargc str rest hbad =>
    rw [argc_of_find r hfind] at hargc
    rcases h.1 (by simpa using hargc) with ⟨_, hstr, hne, hnot⟩
    cases hstr
    simp [hne, hnot] at hbad
  | case7 tok hdash opt hfind hargc str rest hgood ih =>
    rw [Option.isSome_map]
    exact ih h.2.2

/-! ## The scan of one option over the items -/

/-- The loop of `parse(argc, argv)` of an option, from the values it has. -/
def Opt.scan (argv : List CString) : Opt → Bool × Opt
  | .value base T fromString values =>
    let r := valueLoop base fromString values argv
    (r.1, .value base T fromString r.2)
  | .flag base isSet hasValue =>
    let r := flagLoop base isSet hasValue argv
    (true, .flag base r.1 r.2)

namespace Opt

theorem parse_eq_scan (opt : Opt) (argv : List CString) :
    opt.parse argv = opt.clear.scan argv := by
  cases opt <;> rfl

theorem scan_nil (opt : Opt) : opt.scan [] = (true, opt) := by
  cases opt <;> simp [scan, valueLoop, flagLoop]

/-- The scan passes over a token that does not name the option. -/
theorem scan_cons_of_not_matches {opt : Opt} {tok : CString} (h : opt.matchesTok tok = false)
    (argv : List CString) : opt.scan (tok :: argv) = opt.scan argv := by
  cases opt with
  | value base T fromString values =>
    have h : base.matchesArg (some tok) = false := h
    rw [scan, scan, valueLoop.eq_def]
    simp [h]
  | flag base isSet hasValue =>
    have h : base.matchesArg (some tok) = false := h
    simp [scan, flagLoop, h]

@[simp] theorem apply_base (opt : Opt) (item : Item) : (opt.apply item).base = opt.base := by
  cases opt <;> cases item <;> simp only [apply] <;> split <;> rfl

@[simp] theorem apply_argc (opt : Opt) (item : Item) : (opt.apply item).argc = opt.argc := by
  cases opt <;> cases item <;> simp only [apply] <;> split <;> rfl

@[simp] theorem clear_base (opt : Opt) : opt.clear.base = opt.base := by
  cases opt <;> rfl

@[simp] theorem clear_argc (opt : Opt) : opt.clear.argc = opt.argc := by
  cases opt <;> rfl

end Opt

/-- `opt` is an option of the registry, with values of its own. -/
def Registry.Knows (self : Registry) (opt : Opt) : Prop :=
  ∃ other ∈ self.opts, other.base = opt.base ∧ other.argc = opt.argc

/-- A known option does not match what `find` does not find. -/
theorem Registry.Knows.not_matches {r : Registry} {opt : Opt} {tok : CString} (h : r.Knows opt)
    (hfind : r.find tok = none) : opt.matchesTok tok = false := by
  rcases h with ⟨other, hother, hbase, _⟩
  rw [Registry.find, List.find?_eq_none] at hfind
  have hnot := hfind other hother
  rw [Opt.matchesTok, hbase] at hnot
  exact Bool.eq_false_iff.mpr hnot

/-- A known option that matches what `find` finds has as many values. -/
theorem Registry.Knows.argc_eq {r : Registry} {opt found : Opt} {tok : CString} (h : r.Knows opt)
    (hfind : r.find tok = some found) (hmatch : opt.matchesTok tok) : found.argc = opt.argc := by
  rcases h with ⟨other, hother, hbase, hargc⟩
  have hfound : found.matchesTok tok :=
    List.find?_some (p := fun opt : Opt => opt.matchesTok tok) hfind
  rw [Opt.matchesTok, ← hbase] at hmatch
  rw [Registry.eq_of_matchesTok (List.mem_of_find?_eq_some hfind) hother hfound hmatch, hargc]

/-- The scan of one option takes a legal item as the pass does. -/
theorem scan_tokens {r : Registry} {opt : Opt} {item : Item} (hopt : r.Knows opt)
    (h : item.Legal r) (argv : List CString) :
    opt.scan (item.tokens ++ argv) = (opt.apply item).scan argv := by
  cases item with
  | flag tok =>
    rcases h with ⟨found, hfind, hargc⟩
    cases hmatch : opt.matchesTok tok with
    | false =>
      rw [Item.tokens, List.singleton_append, Opt.scan_cons_of_not_matches hmatch]
      cases opt with
      | value base T fromString values => rfl
      | flag base isSet hasValue =>
        have hmatch : base.matchesArg (some tok) = false := hmatch
        simp [Opt.apply, hmatch]
    | true =>
      have hsame := hopt.argc_eq hfind hmatch
      cases opt with
      | value base T fromString values =>
        -- the option that is found has no value, and this one has
        rw [hargc] at hsame
        cases hsame
      | flag base isSet hasValue =>
        have hmatch : base.matchesArg (some tok) = true := hmatch
        simp [Item.tokens, Opt.scan, Opt.apply, flagLoop, hmatch]
  | value tok str =>
    rcases h with ⟨⟨found, hfind, hargc⟩, hne, hdash⟩
    have hstr : opt.matchesTok str = false := matchesArg_of_not_dash opt.base hdash
    cases hmatch : opt.matchesTok tok with
    | false =>
      show opt.scan (tok :: str :: argv) = _
      rw [Opt.scan_cons_of_not_matches hmatch, Opt.scan_cons_of_not_matches hstr]
      cases opt with
      | value base T fromString values =>
        have hmatch : base.matchesArg (some tok) = false := hmatch
        simp [Opt.apply, hmatch]
      | flag base isSet hasValue => rfl
    | true =>
      have hsame := hopt.argc_eq hfind hmatch
      cases opt with
      | value base T fromString values =>
        have hmatch : base.matchesArg (some tok) = true := hmatch
        simp [Item.tokens, Opt.scan, Opt.apply, valueLoop, hmatch, hne, hdash]
      | flag base isSet hasValue => exact absurd hsame hargc
  | unknown tok =>
    show opt.scan (tok :: argv) = _
    rw [Opt.scan_cons_of_not_matches (hopt.not_matches h.2)]
    cases opt <;> rfl
  | extra tok =>
    show opt.scan (tok :: argv) = _
    rw [Opt.scan_cons_of_not_matches (hopt.not_matches (find_eq_none_of_not_dash r h))]
    cases opt <;> rfl

/-- The scan of one option over all the items. -/
theorem scan_flatMap {r : Registry} {items : List Item} (h : ∀ item ∈ items, item.Legal r)
    {opt : Opt} (hopt : r.Knows opt) :
    opt.scan (items.flatMap Item.tokens) = (true, items.foldl Opt.apply opt) := by
  induction items generalizing opt with
  | nil => exact opt.scan_nil
  | cons item items ih =>
    have hnext : r.Knows (opt.apply item) := by
      rcases hopt with ⟨other, hother, hsame⟩
      exact ⟨other, hother, by simpa using hsame⟩
    rw [List.flatMap_cons, scan_tokens hopt (h item List.mem_cons_self),
      ih (fun other hother => h other (List.mem_cons_of_mem item hother)) hnext, List.foldl_cons]

/-! ## The whole command line -/

theorem find_parse (r : Registry) (argv : List CString) (tok : CString) :
    (r.parse argv).2.find tok = (r.find tok).map fun opt => (opt.parse argv).2 := by
  rw [Registry.find, Registry.find, Registry.parse, List.find?_map]
  simp only [Function.comp_def, Opt.matchesTok, Opt.parse_base]

/-- The grammar is that of the names alone. -/
theorem Item.Legal.parse {r : Registry} {item : Item} (h : item.Legal r) (argv : List CString) :
    item.Legal (r.parse argv).2 := by
  cases item with
  | flag tok =>
    rcases h with ⟨opt, hfind, hargc⟩
    exact ⟨_, by rw [find_parse, hfind]; rfl, by rw [Opt.parse_argc, hargc]⟩
  | value tok str =>
    rcases h with ⟨⟨opt, hfind, hargc⟩, hstr⟩
    exact ⟨⟨_, by rw [find_parse, hfind]; rfl, by rwa [Opt.parse_argc]⟩, hstr⟩
  | unknown tok => exact ⟨h.1, by rw [find_parse, h.2]; rfl⟩
  | extra tok => exact h

/-- The last loop over the items. -/
theorem extraLoop_flatMap {r : Registry} {items : List Item} (h : ∀ item ∈ items, item.Legal r)
    (extra : List Bytes) :
    r.extraLoop 0 (items.flatMap Item.tokens) extra = extra ++ items.filterMap Item.extraToken := by
  induction items generalizing extra with
  | nil => simp [Registry.extraLoop]
  | cons item items ih =>
    have hitem := h item List.mem_cons_self
    have ih := fun extra =>
      ih (fun other hother => h other (List.mem_cons_of_mem item hother)) extra
    rw [List.flatMap_cons, List.filterMap_cons]
    cases item with
    | flag tok =>
      rcases hitem with ⟨opt, hfind, hargc⟩
      have hdash := dash_of_find hfind
      simp [Item.tokens, Registry.extraLoop, hdash, hfind, hargc, ih, Item.extraToken]
    | value tok str =>
      rcases hitem with ⟨⟨opt, hfind, hargc⟩, _, _⟩
      have hdash := dash_of_find hfind
      have hone : opt.argc = 1 := by
        cases opt with
        | value => rfl
        | flag => exact absurd rfl hargc
      simp [Item.tokens, Registry.extraLoop, hdash, hfind, hone, ih, Item.extraToken]
    | unknown tok =>
      simp [Item.tokens, Registry.extraLoop, hitem.1, hitem.2, ih, Item.extraToken]
    | extra tok =>
      have hdash : dash tok = false := by simpa [Item.Legal] using hitem
      simp [Item.tokens, Registry.extraLoop, hdash, ih, Item.extraToken]

theorem parse_of_legal {r : Registry} {prog : CString} {items : List Item}
    (hprog : r.find prog = none) (h : ∀ item ∈ items, item.Legal r) {opt : Opt}
    (hopt : opt ∈ r.opts) :
    opt.parse (prog :: items.flatMap Item.tokens) = (true, items.foldl Opt.apply opt.clear) := by
  have hknows : r.Knows opt.clear := ⟨opt, hopt, by simp⟩
  rw [Opt.parse_eq_scan, Opt.scan_cons_of_not_matches (hknows.not_matches hprog),
    scan_flatMap h hknows]

/-- Parsing is reading the command line once.  The pass reads the printed legal items and
nothing else, the parser accepts what it reads, and leaves in each option what the items do
to it one after the other, and in `extra` the extra tokens among them. -/
theorem parse_reads (r : Registry) (prog : CString) (rest : List CString) (extra : List Bytes)
    (hprog : r.find prog = none) :
    (∀ items, r.read rest = some items ↔
      (∀ item ∈ items, item.Legal r) ∧ items.flatMap Item.tokens = rest) ∧
    (r.parseExtra (prog :: rest) extra).1 = (r.read rest).isSome ∧
    ∀ items, r.read rest = some items →
      (r.parseExtra (prog :: rest) extra).2.1.opts =
        r.opts.map (fun opt => items.foldl Opt.apply opt.clear) ∧
      (r.parseExtra (prog :: rest) extra).2.2 = extra ++ items.filterMap Item.extraToken := by
  have hread : ∀ items, r.read rest = some items →
      (r.parse (prog :: rest)).1 = true ∧
      (r.parse (prog :: rest)).2.opts =
        r.opts.map (fun opt => items.foldl Opt.apply opt.clear) ∧
      (r.parse (prog :: rest)).2.extraLoop 0 rest extra =
        extra ++ items.filterMap Item.extraToken := by
    intro items hitems
    rcases read_sound hitems with ⟨hlegal, rfl⟩
    have hopt := fun opt (hopt : opt ∈ r.opts) => parse_of_legal hprog hlegal hopt
    refine ⟨?_, ?_, extraLoop_flatMap (fun item hitem => (hlegal item hitem).parse _) extra⟩
    · exact List.all_eq_true.mpr fun opt hmem => by rw [hopt opt hmem]
    · exact List.map_congr_left fun opt hmem => by rw [hopt opt hmem]
  refine ⟨fun items => read_eq_some_iff, ?_, fun items hitems => ?_⟩
  · cases hitems : r.read rest with
    | some items =>
      simp only [Registry.parseExtra, (hread items hitems).1, if_true, Option.isSome_some]
    | none =>
      have hno : (r.parse (prog :: rest)).1 = false := by
        by_contra hyes
        have hfed := fed_parse (Bool.not_eq_false _ ▸ hyes)
        have hsome := read_isSome_of_fed hfed.2
        rw [hitems] at hsome
        cases hsome
      simp [Registry.parseExtra, hno]
  · rcases hread items hitems with ⟨hok, hopts, hextra⟩
    simp only [Registry.parseExtra, hok, if_true]
    exact ⟨hopts, hextra⟩

/-- A value, two extra tokens and a flag that occurs twice. -/
theorem parse_reads_stringAndBool :
    let tok (text : String) := cStr (Bytes.str text)
    (stringAndBool.parseExtra
      (["name", "-a", "string", "extra1", "-b", "extra2", "-b"].map tok) []).2.1.opts =
      stringAndBool.opts.map fun opt =>
        [Item.value (tok "-a") (tok "string"), .extra (tok "extra1"), .flag (tok "-b"),
          .extra (tok "extra2"), .flag (tok "-b")].foldl Opt.apply opt.clear := by
  intro tok
  have h := parse_reads stringAndBool (tok "name")
    (["-a", "string", "extra1", "-b", "extra2", "-b"].map tok) []
    (find_eq_none_of_not_dash _ (by decide))
  exact (h.2.2 _ (by decide)).1

end Mwr.Options
