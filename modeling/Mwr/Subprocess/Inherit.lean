import Mwr.CodeLib.MapEntries
import Mwr.Subprocess.Environment

/-!
# What a child sees of its environment

`get_environment` of `src/mwr/core/utils.cpp`, for a child that `subprocess::run` has started,
and `inherit_environment` of `include/mwr/utils/subprocess.h`.  The empty strings that the child
finds in front of its variables do no harm there, since they have no `=`.

* `parseEntry` takes a string of the environment apart, and `parseEntry_eq_some` says how.
* `getElem?_getEnvironment` finds a variable in the first string for it.
* `getEnvironment_child_iff` is the round trip, and `environment_inherited` the result with what
  a parent passes on.
-/

namespace Mwr.Subprocess

open Mwr.CodeLib
open Mwr.CodeLib.Bytes (str)
open Mwr.Options (CString cStr)

/-! ## The code -/

/-- The two parts of a string, if `entry.find('=')` finds a character. -/
def parseEntry (entry : Bytes) : Option (Bytes × Bytes) :=
  (entry.findIdx? (· == '='.toUInt8)).map fun pos => (entry.take pos, entry.drop (pos + 1))

/-- The body of the loop of `get_environment`; `emplace` keeps a variable that is there. -/
def emplaceEntry (env : Env) (entry : Bytes) : Env :=
  match parseEntry entry with
  | none => env
  | some (name, value) => env.insertIfNew name value

/-- The loop of `get_environment`, up to the null pointer. -/
def environmentLoop (env : Env) : List (Option CString) → Env
  | some entry :: environ => environmentLoop (emplaceEntry env entry) environ
  | none :: _ | [] => env

/-- `get_environment()`, in a process with the vector `environ`. -/
def getEnvironment (environ : List (Option CString)) : Env := environmentLoop ∅ environ

/-- `inherit_environment()`, in a process with the vector `environ`. -/
def inheritEnvironment (environ : List (Option CString)) (env : Env) : Env :=
  (getEnvironment environ).toList.foldl (fun env entry => env.insert entry.1 entry.2) env

/-- `std::getenv(name)`: what follows `name=` in the first string that begins so.  There is nothing
for the empty name. -/
def getenv (environ : List (Option CString)) (name : Bytes) : Option Bytes :=
  if name = [] then none
  else
    (environ.takeWhile Option.isSome).findSome? fun entry =>
      let start := name ++ ['='.toUInt8]
      entry.bind fun entry =>
        if start.isPrefixOf entry.1 then some (entry.1.drop start.length) else none

/-- What a program does with the member `env` before it calls `run`. -/
inductive Setup where
  /-- `env[name] = value`. -/
  | set (name value : Bytes)
  /-- `env.erase(name)`. -/
  | erase (name : Bytes)
  /-- `inherit_env_var(name)`. -/
  | inheritEnvVar (name : Bytes)
  /-- `inherit_environment()`. -/
  | inheritEnvironment

def Setup.apply (environ : List (Option CString)) (env : Env) : Setup → Env
  | set name value => env.insert name value
  | erase name => env.erase name
  | inheritEnvVar name =>
    match getenv environ (cStr name).1 with
    | none => env
    | some var => env.insert name var
  | inheritEnvironment => Subprocess.inheritEnvironment environ env

/-- The vector of a process: `execv` passes that of the caller on. -/
def Image.environ (parent : List (Option CString)) : Image → List (Option CString)
  | exit _ => []
  | execv _ _ => parent
  | execve _ _ envp => envp

/-! ## Entries -/

theorem parseEntry_eq_some {entry name value : Bytes} :
    parseEntry entry = some (name, value) ↔
      entry = name ++ '='.toUInt8 :: value ∧ '='.toUInt8 ∉ name := by
  unfold parseEntry
  rw [Option.map_eq_some_iff]
  constructor
  · rintro ⟨pos, hpos, heq⟩
    obtain ⟨hlt, hat, hbefore⟩ := List.findIdx?_eq_some_iff_getElem.1 hpos
    cases heq
    constructor
    · rw [← eq_of_beq hat]
      have hsplit := List.take_append_drop pos entry
      rw [List.drop_eq_getElem_cons hlt] at hsplit
      exact hsplit.symm
    · intro hmem
      obtain ⟨j, hj, heq⟩ := List.mem_iff_getElem.1 hmem
      rw [List.length_take] at hj
      rw [List.getElem_take] at heq
      refine hbefore j (by omega) ?_
      rw [heq]
      exact beq_self_eq_true _
  · rintro ⟨rfl, hname⟩
    refine ⟨name.length, ?_, ?_⟩
    · refine List.findIdx?_eq_some_iff_getElem.2 ⟨by simp, by simp, fun j hj hat => hname ?_⟩
      rw [List.getElem_append_left hj] at hat
      rw [← eq_of_beq hat]
      exact List.getElem_mem hj
    · rw [List.take_left, List.drop_length_add_append]
      rfl

/-- The value that an entry gives a variable. -/
def valueIn (name entry : Bytes) : Option Bytes :=
  (parseEntry entry).bind fun p => if p.1 = name then some p.2 else none

theorem valueIn_eq_some {name value entry : Bytes} :
    valueIn name entry = some value ↔ parseEntry entry = some (name, value) := by
  unfold valueIn
  cases parseEntry entry with
  | none => simp
  | some p =>
    obtain ⟨n, v⟩ := p
    simp

theorem getElem?_emplaceEntry (env : Env) (name entry : Bytes) :
    (emplaceEntry env entry)[name]? = (env[name]?).or (valueIn name entry) := by
  unfold emplaceEntry valueIn
  cases parseEntry entry with
  | none => rw [Option.bind_none, Option.or_none]
  | some p =>
    obtain ⟨n, v⟩ := p
    show (env.insertIfNew n v)[name]? = (env[name]?).or (if n = name then some v else none)
    rw [Std.TreeMap.getElem?_insertIfNew]
    by_cases hn : n = name
    · subst hn
      have hself : compare n n = .eq := Std.ReflCmp.compare_self
      rw [if_pos rfl, hself]
      cases hget : env[n]? with
      | none =>
        rw [if_pos ⟨rfl, fun hmem => Option.isSome_iff_ne_none.1
          (Std.TreeMap.isSome_getElem?_iff_mem.2 hmem) hget⟩]
        rfl
      | some v' =>
        rw [if_neg fun h => h.2 (Std.TreeMap.isSome_getElem?_iff_mem.1 (by rw [hget]; rfl))]
        rfl
    · rw [if_neg fun h => hn (Std.LawfulEqCmp.eq_of_compare h.1), if_neg hn, Option.or_none]

/-- A variable has the value of the first string for it, up to the null pointer. -/
theorem getElem?_environmentLoop (env : Env) (name : Bytes) (entries : List CString)
    (rest : List (Option CString)) :
    (environmentLoop env (entries.map some ++ none :: rest))[name]? =
      (env[name]?).or (entries.findSome? fun entry : CString => valueIn name entry.1) := by
  induction entries generalizing env with
  | nil =>
    rw [List.findSome?_nil, Option.or_none]
    rfl
  | cons entry entries ih =>
    show (environmentLoop (emplaceEntry env entry) (entries.map some ++ none :: rest))[name]? = _
    rw [ih, getElem?_emplaceEntry, Option.or_assoc, List.findSome?_cons]
    cases valueIn name entry.1 <;> rfl

theorem getElem?_getEnvironment (name : Bytes) (entries : List CString)
    (rest : List (Option CString)) :
    (getEnvironment (entries.map some ++ none :: rest))[name]? =
      entries.findSome? fun entry : CString => valueIn name entry.1 := by
  rw [getEnvironment, getElem?_environmentLoop]
  show (none : Option Bytes).or _ = _
  rw [Option.none_or]

/-! ## The child -/

/-- A variable that can be told apart from its value and ends where it should. -/
def Passes (entry : Bytes × Bytes) : Prop := '='.toUInt8 ∉ entry.1 ∧ 0 ∉ entry.1 ∧ 0 ∉ entry.2

instance (entry : Bytes × Bytes) : Decidable (Passes entry) :=
  inferInstanceAs (Decidable (_ ∧ _ ∧ _))

/-- The strings that the child finds. -/
def childEntries (env : Env) : List CString :=
  List.replicate env.size (cStr []) ++
    env.toList.map fun entry => cStr (entry.1 ++ ['='.toUInt8] ++ entry.2)

theorem envVector_childEntries (env : Env) :
    envVector env = .ok ((childEntries env).map some ++ [none]) := by
  rw [envVector_eq, childEntries, List.map_append, List.map_replicate, List.map_map,
    List.append_assoc]
  rfl

/-- The empty strings are skipped. -/
theorem findSome?_childEntries (env : Env) (name : Bytes) :
    (childEntries env).findSome? (fun entry : CString => valueIn name entry.1) =
      env.toList.findSome? fun entry =>
        valueIn name (cStr (entry.1 ++ ['='.toUInt8] ++ entry.2)).1 := by
  have hempty : ∀ n, (List.replicate n (cStr [])).findSome?
      (fun entry : CString => valueIn name entry.1) = none := by
    intro n
    rw [List.findSome?_eq_none_iff]
    intro entry hentry
    rw [(List.mem_replicate.1 hentry).2]
    rfl
  rw [childEntries, List.findSome?_append, hempty, Option.none_or, List.findSome?_map]
  rfl

/-- A proper variable comes through. -/
theorem valueIn_cStr {entry : Bytes × Bytes} (h : Passes entry) (name : Bytes) :
    valueIn name (cStr (entry.1 ++ ['='.toUInt8] ++ entry.2)).1 =
      if entry.1 = name then some entry.2 else none := by
  obtain ⟨heq, hname, hvalue⟩ := h
  have hstring : (cStr (entry.1 ++ ['='.toUInt8] ++ entry.2)).1 =
      entry.1 ++ '='.toUInt8 :: entry.2 := by
    refine (List.takeWhile_eq_self_iff.2 fun b hb => decide_eq_true ?_).trans
      (List.append_assoc ..)
    rintro rfl
    rcases List.mem_append.1 hb with hb | hb
    · rcases List.mem_append.1 hb with hb | hb
      · exact hname hb
      · exact absurd (List.mem_singleton.1 hb) (by decide)
    · exact hvalue hb
  have hparse : parseEntry (entry.1 ++ '='.toUInt8 :: entry.2) = some (entry.1, entry.2) :=
    parseEntry_eq_some.2 ⟨rfl, heq⟩
  rw [hstring, valueIn, hparse]
  rfl

/-- Proper variables are all found again. -/
theorem getElem?_of_passes {env : Env} (h : ∀ entry ∈ env.toList, Passes entry) (name : Bytes) :
    (getEnvironment ((childEntries env).map some ++ [none]))[name]? = env[name]? := by
  rw [getElem?_getEnvironment, findSome?_childEntries]
  cases hfind : env.toList.findSome? fun entry =>
      valueIn name (cStr (entry.1 ++ ['='.toUInt8] ++ entry.2)).1 with
  | none =>
    rw [List.findSome?_eq_none_iff] at hfind
    cases hget : env[name]? with
    | none => rfl
    | some value =>
      have hmem := Std.TreeMap.mem_toList_iff_getElem?_eq_some.2 hget
      have hvalue := hfind _ hmem
      rw [valueIn_cStr (h _ hmem), if_pos rfl] at hvalue
      cases hvalue
  | some value =>
    obtain ⟨entry, hmem, hvalue⟩ := List.exists_of_findSome?_eq_some hfind
    rw [valueIn_cStr (h _ hmem)] at hvalue
    split at hvalue
    next hname =>
      cases hvalue
      subst hname
      exact (Std.TreeMap.mem_toList_iff_getElem?_eq_some.1 hmem).symm
    next => cases hvalue

/-- What a child finds again is proper. -/
theorem passes_of_getElem? {env : Env} {entries : List CString} {rest : List (Option CString)}
    (h : ∀ name : Bytes, (getEnvironment (entries.map some ++ none :: rest))[name]? = env[name]?)
    {entry : Bytes × Bytes} (hmem : entry ∈ env.toList) : Passes entry := by
  obtain ⟨name, value⟩ := entry
  have hget := Std.TreeMap.mem_toList_iff_getElem?_eq_some.1 hmem
  rw [← h name, getElem?_getEnvironment] at hget
  obtain ⟨s, -, hvalue⟩ := List.exists_of_findSome?_eq_some hget
  obtain ⟨hs, hname⟩ := parseEntry_eq_some.1 (valueIn_eq_some.1 hvalue)
  have hnull := s.2
  rw [hs, List.mem_append, not_or, List.mem_cons, not_or] at hnull
  exact ⟨hname, hnull.1, hnull.2.2⟩

/-- A child that gets as far as `execve` sees the variables of `env`, no others and with their
values, exactly if no name has a `=` and neither a name nor a value has a null. -/
theorem getEnvironment_child_iff (path : Bytes) (args : List Bytes) {env : Env} {cwd : Bytes}
    {chdir : Bool} (henv : env.isEmpty = false) (hcwd : cwd ≠ [] → chdir = true) :
    ∃ envp, child path args env cwd chdir =
        .ok (.execve (cStr path) (argVector path args) envp) ∧
      ((∀ name : Bytes, (getEnvironment envp)[name]? = env[name]?) ↔
        ∀ entry ∈ env.toList, Passes entry) := by
  have hchdir : ¬ (cwd ≠ [] ∧ ¬ chdir = true) := fun h => h.2 (hcwd h.1)
  refine ⟨(childEntries env).map some ++ [none], ?_,
    fun h entry hmem => passes_of_getElem? h hmem, getElem?_of_passes⟩
  rw [child, if_neg hchdir, henv, envVector_childEntries]
  rfl

/-- Three variables, of which one has a `=` in its value and one no value. -/
def threeVars : Env :=
  (oneVar.insert (str "OPTS") (str "a=b")).insert (str "EMPTY") []

theorem getEnvironment_child_iff_three :
    ∃ envp, child ['p'.toUInt8] [] threeVars [] true =
        .ok (.execve (cStr ['p'.toUInt8]) (argVector ['p'.toUInt8] []) envp) ∧
      ∀ name : Bytes, (getEnvironment envp)[name]? = threeVars[name]? := by
  obtain ⟨envp, hchild, hiff⟩ :=
    getEnvironment_child_iff ['p'.toUInt8] [] (rfl : threeVars.isEmpty = false) fun _ => rfl
  exact ⟨envp, hchild, hiff.2 (by decide +kernel)⟩

/-! ## What a parent passes on -/

/-- All variables are proper. -/
def AllPass (env : Env) : Prop :=
  ∀ name value : Bytes, env[name]? = some value → Passes (name, value)

theorem AllPass.entries {env : Env} (h : AllPass env) : ∀ entry ∈ env.toList, Passes entry :=
  fun entry hmem => h entry.1 entry.2 (Std.TreeMap.mem_toList_iff_getElem?_eq_some.1 hmem)

theorem AllPass.insert {env : Env} (h : AllPass env) {name value : Bytes}
    (hnew : Passes (name, value)) : AllPass (env.insert name value) := by
  intro name' value' hget
  rw [Std.TreeMap.getElem?_insert] at hget
  split at hget
  next heq =>
    cases hget
    rw [← Std.LawfulEqCmp.eq_of_compare heq]
    exact hnew
  next => exact h name' value' hget

/-- What `get_environment` finds is proper. -/
theorem allPass_getEnvironment (strings : List CString) (rest : List (Option CString)) :
    AllPass (getEnvironment (strings.map some ++ none :: rest)) :=
  fun _ _ hget => passes_of_getElem? (fun _ => rfl)
    (Std.TreeMap.mem_toList_iff_getElem?_eq_some.2 hget)

/-- Names that the caller chooses are proper. -/
def Setup.Proper : Setup → Prop
  | set name value => Passes (name, value)
  | inheritEnvVar name => '='.toUInt8 ∉ name ∧ 0 ∉ name
  | erase _ | inheritEnvironment => True

theorem allPass_foldl {env : Env} (h : AllPass env) {l : List (Bytes × Bytes)}
    (hl : ∀ entry ∈ l, Passes entry) :
    AllPass (l.foldl (fun env entry => env.insert entry.1 entry.2) env) := by
  induction l generalizing env with
  | nil => exact h
  | cons entry l ih =>
    exact ih (h.insert (hl entry List.mem_cons_self)) fun e he => hl e (List.mem_cons_of_mem _ he)

/-- The value of a variable of the parent ends where the string ends. -/
theorem null_not_mem_getenv {environ : List (Option CString)} {name value : Bytes}
    (h : getenv environ name = some value) : 0 ∉ value := by
  unfold getenv at h
  split at h
  next => cases h
  next =>
    obtain ⟨entry, -, hentry⟩ := List.exists_of_findSome?_eq_some h
    obtain ⟨s, rfl, hs⟩ := Option.bind_eq_some_iff.1 hentry
    split at hs
    next =>
      cases hs
      exact fun hmem => s.2 (List.mem_of_mem_drop hmem)
    next => cases hs

theorem AllPass.apply {strings : List CString} {env : Env} (h : AllPass env) {setup : Setup}
    (hsetup : setup.Proper) : AllPass (setup.apply (strings.map some ++ [none]) env) := by
  cases setup with
  | set name value => exact h.insert hsetup
  | erase name =>
    intro name' value' hget
    rw [Setup.apply, Std.TreeMap.getElem?_erase] at hget
    split at hget
    next => cases hget
    next => exact h name' value' hget
  | inheritEnvVar name =>
    show AllPass (match getenv (strings.map some ++ [none]) (cStr name).1 with
      | none => env
      | some var => env.insert name var)
    split
    next => exact h
    next var hvar => exact h.insert ⟨hsetup.1, hsetup.2, null_not_mem_getenv hvar⟩
  | inheritEnvironment => exact allPass_foldl h (allPass_getEnvironment strings []).entries

/-- Insertions in order, with each name once. -/
theorem getElem?_foldl_insert {l : List (Bytes × Bytes)} (hnodup : (l.map Prod.fst).Nodup)
    {name value : Bytes} (hmem : (name, value) ∈ l) (env : Env) :
    (l.foldl (fun env entry => env.insert entry.1 entry.2) env)[name]? = some value := by
  have hother : ∀ (l : List (Bytes × Bytes)) (env : Env), name ∉ l.map Prod.fst →
      (l.foldl (fun env entry => env.insert entry.1 entry.2) env)[name]? = env[name]? := by
    intro l
    induction l with
    | nil => exact fun _ _ => rfl
    | cons entry l ih =>
      intro env hnot
      rw [List.map_cons, List.mem_cons, not_or] at hnot
      rw [List.foldl_cons, ih _ hnot.2, Std.TreeMap.getElem?_insert,
        if_neg fun heq => hnot.1 (Std.LawfulEqCmp.eq_of_compare heq).symm]
  induction l generalizing env with
  | nil => cases hmem
  | cons entry l ih =>
    rw [List.map_cons, List.nodup_cons] at hnodup
    rw [List.foldl_cons]
    rcases List.mem_cons.1 hmem with rfl | hmem
    · have hself : compare name name = .eq := Std.ReflCmp.compare_self
      rw [hother l _ hnodup.1, Std.TreeMap.getElem?_insert, if_pos hself]
    · exact ih hnodup.2 hmem _

/-- `inherit_environment()` takes over all variables of the parent. -/
theorem getElem?_inheritEnvironment {environ : List (Option CString)} {name value : Bytes}
    (h : (getEnvironment environ)[name]? = some value) (env : Env) :
    (inheritEnvironment environ env)[name]? = some value := by
  refine getElem?_foldl_insert ?_ (Std.TreeMap.mem_toList_iff_getElem?_eq_some.2 h) env
  rw [Std.TreeMap.map_fst_toList_eq_keys]
  exact Std.TreeMap.nodup_keys

/-- Whatever a program does with `env`, as long as the names and values that it chooses are
proper: the child sees the variables of `env`, or those of the parent if there are none, and
after `inherit_environment()` it sees each variable of the parent. -/
theorem environment_inherited (strings : List CString) (setups : List Setup)
    (hproper : ∀ setup ∈ setups, setup.Proper) (path : Bytes) (args : List Bytes) {cwd : Bytes}
    {chdir : Bool} (hcwd : cwd ≠ [] → chdir = true) :
    let environ := strings.map some ++ [none]
    let env := setups.foldl (Setup.apply environ) ∅
    ∃ image, child path args env cwd chdir = .ok image ∧
      (∀ name : Bytes, (getEnvironment (image.environ environ))[name]? =
        if env.isEmpty then (getEnvironment environ)[name]? else env[name]?) ∧
      (setups.getLast? = some .inheritEnvironment → ∀ name value : Bytes,
        (getEnvironment environ)[name]? = some value →
        (getEnvironment (image.environ environ))[name]? = some value) := by
  intro environ env
  have hall : ∀ (l : List Setup) (env : Env), (∀ setup ∈ l, setup.Proper) → AllPass env →
      AllPass (l.foldl (Setup.apply environ) env) := by
    intro l
    induction l with
    | nil => exact fun _ _ h => h
    | cons setup l ih =>
      intro env hl h
      exact ih _ (fun s hs => hl s (List.mem_cons_of_mem setup hs))
        (h.apply (hl setup List.mem_cons_self))
  have hpass : AllPass env := hall setups ∅ hproper fun name value hget => by cases hget
  have hchdir : ¬ (cwd ≠ [] ∧ ¬ chdir = true) := fun h => h.2 (hcwd h.1)
  have hlast : setups.getLast? = some .inheritEnvironment → ∀ name value : Bytes,
      (getEnvironment environ)[name]? = some value → env[name]? = some value := by
    intro hlast name value hget
    obtain ⟨before, hsplit⟩ := List.getLast?_eq_some_iff.1 hlast
    show (setups.foldl (Setup.apply environ) ∅)[name]? = some value
    rw [hsplit, List.foldl_append]
    exact getElem?_inheritEnvironment hget _
  cases hempty : env.isEmpty with
  | true =>
    refine ⟨.execv (cStr path) (argVector path args), ?_, fun name => ?_, fun _ _ _ h => h⟩
    · rw [child, if_neg hchdir, hempty]
      rfl
    · rfl
  | false =>
    have hsees := fun name => getElem?_of_passes hpass.entries name
    refine ⟨.execve (cStr path) (argVector path args) ((childEntries env).map some ++ [none]),
      ?_, fun name => ?_, fun h name value hget => ?_⟩
    · rw [child, if_neg hchdir, hempty, envVector_childEntries]
      rfl
    · exact hsees name
    · exact (hsees name).trans (hlast h name value hget)

/-- A variable of its own beside one of the parent. -/
theorem environment_inherited_one :
    ∃ image, child ['p'.toUInt8] [] ([Setup.set ['A'.toUInt8] ['B'.toUInt8],
        .inheritEnvironment].foldl
          (Setup.apply ([cStr ['H'.toUInt8, '='.toUInt8, '/'.toUInt8]].map some ++ [none])) ∅)
        [] true = .ok image ∧
      (getEnvironment (image.environ
        ([cStr ['H'.toUInt8, '='.toUInt8, '/'.toUInt8]].map some ++ [none])))[['H'.toUInt8]]? =
          some ['/'.toUInt8] := by
  obtain ⟨image, hchild, -, hsees⟩ := environment_inherited
    [cStr ['H'.toUInt8, '='.toUInt8, '/'.toUInt8]]
    [.set ['A'.toUInt8] ['B'.toUInt8], .inheritEnvironment]
    (by
      intro setup hsetup
      rcases List.mem_cons.1 hsetup with rfl | hsetup
      · show Passes _
        decide
      · rw [List.mem_singleton.1 hsetup]
        trivial)
    ['p'.toUInt8] [] (fun _ => rfl)
  exact ⟨image, hchild, hsees rfl _ _ rfl⟩

end Mwr.Subprocess
