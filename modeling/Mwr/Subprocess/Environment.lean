import Mathlib.Tactic.Common
import Mwr.CodeLib.Exec
import Mwr.Options.Model
import Mwr.Stl.Strings

/-!
# The environment of a child process

The part of `subprocess::run` that runs in the child, after its pipes have been
connected.  The environment is put together in two vectors: `env_strings` owns the
strings, and `envp` points to them.

`env_strings` is created with as many empty strings as there are entries, and the
entries are appended to these, so that `envp` starts with pointers to the empty
strings (`envVector_eq`).
-/

namespace Mwr.Subprocess

open Mwr.CodeLib
open Mwr.Options (CString cStr)

/-- `strcat(arg, args...)` of strings. -/
def strcat (arg : Bytes) : List Bytes → Bytes
  | [] => arg
  | next :: args => arg ++ strcat next args

/-- The member `env`. -/
abbrev Env := Std.TreeMap Bytes Bytes

/-- A `char*` into a vector of strings: the index of the string, or null. -/
abbrev CharPtr := Option Nat

/-- What a function of the operating system finds behind a `char*`. -/
def deref (strings : List Bytes) : CharPtr → Except Fault (Option CString)
  | none => .ok none
  | some i =>
    match strings[i]? with
    | none => .error .segfault
    | some s => .ok (some (cStr s))

/-- `env_strings`, after the loop over `env`. -/
def envStrings (env : Env) : List Bytes :=
  env.toList.foldl (fun envStrings entry =>
    envStrings ++ [strcat entry.1 [['='.toUInt8], entry.2]]) (List.replicate env.size [])

/-- `envp`. -/
def envp (envStrings : List Bytes) : List CharPtr :=
  (List.range envStrings.length).foldl (fun envp i => envp ++ [some i]) [] ++ [none]

/-- The environment vector as `execve` reads it. -/
def envVector (env : Env) : Except Fault (List (Option CString)) :=
  (envp (envStrings env)).mapM (deref (envStrings env))

/-- What becomes of the child. -/
inductive Image where
  | exit (code : Nat)
  | execv (path : CString) (argv : List (Option CString))
  | execve (path : CString) (argv envp : List (Option CString))

/-- The argument vector as `execv` and `execve` read it. -/
def argVector (path : Bytes) (args : List Bytes) : List (Option CString) :=
  some (cStr path) :: args.map (fun arg => some (cStr arg)) ++ [none]

/-- `run(path, args)` in the child; `chdir` says whether `::chdir` succeeds. -/
def child (path : Bytes) (args : List Bytes) (env : Env) (cwd : Bytes) (chdir : Bool) :
    Except Fault Image := do
  if cwd ≠ [] ∧ ¬ chdir then
    return .exit 1
  if env.isEmpty then
    return .execv (cStr path) (argVector path args)
  else
    return .execve (cStr path) (argVector path args) (← envVector env)

/-- One string `name=value` for each entry, in the order of the map, and null. -/
def environment (env : Env) : List (Option CString) :=
  env.toList.map (fun entry => some (cStr (entry.1 ++ ['='.toUInt8] ++ entry.2))) ++ [none]

/-! ## The vector -/

variable {env : Env}

/-- A loop of `push_back`. -/
theorem foldl_push {α β : Type} (f : α → β) (l : List α) (acc : List β) :
    l.foldl (fun acc a => acc ++ [f a]) acc = acc ++ l.map f := by
  induction l generalizing acc with
  | nil => rw [List.foldl_nil, List.map_nil, List.append_nil]
  | cons a l ih => rw [List.foldl_cons, ih, List.append_assoc, List.map_cons, List.singleton_append]

theorem envStrings_eq (env : Env) :
    envStrings env = List.replicate env.size [] ++
      env.toList.map fun entry => entry.1 ++ ['='.toUInt8] ++ entry.2 := by
  rw [envStrings, foldl_push]
  congr 1
  refine List.map_congr_left fun entry _ => ?_
  rw [List.append_assoc]
  rfl

/-- No pointer of `envp` dangles. -/
theorem mapM_deref_envp (strings : List Bytes) :
    (envp strings).mapM (deref strings) =
      .ok (strings.map (fun s => some (cStr s)) ++ [none]) := by
  have hderef : ∀ p ∈ envp strings, deref strings p =
      .ok (p.bind fun i => strings[i]?.map cStr) := by
    intro p hp
    rw [envp, foldl_push, List.nil_append, List.mem_append, List.mem_map] at hp
    rcases hp with ⟨i, hi, rfl⟩ | hp
    · have hlt : i < strings.length := List.mem_range.1 hi
      simp only [deref, List.getElem?_eq_getElem hlt, Option.bind_some, Option.map_some]
    · rw [List.mem_singleton.1 hp]
      rfl
  have hstrings : (List.range strings.length).map (fun i => strings[i]?.map cStr) =
      strings.map fun s => some (cStr s) := by
    apply List.ext_getElem
    · rw [List.length_map, List.length_map, List.length_range]
    · intro i hi hi'
      rw [List.length_map] at hi'
      rw [List.getElem_map, List.getElem_map, List.getElem_range,
        List.getElem?_eq_getElem hi']
      rfl
  rw [Exec.mapM_ok hderef, envp, foldl_push, List.nil_append, List.map_append, List.map_map,
    ← hstrings]
  rfl

/-- The environment of the child, behind as many empty strings as there are
entries. -/
theorem envVector_eq (env : Env) :
    envVector env = .ok (List.replicate env.size (some (cStr [])) ++ environment env) := by
  rw [envVector, mapM_deref_envp, envStrings_eq, List.map_append, List.map_replicate,
    List.map_map, List.append_assoc]
  rfl

/-- The vector is longer than it should be by the empty strings. -/
theorem padded_ne_environment (h : env.isEmpty = false) :
    List.replicate env.size (some (cStr [])) ++ environment env ≠ environment env := by
  intro heq
  have hlength := congrArg List.length heq
  rw [List.length_append, List.length_replicate] at hlength
  have hsize : env.size = 0 := by omega
  rw [Std.TreeMap.isEmpty_eq_size_eq_zero, hsize] at h
  cases h

/-- A child with a non-empty `env` that gets as far as `execve` never passes it the
environment that the entries of `env` make up. -/
theorem envp_ne_environment (path : Bytes) (args : List Bytes) {env : Env} {cwd : Bytes}
    {chdir : Bool} (henv : env.isEmpty = false) (hcwd : cwd ≠ [] → chdir = true) :
    ∃ envp, child path args env cwd chdir =
      .ok (.execve (cStr path) (argVector path args) envp) ∧ envp ≠ environment env := by
  have hchdir : ¬ (cwd ≠ [] ∧ ¬ chdir = true) := fun h => h.2 (hcwd h.1)
  refine ⟨_, ?_, padded_ne_environment henv⟩
  rw [child, if_neg hchdir, henv, envVector_eq]
  rfl

/-- One variable `A` with the value `B`. -/
def oneVar : Env :=
  Std.TreeMap.empty.insert ['A'.toUInt8] ['B'.toUInt8]

theorem envp_ne_environment_one :
    ∃ envp, child ['p'.toUInt8] [] oneVar [] true =
      .ok (.execve (cStr ['p'.toUInt8]) (argVector ['p'.toUInt8] []) envp) ∧
        envp ≠ environment oneVar :=
  envp_ne_environment ['p'.toUInt8] [] rfl fun _ => rfl

/-- The child finds an empty string in front of its only variable. -/
theorem empty_string_passed :
    ∃ path argv envp, child ['p'.toUInt8] [] oneVar [] true = .ok (.execve path argv envp) ∧
      envp = [some (cStr []), some (cStr ['A'.toUInt8, '='.toUInt8, 'B'.toUInt8]), none] ∧
      environment oneVar =
        [some (cStr ['A'.toUInt8, '='.toUInt8, 'B'.toUInt8]), none] ∧
      envp ≠ environment oneVar :=
  ⟨_, _, _, rfl, rfl, rfl, by decide⟩

end Mwr.Subprocess
