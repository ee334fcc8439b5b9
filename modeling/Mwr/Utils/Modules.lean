import Mathlib.Data.List.Lex
import Mathlib.Data.List.Nodup
import Mwr.CodeLib.Exec
import Mwr.CodeLib.SortedInsert
import Mwr.Core.Report
import Mwr.Options.Model

/-!
# The modules of a program

`src/mwr/utils/modules.cpp`: a program has one object for each of its modules, and the constructor
of a module enters it into a vector that is sorted by the version strings.  The objects are
constants of the program, which are not destroyed before the vector.

* `construct` is the constructor, with its checks and their messages.
* `run_construct` says what a single constructor does, and `Registers` what a program may
  register.
* `modules_registered` is the result for the constructors of a program, in any order.
-/

namespace Mwr.Modules

open Mwr.CodeLib
open Mwr.CodeLib.Bytes (text)
open Mwr.CodeLib.SortedInsert
open Mwr.Options (cStr)

/-! ## The code -/

/-- A `module`, with the members that its constructor fills. -/
structure Module where
  name : Bytes
  version : UInt64
  versionMajor : UInt64
  versionMinor : UInt64
  versionPatch : UInt64
  versionString : Bytes
  gitRev : Bytes
  gitRevShort : Bytes
  license : Bytes
  deriving DecidableEq

/-- `m_modules` of the singleton. -/
abbrev Registry := List Module

/-- `modules::find(name)`. -/
def find (all : Registry) (name : Bytes) : Option Module := all.find? (·.name == name)

/-- The order of `modules::import`. -/
def versionLt (a b : Module) : Bool := decide (a.versionString < b.versionString)

/-- The message for a second module of a name. -/
def duplicate (mod other : Module) : String :=
  "duplicate module found " ++ text (cStr mod.name).1 ++ ": " ++
    text (cStr mod.versionString).1 ++ " vs " ++ text (cStr other.versionString).1

/-- `module::module`, which ends in `modules::import`. -/
def construct (mod : Module) : StateT Registry (Except Fault) Unit := do
  errorOn (mod.name = []) "module does not have a name"
  errorOn (mod.version = 0) "module does not have a version"
  let all ← get
  match find all mod.name with
  | some other => throw (.error (duplicate mod other))
  | none => set (insertSorted versionLt all mod)

/-- The constructors of a program. -/
def constructAll (mods : List Module) : StateT Registry (Except Fault) Unit := mods.forM construct

/-! ## The order -/

theorem weakOrder_versionLt : WeakOrder versionLt where
  asymm a b h := decide_eq_false (List.lt_asymm (of_decide_eq_true h))
  cotrans a b c h := by
    by_cases hab : a.versionString < b.versionString
    · exact .inl (decide_eq_true hab)
    · have hba := List.not_lt.1 hab
      exact .inr (decide_eq_true (List.lt_of_le_of_lt hba (of_decide_eq_true h)))

/-- The order takes modules of one version string for equivalent, and no others. -/
theorem equivalent_versionLt (a b : Module) :
    equivalent versionLt a b = decide (b.versionString = a.versionString) := by
  unfold equivalent versionLt
  rw [Bool.eq_iff_iff]
  simp only [Bool.and_eq_true, Bool.not_eq_true', decide_eq_false_iff_not, decide_eq_true_eq]
  constructor
  · rintro ⟨hab, hba⟩
    exact List.le_antisymm (List.not_lt.1 hab) (List.not_lt.1 hba)
  · intro heq
    rw [heq]
    exact ⟨List.lt_irrefl _, List.lt_irrefl _⟩

/-! ## One constructor -/

/-- What a check of the constructor says about a module, behind the modules before it. -/
inductive Rejects (before : List Module) (mod : Module) : String → Prop where
  | name (h : mod.name = []) : Rejects before mod "module does not have a name"
  | version (hname : mod.name ≠ []) (h : mod.version = 0) :
      Rejects before mod "module does not have a version"
  | duplicate (hname : mod.name ≠ []) (hversion : mod.version ≠ 0) (other : Module)
      (hmem : other ∈ before) (h : other.name = mod.name) :
      Rejects before mod (duplicate mod other)

/-- The module goes into the vector. -/
structure Accepts (before : List Module) (mod : Module) : Prop where
  name : mod.name ≠ []
  version : mod.version ≠ 0
  fresh : ∀ other ∈ before, other.name ≠ mod.name

theorem Rejects.not_accepts {before : List Module} {mod : Module} {message : String}
    (h : Rejects before mod message) : ¬ Accepts before mod := by
  intro ha
  cases h with
  | name h => exact ha.name h
  | version _ h => exact ha.version h
  | duplicate _ _ other hmem h => exact ha.fresh other hmem h

theorem find_eq_none {all : Registry} {name : Bytes} :
    find all name = none ↔ ∀ mod ∈ all, mod.name ≠ name := by
  unfold find
  simp

theorem find_eq_some {all : Registry} {name : Bytes} {mod : Module}
    (h : find all name = some mod) : mod ∈ all ∧ mod.name = name := by
  refine ⟨List.mem_of_find?_eq_some h, ?_⟩
  have hname := List.find?_some h
  exact eq_of_beq hname

/-- The constructor either enters the module or ends the program. -/
theorem run_construct (mod : Module) (all : Registry) :
    (Accepts all mod ∧ (construct mod).run all = .ok ((), insertSorted versionLt all mod)) ∨
      ∃ message, Rejects all mod message ∧ (construct mod).run all = .error (.error message) := by
  unfold construct errorOn
  by_cases hname : mod.name = []
  · refine .inr ⟨_, .name hname, ?_⟩
    rw [if_pos hname]
    rfl
  · by_cases hversion : mod.version = 0
    · refine .inr ⟨_, .version hname hversion, ?_⟩
      rw [if_neg hname, if_pos hversion]
      rfl
    · rw [if_neg hname, if_neg hversion]
      cases hfind : find all mod.name with
      | none =>
        refine .inl ⟨⟨hname, hversion, find_eq_none.1 hfind⟩, ?_⟩
        simp [hfind]
      | some other =>
        obtain ⟨hmem, heq⟩ := find_eq_some hfind
        refine .inr ⟨_, .duplicate hname hversion other hmem heq, ?_⟩
        simp [hfind]

/-! ## The constructors of a program -/

/-- The modules that a program may have. -/
structure Registers (mods : List Module) : Prop where
  name : ∀ mod ∈ mods, mod.name ≠ []
  version : ∀ mod ∈ mods, mod.version ≠ 0
  nodup : (mods.map Module.name).Nodup

theorem registers_append_singleton {mods : List Module} {mod : Module} :
    Registers (mods ++ [mod]) ↔ Registers mods ∧ Accepts mods mod := by
  constructor
  · intro h
    have hnodup := h.nodup
    rw [List.map_append, List.nodup_append] at hnodup
    obtain ⟨hmods, -, hdisjoint⟩ := hnodup
    have hlast : mod ∈ mods ++ [mod] := List.mem_append_right _ List.mem_cons_self
    refine ⟨⟨fun m hm => h.name m (List.mem_append_left _ hm),
      fun m hm => h.version m (List.mem_append_left _ hm), hmods⟩,
      h.name mod hlast, h.version mod hlast, fun other hother => ?_⟩
    exact hdisjoint _ (List.mem_map_of_mem hother) _ List.mem_cons_self
  · rintro ⟨h, ha⟩
    have hall : ∀ {P : Module → Prop}, (∀ m ∈ mods, P m) → P mod → ∀ m ∈ mods ++ [mod], P m := by
      intro P hmods hmod m hm
      rcases List.mem_append.1 hm with hm | hm
      · exact hmods m hm
      · rw [List.mem_singleton.1 hm]
        exact hmod
    refine ⟨hall h.name ha.name, hall h.version ha.version, ?_⟩
    rw [List.map_append, List.nodup_append]
    refine ⟨h.nodup, List.nodup_cons.2 ⟨List.not_mem_nil, List.nodup_nil⟩, ?_⟩
    intro name hname name' hname'
    obtain ⟨other, hother, rfl⟩ := List.mem_map.1 hname
    rw [List.mem_singleton.1 hname']
    exact ha.fresh other hother

theorem registers_nil : Registers [] :=
  ⟨fun _ hm => absurd hm List.not_mem_nil, fun _ hm => absurd hm List.not_mem_nil, List.nodup_nil⟩

theorem Registers.of_append {mods mods' : List Module} (h : Registers (mods ++ mods')) :
    Registers mods := by
  have hnodup := h.nodup
  rw [List.map_append] at hnodup
  exact ⟨fun m hm => h.name m (List.mem_append_left _ hm),
    fun m hm => h.version m (List.mem_append_left _ hm), (List.nodup_append.1 hnodup).1⟩

theorem Accepts.congr {all mods : List Module} {mod : Module} (h : ∀ m, m ∈ all ↔ m ∈ mods) :
    Accepts all mod ↔ Accepts mods mod :=
  ⟨fun ha => ⟨ha.name, ha.version, fun m hm => ha.fresh m ((h m).2 hm)⟩,
    fun ha => ⟨ha.name, ha.version, fun m hm => ha.fresh m ((h m).1 hm)⟩⟩

theorem Rejects.congr {all mods : List Module} {mod : Module} {message : String}
    (h : ∀ m, m ∈ all → m ∈ mods) (hr : Rejects all mod message) : Rejects mods mod message := by
  cases hr with
  | name hname => exact .name hname
  | version hname hversion => exact .version hname hversion
  | duplicate hname hversion other hmem heq =>
    exact .duplicate hname hversion other (h other hmem) heq

/-- The vector after the constructors of `mods`. -/
def registry (mods : List Module) : Registry := mods.foldl (insertSorted versionLt) []

theorem mem_registry {mods : List Module} (m : Module) : m ∈ registry mods ↔ m ∈ mods :=
  (stable_foldl_insertSorted weakOrder_versionLt mods).2.1.mem_iff

/-- The constructors go on until one of them ends the program. -/
theorem run_constructAll (before mods : List Module) (h : Registers before) :
    (Registers (before ++ mods) ∧
        (constructAll mods).run (registry before) = .ok ((), registry (before ++ mods))) ∨
      ∃ good mod rest message, mods = good ++ mod :: rest ∧ Registers (before ++ good) ∧
        Rejects (before ++ good) mod message ∧
        (constructAll mods).run (registry before) = .error (.error message) := by
  induction mods generalizing before with
  | nil =>
    rw [List.append_nil]
    exact .inl ⟨h, rfl⟩
  | cons mod mods ih =>
    have hcons : constructAll (mod :: mods) = (do construct mod; constructAll mods) := rfl
    rw [hcons]
    rcases run_construct mod (registry before) with ⟨ha, hrun⟩ | ⟨message, hr, hrun⟩
    · have hnext : insertSorted versionLt (registry before) mod = registry (before ++ [mod]) := by
        unfold registry
        rw [List.foldl_append]
        rfl
      have hgood := registers_append_singleton.2 ⟨h, (Accepts.congr mem_registry).1 ha⟩
      rw [Exec.run_bind_of_ok hrun, hnext]
      have hassoc : ∀ l, before ++ mod :: l = (before ++ [mod]) ++ l := fun l => by simp
      rcases ih (before ++ [mod]) hgood with ⟨hall, hok⟩ | ⟨good, m, rest, e, rfl, hregs, hr, herr⟩
      · rw [hassoc]
        exact .inl ⟨hall, hok⟩
      · refine .inr ⟨mod :: good, m, rest, e, rfl, ?_, ?_, herr⟩
        · rw [hassoc]
          exact hregs
        · rw [hassoc]
          exact hr
    · rw [Exec.run_bind_of_error hrun]
      refine .inr ⟨[], mod, mods, message, rfl, ?_, ?_, rfl⟩
      · rw [List.append_nil]
        exact h
      · rw [List.append_nil]
        exact hr.congr fun m hm => (mem_registry m).1 hm

/-- The check that fails and its message. -/
theorem Rejects.unique {mods : List Module} {mod : Module} {message message' : String}
    (hmods : Registers mods) (h : Rejects mods mod message) (h' : Rejects mods mod message') :
    message = message' := by
  cases h with
  | name hname =>
    cases h' with
    | name => rfl
    | version hname' => exact absurd hname hname'
    | duplicate hname' => exact absurd hname hname'
  | version hname hversion =>
    cases h' with
    | name hname' => exact absurd hname' hname
    | version => rfl
    | duplicate _ hversion' => exact absurd hversion hversion'
  | duplicate hname hversion other hmem heq =>
    cases h' with
    | name hname' => exact absurd hname' hname
    | version _ hversion' => exact absurd hversion' hversion
    | duplicate _ _ other' hmem' heq' =>
      -- there is a single module of the name
      have hother := List.inj_on_of_nodup_map hmods.nodup hmem hmem' (heq.trans heq'.symm)
      rw [hother]

theorem run_constructAll_nil {mods : List Module} (h : Registers mods) :
    (constructAll mods).run [] = .ok ((), registry mods) := by
  rcases run_constructAll [] mods registers_nil with ⟨-, hok⟩ | ⟨good, mod, rest, message, hmods,
    -, hr, -⟩
  · exact hok
  · rw [hmods, List.append_cons] at h
    exact absurd (registers_append_singleton.1 h.of_append).2 hr.not_accepts

/-- A vector without a second module of a name finds each of its modules. -/
theorem find_eq_some_iff {all : Registry} (h : (all.map Module.name).Nodup) {name : Bytes}
    {mod : Module} : find all name = some mod ↔ mod ∈ all ∧ mod.name = name := by
  refine ⟨find_eq_some, ?_⟩
  rintro ⟨hmem, rfl⟩
  cases hfind : find all mod.name with
  | none => exact absurd rfl (find_eq_none.1 hfind mod hmem)
  | some other =>
    obtain ⟨hother, heq⟩ := find_eq_some hfind
    rw [List.inj_on_of_nodup_map h hother hmem heq]

/-- The constructors of a program succeed, in whatever order they run, exactly when every module
has a name and a version and no two have one name.  Then `all()` is sorted by the version strings
and has each module once, modules of one version string in the order of their constructors, and
`find` finds the module of a name.  Otherwise the first module that is not like this ends the
program, with the message of the check that it fails. -/
theorem modules_registered (mods : List Module) :
    ((∃ all, (constructAll mods).run [] = .ok ((), all)) ↔ Registers mods) ∧
      (∀ all, (constructAll mods).run [] = .ok ((), all) →
        all.Perm mods ∧ all.Pairwise (fun a b => a.versionString ≤ b.versionString) ∧
        (∀ version, all.filter (·.versionString = version) =
          mods.filter (·.versionString = version)) ∧
        ∀ name mod, find all name = some mod ↔ mod ∈ mods ∧ mod.name = name) ∧
      ∀ e, (constructAll mods).run [] = .error e ↔
        ∃ good mod rest message, mods = good ++ mod :: rest ∧ Registers good ∧
          Rejects good mod message ∧ e = .error message := by
  have hok : ∀ all, (constructAll mods).run [] = .ok ((), all) →
      Registers mods ∧ all = registry mods := by
    intro all hall
    rcases run_constructAll [] mods registers_nil with ⟨hmods, hrun⟩ | ⟨_, _, _, _, _, _, _, hrun⟩
    · have heq := hall.symm.trans hrun
      cases heq
      exact ⟨hmods, rfl⟩
    · have heq := hall.symm.trans hrun
      cases heq
  obtain ⟨hsorted, hperm, hstable⟩ := stable_foldl_insertSorted weakOrder_versionLt mods
  refine ⟨⟨fun ⟨all, hall⟩ => (hok all hall).1, fun h => ⟨_, run_constructAll_nil h⟩⟩,
    fun all hall => ?_, fun e => ⟨fun he => ?_, ?_⟩⟩
  · obtain ⟨hmods, rfl⟩ := hok all hall
    refine ⟨hperm, hsorted.imp fun h => List.not_lt.1 (of_decide_eq_false h), fun version => ?_,
      fun name mod => ?_⟩
    · -- a module of the version string, or the two sides are empty
      by_cases hany : ∃ m ∈ mods, m.versionString = version
      · obtain ⟨m, -, rfl⟩ := hany
        have hkey : equivalent versionLt m =
            fun x => decide (x.versionString = m.versionString) :=
          funext (equivalent_versionLt m)
        have hfilter := hstable m
        rw [hkey] at hfilter
        exact hfilter
      · have hnone : ∀ l : List Module, (∀ m ∈ l, m ∈ mods) →
            l.filter (·.versionString = version) = [] := by
          intro l hl
          rw [List.filter_eq_nil_iff]
          intro m hm heq
          exact hany ⟨m, hl m hm, of_decide_eq_true heq⟩
        rw [hnone _ fun m hm => (mem_registry m).1 hm, hnone mods fun _ hm => hm]
    · have hnodup : ((registry mods).map Module.name).Nodup :=
        (hperm.map Module.name).nodup_iff.2 hmods.nodup
      rw [find_eq_some_iff hnodup, mem_registry]
  · rcases run_constructAll [] mods registers_nil with ⟨_, hrun⟩ | ⟨good, mod, rest, message, hmods,
      hgood, hr, hrun⟩
    · have heq := he.symm.trans hrun
      cases heq
    · have heq := he.symm.trans hrun
      cases heq
      exact ⟨good, mod, rest, message, hmods, hgood, hr, rfl⟩
  · rintro ⟨good, mod, rest, message, hmods, hgood, hr, rfl⟩
    have hsplit : constructAll mods = (do constructAll good; constructAll (mod :: rest)) := by
      rw [hmods]
      exact List.forM_append
    rw [hsplit, Exec.run_bind_of_ok (run_constructAll_nil hgood)]
    rcases run_construct mod (registry good) with ⟨ha, -⟩ | ⟨message', hr', hrun⟩
    · exact absurd ((Accepts.congr mem_registry).1 ha) hr.not_accepts
    · have hmessage := hr.unique hgood (hr'.congr fun m hm => (mem_registry m).1 hm)
      rw [hmessage]
      exact Exec.run_bind_of_error hrun

end Mwr.Modules
