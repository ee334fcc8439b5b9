import Mathlib.Logic.Function.Iterate
import Mwr.Library.Paths

/-!
# Temporary copies of libraries

The rest of `src/mwr/utils/library_posix.cpp`: `exit_cleanup`, the destructor, the move constructor
and `keep_alive`.

* A `Process` has the libraries of `Mwr.Library.State` with the flags of `keep_alive`.
* `Tidy` is what every call keeps: a copy that is there is on the list, and nothing but copies
  has changed.
* `exit_removes_copies` is what is left of the copies when the process ends.
-/

namespace Mwr.Library

open Mwr.CodeLib
open Mwr.CodeLib.Bytes
open Mwr.CodeLib.Transition
open Mwr.Containers

variable {γ : Type}

/-! ## The code -/

/-- The libraries of a process. -/
structure Process (γ : Type) extends State γ where
  /-- `m_keep` of an object. -/
  keep : Nat → Bool

/-- Before the first call. -/
def Process.new (files : Bytes → Option γ) : Process γ :=
  { State.new files with keep := fun _ => false }

/-- `keep_alive(keep)`. -/
def Process.keepAlive (p : Process γ) (id : Nat) (keep : Bool) : Process γ :=
  { p with keep := Function.update p.keep id keep }

/-- The destructor. -/
def Process.destroy (p : Process γ) (id : Nat) : Process γ :=
  if p.keep id then p else { p with toState := p.toState.close id }

/-- `library()`. -/
def Process.construct (p : Process γ) (id : Nat) : Process γ :=
  { p with toState := p.toState.setLib id .new }.keepAlive id false

/-- `library(std::move(other))`. -/
def Process.move (p : Process γ) (id other : Nat) : Process γ :=
  let s := (p.toState.setLib id (p.libs other)).setLib other ⟨[], [], [], none⟩
  { p with toState := s }.keepAlive id (p.keep other)

/-- `exit_cleanup()`. -/
def Process.exitCleanup (p : Process γ) : Process γ :=
  { p with toState := p.cleanupLibs.foldl (fun s lib => s.setFile lib none) p.toState }

/-- The end of the process, which calls what it has given to `atexit`. -/
def Process.exit (p : Process γ) : Process γ :=
  exitCleanup^[p.handlers] p

/-! ## Runs -/

/-- What a program does with its libraries.  `renew` is the end of an object and a new one in its
place, and `move` is the end of an object and one in its place that another one is moved to. -/
inductive Call where
  /-- `open(path)`. -/
  | load (id : Nat) (path : Bytes) (loads : Bool)
  | mopen (id : Nat) (path : Bytes) (answers : Answers)
  | close (id : Nat)
  | keepAlive (id : Nat) (keep : Bool)
  | renew (id : Nat)
  | move (id other : Nat)

def Process.step (host : Host) (p : Process γ) : Call → Option (Process γ)
  | .load id path loads => some { p with toState := (p.toState.open host loads id path).1 }
  | .mopen id path answers =>
    some { p with toState := (p.toState.mopen host answers id path).1 }
  | .close id => some { p with toState := p.toState.close id }
  | .keepAlive id keep => some (p.keepAlive id keep)
  | .renew id => some ((p.destroy id).construct id)
  | .move id other => if id = other then none else some ((p.destroy id).move id other)

/-- All runs from a file system. -/
def Process.system (host : Host) (files : Bytes → Option γ) : System (Process γ) Call :=
  System.ofStep (new files) (step host)

/-! ## What every call keeps -/

variable {host : Host} {files : Bytes → Option γ} {s s' : State γ} {p p' : Process γ} {id : Nat}
variable {path : Bytes}

/-- Behind some calls: a copy that is there is on the list, which `exit_cleanup` goes through, and
nothing but copies has changed. -/
structure Tidy (host : Host) (files : Bytes → Option γ) (s : State γ) : Prop where
  frame : ∀ path ∉ s.copied, s.files path = files path
  listed : ∀ path ∈ s.copied, s.files path ≠ none → path ∈ s.cleanupLibs
  cleanup : ∀ path ∈ s.cleanupLibs, path ∈ s.copied
  handlers : s.cleanupLibs ≠ [] → 0 < s.handlers
  copy : ∀ id, (s.libs id).copy ≠ [] → (s.libs id).copy ∈ s.copied
  place : ∀ path ∈ s.copied, host.IsCopy path

namespace Tidy

theorem new (host : Host) (files : Bytes → Option γ) : Tidy host files (State.new files) where
  frame := fun _ _ => rfl
  listed := fun _ hpath => absurd hpath List.not_mem_nil
  cleanup := fun _ hpath => absurd hpath List.not_mem_nil
  handlers := fun hne => absurd rfl hne
  copy := fun _ hne => absurd rfl hne
  place := fun _ hpath => absurd hpath List.not_mem_nil

/-- An object may get the copy that another one or itself has had. -/
theorem setLib (h : Tidy host files s) {lib : Library γ}
    (hlib : lib.copy ≠ [] → lib.copy ∈ s.copied) : Tidy host files (s.setLib id lib) where
  frame := h.frame
  listed := h.listed
  cleanup := h.cleanup
  handlers := h.handlers
  copy := by
    intro other
    show (Function.update s.libs id lib other).copy ≠ [] →
      (Function.update s.libs id lib other).copy ∈ s.copied
    by_cases hother : other = id
    · subst hother
      rw [Function.update_self]
      exact hlib
    · rw [Function.update_of_ne hother]
      exact h.copy other
  place := h.place

theorem setInfo (h : Tidy host files s) (name : Bytes) (info : OpenInfo) :
    Tidy host files (s.setInfo name info) :=
  { h with }

theorem removeLibrary (h : Tidy host files s) (hpath : path ∈ s.copied) :
    Tidy host files (s.removeLibrary path) where
  frame := by
    intro other hother
    have hne : other ≠ path := fun heq => hother (heq ▸ hpath)
    exact (Function.update_of_ne hne _ _).trans (h.frame other hother)
  listed := by
    intro other hother hfile
    have hne : other ≠ path := by
      rintro rfl
      exact hfile (Function.update_self _ _ _)
    have hfile' : s.files other ≠ none := fun hnone =>
      hfile ((Function.update_of_ne hne _ _).trans hnone)
    exact mem_stlRemove.2 ⟨h.listed other hother hfile', hne⟩
  cleanup := fun other hother => h.cleanup other (mem_stlRemove.1 hother).1
  handlers := by
    intro hne
    refine h.handlers fun hnil => hne ?_
    show stlRemove s.cleanupLibs path = []
    rw [hnil]
    rfl
  copy := h.copy
  place := h.place

theorem close (h : Tidy host files s) (id : Nat) : Tidy host files (s.close id) := by
  unfold State.close
  dsimp only
  split
  next hcopy => exact (h.removeLibrary (h.copy id hcopy.1)).setLib fun hne => absurd rfl hne
  next => exact h.setLib (h.copy id)

theorem closeOpen (h : Tidy host files s) (id : Nat) : Tidy host files (s.closeOpen id) := by
  unfold State.closeOpen
  split
  next => exact h.close id
  next => exact h

theorem load (h : Tidy host files s) (loads : Bool) (id : Nat) (path : Bytes) :
    Tidy host files (s.open host loads id path).1 := by
  have h := h.closeOpen id
  unfold State.open
  dsimp only
  split
  next => exact h.setLib (h.copy id)
  next =>
    split
    next => exact h.setLib (h.copy id)
    next => exact h.setLib (h.copy id)

/-- The libraries are as before, and no file but the copy has changed. -/
theorem copyFile_frame {newer : Bool} {copy : Bytes}
    (hcopy : s.copyFile newer path copy = some s') :
    (∀ other ≠ copy, s'.files other = s.files other) ∧ s'.libs = s.libs ∧
      s'.cleanupLibs = s.cleanupLibs ∧ s'.handlers = s.handlers ∧ s'.copied = s.copied := by
  unfold State.copyFile at hcopy
  split at hcopy
  next => cases hcopy
  next content _ =>
    rw [Option.ite_none_left_eq_some] at hcopy
    obtain ⟨-, hcopy⟩ := hcopy
    split at hcopy
    next =>
      cases hcopy
      exact ⟨fun _ _ => rfl, rfl, rfl, rfl, rfl⟩
    next =>
      cases hcopy
      exact ⟨fun _ hne => Function.update_of_ne hne _ _, rfl, rfl, rfl, rfl⟩

/-- The copy is on the list, whether it has been written or was there. -/
theorem copyLibrary (h : Tidy host files s) {newer : Bool} {n : Nat} {copy : Bytes}
    (hcopy : s.copyLibrary host newer path n = some (s', copy)) :
    Tidy host files s' ∧ copy ∈ s'.copied := by
  unfold State.copyLibrary at hcopy
  dsimp only at hcopy
  split at hcopy
  next => cases hcopy
  next t ht =>
    obtain ⟨hfiles, hlibs, hcleanup, hhandlers, hcopied⟩ := copyFile_frame ht
    have hplace := isCopy_copyPath host path n
    cases hcopy
    generalize host.copyPath path n = copy at *
    have hmem : ∀ {other}, other ∈ t.copied ++ [copy] ↔ other ∈ s.copied ∨ other = copy := by
      intro other
      rw [hcopied, List.mem_append, List.mem_singleton]
    refine ⟨⟨?_, ?_, ?_, ?_, ?_, ?_⟩, hmem.2 (.inr rfl)⟩
    · intro other hother
      rw [hmem, not_or] at hother
      exact (hfiles other hother.2).trans (h.frame other hother.1)
    · intro other hother hne
      rw [mem_stlAddUnique, hcleanup]
      by_cases heq : other = copy
      · exact .inr heq
      · have hne : t.files other ≠ none := hne
        rw [hfiles other heq] at hne
        exact .inl (h.listed other ((hmem.1 hother).resolve_right heq) hne)
    · intro other hother
      rw [mem_stlAddUnique, hcleanup] at hother
      exact hmem.2 (hother.imp_left (h.cleanup other))
    · rintro -
      dsimp only
      split
      next => exact Nat.succ_pos _
      next hne =>
        rw [hhandlers]
        rw [hcleanup] at hne
        exact h.handlers hne
    · intro other hne
      have hne : (t.libs other).copy ≠ [] := hne
      show (t.libs other).copy ∈ _
      rw [hlibs] at hne ⊢
      exact hmem.2 (.inl (h.copy other hne))
    · intro other hother
      exact (hmem.1 hother).elim (h.place other) fun heq => heq ▸ hplace

theorem mopen (h : Tidy host files s) (answers : Answers) (id : Nat) (path : Bytes) :
    Tidy host files (s.mopen host answers id path).1 := by
  have h := h.closeOpen id
  unfold State.mopen
  dsimp only
  generalize s.closeOpen id = q at *
  generalize (if isAbsolutePath path then filename path else path) = name
  split
  next =>
    have h := h.load answers.loads id path
    split
    next => exact h.setInfo _ _
    next => exact h
  next =>
    have h := h.setInfo name ⟨(q.maps name).path, (q.maps name).copies + 1⟩
    split
    next => exact h
    next q' copy hcopy =>
      obtain ⟨h, hmem⟩ := h.copyLibrary hcopy
      have hlib : Tidy host files (q'.setLib id { q'.libs id with copy }) := h.setLib fun _ => hmem
      have h := hlib.load answers.loads id copy
      split
      next => exact h.setLib (h.copy id)
      next => exact h

theorem destroy (h : Tidy host files p.toState) (id : Nat) :
    Tidy host files (p.destroy id).toState := by
  unfold Process.destroy
  split
  next => exact h
  next => exact h.close id

theorem step (h : Tidy host files p.toState) {call : Call} (hstep : p.step host call = some p') :
    Tidy host files p'.toState := by
  cases call with
  | load id path loads =>
    cases hstep
    exact h.load loads id path
  | mopen id path answers =>
    cases hstep
    exact h.mopen answers id path
  | close id =>
    cases hstep
    exact h.close id
  | keepAlive id keep =>
    cases hstep
    exact h
  | renew id =>
    cases hstep
    exact (h.destroy id).setLib fun hne => absurd rfl hne
  | move id other =>
    rw [Process.step, Option.ite_none_left_eq_some] at hstep
    cases hstep.2
    have h := h.destroy id
    exact (h.setLib (h.copy other)).setLib fun hne => absurd rfl hne

theorem of_reachable (hreach : (Process.system host files).Reachable p) :
    Tidy host files p.toState := by
  refine System.Reachable.invariant (I := fun p => Tidy host files p.toState) ?_
    (fun _ _ _ _ h hstep => h.step hstep) hreach
  rintro p rfl
  exact new host files

end Tidy

/-! ## The end of the process -/

theorem foldl_setFile (s : State γ) (libs : List Bytes) :
    let t := libs.foldl (fun s lib => s.setFile lib none) s
    t.libs = s.libs ∧ t.cleanupLibs = s.cleanupLibs ∧
      ∀ path, t.files path = if path ∈ libs then none else s.files path := by
  induction libs generalizing s with
  | nil => exact ⟨rfl, rfl, fun path => (if_neg List.not_mem_nil).symm⟩
  | cons lib libs ih =>
    obtain ⟨hlibs, hlist, hfiles⟩ := ih (s.setFile lib none)
    refine ⟨hlibs, hlist, fun path => ?_⟩
    rw [List.foldl_cons, hfiles path]
    by_cases hmem : path ∈ libs
    · rw [if_pos hmem, if_pos (List.mem_cons_of_mem lib hmem)]
    · rw [if_neg hmem]
      by_cases heq : path = lib
      · subst heq
        rw [if_pos List.mem_cons_self]
        exact Function.update_self _ _ _
      · rw [if_neg fun h => (List.mem_cons.1 h).elim heq hmem]
        exact Function.update_of_ne heq _ _

/-- It does not matter how often `exit_cleanup` has been registered. -/
theorem exit_files (p : Process γ) (h : p.cleanupLibs ≠ [] → 0 < p.handlers) :
    p.exit.libs = p.libs ∧
      ∀ path, p.exit.files path = if path ∈ p.cleanupLibs then none else p.files path := by
  have hagain : ∀ n (q : Process γ), q.cleanupLibs = p.cleanupLibs → q.libs = p.libs →
      (∀ path, q.files path = if path ∈ p.cleanupLibs then none else p.files path) →
      (Process.exitCleanup^[n] q).libs = p.libs ∧ ∀ path,
        (Process.exitCleanup^[n] q).files path =
          if path ∈ p.cleanupLibs then none else p.files path := by
    intro n
    induction n with
    | zero => exact fun q _ hlibs hfiles => ⟨hlibs, hfiles⟩
    | succ n ih =>
      intro q hlist hlibs hfiles
      obtain ⟨hlibs', hlist', hfiles'⟩ := foldl_setFile q.toState q.cleanupLibs
      refine ih q.exitCleanup (hlist'.trans hlist) (hlibs'.trans hlibs)
        fun path => (hfiles' path).trans ?_
      rw [hlist, hfiles path]
      split
      next => rfl
      next => rfl
  unfold Process.exit
  cases hn : p.handlers with
  | zero =>
    have hnil : p.cleanupLibs = [] := by
      by_contra hne
      have hpos := h hne
      omega
    refine ⟨rfl, fun path => ?_⟩
    rw [hnil, if_neg List.not_mem_nil]
    rfl
  | succ n =>
    obtain ⟨hlibs, hlist, hfiles⟩ := foldl_setFile p.toState p.cleanupLibs
    exact hagain n p.exitCleanup hlist hlibs hfiles

/-- An object whose copy is gone does nothing to the files when it ends. -/
theorem destroy_files (h : ∀ id, (p.libs id).copy ≠ [] → p.files (p.libs id).copy = none)
    (id : Nat) : (p.destroy id).files = p.files ∧
      ∀ other, ((p.destroy id).libs other).copy ≠ [] →
        (p.destroy id).files ((p.destroy id).libs other).copy = none := by
  unfold Process.destroy
  split
  next => exact ⟨rfl, h⟩
  next =>
    have hnot : ¬ ((p.libs id).copy ≠ [] ∧ (p.files (p.libs id).copy).isSome) := by
      rintro ⟨hne, hsome⟩
      rw [h id hne] at hsome
      cases hsome
    have hclose : p.toState.close id = p.toState.setLib id ⟨[], [], (p.libs id).copy, none⟩ :=
      if_neg hnot
    rw [hclose]
    refine ⟨rfl, fun other => ?_⟩
    show (Function.update p.libs id _ other).copy ≠ [] →
      p.files (Function.update p.libs id _ other).copy = none
    by_cases hother : other = id
    · subst hother
      rw [Function.update_self]
      exact h other
    · rw [Function.update_of_ne hother]
      exact h other

/-- In every run of calls of `open`, `mopen`, `close` and `keep_alive`, with objects that are moved
and destroyed, the files are those from before but for copies below `temp_dir()`.  When the process
ends, no copy is left, also if objects are destroyed behind `exit_cleanup`. -/
theorem exit_removes_copies (host : Host) (files : Bytes → Option γ) (p : Process γ)
    (hreach : (Process.system host files).Reachable p) (ids : List Nat) :
    (∀ path, p.files path ≠ files path → path ∈ p.copied) ∧
    (∀ path ∈ p.copied, host.IsCopy path) ∧
    (ids.foldl Process.destroy p.exit).files =
      fun path => if path ∈ p.copied then none else files path := by
  have h := Tidy.of_reachable hreach
  obtain ⟨hlibs, hfiles⟩ := exit_files p h.handlers
  have hleft : p.exit.files = fun path => if path ∈ p.copied then none else files path := by
    funext path
    rw [hfiles path]
    by_cases hcopied : path ∈ p.copied
    · rw [if_pos hcopied]
      split
      next => rfl
      next hnot =>
        by_contra hne
        exact hnot (h.listed path hcopied hne)
    · rw [if_neg hcopied, if_neg fun hlist => hcopied (h.cleanup path hlist), h.frame path hcopied]
  have hgone : ∀ id, (p.exit.libs id).copy ≠ [] → p.exit.files (p.exit.libs id).copy = none := by
    intro id hne
    rw [hlibs] at hne ⊢
    rw [hleft]
    exact if_pos (h.copy id hne)
  refine ⟨fun path hne => ?_, h.place, ?_⟩
  · by_contra hcopied
    exact hne (h.frame path hcopied)
  · rw [← hleft]
    generalize p.exit = q at hgone
    induction ids generalizing q with
    | nil => rfl
    | cons id ids ih =>
      obtain ⟨hsame, hgone'⟩ := destroy_files hgone id
      rw [List.foldl_cons, ih (q.destroy id) hgone', hsame]

/-- Copies are in `/var/tmp`. -/
def tmpHost : Host := ⟨str "/var/tmp", by decide, fun name => str "/lib/" ++ name⟩

/-- One library. -/
def oneFile (path : Bytes) : Option Nat := if path = str "/a.so" then some 7 else none

/-- The library has been opened twice. -/
theorem exit_removes_copies_twice :
    ∃ p, (Process.system tmpHost oneFile).Reachable p ∧
      p.files (str "/var/tmp/a-1.so") = some 7 ∧ p.exit.files (str "/var/tmp/a-1.so") = none ∧
      p.exit.files (str "/a.so") = some 7 := by
  obtain ⟨p, hreach, hfile, hcopied⟩ : ∃ p, (Process.system tmpHost oneFile).Reachable p ∧
      p.files (str "/var/tmp/a-1.so") = some 7 ∧ p.copied = [str "/var/tmp/a-1.so"] :=
    System.exists_reachable_of_run [.mopen 0 (str "/a.so") ⟨false, true⟩,
      .mopen 1 (str "/a.so") ⟨false, true⟩] (by decide +kernel)
  have h := (exit_removes_copies tmpHost oneFile p hreach []).2.2
  rw [List.foldl_nil, hcopied] at h
  refine ⟨p, hreach, hfile, ?_⟩
  rw [h]
  decide +kernel

end Mwr.Library
