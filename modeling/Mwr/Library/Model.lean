import Mathlib.Logic.Function.Basic
import Mwr.CodeLib.Bytes
import Mwr.CodeLib.Transition
import Mwr.Stl.Containers

/-!
# Shared libraries

A translation of `open`, `mopen` and `close` of the class `library` of
`src/mwr/utils/library_posix.cpp`, and of the path functions of `src/mwr/core/utils.cpp` that
they use.

* `State` has the file system as a map from paths to contents, the table of `mopen`, the
  objects, and the list `cleanup_libs` of the copies that are to be removed.  `dlopen` loads the
  content at its argument, and the removal of a file that is there does not fail.
* A function that can throw gives back its state with the answer whether it has returned.
* A label has what the operating system decides: which of two files is newer, and whether
  `dlopen` accepts a file.
-/

namespace Mwr

open Mwr.CodeLib
open Mwr.CodeLib.Bytes
open Mwr.CodeLib.Transition
open Mwr.Containers

/-- `class library`.  The handle stands for the content that has been loaded. -/
structure Library (γ : Type) where
  name : Bytes
  path : Bytes
  copy : Bytes
  handle : Option γ
  deriving DecidableEq, Repr

namespace Library

variable {γ : Type}

/-- `library()`. -/
def new : Library γ := ⟨[], [], [], none⟩

/-- `is_open()`. -/
def isOpen (lib : Library γ) : Bool := lib.handle.isSome

/-! ## Paths -/

/-- `is_absolute_path(path)`. -/
def isAbsolutePath (path : Bytes) : Bool := path.head? == some '/'.toUInt8

/-- `filename(path)`: what is behind the last slash. -/
def filename (path : Bytes) : Bytes :=
  (path.reverse.takeWhile (· ≠ '/'.toUInt8)).reverse

/-- `filename_noext(path)`: the name up to its last dot, if it has one. -/
def filenameNoext (path : Bytes) : Bytes :=
  let name := filename path
  if '.'.toUInt8 ∈ name then
    ((name.reverse.dropWhile (· ≠ '.'.toUInt8)).drop 1).reverse
  else name

/-- What is known of the host: `temp_dir()`, and the path that the loader reports for a name
that is not a path. -/
structure Host where
  tempDir : Bytes
  tempDir_absolute : isAbsolutePath tempDir = true
  libraryPath : Bytes → Bytes

/-- The target of `copy_library(path, n)`. -/
def Host.copyPath (host : Host) (path : Bytes) (n : Nat) : Bytes :=
  host.tempDir ++ str "/" ++ filenameNoext path ++ str "-" ++ str (toString n) ++ str ".so"

/-! ## States -/

/-- `struct openinfo`. -/
structure OpenInfo where
  path : Bytes
  copies : Nat
  deriving DecidableEq, Repr

structure State (γ : Type) where
  files : Bytes → Option γ
  /-- `maps`.  An entry is created when it is looked up. -/
  maps : Bytes → OpenInfo
  libs : Nat → Library γ
  cleanupLibs : List Bytes
  /-- How often `exit_cleanup` has been given to `atexit`. -/
  handlers : Nat
  /-- What `copy_library` has returned so far. -/
  copied : List Bytes

/-- Before the first call. -/
def State.new (files : Bytes → Option γ) : State γ where
  files := files
  maps := fun _ => ⟨[], 0⟩
  libs := fun _ => .new
  cleanupLibs := []
  handlers := 0
  copied := []

def State.setFile (s : State γ) (path : Bytes) (content : Option γ) : State γ :=
  { s with files := Function.update s.files path content }

def State.setInfo (s : State γ) (name : Bytes) (info : OpenInfo) : State γ :=
  { s with maps := Function.update s.maps name info }

def State.setLib (s : State γ) (id : Nat) (lib : Library γ) : State γ :=
  { s with libs := Function.update s.libs id lib }

/-- What the operating system decides in a call of `mopen`. -/
structure Answers where
  /-- The source of a copy is newer than the file that is in its place. -/
  newer : Bool
  /-- `dlopen` accepts the file, if there is one. -/
  loads : Bool

/-! ## The code -/

/-- `copy_file(path, copy, update_existing)`. -/
def State.copyFile (s : State γ) (newer : Bool) (path copy : Bytes) : Option (State γ) :=
  match s.files path with
  | none => none
  | some content =>
    if path = copy then none
    else if (s.files copy).isSome ∧ newer = false then some s
    else some (s.setFile copy (some content))

/-- `copy_library(path, n)`. -/
def State.copyLibrary (host : Host) (s : State γ) (newer : Bool) (path : Bytes) (n : Nat) :
    Option (State γ × Bytes) :=
  let copy := host.copyPath path n
  match s.copyFile newer path copy with
  | none => none
  | some s =>
    some ({ s with
      cleanupLibs := stlAddUnique s.cleanupLibs copy
      handlers := if s.cleanupLibs = [] then s.handlers + 1 else s.handlers
      copied := s.copied ++ [copy] }, copy)

/-- `remove_library(path)`. -/
def State.removeLibrary (s : State γ) (path : Bytes) : State γ :=
  { s.setFile path none with cleanupLibs := stlRemove s.cleanupLibs path }

/-- `close()`. -/
def State.close (s : State γ) (id : Nat) : State γ :=
  let lib := s.libs id
  if lib.copy ≠ [] ∧ (s.files lib.copy).isSome then
    (s.removeLibrary lib.copy).setLib id ⟨[], [], [], none⟩
  else s.setLib id ⟨[], [], lib.copy, none⟩

/-- `if (is_open()) close()`. -/
def State.closeOpen (s : State γ) (id : Nat) : State γ :=
  if (s.libs id).isOpen then s.close id else s

/-- `dlopen(path)`. -/
def State.dlopen (s : State γ) (loads : Bool) (path : Bytes) : Option γ :=
  if loads then s.files path else none

/-- `open(path)`. -/
def State.open (host : Host) (s : State γ) (loads : Bool) (id : Nat) (path : Bytes) :
    State γ × Bool :=
  let s := s.closeOpen id
  let file := if isAbsolutePath path then path else host.libraryPath path
  match s.dlopen loads file with
  | none => (s.setLib id { s.libs id with handle := none }, false)
  | some content =>
    if isAbsolutePath path then
      (s.setLib id ⟨filename path, path, (s.libs id).copy, some content⟩, true)
    else (s.setLib id ⟨path, file, (s.libs id).copy, some content⟩, true)

/-- `mopen(path)`. -/
def State.mopen (host : Host) (s : State γ) (answers : Answers) (id : Nat) (path : Bytes) :
    State γ × Bool :=
  let s := s.closeOpen id
  let name := if isAbsolutePath path then filename path else path
  let info := s.maps name
  if info.copies = 0 then
    let (s, ok) := s.open host answers.loads id path
    if ok then (s.setInfo name ⟨(s.libs id).path, info.copies + 1⟩, true) else (s, false)
  else
    let s := s.setInfo name ⟨info.path, info.copies + 1⟩
    match s.copyLibrary host answers.newer info.path info.copies with
    | none => (s, false)
    | some (s, copy) =>
      let s := s.setLib id { s.libs id with copy }
      let (s, ok) := s.open host answers.loads id copy
      if ok then (s.setLib id { s.libs id with name }, true) else (s, false)

/-! ## Runs -/

/-- A call of `mopen` or `close`, with the object. -/
inductive Label where
  | mopen (id : Nat) (path : Bytes) (answers : Answers)
  | close (id : Nat)

/-- A call with an absolute path, whether it returns or throws. -/
def step (host : Host) (s : State γ) : Label → Option (State γ)
  | .mopen id path answers =>
    if isAbsolutePath path then some (s.mopen host answers id path).1 else none
  | .close id => some (s.close id)

/-- All runs from a file system. -/
def system (host : Host) (files : Bytes → Option γ) : System (State γ) Label :=
  System.ofStep (State.new files) (step host)

end Library

end Mwr
