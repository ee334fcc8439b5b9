import Mwr.Library.Paths

/-!
# Opening a library more than once

* `First` and `Again` are what the first call of `mopen` for a file name leaves behind, and what a
  later one does (`mopen_cases`).
* A call is `Separate` if its path and the place of its copy belong to nothing else.  `Kept` is
  what such calls keep: the counter of `mopen` gives out no place twice, and an open object has
  its path from the table or from a place.
* `mopen_of_reachable` is the result for the runs that have only such calls: the objects that are
  open have different paths (`Distinct`), and a call of `mopen` `Loads` what is at its path.
-/

namespace Mwr.Library

open Mwr.CodeLib
open Mwr.CodeLib.Bytes
open Mwr.CodeLib.Transition

variable {γ : Type} {host : Host} {s s' : State γ} {id id' : Nat} {path : Bytes}
variable {answers : Answers} {loads newer : Bool}

/-! ## Closing -/

theorem setLib_self (s : State γ) (id : Nat) (lib : Library γ) : (s.setLib id lib).libs id = lib :=
  Function.update_self _ _ _

theorem setLib_of_ne (s : State γ) (lib : Library γ) (h : id' ≠ id) :
    (s.setLib id lib).libs id' = s.libs id' :=
  Function.update_of_ne h _ _

theorem setLib_setLib (s : State γ) (id : Nat) (lib lib' : Library γ) :
    (s.setLib id lib).setLib id lib' = s.setLib id lib' := by
  rw [State.setLib, State.setLib, Function.update_idem]
  rfl

theorem handle_close (s : State γ) (id : Nat) : ((s.close id).libs id).handle = none := by
  unfold State.close
  dsimp only
  split
  next => rw [setLib_self]
  next => rw [setLib_self]

theorem close_of_ne (s : State γ) (h : id' ≠ id) : (s.close id).libs id' = s.libs id' := by
  unfold State.close
  dsimp only
  split
  next => exact setLib_of_ne _ _ h
  next => exact setLib_of_ne _ _ h

theorem handle_closeOpen (s : State γ) (id : Nat) : ((s.closeOpen id).libs id).handle = none := by
  unfold State.closeOpen
  split
  next => exact handle_close s id
  next h => exact Option.not_isSome_iff_eq_none.1 h

theorem maps_closeOpen (s : State γ) (id : Nat) : (s.closeOpen id).maps = s.maps := by
  unfold State.closeOpen State.close
  dsimp only
  split
  next =>
    split
    next => rfl
    next => rfl
  next => rfl

theorem closeOpen_of_closed (h : (s.libs id).handle = none) : s.closeOpen id = s := by
  rw [State.closeOpen, isOpen, h]
  exact if_neg Bool.false_ne_true

/-! ## Opening -/

/-- `open` for an object that is closed, and an absolute path. -/
theorem open_of_some {content : γ} (hclosed : (s.libs id).handle = none)
    (hpath : isAbsolutePath path = true) (hfile : s.dlopen loads path = some content) :
    s.open host loads id path =
      (s.setLib id ⟨filename path, path, (s.libs id).copy, some content⟩, true) := by
  simp only [State.open, closeOpen_of_closed hclosed, hpath, if_true, hfile]

theorem open_of_none (hclosed : (s.libs id).handle = none) (hpath : isAbsolutePath path = true)
    (hfile : s.dlopen loads path = none) :
    s.open host loads id path = (s.setLib id { s.libs id with handle := none }, false) := by
  simp only [State.open, closeOpen_of_closed hclosed, hpath, if_true, hfile]

/-! ## Copying -/

/-- The content that is at a copy behind `copy_library`, which may have found it there. -/
def State.contentOf (s : State γ) (newer : Bool) (path copy : Bytes) : Option γ :=
  if s.files path = none ∨ path = copy then none
  else if (s.files copy).isSome ∧ newer = false then s.files copy
  else s.files path

/-- What `copy_library` does, if it does not throw. -/
structure Copied (s : State γ) (newer : Bool) (path copy : Bytes) (s' : State γ) : Prop where
  content : s.contentOf newer path copy = s'.files copy
  files : ∀ other, s'.files other = s.files other ∨ other = copy ∧ (s'.files other).isSome
  maps : s'.maps = s.maps
  libs : s'.libs = s.libs

theorem copyFile_cases (s : State γ) (newer : Bool) (path copy : Bytes) :
    (s.copyFile newer path copy = none ∧ s.contentOf newer path copy = none) ∨
      ∃ s', s.copyFile newer path copy = some s' ∧ Copied s newer path copy s' := by
  rw [State.copyFile, State.contentOf]
  cases hfile : s.files path with
  | none => exact .inl ⟨rfl, if_pos (.inl rfl)⟩
  | some content =>
    by_cases heq : path = copy
    · exact .inl ⟨if_pos heq, if_pos (.inr heq)⟩
    · right
      have hcontent : ¬ (s.files path = none ∨ path = copy) := by simp [hfile, heq]
      by_cases hold : (s.files copy).isSome ∧ newer = false
      · refine ⟨s, (if_neg heq).trans (if_pos hold), ?_, fun _ => .inl rfl, rfl, rfl⟩
        rw [State.contentOf, if_neg hcontent, if_pos hold]
      · have hself : (s.setFile copy (some content)).files copy = some content :=
          Function.update_self _ _ _
        refine ⟨_, (if_neg heq).trans (if_neg hold), ?_, fun other => ?_, rfl, rfl⟩
        · rw [State.contentOf, if_neg hcontent, if_neg hold, hself, hfile]
        · by_cases hother : other = copy
          · rw [hother, hself]
            exact .inr ⟨rfl, rfl⟩
          · exact .inl (Function.update_of_ne hother _ _)

theorem copyLibrary_cases (host : Host) (s : State γ) (newer : Bool) (path : Bytes) (n : Nat) :
    (s.copyLibrary host newer path n = none ∧
      s.contentOf newer path (host.copyPath path n) = none) ∨
    ∃ s', s.copyLibrary host newer path n = some (s', host.copyPath path n) ∧
      Copied s newer path (host.copyPath path n) s' := by
  unfold State.copyLibrary
  dsimp only
  obtain ⟨hnone, hcontent⟩ | ⟨t, ht, hcopied⟩ :=
    copyFile_cases s newer path (host.copyPath path n)
  · rw [hnone]
    exact .inl ⟨rfl, hcontent⟩
  · rw [ht]
    exact .inr ⟨_, rfl, hcopied.content, hcopied.files, hcopied.maps, hcopied.libs⟩

/-! ## Opening again -/

/-- What the first call of `mopen` for a file name leaves behind. -/
structure First (s : State γ) (answers : Answers) (id : Nat) (path : Bytes)
    (r : State γ × Bool) : Prop where
  ok : r.2 = (r.1.libs id).isOpen
  handle : (r.1.libs id).handle = s.dlopen answers.loads path
  loaded : r.2 = true → (r.1.libs id).path = path
  held : (r.1.libs id).copy = (s.libs id).copy
  others : ∀ id' ≠ id, r.1.libs id' = s.libs id'
  files : r.1.files = s.files
  maps : r.1.maps = if r.2 then Function.update s.maps (filename path) ⟨path, 1⟩ else s.maps

/-- What a later call leaves behind, with the entry for its file name and the place of its
copy. -/
structure Again (s : State γ) (answers : Answers) (id : Nat) (path : Bytes) (info : OpenInfo)
    (copy : Bytes) (r : State γ × Bool) : Prop where
  ok : r.2 = (r.1.libs id).isOpen
  handle : (r.1.libs id).handle =
    if answers.loads then s.contentOf answers.newer info.path copy else none
  loaded : r.2 = true → (r.1.libs id).path = copy
  held : (r.1.libs id).copy = (s.libs id).copy ∨ (r.1.libs id).copy = copy
  others : ∀ id' ≠ id, r.1.libs id' = s.libs id'
  files : ∀ other, r.1.files other = s.files other ∨ other = copy ∧ (r.1.files other).isSome
  maps : r.1.maps = Function.update s.maps (filename path) ⟨info.path, info.copies + 1⟩

theorem mopen_first (hclosed : (s.libs id).handle = none) (hpath : isAbsolutePath path = true)
    (hcopies : (s.maps (filename path)).copies = 0) :
    First s answers id path (s.mopen host answers id path) := by
  cases hfile : s.dlopen answers.loads path with
  | none =>
    have hr : s.mopen host answers id path =
        (s.setLib id { s.libs id with handle := none }, false) := by
      simp only [State.mopen, closeOpen_of_closed hclosed, hpath, if_true, hcopies,
        open_of_none hclosed hpath hfile]
      rfl
    rw [hr]
    refine ⟨?_, ?_, nofun, ?_, fun id' hne => setLib_of_ne _ _ hne, rfl, rfl⟩
    · rw [setLib_self]
      rfl
    · rw [setLib_self, hfile]
    · rw [setLib_self]
  | some content =>
    have hr : s.mopen host answers id path =
        ((s.setLib id ⟨filename path, path, (s.libs id).copy, some content⟩).setInfo
          (filename path) ⟨path, 1⟩, true) := by
      simp only [State.mopen, closeOpen_of_closed hclosed, hpath, if_true, hcopies,
        open_of_some hclosed hpath hfile, setLib_self]
    have hself := setLib_self s id ⟨filename path, path, (s.libs id).copy, some content⟩
    rw [hr]
    refine ⟨?_, ?_, fun _ => ?_, ?_, fun id' hne => setLib_of_ne _ _ hne, rfl, rfl⟩
    · exact (congrArg isOpen hself).symm
    · exact (congrArg handle hself).trans hfile.symm
    · exact congrArg Library.path hself
    · exact (congrArg Library.copy hself :)

/-- The end of a later call: the object has its copy, which is opened. -/
theorem open_copy (host : Host) (loads : Bool) (name : Bytes) {copy : Bytes}
    (hclosed : (s.libs id).handle = none) (hpath : isAbsolutePath copy = true) :
    let r := (s.setLib id { s.libs id with copy }).open host loads id copy
    let r' := if r.2 then (r.1.setLib id { r.1.libs id with name }, true) else (r.1, false)
    ∃ lib, r'.1 = s.setLib id lib ∧ r'.2 = lib.isOpen ∧ lib.handle = s.dlopen loads copy ∧
      lib.copy = copy ∧ (r'.2 = true → lib.path = copy) := by
  have hheld : ((s.setLib id { s.libs id with copy }).libs id).handle = none := by
    rw [setLib_self]
    exact hclosed
  cases hfile : s.dlopen loads copy with
  | none =>
    rw [open_of_none hheld hpath hfile, setLib_setLib, setLib_self]
    exact ⟨_, rfl, rfl, rfl, rfl, nofun⟩
  | some content =>
    rw [open_of_some hheld hpath hfile, setLib_setLib, setLib_self]
    dsimp only
    rw [if_pos rfl, setLib_self, setLib_setLib]
    exact ⟨_, rfl, rfl, rfl, rfl, fun _ => rfl⟩

theorem mopen_again {info : OpenInfo} (hclosed : (s.libs id).handle = none)
    (hpath : isAbsolutePath path = true) (hinfo : s.maps (filename path) = info)
    (hcopies : info.copies ≠ 0) :
    Again s answers id path info (host.copyPath info.path info.copies)
      (s.mopen host answers id path) := by
  obtain ⟨hcopy, hnone⟩ | ⟨t, hcopy, hcopied⟩ := copyLibrary_cases host
    (s.setInfo (filename path) ⟨info.path, info.copies + 1⟩) answers.newer info.path info.copies
  · have hr : s.mopen host answers id path =
        (s.setInfo (filename path) ⟨info.path, info.copies + 1⟩, false) := by
      simp only [State.mopen, closeOpen_of_closed hclosed, hpath, if_true, hinfo, if_neg hcopies,
        hcopy]
    have hcontent : s.contentOf answers.newer info.path _ = none := hnone
    have hhandle : ((s.setInfo (filename path) ⟨info.path, info.copies + 1⟩).libs id).handle =
      none := hclosed
    rw [hr]
    refine ⟨?_, ?_, nofun, .inl rfl, fun _ _ => rfl, fun _ => .inl rfl, rfl⟩
    · rw [isOpen, hhandle]
      rfl
    · rw [hhandle, hcontent, ite_self]
  · have hheld : (t.libs id).handle = none := by
      rw [hcopied.libs]
      exact hclosed
    have hr : s.mopen host answers id path =
        let r := (t.setLib id { t.libs id with copy := host.copyPath info.path info.copies }).open
          host answers.loads id (host.copyPath info.path info.copies)
        if r.2 then (r.1.setLib id { r.1.libs id with name := filename path }, true)
        else (r.1, false) := by
      simp only [State.mopen, closeOpen_of_closed hclosed, hpath, if_true, hinfo, if_neg hcopies,
        hcopy]
    obtain ⟨lib, hstate, hok, hhandle, hlib, hloaded⟩ := open_copy host answers.loads
      (filename path) hheld (isAbsolutePath_copyPath host info.path info.copies)
    rw [← hr] at hstate hok hloaded
    have hself : (s.mopen host answers id path).1.libs id = lib := by
      rw [hstate, setLib_self]
    refine ⟨?_, ?_, ?_, .inr ?_, fun id' hne => ?_, fun other => ?_, ?_⟩
    · rw [hself, hok]
    · rw [hself, hhandle, State.dlopen, ← hcopied.content]
      rfl
    · rw [hself]
      exact hloaded
    · rw [hself, hlib]
    · rw [hstate, setLib_of_ne _ _ hne, hcopied.libs]
      rfl
    · rw [hstate]
      exact hcopied.files other
    · rw [hstate]
      exact hcopied.maps

/-- A call closes its object first. -/
theorem mopen_closeOpen (host : Host) (s : State γ) (answers : Answers) (id : Nat) (path : Bytes) :
    (s.closeOpen id).mopen host answers id path = s.mopen host answers id path := by
  simp only [State.mopen, closeOpen_of_closed (handle_closeOpen s id)]

/-! ## The places of the copies -/

/-- `mopen` has given out the path as the place of a copy. -/
def Made (host : Host) (s : State γ) (path : Bytes) : Prop :=
  ∃ name n, 0 < n ∧ n < (s.maps name).copies ∧ path = host.copyPath (s.maps name).path n

/-- What the path of a call needs.  For the first call of its file name: it is not the place of a
copy, or there is nothing.  For a later one: it is the path that the table has, and the place of
the copy is its own, as no other file name of the stem has got so far, and what is there, if
there is something, is older and is not a library that has been opened itself. -/
def Separate (host : Host) (s : State γ) : Label → Prop
  | .mopen _ path answers =>
    let name := filename path
    let n := (s.maps name).copies
    let copy := host.copyPath path n
    if n = 0 then s.files path = none ∨ ¬ Made host s path
    else
      (s.maps name).path = path ∧
      (∀ other ≠ name, filenameNoext other = filenameNoext name → (s.maps other).copies ≤ n) ∧
      (s.files copy = none ∨ answers.newer = true ∧ (s.maps (filename copy)).path ≠ copy)
  | .close _ => True

theorem separate_first (hcopies : (s.maps (filename path)).copies = 0)
    (h : s.files path = none ∨ ¬ Made host s path) :
    Separate host s (.mopen id path answers) := by
  unfold Separate
  dsimp only
  rw [if_pos hcopies]
  exact h

theorem separate_again {n : Nat} (hn : (s.maps (filename path)).copies = n) (hcopies : n ≠ 0)
    (hpath : (s.maps (filename path)).path = path)
    (hothers : ∀ other ≠ filename path, filenameNoext other = filenameNoext (filename path) →
      (s.maps other).copies ≤ n)
    (hplace : s.files (host.copyPath path n) = none ∨ answers.newer = true ∧
      (s.maps (filename (host.copyPath path n))).path ≠ host.copyPath path n) :
    Separate host s (.mopen id path answers) := by
  subst hn
  unfold Separate
  dsimp only
  rw [if_neg hcopies]
  exact ⟨hpath, hothers, hplace⟩

/-- Objects that are open have different paths. -/
def Distinct (s : State γ) : Prop :=
  ∀ id id', id ≠ id' → (s.libs id).isOpen → (s.libs id').isOpen →
    (s.libs id).path ≠ (s.libs id').path

/-- The object has the content that was at the path before the call. -/
def Loads (s s' : State γ) (id : Nat) (path : Bytes) : Prop :=
  ∃ content, s.files path = some content ∧ (s'.libs id).handle = some content

/-- The path is in the table. -/
def Listed (s : State γ) (path : Bytes) : Prop :=
  (s.maps (filename path)).copies ≠ 0 ∧ (s.maps (filename path)).path = path

/-- What separate calls keep.  The paths in the table are those of libraries and not of copies,
an object has its copy from a place that has been given out, and its path from the table or from
such a place. -/
structure Kept (host : Host) (s : State γ) : Prop where
  name : ∀ name, (s.maps name).copies ≠ 0 → filename (s.maps name).path = name
  file : ∀ path, Listed s path → s.files path ≠ none
  source : ∀ path, Listed s path → ¬ Made host s path
  copy : ∀ id, (s.libs id).copy = [] ∨ Made host s (s.libs id).copy
  path : ∀ id, (s.libs id).isOpen → Listed s (s.libs id).path ∨ Made host s (s.libs id).path
  distinct : Distinct s

theorem Kept.new (host : Host) (files : Bytes → Option γ) : Kept host (State.new files) where
  name := fun _ hcopies => absurd rfl hcopies
  file := fun _ hlisted => absurd rfl hlisted.1
  source := fun _ hlisted => absurd rfl hlisted.1
  copy := fun _ => .inl rfl
  path := nofun
  distinct := nofun

theorem Kept.listed (h : Kept host s) {name : Bytes} (hcopies : (s.maps name).copies ≠ 0) :
    Listed s (s.maps name).path := by
  rw [Listed, h.name name hcopies]
  exact ⟨hcopies, rfl⟩

theorem made_congr (hmaps : s'.maps = s.maps) : Made host s' path ↔ Made host s path := by
  unfold Made
  rw [hmaps]

theorem listed_congr (hmaps : s'.maps = s.maps) : Listed s' path ↔ Listed s path := by
  unfold Listed
  rw [hmaps]

/-- An object that has been opened is apart from the others if they have other paths. -/
theorem Distinct.of_open (h : Distinct s) (hothers : ∀ id' ≠ id, s'.libs id' = s.libs id')
    (hunused : (s'.libs id).isOpen → ∀ id' ≠ id, (s.libs id').isOpen →
      (s.libs id').path ≠ (s'.libs id).path) : Distinct s' := by
  intro i j hij hi hj
  by_cases hid : i = id
  · subst hid
    rw [hothers j hij.symm] at hj ⊢
    exact (hunused hi j hij.symm hj).symm
  · by_cases hjd : j = id
    · subst hjd
      rw [hothers i hid] at hi ⊢
      exact hunused hj i hid hi
    · rw [hothers i hid] at hi ⊢
      rw [hothers j hjd] at hj ⊢
      exact h i j hij hi hj

/-- What is enough for a call that keeps the table.  Files go only from places. -/
theorem Kept.of_maps (h : Kept host s) (hmaps : s'.maps = s.maps)
    (hfiles : ∀ path, s'.files path = s.files path ∨ Made host s path)
    (hcopy : (s'.libs id).copy = [] ∨ (s'.libs id).copy = (s.libs id).copy)
    (hclosed : (s'.libs id).handle = none) (hothers : ∀ id' ≠ id, s'.libs id' = s.libs id') :
    Kept host s' where
  name := by
    rw [hmaps]
    exact h.name
  file := by
    intro path hlisted
    rw [listed_congr hmaps] at hlisted
    rw [(hfiles path).resolve_right (h.source path hlisted)]
    exact h.file path hlisted
  source := by
    intro path hlisted
    rw [listed_congr hmaps] at hlisted
    rw [made_congr hmaps]
    exact h.source path hlisted
  copy := by
    intro id'
    rw [made_congr hmaps]
    by_cases hid : id' = id
    · subst hid
      rcases hcopy with hnil | hsame
      · exact .inl hnil
      · rw [hsame]
        exact h.copy id'
    · rw [hothers id' hid]
      exact h.copy id'
  path := by
    intro id' hopen
    have hid : id' ≠ id := by
      rintro rfl
      rw [isOpen, hclosed] at hopen
      cases hopen
    rw [made_congr hmaps, listed_congr hmaps]
    rw [hothers id' hid] at hopen ⊢
    exact h.path id' hopen
  distinct := by
    refine h.distinct.of_open hothers fun hopen => ?_
    rw [isOpen, hclosed] at hopen
    cases hopen

/-! ## Closing keeps the places -/

theorem maps_close (s : State γ) (id : Nat) : (s.close id).maps = s.maps := by
  unfold State.close
  dsimp only
  split
  next => rfl
  next => rfl

/-- Closing an object removes its copy and nothing else. -/
theorem files_close (s : State γ) (id : Nat) (path : Bytes) :
    (s.close id).files path = s.files path ∨
      (s.libs id).copy ≠ [] ∧ path = (s.libs id).copy ∧ (s.close id).files path = none := by
  unfold State.close
  dsimp only
  split
  next hcopy =>
    by_cases heq : path = (s.libs id).copy
    · refine .inr ⟨hcopy.1, heq, ?_⟩
      rw [heq]
      exact Function.update_self _ _ _
    · exact .inl (Function.update_of_ne heq _ _)
  next => exact .inl rfl

theorem copy_close (s : State γ) (id : Nat) :
    ((s.close id).libs id).copy = [] ∨ ((s.close id).libs id).copy = (s.libs id).copy := by
  unfold State.close
  dsimp only
  split
  next => exact .inl (congrArg Library.copy (setLib_self _ _ _))
  next => exact .inr (congrArg Library.copy (setLib_self _ _ _) :)

theorem Kept.close (h : Kept host s) (id : Nat) : Kept host (s.close id) := by
  refine h.of_maps (maps_close s id) (fun path => ?_) (copy_close s id) (handle_close s id)
    fun _ hne => close_of_ne s hne
  refine (files_close s id path).imp_right fun ⟨hne, hpath, _⟩ => ?_
  rw [hpath]
  exact (h.copy id).resolve_left hne

theorem Kept.closeOpen (h : Kept host s) (id : Nat) : Kept host (s.closeOpen id) := by
  unfold State.closeOpen
  split
  next => exact h.close id
  next => exact h

theorem files_closeOpen (s : State γ) (id : Nat) (path : Bytes) :
    (s.closeOpen id).files path = s.files path ∨ (s.closeOpen id).files path = none := by
  unfold State.closeOpen
  split
  next => exact (files_close s id path).imp_right fun h => h.2.2
  next => exact .inl rfl

/-- A file that is there after the object has been closed has been there before. -/
theorem files_of_closeOpen {content : γ} (h : (s.closeOpen id).files path = some content) :
    s.files path = some content := by
  rcases files_closeOpen s id path with hsame | hnone
  · rw [← hsame, h]
  · rw [hnone] at h
    cases h

theorem files_closeOpen_eq_none (h : s.files path = none) : (s.closeOpen id).files path = none :=
  (files_closeOpen s id path).elim (fun hsame => hsame.trans h) (fun hnone => hnone)

/-- Closing the object first does not make a call less separate. -/
theorem Separate.closeOpen (h : Separate host s (.mopen id path answers)) :
    Separate host (s.closeOpen id) (.mopen id path answers) := by
  have hmaps := maps_closeOpen s id
  unfold Separate at h
  dsimp only at h
  rw [← hmaps] at h
  split at h
  next hcopies =>
    refine separate_first hcopies ?_
    rw [made_congr hmaps]
    exact h.imp_left files_closeOpen_eq_none
  next hcopies =>
    exact separate_again rfl hcopies h.1 h.2.1 (h.2.2.imp_left files_closeOpen_eq_none)

/-! ## Opening keeps the places -/

/-- The first call for a file name.  No open object has its path. -/
theorem Kept.first {r : State γ × Bool} (h : Kept host s) (hr : First s answers id path r)
    (hcopies : (s.maps (filename path)).copies = 0)
    (hseparate : s.files path = none ∨ ¬ Made host s path) : Kept host r.1 := by
  cases hok : r.2 with
  | false =>
    have hmaps := hr.maps
    rw [hok, if_neg Bool.false_ne_true] at hmaps
    have hclosed : (r.1.libs id).handle = none := by
      rw [hr.ok, isOpen] at hok
      exact Option.not_isSome_iff_eq_none.1 (by rw [hok]; decide)
    exact h.of_maps hmaps (fun path => .inl (by rw [hr.files])) (.inr hr.held) hclosed hr.others
  | true =>
    have hmaps := hr.maps
    rw [hok, if_pos rfl] at hmaps
    have hfile : s.files path ≠ none := by
      intro hnone
      have hhandle := hr.handle
      rw [State.dlopen, hnone, ite_self] at hhandle
      rw [hr.ok, isOpen, hhandle] at hok
      cases hok
    have hplace := hseparate.resolve_left hfile
    -- the new entry has no copy yet, and the old one had none
    have hmade : ∀ {other}, Made host r.1 other ↔ Made host s other := by
      intro other
      unfold Made
      rw [hmaps]
      refine exists_congr fun name => exists_congr fun n => ?_
      by_cases hname : name = filename path
      · subst hname
        rw [Function.update_self, hcopies]
        exact iff_of_false (fun ⟨hpos, hlt, _⟩ => absurd hlt (Nat.not_lt.2 hpos))
          fun ⟨_, hlt, _⟩ => Nat.not_lt_zero n hlt
      · rw [Function.update_of_ne hname]
    have hlisted : ∀ {other}, Listed r.1 other ↔ Listed s other ∨ other = path := by
      intro other
      unfold Listed
      rw [hmaps]
      by_cases hname : filename other = filename path
      · rw [hname, Function.update_self, hcopies]
        constructor
        · exact fun ⟨_, hpath⟩ => .inr hpath.symm
        · rintro (⟨hne, _⟩ | hpath)
          · exact absurd rfl hne
          · exact ⟨Nat.one_ne_zero, hpath.symm⟩
      · rw [Function.update_of_ne hname]
        exact (or_iff_left fun heq => hname (congrArg filename heq)).symm
    refine ⟨?_, ?_, ?_, ?_, ?_, h.distinct.of_open hr.others fun hopen id' hne hopen' => ?_⟩
    · intro name
      rw [hmaps]
      by_cases hname : name = filename path
      · subst hname
        rw [Function.update_self]
        exact fun _ => rfl
      · rw [Function.update_of_ne hname]
        exact h.name name
    · intro other hother
      rw [hr.files]
      rcases hlisted.1 hother with hold | rfl
      · exact h.file other hold
      · exact hfile
    · intro other hother
      rw [hmade]
      rcases hlisted.1 hother with hold | rfl
      · exact h.source other hold
      · exact hplace
    · intro id'
      rw [hmade]
      by_cases hid : id' = id
      · subst hid
        rw [hr.held]
        exact h.copy id'
      · rw [hr.others id' hid]
        exact h.copy id'
    · intro id' hopen
      rw [hmade, hlisted]
      by_cases hid : id' = id
      · subst hid
        exact .inl (.inr (hr.loaded hok))
      · rw [hr.others id' hid] at hopen ⊢
        exact (h.path id' hopen).imp_left .inl
    · rw [hr.loaded hok]
      intro hpath
      rcases h.path id' hopen' with hold | hold
      · rw [hpath] at hold
        exact hold.1 hcopies
      · rw [hpath] at hold
        exact hplace hold

/-- The counter gives out a place that is new. -/
theorem Kept.not_made (h : Kept host s)
    (hothers : ∀ other ≠ filename path, filenameNoext other = filenameNoext (filename path) →
      (s.maps other).copies ≤ (s.maps (filename path)).copies) :
    ¬ Made host s (host.copyPath path (s.maps (filename path)).copies) := by
  rintro ⟨name, n, hpos, hlt, hplace⟩
  obtain ⟨hstem, rfl⟩ := copyPath_inj hplace
  by_cases hname : name = filename path
  · subst hname
    exact Nat.lt_irrefl _ hlt
  · have hfile := h.name name (by omega)
    have hle := hothers name hname
      (by rw [filenameNoext_filename, hstem, ← filenameNoext_filename (s.maps name).path, hfile])
    omega

/-- Nor is it a library that has been opened itself. -/
theorem Kept.not_listed (h : Kept host s) {copy : Bytes}
    (hplace : s.files copy = none ∨
      answers.newer = true ∧ (s.maps (filename copy)).path ≠ copy) : ¬ Listed s copy := by
  intro hlisted
  rcases hplace with hnone | ⟨-, hne⟩
  · exact h.file copy hlisted hnone
  · exact hne hlisted.2

/-- A later call, whose copy has a place of its own. -/
theorem Kept.again {r : State γ × Bool} {copy : Bytes} {info : OpenInfo} (h : Kept host s)
    (hinfo : s.maps (filename path) = info) (hcopies : info.copies ≠ 0)
    (hcopy : copy = host.copyPath info.path info.copies)
    (hr : Again s answers id path info copy r) (hmade : ¬ Made host s copy)
    (hlisted : ¬ Listed s copy) : Kept host r.1 := by
  have hmaps : ∀ name, (r.1.maps name).path = (s.maps name).path ∧
      ((r.1.maps name).copies ≠ 0 ↔ (s.maps name).copies ≠ 0) := by
    intro name
    rw [hr.maps]
    by_cases hname : name = filename path
    · subst hname
      rw [Function.update_self, hinfo]
      exact ⟨rfl, iff_of_true (Nat.succ_ne_zero _) hcopies⟩
    · rw [Function.update_of_ne hname]
      exact ⟨rfl, Iff.rfl⟩
  have hlisted' : ∀ {other}, Listed r.1 other ↔ Listed s other := by
    intro other
    rw [Listed, Listed, (hmaps _).1, (hmaps _).2]
  -- the place is the one that the call has given out
  have hmade' : ∀ {other}, Made host r.1 other ↔ Made host s other ∨ other = copy := by
    intro other
    constructor
    · rintro ⟨name, n, hpos, hlt, hplace⟩
      rw [(hmaps name).1] at hplace
      rw [hr.maps] at hlt
      by_cases hname : name = filename path
      · subst hname
        rw [Function.update_self] at hlt
        rcases Nat.lt_succ_iff_lt_or_eq.1 hlt with hlt | rfl
        · exact .inl ⟨_, n, hpos, by rw [hinfo]; exact hlt, hplace⟩
        · rw [hinfo] at hplace
          exact .inr (hplace.trans hcopy.symm)
      · rw [Function.update_of_ne hname] at hlt
        exact .inl ⟨name, n, hpos, hlt, hplace⟩
    · rintro (⟨name, n, hpos, hlt, hplace⟩ | rfl)
      · refine ⟨name, n, hpos, ?_, by rw [(hmaps name).1]; exact hplace⟩
        rw [hr.maps]
        by_cases hname : name = filename path
        · subst hname
          rw [hinfo] at hlt
          rw [Function.update_self]
          exact Nat.lt_succ_of_lt hlt
        · rwa [Function.update_of_ne hname]
      · refine ⟨filename path, info.copies, Nat.pos_of_ne_zero hcopies, ?_, ?_⟩
        · rw [hr.maps, Function.update_self]
          exact Nat.lt_succ_self _
        · rw [(hmaps _).1, hinfo, hcopy]
  refine ⟨?_, ?_, ?_, ?_, ?_, h.distinct.of_open hr.others fun hopen id' hne hopen' => ?_⟩
  · intro name
    rw [(hmaps name).1, (hmaps name).2]
    exact h.name name
  · intro other hother
    rcases hr.files other with hsame | ⟨-, hsome⟩
    · rw [hsame]
      exact h.file other (hlisted'.1 hother)
    · exact Option.isSome_iff_ne_none.1 hsome
  · intro other hother
    rw [hlisted'] at hother
    rw [hmade', not_or]
    exact ⟨h.source other hother, fun heq => hlisted (heq ▸ hother)⟩
  · intro id'
    rw [hmade']
    by_cases hid : id' = id
    · subst hid
      rcases hr.held with hsame | hheld
      · rw [hsame]
        exact (h.copy id').imp_right .inl
      · exact .inr (.inr hheld)
    · rw [hr.others id' hid]
      exact (h.copy id').imp_right .inl
  · intro id' hopen
    rw [hmade', hlisted']
    by_cases hid : id' = id
    · subst hid
      exact .inr (.inr (hr.loaded (hr.ok.trans hopen)))
    · rw [hr.others id' hid] at hopen ⊢
      exact (h.path id' hopen).imp_right .inl
  · rw [hr.loaded (hr.ok.trans hopen)]
    intro hpath
    rcases h.path id' hopen' with hold | hold
    · exact hlisted (hpath ▸ hold)
    · exact hmade (hpath ▸ hold)

/-! ## Results -/

/-- What is in the place of the copy is not taken for the copy. -/
theorem contentOf_of_separate {copy : Bytes} {content : γ}
    (hplace : s.files copy = none ∨
      answers.newer = true ∧ (s.maps (filename copy)).path ≠ copy)
    (h : s.contentOf answers.newer path copy = some content) : s.files path = some content := by
  unfold State.contentOf at h
  split at h
  next => cases h
  next =>
    split at h
    next hold =>
      rcases hplace with hnone | ⟨hnewer, -⟩
      · rw [hnone] at hold
        cases hold.1
      · rw [hnewer] at hold
        cases hold.2
    next => exact h

/-- A separate call on a closed object. -/
theorem Kept.mopen_closed (h : Kept host s) (hclosed : (s.libs id).handle = none)
    (hpath : isAbsolutePath path = true)
    (hseparate : Separate host s (.mopen id path answers)) :
    Kept host (s.mopen host answers id path).1 ∧
      ((s.mopen host answers id path).2 = true →
        Loads s (s.mopen host answers id path).1 id path) := by
  unfold Separate at hseparate
  dsimp only at hseparate
  split at hseparate
  next hcopies =>
    have hr : First s answers id path (s.mopen host answers id path) :=
      mopen_first hclosed hpath hcopies
    refine ⟨h.first hr hcopies hseparate, fun hok => ?_⟩
    obtain ⟨content, hcontent⟩ := Option.isSome_iff_exists.1 (hr.ok.symm.trans hok)
    refine ⟨content, ?_, hcontent⟩
    rw [hr.handle, State.dlopen] at hcontent
    exact (Option.ite_none_right_eq_some.1 hcontent).2
  next hcopies =>
    obtain ⟨hinfo, hothers, hplace⟩ := hseparate
    have hcopy : host.copyPath (s.maps (filename path)).path (s.maps (filename path)).copies =
        host.copyPath path (s.maps (filename path)).copies := by rw [hinfo]
    have hr : Again s answers id path (s.maps (filename path)) _ (s.mopen host answers id path) :=
      mopen_again hclosed hpath rfl hcopies
    rw [hcopy] at hr
    refine ⟨h.again rfl hcopies hcopy.symm hr (h.not_made hothers) (h.not_listed hplace),
      fun hok => ?_⟩
    obtain ⟨content, hcontent⟩ := Option.isSome_iff_exists.1 (hr.ok.symm.trans hok)
    refine ⟨content, ?_, hcontent⟩
    rw [hr.handle, hinfo] at hcontent
    exact contentOf_of_separate hplace (Option.ite_none_right_eq_some.1 hcontent).2

theorem Kept.mopen (h : Kept host s) (hpath : isAbsolutePath path = true)
    (hseparate : Separate host s (.mopen id path answers)) :
    Kept host (s.mopen host answers id path).1 ∧
      ((s.mopen host answers id path).2 = true →
        Loads s (s.mopen host answers id path).1 id path) := by
  obtain ⟨hkept, hloads⟩ := (h.closeOpen id).mopen_closed (handle_closeOpen s id) hpath
    hseparate.closeOpen
  rw [mopen_closeOpen] at hkept hloads
  refine ⟨hkept, fun hok => ?_⟩
  obtain ⟨content, hfile, hhandle⟩ := hloads hok
  exact ⟨content, files_of_closeOpen hfile, hhandle⟩

theorem Kept.step (h : Kept host s) {e : Label} (hseparate : Separate host s e)
    (hstep : step host s e = some s') : Kept host s' := by
  cases e with
  | close id =>
    cases hstep
    exact h.close id
  | mopen id path answers =>
    rw [Library.step, Option.ite_none_right_eq_some] at hstep
    obtain ⟨hpath, hs'⟩ := hstep
    cases hs'
    exact (h.mopen hpath hseparate).1

/-- In a run of separate calls, the objects that are open have different paths, and every separate
call of `mopen` that returns loads the content at its path. -/
theorem mopen_of_reachable (host : Host) (files : Bytes → Option γ) (s : State γ)
    (hreach : ((system host files).restrict (Separate host)).Reachable s) :
    Distinct s ∧ ∀ id path answers, isAbsolutePath path = true →
      Separate host s (.mopen id path answers) → (s.mopen host answers id path).2 = true →
      Loads s (s.mopen host answers id path).1 id path := by
  have hkept : Kept host s := by
    refine System.Reachable.invariant ?_ (fun _ _ _ _ hs hstep => hs.step hstep.1 hstep.2) hreach
    rintro s rfl
    exact .new host files
  exact ⟨hkept.distinct, fun _ _ _ hpath hseparate => (hkept.mopen hpath hseparate).2⟩

/-- Copies are in `/tmp`. -/
def sampleHost : Host := ⟨str "/tmp", by decide, fun name => str "/lib/" ++ name⟩

/-- Two libraries of one file name, and a third one of the same stem. -/
def sampleFiles (path : Bytes) : Option Nat :=
  if path = str "/a/lib.so" then some 1
  else if path = str "/b/lib.so" then some 2
  else if path = str "/b/lib.dylib" then some 3
  else none

/-- A place is below `temp_dir()`. -/
theorem Made.prefix (h : Made host s path) : host.tempDir <+: path := by
  obtain ⟨name, n, -, -, rfl⟩ := h
  unfold Host.copyPath
  simp only [List.append_assoc]
  exact List.prefix_append _ _

/-- Behind a call for the first library. -/
def sampleOnce : State Nat :=
  ((State.new sampleFiles).mopen sampleHost ⟨false, true⟩ 0 (str "/a/lib.so")).1

/-- It has been opened again, and closed. -/
def sampleTwice : State Nat :=
  (sampleOnce.mopen sampleHost ⟨false, true⟩ 1 (str "/a/lib.so")).1.close 1

/-- The library of the same stem has been opened. -/
def sampleState : State Nat :=
  (sampleTwice.mopen sampleHost ⟨false, true⟩ 2 (str "/b/lib.dylib")).1

/-- Two objects with libraries of one stem, and a third copy of the first library. -/
theorem mopen_of_reachable_sample : Distinct sampleState ∧
    Loads sampleState (sampleState.mopen sampleHost ⟨false, true⟩ 1 (str "/a/lib.so")).1 1
      (str "/a/lib.so") := by
  have hplace : ∀ {s : State Nat} {path}, ¬ sampleHost.tempDir <+: path →
      ¬ Made sampleHost s path := fun hnot hmade => hnot hmade.prefix
  have hmaps : sampleOnce.maps =
      Function.update (fun _ => ⟨[], 0⟩) (str "lib.so") ⟨str "/a/lib.so", 1⟩ :=
    (mopen_first rfl (by decide) rfl).maps.trans (if_pos (by decide +kernel))
  have hagain : Again sampleOnce ⟨false, true⟩ 1 (str "/a/lib.so") ⟨str "/a/lib.so", 1⟩
      (sampleHost.copyPath (str "/a/lib.so") 1)
      (sampleOnce.mopen sampleHost ⟨false, true⟩ 1 (str "/a/lib.so")) :=
    mopen_again (by decide +kernel) (by decide) (by decide +kernel) (by decide)
  have hmaps' : sampleTwice.maps =
      Function.update sampleOnce.maps (str "lib.so") ⟨str "/a/lib.so", 2⟩ :=
    (maps_close _ 1).trans hagain.maps
  have hmaps'' : sampleState.maps =
      Function.update sampleTwice.maps (str "lib.dylib") ⟨str "/b/lib.dylib", 1⟩ :=
    (mopen_first (by decide +kernel) (by decide) (by decide +kernel)).maps.trans
      (if_pos (by decide +kernel))
  have hseparate : Separate sampleHost (State.new sampleFiles)
      (.mopen 0 (str "/a/lib.so") ⟨false, true⟩) := separate_first rfl (.inr (hplace (by decide)))
  have hseparate₁ : Separate sampleHost sampleOnce
      (.mopen 1 (str "/a/lib.so") ⟨false, true⟩) := by
    refine separate_again (n := 1) (by decide +kernel) (by decide) (by decide +kernel) ?_
      (.inl (by decide +kernel))
    intro other hne _
    have hne : other ≠ str "lib.so" := hne
    rw [hmaps, Function.update_of_ne hne]
    exact Nat.zero_le _
  have hseparate₂ : Separate sampleHost sampleTwice
      (.mopen 2 (str "/b/lib.dylib") ⟨false, true⟩) :=
    separate_first (by decide +kernel) (.inr (hplace (by decide)))
  have hseparate₃ : Separate sampleHost sampleState
      (.mopen 1 (str "/a/lib.so") ⟨false, true⟩) := by
    refine separate_again (n := 2) (by decide +kernel) (by decide) (by decide +kernel) ?_
      (.inl (by decide +kernel))
    intro other hne _
    have hne : other ≠ str "lib.so" := hne
    rw [hmaps'']
    by_cases hother : other = str "lib.dylib"
    · rw [hother, Function.update_self]
      exact Nat.le_succ 1
    · rw [Function.update_of_ne hother, hmaps', Function.update_of_ne hne, hmaps,
        Function.update_of_ne hne]
      exact Nat.zero_le _
  obtain ⟨hdistinct, hloads⟩ := mopen_of_reachable sampleHost sampleFiles sampleState
    (.step (e := .mopen 2 _ _) (.step (e := .close 1) (.step (e := .mopen 1 _ _)
      (.step (e := .mopen 0 _ _) (.init rfl) ⟨hseparate, rfl⟩) ⟨hseparate₁, rfl⟩)
      ⟨trivial, rfl⟩) ⟨hseparate₂, rfl⟩)
  exact ⟨hdistinct, hloads 1 _ _ (by decide) hseparate₃ (by decide +kernel)⟩

/-- A call for the second library loads the first one, and two objects have the copy of one
stem. -/
theorem mopen_mistaken :
    (∃ s, (system sampleHost sampleFiles).Reachable s ∧
      (s.mopen sampleHost ⟨false, true⟩ 1 (str "/b/lib.so")).2 = true ∧
      ¬ Loads s (s.mopen sampleHost ⟨false, true⟩ 1 (str "/b/lib.so")).1 1 (str "/b/lib.so")) ∧
    ∃ s, (system sampleHost sampleFiles).Reachable s ∧ ¬ Distinct s := by
  constructor
  · have hrun : ∃ s, (system sampleHost sampleFiles).Reachable s ∧
        (s.mopen sampleHost ⟨false, true⟩ 1 (str "/b/lib.so")).2 = true ∧
          s.files (str "/b/lib.so") = some 2 ∧
          ((s.mopen sampleHost ⟨false, true⟩ 1 (str "/b/lib.so")).1.libs 1).handle = some 1 :=
      System.exists_reachable_of_run [.mopen 0 (str "/a/lib.so") ⟨false, true⟩] (by decide +kernel)
    obtain ⟨s, hreach, hok, hfile, hhandle⟩ := hrun
    refine ⟨s, hreach, hok, ?_⟩
    rintro ⟨content, hcontent, hloaded⟩
    rw [hfile] at hcontent
    rw [hhandle, ← hcontent] at hloaded
    cases hloaded
  · have hrun : ∃ s, (system sampleHost sampleFiles).Reachable s ∧
        (s.libs 1).isOpen ∧ (s.libs 3).isOpen ∧ (s.libs 1).path = (s.libs 3).path :=
      System.exists_reachable_of_run [.mopen 0 (str "/a/lib.so") ⟨false, true⟩,
        .mopen 1 (str "/a/lib.so") ⟨false, true⟩, .mopen 2 (str "/b/lib.dylib") ⟨false, true⟩,
        .mopen 3 (str "/b/lib.dylib") ⟨false, true⟩] (by decide +kernel)
    obtain ⟨s, hreach, hopen, hopen', hpath⟩ := hrun
    exact ⟨s, hreach, fun h => h 1 3 (by decide) hopen hopen' hpath⟩

end Mwr.Library
