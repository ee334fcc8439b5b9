import Mwr.Fdt.Encoding

/-!
# The value of a property

A blob does not say whether the value of a property is a list of numbers or a
list of strings, so the reader guesses.  `decodeProp` is its guess as a function
of the name of the property and the bytes of the value, without the pointer that
moves and is put back.

* `parseWords` and `parseStrings` undo the encodings of the two kinds of values,
  and each fails on bytes that are no such encoding.
* `decodeProp_eq_some` says that the guess never changes the bytes: whatever
  property the reader makes of them, the writer writes the same bytes for it.
-/

namespace Mwr.Fdt

open Mwr.CodeLib
open Mwr.CodeLib.Bytes

variable {host : Host}

/-! ## Words -/

/-- The word with these four bytes, as `read` puts them together. -/
def ofWord (host : Host) (a b c d : UInt8) : UInt32 :=
  match host with
  | .littleEndian => ofBigEndian a b c d
  | .bigEndian => ofBigEndian d c b a

theorem word_ofWord (host : Host) (a b c d : UInt8) :
    word host (ofWord host a b c d) = [a, b, c, d] := by
  cases host with
  | littleEndian => exact bigEndian_ofBigEndian a b c d
  | bigEndian =>
    rw [word, ofWord, bigEndian_ofBigEndian]
    rfl

theorem exists_word (host : Host) (x : UInt32) :
    ∃ a b c d, word host x = [a, b, c, d] ∧ ofWord host a b c d = x := by
  cases host with
  | littleEndian => exact ⟨_, _, _, _, rfl, ofBigEndian_bigEndian x⟩
  | bigEndian => exact ⟨_, _, _, _, rfl, ofBigEndian_bigEndian x⟩

/-- The words in a value, if its length allows it. -/
def parseWords (host : Host) : Bytes → Option (List UInt32)
  | [] => some []
  | a :: b :: c :: d :: bs => (parseWords host bs).map (ofWord host a b c d :: ·)
  | _ => none

/-- The loop of `read_str_data` on the bytes of a value. -/
def parseLoop : Bytes → List Bytes → Bytes → Option (List Bytes × Bytes)
  | [], result, s => some (result, s)
  | ch :: bs, result, s =>
    if ch = 0 then parseLoop bs (result ++ [s]) []
    else if isprint ch then parseLoop bs result (s ++ [ch])
    else none

/-- The strings in a value, if it consists of terminated printable strings. -/
def parseStrings (bs : Bytes) : Option (List Bytes) :=
  match parseLoop bs [] [] with
  | some (result, []) => some result
  | _ => none

/-- The property that `traverse` makes of a name and the bytes of a value. -/
def decodeProp (host : Host) (name bs : Bytes) : Option FdtProp :=
  let numbers := (parseWords host bs).map (FdtProp.ofNumbers name)
  let strings := (parseStrings bs).map (FdtProp.ofStrings name)
  (if isIntProperty name then numbers else none).or (strings.or numbers)

theorem parseWords_isSome (host : Host) (bs : Bytes) :
    (parseWords host bs).isSome ↔ bs.length % 4 = 0 := by
  fun_induction parseWords host bs with
  | case1 => simp
  | case2 a b c d bs ih =>
    rw [Option.isSome_map, ih]
    simp only [List.length_cons]
    omega
  | case3 bs hnil hcons =>
    rcases bs with _ | ⟨a, _ | ⟨b, _ | ⟨c, _ | ⟨d, bs⟩⟩⟩⟩
    · exact absurd rfl hnil
    · simp
    · simp
    · simp
    · exact absurd rfl (hcons a b c d bs)

theorem flatMap_parseWords {bs : Bytes} {xs : List UInt32} (h : parseWords host bs = some xs) :
    xs.flatMap (word host) = bs := by
  induction xs generalizing bs with
  | nil =>
    unfold parseWords at h
    split at h
    next => rfl
    next => simp at h
    next => cases h
  | cons x xs ih =>
    unfold parseWords at h
    split at h
    next => cases h
    next a b c d bs =>
      rw [Option.map_eq_some_iff] at h
      obtain ⟨xs', hxs, heq⟩ := h
      cases heq
      rw [List.flatMap_cons, word_ofWord, ih hxs]
      rfl
    next => cases h

theorem parseWords_flatMap (host : Host) (xs : List UInt32) :
    parseWords host (xs.flatMap (word host)) = some xs := by
  induction xs with
  | nil => rfl
  | cons x xs ih =>
    obtain ⟨a, b, c, d, hword, hx⟩ := exists_word host x
    rw [List.flatMap_cons, hword]
    show (parseWords host (xs.flatMap (word host))).map (ofWord host a b c d :: ·) = _
    rw [ih, hx]
    rfl

theorem parseLoop_append {bs : Bytes} (hbs : ∀ ch ∈ bs, isprint ch) (rest : Bytes)
    (result : List Bytes) (s : Bytes) :
    parseLoop (bs ++ rest) result s = parseLoop rest result (s ++ bs) := by
  induction bs generalizing s with
  | nil => rw [List.nil_append, List.append_nil]
  | cons ch bs ih =>
    have hch := hbs ch List.mem_cons_self
    have hne : ch ≠ 0 := by
      rintro rfl
      cases hch
    rw [List.cons_append, parseLoop, if_neg hne, if_pos hch,
      ih fun c hc => hbs c (List.mem_cons_of_mem ch hc), List.append_assoc]
    rfl

theorem parseLoop_flatMap {strs : List Bytes} (hstrs : ∀ s ∈ strs, ∀ ch ∈ s, isprint ch)
    (result : List Bytes) :
    parseLoop (strs.flatMap cstr) result [] = some (result ++ strs, []) := by
  induction strs generalizing result with
  | nil => rw [List.append_nil]; rfl
  | cons s strs ih =>
    rw [List.flatMap_cons, cstr, List.append_assoc, parseLoop_append (hstrs s List.mem_cons_self)]
    show parseLoop (strs.flatMap cstr) (result ++ [s]) [] = _
    rw [ih (fun s' hs' => hstrs s' (List.mem_cons_of_mem s hs')), List.append_assoc]
    rfl

theorem parseStrings_flatMap {strs : List Bytes} (hstrs : ∀ s ∈ strs, ∀ ch ∈ s, isprint ch) :
    parseStrings (strs.flatMap cstr) = some strs := by
  rw [parseStrings, parseLoop_flatMap hstrs, List.nil_append]

theorem flatMap_parseLoop {bs s s' : Bytes} {result result' : List Bytes}
    (h : parseLoop bs result s = some (result', s')) :
    result'.flatMap cstr ++ s' = result.flatMap cstr ++ (s ++ bs) := by
  induction bs generalizing result s with
  | nil =>
    cases h
    rw [List.append_nil]
  | cons ch bs ih =>
    unfold parseLoop at h
    split at h
    next hch =>
      rw [ih h, List.flatMap_append, hch]
      simp [cstr]
    next hch =>
      split at h
      next =>
        rw [ih h, List.append_assoc s]
        rfl
      next => cases h

theorem flatMap_parseStrings {bs : Bytes} {strs : List Bytes} (h : parseStrings bs = some strs) :
    strs.flatMap cstr = bs := by
  unfold parseStrings at h
  split at h
  next result hloop =>
    cases h
    have hflat := flatMap_parseLoop hloop
    simpa using hflat
  next => cases h

theorem printable_parseLoop {bs s s' : Bytes} {result result' : List Bytes}
    (hs : ∀ ch ∈ s, isprint ch) (hresult : ∀ r ∈ result, ∀ ch ∈ r, isprint ch)
    (h : parseLoop bs result s = some (result', s')) : ∀ r ∈ result', ∀ ch ∈ r, isprint ch := by
  induction bs generalizing result s with
  | nil =>
    cases h
    exact hresult
  | cons ch bs ih =>
    unfold parseLoop at h
    split at h
    next =>
      refine ih (fun _ h => absurd h List.not_mem_nil) (fun r hr => ?_) h
      rcases List.mem_append.1 hr with hr | hr
      · exact hresult r hr
      · rw [List.mem_singleton.1 hr]
        exact hs
    next =>
      split at h
      next hch =>
        refine ih (fun c hc => ?_) hresult h
        rcases List.mem_append.1 hc with hc | hc
        · exact hs c hc
        · rw [List.mem_singleton.1 hc]
          exact hch
      next => cases h

theorem printable_parseStrings {bs : Bytes} {strs : List Bytes} (h : parseStrings bs = some strs) :
    ∀ s ∈ strs, ∀ ch ∈ s, isprint ch := by
  unfold parseStrings at h
  split at h
  next result hloop =>
    cases h
    exact printable_parseLoop (fun _ h => absurd h List.not_mem_nil)
      (fun _ h => absurd h List.not_mem_nil) hloop
  next => cases h

/-- A decoded property has the name and the value that it was decoded from. -/
theorem decodeProp_eq_some {name bs : Bytes} {prop : FdtProp}
    (h : decodeProp host name bs = some prop) : prop.name = name ∧ payload host prop = bs := by
  have hnumbers : (parseWords host bs).map (FdtProp.ofNumbers name) = some prop →
      prop.name = name ∧ payload host prop = bs := by
    intro h
    obtain ⟨xs, hxs, rfl⟩ := Option.map_eq_some_iff.1 h
    exact ⟨rfl, (List.append_nil _).trans (flatMap_parseWords hxs)⟩
  have hstrings : (parseStrings bs).map (FdtProp.ofStrings name) = some prop →
      prop.name = name ∧ payload host prop = bs := by
    intro h
    obtain ⟨strs, hstrs, rfl⟩ := Option.map_eq_some_iff.1 h
    exact ⟨rfl, flatMap_parseStrings hstrs⟩
  simp only [decodeProp, Option.or_eq_some_iff] at h
  rcases h with h | ⟨-, h | ⟨-, h⟩⟩
  · split at h
    next => exact hnumbers h
    next => cases h
  · exact hstrings h
  · exact hnumbers h

end Mwr.Fdt
