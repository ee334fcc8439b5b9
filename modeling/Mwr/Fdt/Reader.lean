import Mwr.CodeLib.Exec
import Mwr.Fdt.Decode

/-!
# What the reader reads

The reader on a buffer in memory, in two directions.  A lemma `.._run` says what
a part of the reader returns, and where it leaves the pointer, when the bytes at
the pointer are the encoding that it expects.  A lemma `.._inv` says which bytes
there are when a part of the reader returns.

* `Tries` is the specification of one attempt at a value, and `Decodes` of
  attempts one after the other.
* `decodes_readValue` says that the attempts and their rewinding add up to
  `decodeProp`.
* `readProp_run` and `readProp_inv` add the name, which stands elsewhere in the
  buffer.
* `decompile_inv` is about a call that returns a tree.
-/

namespace Mwr.Fdt

open Mwr.CodeLib
open Mwr.CodeLib.Bytes
open Mwr.CodeLib.Exec

variable {host : Host} {buf : Bytes} {p : Nat}

/-! ## Single bytes and words -/

theorem getc_run {b : UInt8} (h : buf[p]? = some b) :
    (memSource buf).getc.run p = .ok (b, p + 1) := by
  simp [memSource, h]

theorem getc_inv {b : UInt8} {q : Nat} (h : (memSource buf).getc.run p = .ok (b, q)) :
    buf[p]? = some b ∧ q = p + 1 := by
  cases hb : buf[p]? with
  | none => simp [memSource, hb] at h
  | some b' =>
    rw [getc_run hb] at h
    cases h
    exact ⟨rfl, rfl⟩

theorem seek_run {off : UInt32} (h : off.toNat < buf.length) :
    ((memSource buf).seek off).run p = .ok (UInt32.ofNat p, off.toNat) := by
  simp [memSource, Nat.not_le.2 h]

theorem seek_inv {off x : UInt32} {q : Nat} (h : ((memSource buf).seek off).run p = .ok (x, q)) :
    off.toNat < buf.length ∧ x = UInt32.ofNat p ∧ q = off.toNat := by
  by_cases hlt : off.toNat < buf.length
  · rw [seek_run hlt] at h
    cases h
    exact ⟨hlt, rfl, rfl⟩
  · simp [memSource, Nat.not_lt.1 hlt] at h

theorem read_run_bytes {a b c d : UInt8} (h : At buf p [a, b, c, d]) :
    (read host (memSource buf)).run p = .ok (ofWord host a b c d, p + 4) := by
  rw [at_cons, at_cons, at_cons, at_cons] at h
  rw [read, run_bind_of_ok (getc_run h.1), run_bind_of_ok (getc_run h.2.1),
    run_bind_of_ok (getc_run h.2.2.1), run_bind_of_ok (getc_run h.2.2.2.1)]
  cases host <;> rfl

theorem read_run {x : UInt32} (h : At buf p (word host x)) :
    (read host (memSource buf)).run p = .ok (x, p + 4) := by
  obtain ⟨a, b, c, d, hword, rfl⟩ := exists_word host x
  exact read_run_bytes (hword ▸ h)

theorem read_inv {x : UInt32} {q : Nat} (h : (read host (memSource buf)).run p = .ok (x, q)) :
    At buf p (word host x) ∧ q = p + 4 := by
  unfold read at h
  obtain ⟨a, p₁, ha, h⟩ := run_bind_eq_ok.1 h
  obtain ⟨b, p₂, hb, h⟩ := run_bind_eq_ok.1 h
  obtain ⟨c, p₃, hc, h⟩ := run_bind_eq_ok.1 h
  obtain ⟨d, p₄, hd, h⟩ := run_bind_eq_ok.1 h
  obtain ⟨hba, rfl⟩ := getc_inv ha
  obtain ⟨hbb, rfl⟩ := getc_inv hb
  obtain ⟨hbc, rfl⟩ := getc_inv hc
  obtain ⟨hbd, rfl⟩ := getc_inv hd
  have hat : At buf p [a, b, c, d] := by
    rw [at_cons, at_cons, at_cons, at_cons]
    exact ⟨hba, hbb, hbc, hbd, at_nil buf _⟩
  have hx : (ofWord host a b c d, p + 4) = (x, q) := by
    cases host <;> exact Except.ok.inj h
  cases hx
  exact ⟨(word_ofWord host a b c d).symm ▸ hat, rfl⟩

/-! ## Padding -/

theorem skip_run {fuel len : Nat} (hfuel : pad len < fuel) (h : p + pad len ≤ buf.length) :
    (alignLoop (do let _ ← (memSource buf).getc) fuel len).run p =
      .ok (len + pad len, p + pad len) := by
  induction fuel generalizing len p with
  | zero => omega
  | succ fuel ih =>
    unfold alignLoop
    by_cases hmod : len % 4 = 0
    · rw [if_pos hmod, pad_of_mod hmod]
      rfl
    · have hpad := pad_of_not_mod hmod
      have hlt : p < buf.length := by omega
      have hgetc : (do let _ ← (memSource buf).getc : Read Nat Unit).run p = .ok ((), p + 1) := by
        rw [run_bind_of_ok (getc_run (List.getElem?_eq_getElem hlt))]
        rfl
      rw [if_neg hmod, run_bind_of_ok hgetc, ih (by omega) (by omega), hpad]
      congr 2 <;> omega

theorem skip_inv {fuel len n q : Nat}
    (h : (alignLoop (do let _ ← (memSource buf).getc) fuel len).run p = .ok (n, q)) :
    q = p + pad len ∧ (p ≤ buf.length → q ≤ buf.length) := by
  induction fuel generalizing len p with
  | zero => cases h
  | succ fuel ih =>
    unfold alignLoop at h
    by_cases hmod : len % 4 = 0
    · rw [if_pos hmod] at h
      cases h
      exact ⟨by rw [pad_of_mod hmod]; rfl, id⟩
    · rw [if_neg hmod] at h
      obtain ⟨_, p₁, hgetc, h⟩ := run_bind_eq_ok.1 h
      obtain ⟨_, p₂, hgetc, hp⟩ := run_bind_eq_ok.1 hgetc
      cases hp
      obtain ⟨hb, rfl⟩ := getc_inv hgetc
      have hlt := (List.getElem?_eq_some_iff.1 hb).1
      have hrest := ih h
      rw [pad_of_not_mod hmod]
      omega

/-! ## Strings -/

theorem readStringLoop_run {s acc : Bytes} {fuel : Nat} (hs : 0 ∉ s) (h : At buf p (cstr s))
    (hfuel : s.length < fuel) :
    (readStringLoop (memSource buf) fuel acc).run p = .ok (acc ++ s, p + s.length + 1) := by
  induction s generalizing p acc fuel with
  | nil =>
    cases fuel with
    | zero => cases hfuel
    | succ fuel =>
      rw [readStringLoop, run_bind_of_ok (getc_run (at_cons.1 h).1), List.append_nil]
      rfl
  | cons ch s ih =>
    cases fuel with
    | zero => cases hfuel
    | succ fuel =>
      rw [List.mem_cons, not_or] at hs
      have h' : buf[p]? = some ch ∧ At buf (p + 1) (cstr s) := at_cons.1 h
      rw [readStringLoop, run_bind_of_ok (getc_run h'.1), if_neg (Ne.symm hs.1),
        ih hs.2 h'.2 (Nat.lt_of_succ_lt_succ hfuel), List.append_assoc, List.length_cons]
      congr 2
      omega

theorem readStringLoop_inv {s acc : Bytes} {fuel q : Nat}
    (h : (readStringLoop (memSource buf) fuel acc).run p = .ok (s, q)) :
    ∃ rest, s = acc ++ rest ∧ 0 ∉ rest ∧ q = p + rest.length + 1 ∧ q ≤ buf.length := by
  induction fuel generalizing p acc with
  | zero => cases h
  | succ fuel ih =>
    unfold readStringLoop at h
    obtain ⟨ch, p₁, hgetc, h⟩ := run_bind_eq_ok.1 h
    obtain ⟨hb, rfl⟩ := getc_inv hgetc
    have hlt := (List.getElem?_eq_some_iff.1 hb).1
    by_cases hch : ch = 0
    · rw [if_pos hch] at h
      cases h
      exact ⟨[], (List.append_nil _).symm, List.not_mem_nil, rfl, hlt⟩
    · rw [if_neg hch] at h
      obtain ⟨rest, hs, hrest, hpq, hq⟩ := ih h
      refine ⟨ch :: rest, ?_, ?_, by rw [hpq, List.length_cons]; omega, hq⟩
      · rw [hs, List.append_assoc]
        rfl
      · rw [List.mem_cons, not_or]
        exact ⟨Ne.symm hch, hrest⟩

theorem readString_run_cstr {s : Bytes} {fuel : Nat} (hs : 0 ∉ s) (h : At buf p (cstr s))
    (hfuel : buf.length < fuel) :
    (readString (memSource buf) fuel false).run p = .ok (s, p + s.length + 1) := by
  have hle := cstr_le_length h
  rw [readString, run_bind_of_ok (readStringLoop_run hs h (by omega))]
  rfl

theorem readString_run_name {s : Bytes} {fuel : Nat} (hs : 0 ∉ s) (h : At buf p (encodeName s))
    (hfuel : buf.length < fuel) :
    (readString (memSource buf) fuel true).run p = .ok (s, p + (encodeName s).length) := by
  have hle := h.length_le (by simp [encodeName, cstr])
  have hlen := length_encodeName s
  rw [encodeName, at_append, length_cstr] at h
  rw [readString, run_bind_of_ok (readStringLoop_run hs h.1 (by omega)), if_pos rfl]
  have hskip : (alignLoop (do let _ ← (memSource buf).getc) 4 (s.length + 1)).run
      (p + s.length + 1) = _ := skip_run (pad_lt (s.length + 1)) (by omega)
  rw [List.nil_append, run_bind_of_ok hskip, hlen, ← Nat.add_assoc, ← Nat.add_assoc]
  rfl

theorem readString_inv {s : Bytes} {fuel q : Nat} {align : Bool}
    (h : (readString (memSource buf) fuel align).run p = .ok (s, q)) :
    0 ∉ s ∧ p ≤ q ∧ q ≤ buf.length := by
  unfold readString at h
  obtain ⟨s', p₁, hloop, h⟩ := run_bind_eq_ok.1 h
  obtain ⟨rest, hs, hrest, hpos, hp₁⟩ := readStringLoop_inv hloop
  rw [List.nil_append] at hs
  subst hs
  cases align with
  | false =>
    cases h
    exact ⟨hrest, by omega, hp₁⟩
  | true =>
    obtain ⟨_, p₂, hskip, h⟩ := run_bind_eq_ok.1 h
    cases h
    obtain ⟨rfl, hbuf⟩ := skip_inv hskip
    exact ⟨hrest, by omega, hbuf hp₁⟩

/-- A string that is aligned takes four bytes at least. -/
theorem readString_size {s : Bytes} {fuel q : Nat}
    (h : (readString (memSource buf) fuel true).run p = .ok (s, q)) : p + 4 ≤ q := by
  unfold readString at h
  obtain ⟨s', p₁, hloop, h⟩ := run_bind_eq_ok.1 h
  obtain ⟨rest, hs, -, hpos, -⟩ := readStringLoop_inv hloop
  obtain ⟨_, p₂, hskip, h⟩ := run_bind_eq_ok.1 h
  cases h
  obtain ⟨rfl, -⟩ := skip_inv hskip
  have hmod := add_pad_mod (s.length + 1)
  rw [hs, List.nil_append] at hmod ⊢
  omega

/-- The reader looks a name up in the strings block and comes back. -/
theorem readStrtab_run {s : Bytes} {dtoff nameoff : UInt32} {fuel : Nat} (hs : 0 ∉ s)
    (hdtoff : At buf 12 (word host dtoff)) (hname : At buf (dtoff + nameoff).toNat (cstr s))
    (hp : p < buf.length) (hp32 : p < 2 ^ 32) (hfuel : buf.length < fuel) :
    (readStrtab host (memSource buf) fuel nameoff).run p = .ok (s, p) := by
  have h12 := word_le_length hdtoff
  have hoff := cstr_le_length hname
  have hback : (UInt32.ofNat p).toNat = p := UInt32.toNat_ofNat_of_lt' hp32
  have hseek : ((memSource buf).seek 12).run p = .ok (UInt32.ofNat p, 12) :=
    seek_run (show 12 < buf.length by omega)
  rw [readStrtab, run_bind_of_ok hseek, run_bind_of_ok (read_run hdtoff),
    run_bind_of_ok (seek_run (by omega)), run_bind_of_ok (readString_run_cstr hs hname hfuel),
    run_bind_of_ok (seek_run (by omega)), hback]
  rfl

theorem readStrtab_inv {s : Bytes} {nameoff : UInt32} {fuel q : Nat} (hp32 : p < 2 ^ 32)
    (h : (readStrtab host (memSource buf) fuel nameoff).run p = .ok (s, q)) :
    0 ∉ s ∧ q = p ∧ p < buf.length := by
  unfold readStrtab at h
  obtain ⟨curoff, p₁, hseek, h⟩ := run_bind_eq_ok.1 h
  obtain ⟨dtoff, p₂, hread, h⟩ := run_bind_eq_ok.1 h
  obtain ⟨_, p₃, _, h⟩ := run_bind_eq_ok.1 h
  obtain ⟨s', p₄, hstring, h⟩ := run_bind_eq_ok.1 h
  obtain ⟨_, p₅, hback, h⟩ := run_bind_eq_ok.1 h
  cases h
  obtain ⟨_, rfl, _⟩ := seek_inv hseek
  obtain ⟨hlt, _, hq⟩ := seek_inv hback
  rw [UInt32.toNat_ofNat_of_lt' hp32] at hlt hq
  exact ⟨(readString_inv hstring).1, hq, hlt⟩

/-! ## Reading values -/

theorem readIntLoop_run {xs data : List UInt32} (h : At buf p (xs.flatMap (word host))) :
    (readIntLoop host (memSource buf) xs.length data).run p =
      .ok (data ++ xs, p + 4 * xs.length) := by
  induction xs generalizing p data with
  | nil => rw [List.append_nil]; rfl
  | cons x xs ih =>
    rw [List.flatMap_cons, at_append, length_word] at h
    rw [List.length_cons, readIntLoop, run_bind_of_ok (read_run h.1), ih h.2, List.append_assoc]
    congr 2
    omega

theorem readIntLoop_inv {n q : Nat} {data data' : List UInt32}
    (h : (readIntLoop host (memSource buf) n data).run p = .ok (data', q)) :
    ∃ xs, data' = data ++ xs ∧ xs.length = n ∧ At buf p (xs.flatMap (word host)) ∧
      q = p + 4 * n := by
  induction n generalizing p data with
  | zero =>
    cases h
    exact ⟨[], (List.append_nil _).symm, rfl, at_nil buf _, rfl⟩
  | succ n ih =>
    obtain ⟨x, p₁, hread, h⟩ := run_bind_eq_ok.1 h
    obtain ⟨hx, rfl⟩ := read_inv hread
    obtain ⟨xs, hdata, hlen, hxs, rfl⟩ := ih h
    refine ⟨x :: xs, ?_, by rw [List.length_cons, hlen], ?_, by omega⟩
    · rw [hdata, List.append_assoc]
      rfl
    · rw [List.flatMap_cons, at_append, length_word]
      exact ⟨hx, hxs⟩

theorem readIntData_run {bs : Bytes} {len : UInt32} (h : At buf p bs)
    (hlen : bs.length = len.toNat) :
    (readIntData host (memSource buf) len).run p =
      match parseWords host bs with
      | some xs => .ok (some xs, p + bs.length)
      | none => .ok (none, p) := by
  have hsome := parseWords_isSome host bs
  unfold readIntData
  cases hxs : parseWords host bs with
  | none =>
    have hmod : len.toNat % 4 ≠ 0 := by simpa [hxs, hlen] using hsome
    rw [if_pos hmod]
    rfl
  | some xs =>
    have hmod : ¬ len.toNat % 4 ≠ 0 := by simpa [hxs, hlen] using hsome
    rw [← flatMap_parseWords hxs] at h hlen ⊢
    rw [length_flatMap_word] at hlen
    rw [if_neg hmod, ← hlen, Nat.mul_div_cancel_left _ (by decide : 0 < 4),
      run_bind_of_ok (readIntLoop_run h), length_flatMap_word]
    rfl

theorem readIntData_some {len : UInt32} {xs : List UInt32} {q : Nat}
    (h : (readIntData host (memSource buf) len).run p = .ok (some xs, q)) :
    ∃ bs, At buf p bs ∧ bs.length = len.toNat ∧ parseWords host bs = some xs ∧
      q = p + len.toNat + pad len.toNat := by
  unfold readIntData at h
  by_cases hmod : len.toNat % 4 = 0
  · rw [if_neg (not_not_intro hmod)] at h
    obtain ⟨data, p₁, hloop, h⟩ := run_bind_eq_ok.1 h
    cases h
    obtain ⟨xs', hdata, hlen, hat, hq⟩ := readIntLoop_inv hloop
    rw [hdata, List.nil_append]
    refine ⟨xs'.flatMap (word host), hat, ?_, parseWords_flatMap host xs', ?_⟩
    · rw [length_flatMap_word, hlen]
      omega
    · rw [hq, pad_of_mod hmod]
      omega
  · rw [if_pos hmod] at h
    cases h

theorem readIntData_none {len : UInt32} {q : Nat}
    (h : (readIntData host (memSource buf) len).run p = .ok (none, q)) :
    q = p ∧ ∀ bs : Bytes, bs.length = len.toNat → parseWords host bs = none := by
  unfold readIntData at h
  by_cases hmod : len.toNat % 4 = 0
  · rw [if_neg (not_not_intro hmod)] at h
    obtain ⟨data, p₁, -, h⟩ := run_bind_eq_ok.1 h
    cases h
  · rw [if_pos hmod] at h
    cases h
    refine ⟨rfl, fun bs hbs => ?_⟩
    have hsome := parseWords_isSome host bs
    rw [hbs] at hsome
    exact Option.not_isSome_iff_eq_none.1 fun hs => hmod (hsome.1 hs)

theorem readStrLoop_run {curoff : UInt32} {bs s : Bytes} {result : List Bytes} (h : At buf p bs)
    (hcuroff : curoff.toNat < buf.length) :
    (readStrLoop (memSource buf) curoff bs.length result s).run p =
      match parseLoop bs result s with
      | some x => .ok (some x, p + bs.length)
      | none => .ok (none, curoff.toNat) := by
  induction bs generalizing p result s with
  | nil => rfl
  | cons ch bs ih =>
    rw [at_cons] at h
    rw [List.length_cons, readStrLoop, run_bind_of_ok (getc_run h.1), parseLoop]
    split
    next => rw [ih h.2, Nat.add_assoc, Nat.add_comm 1]
    next =>
      split
      next => rw [ih h.2, Nat.add_assoc, Nat.add_comm 1]
      next =>
        rw [run_bind_of_ok (seek_run hcuroff)]
        rfl

/-- What a result of the loop of `read_str_data` says about the `n` bytes at `p`. -/
def StrLoopResult (buf : Bytes) (p n q : Nat) (curoff : UInt32) (result : List Bytes) (s : Bytes) :
    Option (List Bytes × Bytes) → Prop
  | some x => ∃ bs, At buf p bs ∧ bs.length = n ∧ parseLoop bs result s = some x ∧ q = p + n
  | none => q = curoff.toNat ∧ ∀ bs, At buf p bs → bs.length = n → parseLoop bs result s = none

/-- A round of the loop that goes on. -/
theorem StrLoopResult.cons {n q : Nat} {curoff : UInt32} {result result' : List Bytes}
    {s s' : Bytes} {r : Option (List Bytes × Bytes)} {ch : UInt8} (hch : buf[p]? = some ch)
    (hparse : ∀ bs, parseLoop (ch :: bs) result s = parseLoop bs result' s')
    (h : StrLoopResult buf (p + 1) n q curoff result' s' r) :
    StrLoopResult buf p (n + 1) q curoff result s r := by
  cases r with
  | some x =>
    obtain ⟨bs, hbs, hlen, hx, hq⟩ := h
    exact ⟨ch :: bs, at_cons.2 ⟨hch, hbs⟩, by rw [List.length_cons, hlen],
      (hparse bs).trans hx, by omega⟩
  | none =>
    refine ⟨h.1, fun bs hbs hlen => ?_⟩
    cases bs with
    | nil => cases hlen
    | cons ch' bs =>
      rw [at_cons, hch] at hbs
      cases hbs.1
      exact (hparse bs).trans (h.2 bs hbs.2 (Nat.succ.inj hlen))

theorem readStrLoop_inv {curoff : UInt32} {n q : Nat} {s : Bytes} {result : List Bytes}
    {r : Option (List Bytes × Bytes)}
    (h : (readStrLoop (memSource buf) curoff n result s).run p = .ok (r, q)) :
    StrLoopResult buf p n q curoff result s r := by
  induction n generalizing p result s with
  | zero =>
    cases h
    exact ⟨[], at_nil buf _, rfl, rfl, rfl⟩
  | succ n ih =>
    obtain ⟨ch, p₁, hgetc, h⟩ := run_bind_eq_ok.1 h
    obtain ⟨hch, rfl⟩ := getc_inv hgetc
    split at h
    next h0 => exact (ih h).cons hch fun bs => if_pos h0
    next h0 =>
      split at h
      next hprint =>
        exact (ih h).cons hch fun bs => by rw [parseLoop, if_neg h0, if_pos hprint]
      next hprint =>
        obtain ⟨_, p₂, hseek, h⟩ := run_bind_eq_ok.1 h
        cases h
        refine ⟨(seek_inv hseek).2.2, fun bs hbs hlen => ?_⟩
        cases bs with
        | nil => cases hlen
        | cons ch' bs =>
          rw [at_cons, hch] at hbs
          cases hbs.1
          rw [parseLoop, if_neg h0, if_neg hprint]

theorem readStrData_run {bs : Bytes} {len : UInt32} (h : At buf p bs)
    (hlen : bs.length = len.toNat) (hp : p < buf.length) (hp32 : p < 2 ^ 32)
    (hpad : p + bs.length + pad bs.length ≤ buf.length) :
    (readStrData (memSource buf) len).run p =
      match parseStrings bs with
      | some strs => .ok (some strs, p + bs.length + pad bs.length)
      | none => .ok (none, p) := by
  have hback : (UInt32.ofNat p).toNat = p := UInt32.toNat_ofNat_of_lt' hp32
  have hp' : (UInt32.ofNat p).toNat < buf.length := hback.symm ▸ hp
  have hseek : ((memSource buf).seek 0).run p = .ok (UInt32.ofNat p, 0) :=
    seek_run (show 0 < buf.length by omega)
  have hloop : (readStrLoop (memSource buf) (.ofNat p) bs.length [] []).run _ = _ :=
    readStrLoop_run h hp'
  rw [readStrData, run_bind_of_ok hseek, run_bind_of_ok (seek_run hp'), hback, ← hlen]
  unfold parseStrings
  cases hparse : parseLoop bs [] [] with
  | none =>
    rw [hparse, hback] at hloop
    rw [run_bind_of_ok hloop]
    rfl
  | some x =>
    obtain ⟨result, s⟩ := x
    rw [hparse] at hloop
    rw [run_bind_of_ok hloop]
    cases s with
    | nil =>
      have hskip := skip_run (p := p + bs.length) (pad_lt bs.length) hpad
      dsimp only
      rw [if_neg (not_not_intro rfl), run_bind_of_ok hskip]
      rfl
    | cons ch s =>
      dsimp only
      rw [if_pos (List.cons_ne_nil ch s), run_bind_of_ok (seek_run hp'), hback]
      rfl

theorem readStrData_inv {len : UInt32} {r : Option (List Bytes)} {q : Nat} (hp32 : p < 2 ^ 32)
    (h : (readStrData (memSource buf) len).run p = .ok (r, q)) :
    (∀ strs, r = some strs → ∃ bs, At buf p bs ∧ bs.length = len.toNat ∧
      parseStrings bs = some strs ∧ q = p + len.toNat + pad len.toNat) ∧
    (r = none → q = p ∧ ∀ bs, At buf p bs → bs.length = len.toNat → parseStrings bs = none) := by
  have hback : (UInt32.ofNat p).toNat = p := UInt32.toNat_ofNat_of_lt' hp32
  unfold readStrData at h
  obtain ⟨curoff, p₁, hseek, h⟩ := run_bind_eq_ok.1 h
  obtain ⟨_, rfl, rfl⟩ := seek_inv hseek
  obtain ⟨_, p₂, hreseek, h⟩ := run_bind_eq_ok.1 h
  obtain ⟨_, rfl, rfl⟩ := seek_inv hreseek
  obtain ⟨x, p₃, hloop, h⟩ := run_bind_eq_ok.1 h
  have hresult := readStrLoop_inv hloop
  rw [hback] at hresult
  cases x with
  | none =>
    cases h
    refine ⟨fun _ h => (by cases h), fun _ => ⟨hresult.1.trans hback, fun bs hbs hlen => ?_⟩⟩
    rw [parseStrings, hresult.2 bs hbs hlen]
  | some x =>
    obtain ⟨result, s⟩ := x
    obtain ⟨bs, hbs, hlen, hparse, rfl⟩ := hresult
    dsimp only at h
    by_cases hs : s = []
    · rw [if_neg (not_not_intro hs)] at h
      obtain ⟨_, p₄, hskip, h⟩ := run_bind_eq_ok.1 h
      cases h
      refine ⟨fun strs h => ?_, fun h => (by cases h)⟩
      cases h
      refine ⟨bs, hbs, hlen, ?_, (skip_inv hskip).1⟩
      rw [parseStrings, hparse, hs]
    · rw [if_pos hs] at h
      obtain ⟨_, p₄, hrewind, h⟩ := run_bind_eq_ok.1 h
      cases h
      refine ⟨fun _ h => (by cases h), fun _ => ⟨(seek_inv hrewind).2.2.trans hback, ?_⟩⟩
      intro bs' hbs' hlen'
      have hsame : bs' = bs := (List.IsPrefix.eq_of_length (List.prefix_of_prefix_length_le hbs' hbs
        (by omega)) (by omega))
      rw [hsame, parseStrings, hparse]
      cases s with
      | nil => exact absurd rfl hs
      | cons ch s => rfl

/-! ## Reading properties -/

/-- The computation reads a value of `len` bytes at `p` as `x` says: it returns
what `x` makes of the bytes, and rewinds when that is nothing. -/
structure Tries {α : Type} (buf : Bytes) (p len : Nat) (m : Read Nat (Option α))
    (x : Bytes → Option α) : Prop where
  run_some : ∀ bs v, At buf p bs → bs.length = len → p + len + pad len ≤ buf.length →
    x bs = some v → m.run p = .ok (some v, p + len + pad len)
  run_none : ∀ bs, At buf p bs → bs.length = len → p + len + pad len ≤ buf.length →
    x bs = none → m.run p = .ok (none, p)
  of_some : ∀ v q, m.run p = .ok (some v, q) →
    ∃ bs, At buf p bs ∧ bs.length = len ∧ x bs = some v ∧ q = p + len + pad len
  of_none : ∀ q, m.run p = .ok (none, q) →
    q = p ∧ ∀ bs, At buf p bs → bs.length = len → x bs = none

/-- The computation returns the property that `o` makes of the `len` bytes at `p`,
and no other. -/
structure Decodes (buf : Bytes) (p len : Nat) (m : Read Nat FdtProp)
    (o : Bytes → Option FdtProp) : Prop where
  run : ∀ bs prop, At buf p bs → bs.length = len → p + len + pad len ≤ buf.length →
    o bs = some prop → m.run p = .ok (prop, p + len + pad len)
  inv : ∀ prop q, m.run p = .ok (prop, q) →
    ∃ bs, At buf p bs ∧ bs.length = len ∧ o bs = some prop ∧ q = p + len + pad len

theorem tries_readIntData (len : UInt32) :
    Tries buf p len.toNat (readIntData host (memSource buf) len) (parseWords host) where
  run_some := by
    intro bs v hbs hlen _ hv
    have hmod := (parseWords_isSome host bs).1 (hv ▸ rfl)
    rw [readIntData_run hbs hlen, hv, ← hlen, pad_of_mod hmod]
    rfl
  run_none := by
    intro bs hbs hlen _ hnone
    rw [readIntData_run hbs hlen, hnone]
  of_some := fun _ _ h => readIntData_some h
  of_none := fun _ h => ⟨(readIntData_none h).1, fun bs _ => (readIntData_none h).2 bs⟩

theorem tries_readStrData (len : UInt32) (hp : p < buf.length) (hp32 : p < 2 ^ 32) :
    Tries buf p len.toNat (readStrData (memSource buf) len) parseStrings where
  run_some := by
    intro bs v hbs hlen hpad hv
    rw [← hlen] at hpad ⊢
    rw [readStrData_run hbs hlen hp hp32 hpad, hv]
  run_none := by
    intro bs hbs hlen hpad hnone
    rw [← hlen] at hpad
    rw [readStrData_run hbs hlen hp hp32 hpad, hnone]
  of_some := fun v _ h => (readStrData_inv hp32 h).1 v rfl
  of_none := fun _ h => (readStrData_inv hp32 h).2 rfl

theorem Decodes.attempt {α : Type} {len : Nat} {m : Read Nat (Option α)} (make : α → FdtProp)
    {next : Read Nat FdtProp} {x : Bytes → Option α} {o : Bytes → Option FdtProp}
    (hm : Tries buf p len m x) (hnext : Decodes buf p len next o) :
    Decodes buf p len (attempt m make next) (fun bs => ((x bs).map make).or (o bs)) where
  run := by
    intro bs prop hbs hlen hpad hprop
    unfold Fdt.attempt
    cases hx : x bs with
    | none =>
      rw [hx] at hprop
      rw [run_bind_of_ok (hm.run_none bs hbs hlen hpad hx)]
      exact hnext.run bs prop hbs hlen hpad hprop
    | some v =>
      rw [hx] at hprop
      cases hprop
      rw [run_bind_of_ok (hm.run_some bs v hbs hlen hpad hx)]
      rfl
  inv := by
    intro prop q h
    obtain ⟨r, p', hr, hrest⟩ := run_bind_eq_ok.1 h
    cases r with
    | some v =>
      cases hrest
      obtain ⟨bs, hbs, hlen, hx, hq⟩ := hm.of_some v _ hr
      refine ⟨bs, hbs, hlen, ?_, hq⟩
      rw [hx]
      rfl
    | none =>
      obtain ⟨rfl, hnone⟩ := hm.of_none _ hr
      obtain ⟨bs, hbs, hlen, ho, hq⟩ := hnext.inv prop q hrest
      refine ⟨bs, hbs, hlen, ?_, hq⟩
      rw [hnone bs hbs hlen]
      exact ho

theorem Decodes.ite {len : Nat} {m₁ m₂ : Read Nat FdtProp} {o : Bytes → Option FdtProp} (c : Prop)
    [Decidable c] (h₁ : Decodes buf p len m₁ o) (h₂ : Decodes buf p len m₂ o) :
    Decodes buf p len (if c then m₁ else m₂) o := by
  split
  · exact h₁
  · exact h₂

/-- The attempts at a value add up to `decodeProp`.  Names that `is_str_property`
accepts are treated like unknown ones. -/
theorem decodes_readValue {name : Bytes} {len : UInt32} (hp : p < buf.length)
    (hp32 : p < 2 ^ 32) :
    Decodes buf p len.toNat (readValue host (memSource buf) name len) (decodeProp host name) := by
  have hint : Tries buf p len.toNat (readIntData host (memSource buf) len) (parseWords host) :=
    tries_readIntData len
  have hstr := tries_readStrData len hp hp32
  have hthrow : Decodes buf p len.toNat
      (throw (.report s!"error reading property '{text name}'")) (fun _ => none) :=
    ⟨(fun _ _ _ _ _ h => nomatch h), (fun _ _ h => nomatch h)⟩
  have hunknown := Decodes.attempt (.ofStrings name) hstr <|
    Decodes.attempt (.ofNumbers name) hint hthrow
  have hstrFirst := Decodes.attempt (.ofStrings name) hstr hunknown
  simp only [← Option.or_assoc, Option.or_self, Option.or_none] at hunknown hstrFirst
  have hkeyword := Decodes.ite (isStrProperty name) hstrFirst hunknown
  unfold readValue decodeProp
  dsimp only
  by_cases hname : isIntProperty name
  · simp only [if_pos hname]
    exact Decodes.attempt (.ofNumbers name) hint hkeyword
  · simp only [if_neg hname, Option.none_or]
    exact hkeyword

theorem readProp_run {name bs : Bytes} {len nameoff dtoff : UInt32} {prop : FdtProp} {fuel : Nat}
    (hname : 0 ∉ name) (hlen : bs.length = len.toNat)
    (h : At buf p (word host len ++ (word host nameoff ++ (bs ++ zeros (pad bs.length)))))
    (hdtoff : At buf 12 (word host dtoff)) (hstr : At buf (dtoff + nameoff).toNat (cstr name))
    (hp : p + 8 < buf.length) (hp32 : p + 8 < 2 ^ 32) (hfuel : buf.length < fuel)
    (hprop : decodeProp host name bs = some prop) :
    (readProp host (memSource buf) fuel).run p =
      .ok (prop, p + 8 + bs.length + pad bs.length) := by
  rw [at_append, at_append, length_word, length_word] at h
  have hle := h.2.2.add_length_le (by omega)
  rw [List.length_append, length_zeros] at hle
  have hdecodes : Decodes buf (p + 8) len.toNat (readValue host (memSource buf) name len)
      (decodeProp host name) := decodes_readValue hp hp32
  have hvalue := hdecodes.run bs prop (at_append.1 h.2.2).1 hlen (by rw [← hlen]; omega) hprop
  rw [readProp, run_bind_of_ok (read_run h.1), run_bind_of_ok (read_run h.2.1),
    run_bind_of_ok (readStrtab_run hname hdtoff hstr hp hp32 hfuel), hvalue, hlen]

theorem readProp_inv {prop : FdtProp} {fuel q : Nat} (hbuf : buf.length < 2 ^ 32)
    (h : (readProp host (memSource buf) fuel).run p = .ok (prop, q)) :
    0 ∉ prop.name ∧ decodeProp host prop.name (payload host prop) = some prop ∧ p + 8 ≤ q := by
  unfold readProp at h
  obtain ⟨len, p₁, hlen, h⟩ := run_bind_eq_ok.1 h
  obtain ⟨nameoff, p₂, hoff, h⟩ := run_bind_eq_ok.1 h
  obtain ⟨name, p₃, hname, h⟩ := run_bind_eq_ok.1 h
  obtain ⟨hat, rfl⟩ := read_inv hoff
  have hle := word_le_length hat
  obtain ⟨hnul, rfl, hlt⟩ := readStrtab_inv (by omega) hname
  obtain ⟨bs, -, -, hprop, rfl⟩ := (decodes_readValue hlt (by omega)).inv prop q h
  obtain ⟨rfl, rfl⟩ := decodeProp_eq_some hprop
  obtain ⟨-, rfl⟩ := read_inv hlen
  exact ⟨hnul, hprop, by omega⟩

/-- A call that returns a tree has read the name of the root behind its token, the
tree behind the name, and one more token at the end. -/
theorem decompile_inv {root : FdtNode} {fuel q : Nat}
    (h : (decompile host (memSource buf) fuel).run p = .ok (root, q)) :
    ∃ name p₀ p₁ p₂, 4 ≤ p₀ ∧ (readString (memSource buf) fuel true).run p₀ = .ok (name, p₁) ∧
      (traverse host (memSource buf) fuel fuel
        (.new (if name = [] then str "/" else name))).run p₁ = .ok (root, p₂) ∧
      p₂ + 4 ≤ buf.length := by
  unfold decompile at h
  obtain ⟨magic, _, -, h⟩ := run_bind_eq_ok.1 h
  obtain ⟨_, _, -, h⟩ := run_bind_eq_ok.1 h
  obtain ⟨_, _, -, h⟩ := run_bind_eq_ok.1 h
  obtain ⟨compat, _, -, h⟩ := run_bind_eq_ok.1 h
  obtain ⟨_, _, -, h⟩ := run_bind_eq_ok.1 h
  obtain ⟨_, _, -, h⟩ := run_bind_eq_ok.1 h
  obtain ⟨offset, _, -, h⟩ := run_bind_eq_ok.1 h
  obtain ⟨_, _, -, h⟩ := run_bind_eq_ok.1 h
  obtain ⟨token, p₀, htoken, h⟩ := run_bind_eq_ok.1 h
  obtain ⟨_, p₀', hreport, h⟩ := run_bind_eq_ok.1 h
  obtain ⟨name, p₁, hname, h⟩ := run_bind_eq_ok.1 h
  obtain ⟨root', p₂, hroot, h⟩ := run_bind_eq_ok.1 h
  obtain ⟨_, _, hend, h⟩ := run_bind_eq_ok.1 h
  obtain ⟨_, _, -, h⟩ := run_bind_eq_ok.1 h
  cases h
  have hsame : p₀' = p₀ := by
    unfold reportOn at hreport
    split at hreport
    · cases hreport
    · cases hreport
      rfl
  subst hsame
  have hp₀ := (read_inv htoken).2
  exact ⟨name, p₀', p₁, p₂, by omega, hname, hroot, word_le_length (read_inv hend).1⟩

end Mwr.Fdt
