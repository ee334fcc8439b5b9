import Mwr.Core.ByteSwap
import Mwr.Uimage.Model

/-!
# Which files are images for U-Boot

The constructor of `uimage` on any file, and series of calls of `read` on the object.

* `read32be_iff`, `read8_iff` and `readstr_iff` say what one step of the constructor takes from
  the file.
* `uimage_iff` puts them together: the files that are accepted, and the fields of the object.
* `read_window` is a call of `read`, and `uimage_format` is the result with series of calls.
-/

namespace Mwr.Uimage

open Mwr.CodeLib
open Mwr.CodeLib.Bytes
open Mwr.CodeLib.Exec

variable {α : Type} {host : ByteOrder} {path content : Bytes} {r : α × InputStream}

/-- A stream in order at an offset. -/
def streamAt (content : Bytes) (pos : Nat) : InputStream := ⟨content, pos, false, false⟩

/-! ## The steps of the constructor -/

theorem errorOn_iff {cond : Prop} [Decidable cond] {message : String} {f : Unit → Reader α}
    {s : InputStream} :
    (errorOn cond message >>= f).run s = .ok r ↔ ¬ cond ∧ (f ()).run s = .ok r := by
  by_cases h : cond
  · rw [errorOn, if_pos h]
    refine iff_of_false (fun hrun => ?_) fun hw => hw.1 h
    cases hrun
  · rw [run_bind_of_ok (show (errorOn cond message).run s = .ok ((), s) by
      rw [errorOn, if_neg h]; rfl)]
    exact (and_iff_right h).symm

/-- The bytes of a header have to be there. -/
theorem readHeader_iff {n : BitVec 64} (k : Nat) (hk : n.toNat = k) (hpos : 0 < k)
    (hlt : k < 2 ^ 63) {pos : Nat} {f : Bytes → Reader α} :
    (readHeader path n >>= f).run (streamAt content pos) = .ok r ↔
      pos + k ≤ content.length ∧
        (f ((content.drop pos).take k)).run (streamAt content (pos + k)) = .ok r := by
  subst hk
  have hint : n.toInt = (n.toNat : Int) := BitVec.toInt_eq_toNat_of_lt (by omega)
  have hbytes : ((streamAt content pos).read n).1 = (content.drop pos).take n.toNat :=
    InputStream.read_of_good rfl rfl hlt
  have hlength : ((content.drop pos).take n.toNat).length = min n.toNat (content.length - pos) := by
    rw [List.length_take, List.length_drop]
  have hfile : ((streamAt content pos).read n).2 =
      ⟨content, pos + ((content.drop pos).take n.toNat).length,
        ((content.drop pos).take n.toNat).length ≠ n.toNat,
        ((content.drop pos).take n.toNat).length ≠ n.toNat⟩ := by
    simp only [InputStream.read, streamAt, hint, Int.toNat_natCast, Bool.or_self,
      Bool.false_eq_true, if_false, ne_eq, Int.natCast_inj]
  have hrun : (readHeader path n).run (streamAt content pos) =
      if pos + n.toNat ≤ content.length then
        .ok ((content.drop pos).take n.toNat, streamAt content (pos + n.toNat))
      else .error (.error s!"error reading uimage header: {text path}") := by
    unfold readHeader
    show (errorOn (((streamAt content pos).read n).2.fail = true) _ >>= fun _ =>
      pure ((streamAt content pos).read n).1).run ((streamAt content pos).read n).2 = _
    split
    next hle =>
      have hgood : ((streamAt content pos).read n).2 = streamAt content (pos + n.toNat) := by
        rw [hfile, hlength, Nat.min_eq_left (by omega)]
        simp [streamAt]
      rw [hbytes, hgood]
      rfl
    next hle =>
      have hfail : ((streamAt content pos).read n).2.fail = true := by
        rw [hfile, hlength]
        exact decide_eq_true (by omega)
      rw [errorOn, if_pos hfail]
      rfl
  by_cases hle : pos + n.toNat ≤ content.length
  · rw [if_pos hle] at hrun
    rw [run_bind_of_ok hrun, and_iff_right hle]
  · rw [if_neg hle] at hrun
    rw [run_bind_of_error hrun]
    refine iff_of_false (fun h => ?_) fun h => hle h.1
    cases h

/-- What is written in one byte order is read in the other. -/
theorem bswap_value {bs : Bytes} (hlength : bs.length = 4) :
    bswap (BitVec.ofNat 32 (host.value bs)) = BitVec.ofNat 32 (host.other.value bs) := by
  have hreverses : ByteOrder.Reverses (BitVec.ofNat 32 (host.value bs))
      (bswap (BitVec.ofNat 32 (host.value bs))) := Bitops.bswap32_reverses _
  have hlt := host.value_lt bs
  have hlt' := host.other.value_lt bs
  rw [hlength] at hlt hlt'
  have hbytes : host.bytes (BitVec.ofNat 32 (host.value bs)) = bs := by
    refine @ByteOrder.eq_of_value host _ _ ?_ ?_
    · rw [ByteOrder.length_bytes, hlength]
    · rw [ByteOrder.value_bytes host (by decide), BitVec.toNat_ofNat, Nat.mod_eq_of_lt hlt]
  have hvalue := hreverses.value_bytes (by decide) host
  rw [hbytes] at hvalue
  rw [hvalue, BitVec.ofNat_toNat, BitVec.setWidth_eq]

theorem read32be_iff {pos : Nat} {f : BitVec 32 → Reader α} :
    (read32be host path >>= f).run (streamAt content pos) = .ok r ↔
      pos + 4 ≤ content.length ∧
        (f (host.other.field content pos 32)).run (streamAt content (pos + 4)) = .ok r := by
  unfold read32be
  rw [bind_assoc]
  simp only [pure_bind]
  rw [readHeader_iff 4 rfl (by decide) (by decide)]
  refine and_congr_right fun hle => ?_
  have hlength : ((content.drop pos).take 4).length = 4 := by
    rw [List.length_take, List.length_drop]
    omega
  rw [bswap_value hlength]
  rfl

theorem read8_iff {pos : Nat} {f : UInt8 → Reader α} :
    (read8 path >>= f).run (streamAt content pos) = .ok r ↔
      pos + 1 ≤ content.length ∧
        (f (content.getD pos 0)).run (streamAt content (pos + 1)) = .ok r := by
  unfold read8
  rw [bind_assoc]
  simp only [pure_bind]
  rw [readHeader_iff 1 rfl (by decide) (by decide)]
  refine and_congr_right fun hle => ?_
  have hhead : ((content.drop pos).take 1).headD 0 = content.getD pos 0 := by
    rw [List.drop_eq_getElem_cons (by omega), List.getD_eq_getElem?_getD,
      List.getElem?_eq_getElem (by omega)]
    rfl
  rw [hhead]

theorem readstr_iff {pos : Nat} {f : Bytes → Reader α} :
    (readstr path >>= f).run (streamAt content pos) = .ok r ↔
      pos + 32 ≤ content.length ∧
        (f (((content.drop pos).take 32).takeWhile (· ≠ 0))).run (streamAt content (pos + 32)) =
          .ok r := by
  unfold readstr
  rw [bind_assoc]
  simp only [pure_bind]
  rw [readHeader_iff 32 rfl (by decide) (by decide)]

/-! ## The header -/

/-- The files that the constructor accepts.  The fields of 32 bits are in the byte order that the
host does not have. -/
structure WellFormed (host : ByteOrder) (content : Bytes) : Prop where
  length : 64 ≤ content.length
  magic : host.other.field content 0 32 = 0x27051956#32
  os : content.getD 28 0 ≠ 0
  arch : content.getD 29 0 ≠ 0
  type : content.getD 30 0 ≠ 0

/-- The object for a file. -/
def image (host : ByteOrder) (path content : Bytes) : Uimage where
  path := path
  name := ((content.drop 32).take 32).takeWhile (· ≠ 0)
  size := (host.other.field content 12 32).setWidth 64
  date := (host.other.field content 8 32).setWidth 64
  os := content.getD 28 0
  arch := content.getD 29 0
  type := content.getD 30 0
  comp := content.getD 31 0
  load := host.other.field content 16 32
  entry := host.other.field content 20 32
  file := streamAt content 64

/-- The constructor accepts exactly the well-formed files. -/
theorem uimage_iff {img : Uimage} :
    uimage host path (some content) = .ok img ↔
      WellFormed host content ∧ img = image host path content := by
  have hrun : ∀ file, (readImage host path).run (streamAt content 0) = .ok (img, file) ↔
      WellFormed host content ∧ img = image host path content ∧ file = streamAt content 64 := by
    intro file
    unfold readImage
    simp only [read32be_iff, errorOn_iff, read8_iff, readstr_iff, ne_eq, Decidable.not_not]
    constructor
    · rintro ⟨-, hmagic, -, -, -, -, -, -, -, hos, -, harch, -, htype, -, hname, h⟩
      cases h
      exact ⟨⟨hname, hmagic, hos, harch, htype⟩, rfl, rfl⟩
    · rintro ⟨⟨hlength, hmagic, hos, harch, htype⟩, rfl, rfl⟩
      have hle : ∀ n, n ≤ 64 → n ≤ content.length := fun n hn => Nat.le_trans hn hlength
      exact ⟨hle _ (by decide), hmagic, hle _ (by decide), hle _ (by decide), hle _ (by decide),
        hle _ (by decide), hle _ (by decide), hle _ (by decide), hle _ (by decide), hos,
        hle _ (by decide), harch, hle _ (by decide), htype, hle _ (by decide), hlength, rfl⟩
  constructor
  · intro h
    obtain ⟨file, hfile⟩ := fst_eq_ok (σ := InputStream) h
    obtain ⟨hwell, himg, -⟩ := (hrun file).1 hfile
    exact ⟨hwell, himg⟩
  · rintro ⟨hwell, himg⟩
    have hfile := (hrun _).2 ⟨hwell, himg, rfl⟩
    show (readImage host path).run (streamAt content 0) >>= (fun p => .ok p.1) = .ok img
    rw [hfile]
    rfl

/-! ## Reading -/

/-- The bytes that `read(dest, size, offset)` is asked for, as far as they are in the file. -/
def window (content : Bytes) (r : BitVec 64 × BitVec 64) : Bytes :=
  (content.drop (0x40 + r.2.toNat)).take r.1.toNat

/-- A call of `read` in a series. -/
def readM (r : BitVec 64 × BitVec 64) : StateT Uimage (Except Fault) Bytes :=
  fun img => img.read r.1 r.2

/-- A call for a part of the payload gives what the file has there, and the file is in order
afterwards if and only if that is all. -/
theorem read_window {img : Uimage} (hcontent : img.file.content = content)
    (hfile : img.file.fail = false) (hsize : img.size.toNat < 2 ^ 32) {r : BitVec 64 × BitVec 64}
    (hr : r.2.toNat + r.1.toNat ≤ img.size.toNat) :
    ∃ img', (readM r).run img = .ok (window content r, img') ∧ img'.file.content = content ∧
      img'.size = img.size ∧
      (img'.file.fail = false ↔ (window content r).length = r.1.toNat) := by
  obtain ⟨size, offset⟩ := r
  have hr : offset.toNat + size.toNat ≤ img.size.toNat := hr
  have hadd : (size + offset).toNat = size.toNat + offset.toNat := by
    rw [BitVec.toNat_add]
    exact Nat.mod_eq_of_lt (by omega)
  have hbeyond : ¬ img.size < size + offset := by
    rw [BitVec.lt_def, hadd]
    omega
  have hpos : (offset + 0x40#64).toNat = 0x40 + offset.toNat := by
    rw [BitVec.toNat_add, BitVec.toNat_ofNat, Nat.add_comm]
    exact Nat.mod_eq_of_lt (by omega)
  let stream : InputStream := { img.file with eof := false, pos := 0x40 + offset.toNat }
  have hseek : img.file.seekBeg (offset + 0x40#64) = stream := by
    rw [InputStream.seekBeg_of_good hfile (by omega), hpos]
  have hread := read_of_accepted hfile hbeyond
  rw [hseek] at hread
  have hbytes : (stream.read size).1 = window content (size, offset) := by
    rw [InputStream.read_of_good (s := stream) hfile rfl (by omega)]
    show (img.file.content.drop _).take _ = _
    rw [hcontent]
    rfl
  have hint : size.toInt = (size.toNat : Int) := BitVec.toInt_eq_toNat_of_lt (by omega)
  have hgood : stream.fail = false := hfile
  have hfail : (stream.read size).2.fail =
      decide ((window content (size, offset)).length ≠ size.toNat) := by
    rw [← hbytes]
    simp only [InputStream.read, hgood, hint, Int.toNat_natCast, ne_eq, Int.natCast_inj]
    rfl
  refine ⟨{ img with file := (stream.read size).2 }, ?_, ?_, rfl, ?_⟩
  · rw [← hbytes]
    exact hread
  · exact (InputStream.content_read stream size).trans hcontent
  · show (stream.read size).2.fail = false ↔ _
    rw [hfail, decide_eq_false_iff_not, ne_eq, Decidable.not_not]

theorem readM_of_failed {img : Uimage} (hfile : img.file.fail = true)
    (r : BitVec 64 × BitVec 64) : (readM r).run img = .error (.error "invalid uimage") :=
  read_of_failed hfile

/-- A series of calls for parts of the payload. -/
theorem reads_iff {img : Uimage} (hcontent : img.file.content = content)
    (hfile : img.file.fail = false) (hsize : img.size.toNat < 2 ^ 32)
    {reads : List (BitVec 64 × BitVec 64)}
    (hreads : ∀ r ∈ reads, r.2.toNat + r.1.toNat ≤ img.size.toNat) :
    (∀ results img', (reads.mapM readM).run img = .ok (results, img') →
      results = reads.map (window content)) ∧
    ((∃ p, (reads.mapM readM).run img = .ok p) ↔
      ∀ r ∈ reads.dropLast, (window content r).length = r.1.toNat) := by
  induction reads generalizing img with
  | nil =>
    refine ⟨fun results img' h => ?_, iff_of_true ⟨_, rfl⟩ fun r hr => ?_⟩
    · cases h
      rfl
    · exact absurd hr List.not_mem_nil
  | cons r reads ih =>
    obtain ⟨img₁, hread, hcontent₁, hsize₁, hfail₁⟩ :=
      read_window hcontent hfile hsize (hreads r List.mem_cons_self)
    have hreads₁ : ∀ r ∈ reads, r.2.toNat + r.1.toNat ≤ img₁.size.toNat := by
      rw [hsize₁]
      exact fun r' hr' => hreads r' (List.mem_cons_of_mem r hr')
    have hrun : ((r :: reads).mapM readM).run img =
        ((reads.mapM readM) >>= fun bs => pure (window content r :: bs)).run img₁ := by
      rw [List.mapM_cons, run_bind_of_ok hread]
    rw [hrun]
    cases reads with
    | nil =>
      refine ⟨fun results img' h => ?_, iff_of_true ⟨_, rfl⟩ fun r hr => ?_⟩
      · cases h
        rfl
      · exact absurd hr List.not_mem_nil
    | cons r₁ reads =>
      rw [List.dropLast_cons_cons, List.forall_mem_cons]
      cases hfile₁ : img₁.file.fail with
      | false =>
        obtain ⟨hresults, hok⟩ := ih hcontent₁ hfile₁ (by rw [hsize₁]; exact hsize) hreads₁
        rw [and_iff_right (hfail₁.1 hfile₁), ← hok]
        refine ⟨fun results img' h => ?_, ⟨fun ⟨p, h⟩ => ?_, fun ⟨p, h⟩ => ?_⟩⟩
        · obtain ⟨bs, img₂, hbs, h⟩ := run_bind_eq_ok.1 h
          cases h
          rw [hresults bs _ hbs]
          rfl
        · obtain ⟨bs, img₂, hbs, -⟩ := run_bind_eq_ok.1 h
          exact ⟨_, hbs⟩
        · exact ⟨(window content r :: p.1, p.2), run_bind_eq_ok.2 ⟨p.1, p.2, h, rfl⟩⟩
      | true =>
        -- the file has failed, and so does the next call
        have herror : (((r₁ :: reads).mapM readM) >>= fun bs =>
            pure (window content r :: bs)).run img₁ = .error (.error "invalid uimage") := by
          refine run_bind_of_error ?_
          rw [List.mapM_cons]
          exact run_bind_of_error (readM_of_failed hfile₁ r₁)
        rw [herror]
        refine ⟨fun _ _ h => ?_, iff_of_false (fun ⟨_, h⟩ => ?_) fun h => ?_⟩
        · cases h
        · cases h
        · rw [hfail₁.2 h.1] at hfile₁
          cases hfile₁

/-- The constructor accepts exactly the well-formed files, with the fields as they are in the file.
A series of calls of `read` for parts of the payload gives the bytes that the file has there, and
aborts exactly if one that is not the last is for more than the file has. -/
theorem uimage_format (host : ByteOrder) (path content : Bytes) :
    (∀ img, uimage host path (some content) = .ok img ↔
      WellFormed host content ∧ img = image host path content) ∧
    ∀ reads : List (BitVec 64 × BitVec 64),
      (∀ r ∈ reads, r.2.toNat + r.1.toNat ≤ (image host path content).size.toNat) →
      (∀ results img', (reads.mapM readM).run (image host path content) = .ok (results, img') →
        results = reads.map (window content)) ∧
      ((∃ p, (reads.mapM readM).run (image host path content) = .ok p) ↔
        ∀ r ∈ reads.dropLast, (window content r).length = r.1.toNat) := by
  refine ⟨fun img => uimage_iff, fun reads hreads => reads_iff rfl rfl ?_ hreads⟩
  show ((host.other.field content 12 32).setWidth 64).toNat < 2 ^ 32
  rw [BitVec.toNat_setWidth_of_le (by decide)]
  exact (host.other.field content 12 32).isLt

end Mwr.Uimage
