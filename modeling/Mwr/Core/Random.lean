import Mwr.Core.FdIo

/-!
# Random bytes

A translation of `fill_random` of `src/mwr/core/utils.cpp`, for POSIX and for Windows.  The
results of the calls of the system are a parameter.

* `returns_iff` says how a run of `read` calls ends that fills a buffer.
* `Correct` is what the function is for, and `Filling` the invariant of the loop for Windows.
* `correct_iff` says for which results the function does it.
-/

namespace Mwr.Random

open Mwr.CodeLib
open Mwr.CodeLib.Loop
open Mwr.FdIo

/-! ## The code -/

/-- The results of the calls that the function makes. -/
inductive Results where
  /-- `open`, and the calls of `read`. -/
  | posix (fd : Int) (reads : Nat → Outcome)
  /-- `CryptAcquireContext`, and the calls of `CryptGenRandom`. -/
  | windows (acquired : Bool) (generated : Nat → Bool)

/-- The variables of the loop for Windows, and the number of calls so far. -/
structure Variables where
  calls : Nat
  len : Nat
  ptr : Nat
  data : Input

/-- `while (len < bufsz)`. -/
def generate (generated : Nat → Bool) (random : Nat → UInt8) (bufsz : Nat) (s : Variables) :
    Round Variables Variables :=
  if s.len < bufsz then
    let rem := (bufsz - s.len) % 2 ^ 32
    let num := min rem u32Max
    if generated s.calls then
      .next ⟨s.calls + 1, s.len + num, s.ptr + num, receive random s.ptr num s.data⟩
    else .done ⟨s.calls + 1, s.len, s.ptr, s.data⟩
  else .done s

/-- `fill_random(buffer, bufsz)`.  The random bytes that the system gives are a stream. -/
def fillRandom (results : Results) (random : Nat → UInt8) (buffer bufsz fuel : Nat)
    (d : Input) : Option (Bool × Input) :=
  match results with
  | .posix fd reads =>
    if fd < 0 then some (false, d)
    else do
      let (n, w) ← fdRead .posix none reads random fd buffer bufsz fuel ⟨0, false, d⟩
      some (n != 0, w.data)
  | .windows acquired generated =>
    if !acquired then some (false, d)
    else do
      let s ← run (generate generated random bufsz) fuel ⟨0, 0, buffer, d⟩
      some (s.len == bufsz, s.data)

/-! ## What the function is for -/

/-- The function ends, and reports success if and only if it has overwritten all bytes of the
buffer with random data. -/
def Correct (results : Results) (random : Nat → UInt8) (buffer bufsz : Nat) (d : Input) : Prop :=
  ∃ fuel ok d', fillRandom results random buffer bufsz fuel d = some (ok, d') ∧
    (ok = true ↔ d' = receive random buffer bufsz d)

/-- The bytes that a call gives. -/
def bytes : Outcome → Nat
  | .count n => n
  | .eintr => 0
  | .error => 0

/-- The bytes that the first `k` calls give. -/
def total (reads : Nat → Outcome) : Nat → Nat
  | 0 => 0
  | k + 1 => total reads k + bytes (reads k)

/-- The calls give all bytes before the end of the file or an error. -/
def Fills (reads : Nat → Outcome) (bufsz : Nat) : Prop :=
  ∃ k, (∀ j, j < k → (reads j).stops = false) ∧ bufsz ≤ total reads k

/-- The first call that is not interrupted reports the end of the file or an error. -/
def Refuses (reads : Nat → Outcome) : Prop :=
  ∃ k, (∀ j, j < k → reads j = .eintr) ∧ (reads k).stops = true

/-- The results for which the function is correct. -/
def Sound (results : Results) (bufsz : Nat) : Prop :=
  match results with
  | .posix fd reads => fd < 0 ∨ Fills reads bufsz ∨ Refuses reads
  | .windows acquired generated => acquired = false ∨ bufsz < 2 ^ 32 ∨ ∃ k, generated k = false

variable {reads : Nat → Outcome} {random : Nat → UInt8} {buffer bufsz k : Nat} {d : Input}

/-! ## POSIX -/

theorem total_mono {j k : Nat} (h : j ≤ k) : total reads j ≤ total reads k := by
  induction h with
  | refl => exact Nat.le_refl _
  | step _ ih => exact Nat.le_trans ih (Nat.le_add_right _ _)

theorem total_of_count {n : Nat} (h : reads k = .count n) :
    total reads (k + 1) = total reads k + n := by
  rw [total, h, bytes]

theorem total_of_eintr (h : reads k = .eintr) : total reads (k + 1) = total reads k := by
  rw [total, h, bytes, Nat.add_zero]

/-- Calls that give nothing and do not end the transfer are interrupted. -/
theorem total_eq_zero_iff (h : ∀ j, j < k → (reads j).stops = false) :
    total reads k = 0 ↔ ∀ j, j < k → reads j = .eintr := by
  induction k with
  | zero => exact ⟨fun _ j hj => absurd hj (Nat.not_lt_zero j), fun _ => rfl⟩
  | succ k ih =>
    have hlast := h k (Nat.lt_succ_self k)
    rw [total, Nat.add_eq_zero_iff, ih fun j hj => h j (Nat.lt_succ_of_lt hj)]
    constructor
    · rintro ⟨hall, hbytes⟩ j hj
      rcases Nat.lt_succ_iff_lt_or_eq.1 hj with hj | rfl
      · exact hall j hj
      · cases ho : reads j with
        | count n =>
          rw [ho] at hlast hbytes
          exact absurd hbytes (ne_of_beq_false hlast)
        | eintr => rfl
        | error =>
          rw [ho] at hlast
          cases hlast
    · intro hall
      refine ⟨fun j hj => hall j (Nat.lt_succ_of_lt hj), ?_⟩
      rw [hall k (Nat.lt_succ_self k), bytes]

/-- The state of the loop of `fd_read` after the first calls. -/
structure Reached (reads : Nat → Outcome) (bufsz : Nat) (s : Nat × World Input) : Prop where
  done : s.1 = min bufsz (total reads s.2.calls)
  going : ∀ j, j < s.2.calls → (reads j).stops = false

theorem Reached.next {s s' : Nat × World Input} (h : Reached reads bufsz s)
    (hround : callOnce .posix (sysCall reads (receive random)) buffer bufsz s = .next s') :
    Reached reads bufsz s' := by
  obtain ⟨done, w⟩ := s
  obtain ⟨hdone, hgoing⟩ := h
  by_cases hlt : done < bufsz
  · rcases callOnce_cases .posix reads buffer w (additive_receive random) hlt with
      ⟨n, ho, hn, hnext⟩ | ⟨ho, hnext⟩ | ⟨-, e, hstop⟩
    · rw [hround] at hnext
      obtain rfl := Round.next.inj hnext
      refine ⟨?_, fun j hj => ?_⟩
      · dsimp only [Platform.request] at hdone ⊢
        rw [total_of_count ho]
        omega
      · rcases Nat.lt_succ_iff_lt_or_eq.1 hj with hj | rfl
        · exact hgoing j hj
        · rw [ho]
          exact beq_false_of_ne (Nat.ne_of_gt hn)
    · rw [hround] at hnext
      obtain rfl := Round.next.inj hnext
      refine ⟨hdone.trans (by rw [total_of_eintr ho]), fun j hj => ?_⟩
      rcases Nat.lt_succ_iff_lt_or_eq.1 hj with hj | rfl
      · exact hgoing j hj
      · rw [ho]
        rfl
    · rw [hround] at hstop
      cases hstop
  · rw [callOnce_of_full hlt] at hround
    cases hround

/-- A run of calls that fills the buffer or is ended. -/
def Ends (reads : Nat → Outcome) (bufsz k : Nat) : Prop :=
  (∀ j, j < k → (reads j).stops = false) ∧ (bufsz ≤ total reads k ∨ (reads k).stops = true)

theorem Reached.ends {s r : Nat × World Input} (h : Reached reads bufsz s)
    (hround : callOnce .posix (sysCall reads (receive random)) buffer bufsz s = .done r) :
    ∃ k, Ends reads bufsz k ∧ r.1 = min bufsz (total reads k) := by
  obtain ⟨done, w⟩ := s
  obtain ⟨hdone, hgoing⟩ := h
  dsimp only at hdone
  refine ⟨w.calls, ⟨hgoing, ?_⟩, ?_⟩
  · by_cases hlt : done < bufsz
    · rcases callOnce_cases .posix reads buffer w (additive_receive random) hlt with
        ⟨n, -, -, hnext⟩ | ⟨-, hnext⟩ | ⟨hstops, -⟩
      · rw [hround] at hnext
        cases hnext
      · rw [hround] at hnext
        cases hnext
      · exact .inr hstops
    · left
      omega
  · by_cases hlt : done < bufsz
    · rcases callOnce_cases .posix reads buffer w (additive_receive random) hlt with
        ⟨n, -, -, hnext⟩ | ⟨-, hnext⟩ | ⟨-, e, hstop⟩
      · rw [hround] at hnext
        cases hnext
      · rw [hround] at hnext
        cases hnext
      · rw [hround] at hstop
        obtain rfl := Round.done.inj hstop
        exact hdone
    · rw [callOnce_of_full hlt] at hround
      obtain rfl := Round.done.inj hround
      exact hdone

/-- The loop gets to the call where the run ends, by the number of calls up to there. -/
theorem Reached.returns {s : Nat × World Input} (h : Reached reads bufsz s)
    (hend : Ends reads bufsz k) (hle : s.2.calls ≤ k) :
    ∃ r, Returns (callOnce .posix (sysCall reads (receive random)) buffer bufsz) s r ∧
      r.1 = min bufsz (total reads k) := by
  induction hm : k - s.2.calls generalizing s with
  | zero =>
    obtain ⟨done, w⟩ := s
    obtain rfl : w.calls = k := by dsimp only at hle hm; omega
    have hdone := h.done
    by_cases hlt : done < bufsz
    · have hstops : (reads w.calls).stops = true :=
        hend.2.resolve_left (by dsimp only at hdone; omega)
      rcases callOnce_cases .posix reads buffer w (additive_receive random) hlt with
        ⟨n, ho, hn, -⟩ | ⟨ho, -⟩ | ⟨-, e, hstop⟩
      · rw [ho] at hstops
        exact absurd (eq_of_beq hstops) (Nat.ne_of_gt hn)
      · rw [ho] at hstops
        cases hstops
      · exact ⟨_, returns_of_done hstop, hdone⟩
    · exact ⟨_, returns_of_done (callOnce_of_full hlt), hdone⟩
  | succ m ih =>
    obtain ⟨done, w⟩ := s
    have hdone := h.done
    dsimp only at hle hm hdone
    by_cases hlt : done < bufsz
    · rcases callOnce_cases .posix reads buffer w (additive_receive random) hlt with
        ⟨n, -, -, hnext⟩ | ⟨-, hnext⟩ | ⟨hstops, -⟩
      · obtain ⟨r, hr, hr'⟩ := ih (h.next hnext) (by dsimp only; omega) (by dsimp only; omega)
        exact ⟨r, returns_of_next hnext hr, hr'⟩
      · obtain ⟨r, hr, hr'⟩ := ih (h.next hnext) (by dsimp only; omega) (by dsimp only; omega)
        exact ⟨r, returns_of_next hnext hr, hr'⟩
      · rw [hend.1 w.calls (by omega)] at hstops
        cases hstops
    · have hmono : total reads w.calls ≤ total reads k := total_mono hle
      exact ⟨_, returns_of_done (callOnce_of_full hlt), by dsimp only; omega⟩

theorem reached_start (d : Input) : Reached reads bufsz (0, ⟨0, false, d⟩) :=
  ⟨(Nat.min_eq_right (Nat.zero_le bufsz)).symm, fun j hj => absurd hj (Nat.not_lt_zero j)⟩

/-- The number of bytes that `fd_read` returns. -/
theorem returns_iff {n : Nat} :
    (∃ w', Returns (callOnce .posix (sysCall reads (receive random)) buffer bufsz)
        (0, ⟨0, false, d⟩) (n, w')) ↔
      ∃ k, Ends reads bufsz k ∧ n = min bufsz (total reads k) := by
  constructor
  · rintro ⟨w', h⟩
    exact h.of_invariant (Q := fun r => ∃ k, Ends reads bufsz k ∧ r.1 = min bufsz (total reads k))
      (fun _ _ hs hround => hs.next hround) (fun _ _ hs hround => hs.ends hround)
      (reached_start d)
  · rintro ⟨k, hend, rfl⟩
    obtain ⟨⟨n, w'⟩, hr, hn⟩ := (reached_start d).returns hend (Nat.zero_le k)
    exact ⟨w', hn ▸ hr⟩

/-- The run that fills the buffer, and the one that does not give any byte. -/
theorem fills_or_refuses_iff (hpos : 0 < bufsz) :
    Fills reads bufsz ∨ Refuses reads ↔
      ∃ k, Ends reads bufsz k ∧ (bufsz ≤ total reads k ∨ total reads k = 0) := by
  constructor
  · rintro (⟨k, hgoing, hfull⟩ | ⟨k, hint, hstops⟩)
    · exact ⟨k, ⟨hgoing, .inl hfull⟩, .inl hfull⟩
    · have hgoing : ∀ j, j < k → (reads j).stops = false := fun j hj => by rw [hint j hj]; rfl
      exact ⟨k, ⟨hgoing, .inr hstops⟩, .inr ((total_eq_zero_iff hgoing).2 hint)⟩
  · rintro ⟨k, ⟨hgoing, hend⟩, hfull | hzero⟩
    · exact .inl ⟨k, hgoing, hfull⟩
    · exact .inr ⟨k, (total_eq_zero_iff hgoing).1 hzero, hend.resolve_left (by omega)⟩

theorem fillRandom_posix_iff {fd : Int} (hfd : ¬ fd < 0) (hbuffer : buffer ≠ 0) {ok : Bool}
    {d' : Input} :
    (∃ fuel, fillRandom (.posix fd reads) random buffer bufsz fuel d = some (ok, d')) ↔
      ∃ n w', Returns (callOnce .posix (sysCall reads (receive random)) buffer bufsz)
        (0, ⟨0, false, d⟩) (n, w') ∧ (n != 0) = ok ∧ w'.data = d' := by
  simp only [← fdRead_iff (readsConsole_posix fd none) (Int.not_lt.1 hfd) hbuffer]
  constructor
  · rintro ⟨fuel, h⟩
    rw [fillRandom, if_neg hfd] at h
    obtain ⟨⟨n, w'⟩, hread, h⟩ := Option.bind_eq_some_iff.1 h
    obtain ⟨hok, hdata⟩ := Prod.mk.inj (Option.some.inj h)
    exact ⟨n, w', ⟨fuel, hread⟩, hok, hdata⟩
  · rintro ⟨n, w', ⟨fuel, hread⟩, rfl, rfl⟩
    refine ⟨fuel, ?_⟩
    rw [fillRandom, if_neg hfd, hread]
    rfl

/-- The buffer is full when all bytes have left the stream. -/
theorem receive_eq_iff {n : Nat} :
    receive random buffer n d = receive random buffer bufsz d ↔ n = bufsz := by
  constructor
  · intro h
    exact Nat.add_left_cancel (congrArg Input.pos h)
  · rintro rfl
    rfl

theorem receive_ne (hpos : 0 < bufsz) : d ≠ receive random buffer bufsz d := fun h => by
  have hdata : d.pos = d.pos + bufsz := congrArg Input.pos h
  omega

theorem correct_of_error {results : Results} (hpos : 0 < bufsz) (fuel : Nat)
    (h : fillRandom results random buffer bufsz fuel d = some (false, d)) :
    Correct results random buffer bufsz d :=
  ⟨fuel, false, d, h, fun hok => absurd hok Bool.false_ne_true,
    fun hfull => absurd hfull (receive_ne hpos)⟩

/-- The number of bytes is reported as success unless it is `0`. -/
theorem correct_iff_returns {fd : Int} (hfd : ¬ fd < 0) (hpos : 0 < bufsz)
    (hbuffer : buffer ≠ 0) :
    Correct (.posix fd reads) random buffer bufsz d ↔
      ∃ n, (∃ w', Returns (callOnce .posix (sysCall reads (receive random)) buffer bufsz)
        (0, ⟨0, false, d⟩) (n, w')) ∧ (n = bufsz ∨ n = 0) := by
  constructor
  · rintro ⟨fuel, ok, d', hfill, hok⟩
    obtain ⟨n, w', hr, rfl, rfl⟩ := (fillRandom_posix_iff hfd hbuffer).1 ⟨fuel, hfill⟩
    have hdata : w'.data = receive random buffer n d :=
      (moved_of_returns (additive_receive random) hr).data
    rw [hdata, receive_eq_iff, bne_iff_ne] at hok
    exact ⟨n, ⟨w', hr⟩, or_iff_not_imp_right.2 hok.1⟩
  · rintro ⟨n, ⟨w', hr⟩, hn⟩
    have hdata : w'.data = receive random buffer n d :=
      (moved_of_returns (additive_receive random) hr).data
    obtain ⟨fuel, hfill⟩ := (fillRandom_posix_iff hfd hbuffer).2 ⟨n, w', hr, rfl, rfl⟩
    refine ⟨fuel, _, _, hfill, ?_⟩
    rw [hdata, receive_eq_iff, bne_iff_ne]
    omega

theorem correct_posix_iff {fd : Int} (hpos : 0 < bufsz) (hbuffer : buffer ≠ 0) :
    Correct (.posix fd reads) random buffer bufsz d ↔ Sound (.posix fd reads) bufsz := by
  by_cases hfd : fd < 0
  · exact iff_of_true (correct_of_error hpos 0 (if_pos hfd)) (.inl hfd)
  · rw [correct_iff_returns hfd hpos hbuffer, Sound, or_iff_right hfd, fills_or_refuses_iff hpos]
    constructor
    · rintro ⟨n, hr, hn⟩
      obtain ⟨k, hend, rfl⟩ := returns_iff.1 hr
      exact ⟨k, hend, by omega⟩
    · rintro ⟨k, hend, hk⟩
      exact ⟨_, returns_iff.2 ⟨k, hend, rfl⟩, by omega⟩

/-! ## Windows -/

/-- The invariant of the loop. -/
structure Filling (random : Nat → UInt8) (buffer bufsz : Nat) (d : Input) (s : Variables) :
    Prop where
  le : s.len ≤ bufsz
  ptr : s.ptr = buffer + s.len
  data : s.data = receive random buffer s.len d

variable {generated : Nat → Bool} {s s' : Variables}

/-- The sizes that are passed to the system are cut to 32 bits. -/
theorem generate_of_generated (hlt : s.len < bufsz) (h : generated s.calls = true) :
    generate generated random bufsz s =
      .next ⟨s.calls + 1, s.len + (bufsz - s.len) % 2 ^ 32, s.ptr + (bufsz - s.len) % 2 ^ 32,
        receive random s.ptr ((bufsz - s.len) % 2 ^ 32) s.data⟩ := by
  have hmin : min ((bufsz - s.len) % 2 ^ 32) u32Max = (bufsz - s.len) % 2 ^ 32 :=
    Nat.min_eq_left (Nat.le_sub_one_of_lt (Nat.mod_lt _ (by decide)))
  rw [generate, if_pos hlt]
  dsimp only
  rw [if_pos h, hmin]

theorem generate_of_failed (hlt : s.len < bufsz) (h : generated s.calls = false) :
    generate generated random bufsz s = .done ⟨s.calls + 1, s.len, s.ptr, s.data⟩ := by
  rw [generate, if_pos hlt]
  dsimp only
  rw [if_neg (by rw [h]; exact Bool.false_ne_true)]

theorem generate_of_full (hge : ¬ s.len < bufsz) :
    generate generated random bufsz s = .done s := if_neg hge

theorem Filling.next (h : Filling random buffer bufsz d s)
    (hround : generate generated random bufsz s = .next s') :
    Filling random buffer bufsz d s' := by
  by_cases hlt : s.len < bufsz
  · cases hgen : generated s.calls with
    | true =>
      rw [generate_of_generated hlt hgen] at hround
      obtain rfl := Round.next.inj hround
      have hmod := Nat.mod_le (bufsz - s.len) (2 ^ 32)
      refine ⟨by dsimp only; omega, ?_, ?_⟩
      · dsimp only
        rw [h.ptr, Nat.add_assoc]
      · dsimp only
        rw [h.ptr, h.data, (additive_receive random).add]
    | false =>
      rw [generate_of_failed hlt hgen] at hround
      cases hround
  · rw [generate_of_full hlt] at hround
    cases hround

theorem Filling.done {r : Variables} (h : Filling random buffer bufsz d s)
    (hround : generate generated random bufsz s = .done r) :
    Filling random buffer bufsz d r := by
  by_cases hlt : s.len < bufsz
  · cases hgen : generated s.calls with
    | true =>
      rw [generate_of_generated hlt hgen] at hround
      cases hround
    | false =>
      rw [generate_of_failed hlt hgen] at hround
      obtain rfl := Round.done.inj hround
      exact ⟨h.le, h.ptr, h.data⟩
  · rw [generate_of_full hlt] at hround
    obtain rfl := Round.done.inj hround
    exact h

theorem filling_start : Filling random buffer bufsz d ⟨0, 0, buffer, d⟩ :=
  ⟨Nat.zero_le bufsz, rfl, ((additive_receive random).zero buffer d).symm⟩

/-- A failure ends the loop, by the number of calls up to there. -/
theorem returns_of_failure (hfail : generated k = false) (hle : s.calls ≤ k) :
    ∃ r, Returns (generate generated random bufsz) s r := by
  induction hm : k - s.calls generalizing s with
  | zero =>
    obtain hk : s.calls = k := by omega
    by_cases hlt : s.len < bufsz
    · exact ⟨_, returns_of_done (generate_of_failed hlt (hk ▸ hfail))⟩
    · exact ⟨_, returns_of_done (generate_of_full hlt)⟩
  | succ m ih =>
    by_cases hlt : s.len < bufsz
    · cases hgen : generated s.calls with
      | true =>
        obtain ⟨r, hr⟩ := ih (s := ⟨s.calls + 1, s.len + (bufsz - s.len) % 2 ^ 32,
          s.ptr + (bufsz - s.len) % 2 ^ 32,
          receive random s.ptr ((bufsz - s.len) % 2 ^ 32) s.data⟩)
          (by dsimp only; omega) (by dsimp only; omega)
        exact ⟨r, returns_of_next (generate_of_generated hlt hgen) hr⟩
      | false => exact ⟨_, returns_of_done (generate_of_failed hlt hgen)⟩
    · exact ⟨_, returns_of_done (generate_of_full hlt)⟩

/-- A size of 32 bits is passed to the system at once. -/
theorem returns_of_lt (hlt : bufsz < 2 ^ 32) :
    ∃ r, Returns (generate generated random bufsz) ⟨0, 0, buffer, d⟩ r := by
  by_cases hpos : 0 < bufsz
  · cases hgen : generated 0 with
    | true =>
      refine ⟨_, returns_of_next (generate_of_generated hpos hgen)
        (returns_of_done (generate_of_full ?_))⟩
      dsimp only
      omega
    | false => exact ⟨_, returns_of_done (generate_of_failed hpos hgen)⟩
  · exact ⟨_, returns_of_done (generate_of_full hpos)⟩

/-- A larger size leaves a multiple of 2^32 bytes, of which none is passed to the system. -/
theorem not_returns_of_le (hle : 2 ^ 32 ≤ bufsz) (hgen : ∀ k, generated k = true)
    (r : Variables) : ¬ Returns (generate generated random bufsz) ⟨0, 0, buffer, d⟩ r := by
  refine not_returns_of_invariant
    (I := fun s => s.len < bufsz ∧ (s.len = 0 ∨ (bufsz - s.len) % 2 ^ 32 = 0)) ?_
    ⟨by dsimp only; omega, .inl rfl⟩
  rintro s ⟨hlt, hrest⟩
  refine ⟨_, generate_of_generated hlt (hgen s.calls), ?_⟩
  dsimp only
  omega

/-- On Windows the result is right whenever there is one. -/
theorem correct_iff_generate (acquired : Bool) (h : acquired = true) :
    Correct (.windows acquired generated) random buffer bufsz d ↔
      ∃ r, Returns (generate generated random bufsz) ⟨0, 0, buffer, d⟩ r := by
  subst h
  constructor
  · rintro ⟨fuel, ok, d', hfill, -⟩
    obtain ⟨r, hr, -⟩ := Option.bind_eq_some_iff.1 hfill
    exact ⟨r, fuel, hr⟩
  · rintro ⟨r, fuel, hr⟩
    have hfilling : Filling random buffer bufsz d r :=
      Returns.of_invariant (fun _ _ hs hround => hs.next hround)
        (fun _ _ hs hround => hs.done hround) ⟨fuel, hr⟩ filling_start
    refine ⟨fuel, r.len == bufsz, r.data, Option.bind_eq_some_iff.2 ⟨r, hr, rfl⟩, ?_⟩
    rw [hfilling.data, receive_eq_iff, beq_iff_eq]

theorem correct_windows_iff (hpos : 0 < bufsz) {acquired : Bool} :
    Correct (.windows acquired generated) random buffer bufsz d ↔
      Sound (.windows acquired generated) bufsz := by
  cases hacq : acquired with
  | false => exact iff_of_true (correct_of_error hpos 0 rfl) (.inl rfl)
  | true =>
    rw [correct_iff_generate true rfl, Sound, or_iff_right (Bool.noConfusion : true ≠ false)]
    constructor
    · rintro ⟨r, hr⟩
      by_contra hnone
      obtain ⟨hge, hgen⟩ := not_or.1 hnone
      refine not_returns_of_le (Nat.le_of_not_lt hge) (fun k => ?_) r hr
      exact eq_true_of_ne_false fun hk => hgen ⟨k, hk⟩
    · rintro (hlt | ⟨k, hk⟩)
      · exact returns_of_lt hlt
      · exact returns_of_failure hk (Nat.zero_le k)

/-! ## Results -/

/-- `fill_random` is correct if and only if the calls of `read` fill the buffer or give no byte
at all, or if the size has 32 bits or a call of `CryptGenRandom` fails. -/
theorem correct_iff (results : Results) (random : Nat → UInt8) (buffer : Nat)
    (hbuffer : buffer ≠ 0) (bufsz : Nat) (hpos : 0 < bufsz) (d : Input) :
    Correct results random buffer bufsz d ↔ Sound results bufsz := by
  cases results with
  | posix fd reads => exact correct_posix_iff hpos hbuffer
  | windows acquired generated => exact correct_windows_iff hpos

/-- Three bytes, with interruptions in between. -/
theorem correct_iff_everyOther :
    Correct (.posix 3 everyOther) UInt8.ofNat 16 3 ⟨fun _ => 0, 0, 0⟩ ↔
      Sound (.posix 3 everyOther) 3 :=
  correct_iff (.posix 3 everyOther) UInt8.ofNat 16 (by decide) 3 (by decide) ⟨fun _ => 0, 0, 0⟩

/-- A byte, and then an error. -/
def oneByte (k : Nat) : Outcome := if k = 0 then .count 1 else .error

/-- One of two bytes is a success, and `2 ^ 32` bytes are never done. -/
theorem incorrect :
    ¬ Correct (.posix 3 oneByte) UInt8.ofNat 16 2 ⟨fun _ => 0, 0, 0⟩ ∧
      ¬ Correct (.windows true fun _ => true) UInt8.ofNat 16 (2 ^ 32) ⟨fun _ => 0, 0, 0⟩ := by
  constructor
  · rw [correct_posix_iff (by decide) (by decide)]
    rintro (hfd | ⟨k, hgoing, hfull⟩ | ⟨k, hint, hstops⟩)
    · exact absurd hfd (by decide)
    · rcases Nat.lt_or_ge 1 k with hk | hk
      · exact absurd (hgoing 1 hk) (by decide)
      · exact absurd (Nat.le_trans hfull (total_mono hk)) (by decide)
    · rcases Nat.eq_zero_or_pos k with rfl | hk
      · exact absurd hstops (by decide)
      · exact absurd (hint 0 hk) (by decide)
  · rw [correct_windows_iff (by decide)]
    rintro (hacq | hlt | ⟨k, hk⟩)
    · cases hacq
    · exact absurd hlt (Nat.lt_irrefl _)
    · cases hk

end Mwr.Random
