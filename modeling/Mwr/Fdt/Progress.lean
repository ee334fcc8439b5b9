import Mwr.Fdt.Failures

/-!
# The reader ends

The recursion of `traverse` and the loop of `read_string` have no bound in the
source.  They end because the pointer only moves forward: what looks up a name or
fails to read a value puts it back where it was.  `fdtdecompile_ne_fuel` says
that the bound that the embedding passes is never used up.
-/

namespace Mwr.Fdt

open Mwr.CodeLib
open Mwr.CodeLib.Bytes
open Mwr.CodeLib.Exec

variable {α β : Type} {host : Host} {buf : Bytes} {p : Nat}

/-- The computation does not run out of its bound. -/
def Ends (m : Read Nat α) (p : Nat) : Prop := m.run p ≠ .error .fuel

theorem Ends.bind {m : Read Nat α} {f : α → Read Nat β} (hm : Ends m p)
    (hf : ∀ a q, m.run p = .ok (a, q) → Ends (f a) q) : Ends (m >>= f) p := by
  unfold Ends
  cases h : m.run p with
  | error e =>
    rw [run_bind_of_error h]
    intro heq
    cases heq
    exact hm h
  | ok r =>
    obtain ⟨a, q⟩ := r
    rw [run_bind_of_ok h]
    exact hf a q h

theorem ends_pure (a : α) (p : Nat) : Ends (pure a) p := nofun

/-- What throws no such failure from any state does not throw it from this one. -/
theorem ends_of_fails {m : Read Nat α} (h : Fails (· ≠ .fuel) m) (p : Nat) : Ends m p :=
  fun heq => h p _ heq rfl

theorem report_ne_fuel (message : String) : Fault.report message ≠ .fuel := nofun

theorem memSource_ne_fuel : (memSource buf).Throws (· ≠ .fuel) := memSource_throws report_ne_fuel

theorem ends_report (message : String) (p : Nat) :
    Ends (throw (.report message) : Read Nat α) p := nofun

theorem ends_reportOn (cond : Prop) [Decidable cond] (message : String) (p : Nat) :
    Ends (reportOn cond message) p :=
  ends_of_fails (fails_reportOn report_ne_fuel cond message) p

theorem ends_getc (p : Nat) : Ends (memSource buf).getc p :=
  ends_of_fails memSource_ne_fuel.getc p

theorem ends_seek (off : UInt32) (p : Nat) : Ends ((memSource buf).seek off) p :=
  ends_of_fails (memSource_ne_fuel.seek off) p

theorem ends_read (p : Nat) : Ends (read host (memSource buf)) p :=
  ends_of_fails (fails_read memSource_ne_fuel) p

theorem ends_skip (len p : Nat) : Ends (alignLoop (do let _ ← (memSource buf).getc) 4 len) p :=
  ends_of_fails (fails_skip memSource_ne_fuel (pad_lt len)) p

theorem ends_readValue (name : Bytes) (len : UInt32) (p : Nat) :
    Ends (readValue host (memSource buf) name len) p :=
  ends_of_fails (fails_readValue memSource_ne_fuel report_ne_fuel name len) p

theorem ends_readStringLoop {fuel : Nat} (hfuel : buf.length - p < fuel) (s : Bytes) :
    Ends (readStringLoop (memSource buf) fuel s) p := by
  induction fuel generalizing p s with
  | zero => omega
  | succ fuel ih =>
    refine (ends_getc p).bind fun ch q hgetc => ?_
    obtain ⟨hch, rfl⟩ := getc_inv hgetc
    have hlt := (List.getElem?_eq_some_iff.1 hch).1
    split
    · exact ends_pure _ _
    · exact ih (by omega) _

theorem ends_readString {fuel : Nat} (hfuel : buf.length < fuel) (align : Bool) (p : Nat) :
    Ends (readString (memSource buf) fuel align) p := by
  refine (ends_readStringLoop (by omega) []).bind fun s q _ => ?_
  cases align with
  | false => exact ends_pure _ _
  | true => exact (ends_skip _ q).bind fun _ _ _ => ends_pure _ _

theorem ends_readStrtab {fuel : Nat} (hfuel : buf.length < fuel) (nameoff : UInt32) (p : Nat) :
    Ends (readStrtab host (memSource buf) fuel nameoff) p :=
  (ends_seek _ p).bind fun _ _ _ => (ends_read _).bind fun _ _ _ =>
    (ends_seek _ _).bind fun _ _ _ => (ends_readString hfuel _ _).bind fun _ _ _ =>
      (ends_seek _ _).bind fun _ _ _ => ends_pure _ _

theorem ends_readProp {fuel : Nat} (hfuel : buf.length < fuel) (p : Nat) :
    Ends (readProp host (memSource buf) fuel) p :=
  (ends_read p).bind fun _ _ _ => (ends_read _).bind fun _ _ _ =>
    (ends_readStrtab hfuel _ _).bind fun _ _ _ => ends_readValue _ _ _

/-- The computation ends, and does not move the pointer back. -/
structure Forward (m : Read Nat α) (p : Nat) : Prop where
  ends : Ends m p
  le : ∀ a q, m.run p = .ok (a, q) → p ≤ q

theorem Forward.bind {m : Read Nat α} {f : α → Read Nat β} (hm : Forward m p)
    (hf : ∀ a q, m.run p = .ok (a, q) → Forward (f a) q) : Forward (m >>= f) p where
  ends := hm.ends.bind fun a q h => (hf a q h).ends
  le := by
    intro b r h
    obtain ⟨a, q, hq, h⟩ := run_bind_eq_ok.1 h
    exact Nat.le_trans (hm.le a q hq) ((hf a q hq).le b r h)

theorem forward_pure (a : α) (p : Nat) : Forward (pure a) p where
  ends := ends_pure a p
  le := fun _ _ h => by cases h; exact Nat.le_refl p

theorem forward_read (p : Nat) : Forward (read host (memSource buf)) p where
  ends := ends_read p
  le := fun _ _ h => by rw [(read_inv h).2]; omega

theorem forward_readString {fuel : Nat} (hfuel : buf.length < fuel) (align : Bool) (p : Nat) :
    Forward (readString (memSource buf) fuel align) p where
  ends := ends_readString hfuel align p
  le := fun _ _ h => (readString_inv h).2.1

theorem forward_readProp {fuel : Nat} (hbuf : buf.length < 2 ^ 32) (hfuel : buf.length < fuel)
    (p : Nat) : Forward (readProp host (memSource buf) fuel) p where
  ends := ends_readProp hfuel p
  le := fun _ _ h => Nat.le_of_add_right_le (readProp_inv hbuf h).2.2

/-- The loop of `traverse` moves forward if its calls for the children do.  A
child starts behind the token that announces it. -/
theorem forward_traverseLoop {fuel : Nat} {visit : FdtNode → Read Nat FdtNode}
    (hbuf : buf.length < 2 ^ 32) (hfuel : buf.length < fuel) {p₀ : Nat}
    (hvisit : ∀ parent p, p₀ < p → p ≤ buf.length → Forward (visit parent) p)
    (rounds : Nat) (parent : FdtNode) (hp : p₀ ≤ p) :
    Forward (traverseLoop host (memSource buf) fuel visit rounds parent) p := by
  induction rounds generalizing p parent with
  | zero => exact forward_pure _ _
  | succ rounds ih =>
    refine (forward_read p).bind fun token q hread => ?_
    obtain ⟨-, rfl⟩ := read_inv hread
    split
    · refine (forward_readString hfuel true _).bind fun name q hname => ?_
      obtain ⟨-, hle, hq⟩ := readString_inv hname
      have hchild := hvisit (.new name) q (by omega) hq
      exact hchild.bind fun child q' h => ih _ (by have := hchild.le child q' h; omega)
    · split
      · have hprop : Forward (readProp host (memSource buf) fuel) (p + 4) :=
          forward_readProp hbuf hfuel (p + 4)
        exact hprop.bind fun prop q h => ih _ (by have := hprop.le prop q h; omega)
      · split
        · exact ih _ (by omega)
        · split
          · exact forward_pure _ _
          · exact ⟨ends_report _ _, fun _ _ h => nomatch h⟩

theorem forward_traverse {fuel depth : Nat} (hbuf : buf.length < 2 ^ 32)
    (hfuel : buf.length < fuel) (hdepth : buf.length - p < depth) (parent : FdtNode) :
    Forward (traverse host (memSource buf) fuel depth parent) p := by
  induction depth generalizing p parent with
  | zero => omega
  | succ depth ih =>
    exact forward_traverseLoop hbuf hfuel (fun parent p' hlt hle => ih (by omega) parent) _ _
      (Nat.le_refl p)

/-- A call returns a tree or throws a report, and never runs out of its bound. -/
theorem fdtdecompile_ne_fuel (hbuf : buf.length < 2 ^ 32) :
    fdtdecompile host buf ≠ .error .fuel := by
  have hfuel : buf.length < buf.length + 1 := Nat.lt_succ_self _
  have hends : Ends (decompile host (memSource buf) (buf.length + 1)) 0 :=
    (ends_read _).bind fun _ _ _ => (ends_reportOn _ _ _).bind fun _ _ _ =>
    (ends_seek _ _).bind fun _ _ _ => (ends_read _).bind fun _ _ _ =>
    (ends_reportOn _ _ _).bind fun _ _ _ =>
    (ends_seek _ _).bind fun _ _ _ => (ends_read _).bind fun _ _ _ =>
    (ends_seek _ _).bind fun _ _ _ => (ends_read _).bind fun _ _ _ =>
    (ends_reportOn _ _ _).bind fun _ _ _ => (ends_readString hfuel _ _).bind fun _ _ _ =>
    (forward_traverse hbuf hfuel (by omega) _).ends.bind fun _ _ _ =>
    (ends_read _).bind fun _ _ _ => (ends_reportOn _ _ _).bind fun _ _ _ => ends_pure _ _
  unfold fdtdecompile
  intro h
  cases hrun : (decompile host (memSource buf) (buf.length + 1)).run 0 with
  | error e =>
    rw [hrun] at h
    cases h
    exact hends hrun
  | ok r =>
    rw [hrun] at h
    cases h

end Mwr.Fdt
