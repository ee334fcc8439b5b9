import Mathlib.Algebra.Order.Group.Multiset
import Mathlib.Data.Multiset.UnionInter
import Mathlib.Logic.Relation

/-!
# Resources under identifiers

A `Ledger` says who holds the resources that a program has obtained: a resource is
a root, or it is an entry under an identifier that has been drawn from a counter.
An entry is pending at first.  It is dropped, or it becomes active, and then leaves
some time; whoever waits for this is notified, or not if the step is quiet.

A program that `keep`s its resources does not give them back when it is done with
them.

* `Step` has the steps, and `Inv` what they keep: an identifier is used once, and
  the resources in use are those that are held.
* `Paired` is kept by steps that are not quiet: what has left has been notified.
* `Grown` says where the entries of a later ledger come from.
-/

namespace Mwr.CodeLib

/-- The holders of the resources of type `ρ`, and what has happened to the
identifiers so far. -/
@[ext] structure Ledger (ρ : Type*) where
  root : Multiset ρ
  pending : Multiset (ℕ × ρ)
  active : Multiset (ℕ × ρ)
  next : ℕ
  inUse : Multiset ρ
  obtained : Multiset ρ
  entered : Multiset ℕ
  left : Multiset ℕ
  notified : Multiset ℕ

namespace Ledger

open Relation

variable {ρ : Type*}

/-- The resources that are held. -/
def owned (L : Ledger ρ) : Multiset ρ :=
  L.root + (L.pending + L.active).map Prod.snd

/-- Give a resource back, unless it is kept. -/
def release [DecidableEq ρ] (keep : Bool) (inUse : Multiset ρ) (x : ρ) : Multiset ρ :=
  if keep then inUse else inUse.erase x

/-- One step. -/
inductive Step [DecidableEq ρ] (keep quiet : Bool) : Ledger ρ → Ledger ρ → Prop
  | openRoot (L : Ledger ρ) (x : ρ) : x ∉ L.inUse →
    Step keep quiet L { L with
      root := x ::ₘ L.root
      inUse := x ::ₘ L.inUse
      obtained := x ::ₘ L.obtained }
  | closeRoot (L : Ledger ρ) (x : ρ) (rest : Multiset ρ) : L.root = x ::ₘ rest →
    Step keep quiet L { L with
      root := rest
      inUse := release keep L.inUse x }
  /-- A resource is obtained and given back at once. -/
  | refuse (L : Ledger ρ) (x : ρ) : x ∉ L.inUse →
    Step keep quiet L { L with
      inUse := release keep (x ::ₘ L.inUse) x
      obtained := x ::ₘ L.obtained }
  | draw (L : Ledger ρ) (x : ρ) : x ∉ L.inUse →
    Step keep quiet L { L with
      pending := (L.next, x) ::ₘ L.pending
      next := L.next + 1
      inUse := x ::ₘ L.inUse
      obtained := x ::ₘ L.obtained }
  | drop (L : Ledger ρ) (id : ℕ) (x : ρ) (rest : Multiset (ℕ × ρ)) :
    L.pending = (id, x) ::ₘ rest →
    Step keep quiet L { L with
      pending := rest
      inUse := release keep L.inUse x }
  | enter (L : Ledger ρ) (id : ℕ) (x : ρ) (rest : Multiset (ℕ × ρ)) :
    L.pending = (id, x) ::ₘ rest →
    Step keep quiet L { L with
      pending := rest
      active := (id, x) ::ₘ L.active
      entered := id ::ₘ L.entered }
  | leave (L : Ledger ρ) (id : ℕ) (x : ρ) (rest : Multiset (ℕ × ρ)) (notify : Bool) :
    L.active = (id, x) ::ₘ rest → notify = true ∨ quiet = true →
    Step keep quiet L { L with
      active := rest
      inUse := release keep L.inUse x
      left := id ::ₘ L.left
      notified := if notify then id ::ₘ L.notified else L.notified }

/-- The resources in use, against those that are held and those that have been
obtained. -/
structure Stock (keep : Bool) (held inUse obtained : Multiset ρ) : Prop where
  nodup : inUse.Nodup
  le : held ≤ inUse
  exact : keep = false → inUse = held
  kept : keep = true → inUse = obtained

/-- What the steps keep: all identifiers so far differ, those that have entered are
active or have left, nothing else has been notified, and the resources in use are
those that are held. -/
structure Inv (keep : Bool) (L : Ledger ρ) : Prop where
  ids : (L.entered + L.pending.map Prod.fst).Nodup
  bound : ∀ id ∈ L.entered + L.pending.map Prod.fst, id < L.next
  entered : L.entered = L.active.map Prod.fst + L.left
  notified : L.notified ≤ L.left
  stock : Stock keep L.owned L.inUse L.obtained

/-- Everything that has left has been notified, once. -/
def Paired (L : Ledger ρ) : Prop := L.notified = L.left

/-- The entries of the second ledger that the first one does not have are under
identifiers that have been drawn since, and have resources that have been obtained
since. -/
structure Grown (new : Multiset ρ) (L L' : Ledger ρ) : Prop where
  obtained : L'.obtained = new + L.obtained
  next : L.next ≤ L'.next
  entries : ∀ e ∈ L'.pending + L'.active,
    e ∈ L.pending + L.active ∨ L.next ≤ e.1 ∧ e.2 ∈ new

/-! ## The entries -/

variable {keep quiet : Bool} {L L' : Ledger ρ} {x : ρ}

/-- The resources of the entries, apart from that of one of them. -/
theorem owned_of_pending {id : ℕ} {rest : Multiset (ℕ × ρ)} (h : L.pending = (id, x) ::ₘ rest) :
    L.owned = x ::ₘ (L.root + (rest + L.active).map Prod.snd) := by
  rw [owned, h, Multiset.cons_add, Multiset.map_cons, Multiset.add_cons]

theorem owned_of_active {id : ℕ} {rest : Multiset (ℕ × ρ)} (h : L.active = (id, x) ::ₘ rest) :
    L.owned = x ::ₘ (L.root + (L.pending + rest).map Prod.snd) := by
  rw [owned, h, Multiset.add_cons, Multiset.map_cons, Multiset.add_cons]

/-- The identifiers so far, apart from that of a pending entry. -/
theorem ids_of_pending {id : ℕ} {rest : Multiset (ℕ × ρ)} (h : L.pending = (id, x) ::ₘ rest) :
    L.entered + L.pending.map Prod.fst = id ::ₘ (L.entered + rest.map Prod.fst) := by
  rw [h, Multiset.map_cons, Multiset.add_cons]

theorem Inv.nodup_entered (h : Inv keep L) : L.entered.Nodup := (Multiset.nodup_add.1 h.ids).1

/-- A pending entry has not entered. -/
theorem Inv.notMem_entered (h : Inv keep L) {id : ℕ} (hid : id ∈ L.pending.map Prod.fst) :
    id ∉ L.entered :=
  Multiset.disjoint_right.1 (Multiset.nodup_add.1 h.ids).2.2 hid

/-- An active entry has not left. -/
theorem Inv.notMem_left (h : Inv keep L) {id : ℕ} (hid : id ∈ L.active.map Prod.fst) :
    id ∉ L.left := by
  have hnodup := h.nodup_entered
  rw [h.entered] at hnodup
  exact Multiset.disjoint_left.1 (Multiset.nodup_add.1 hnodup).2.2 hid

theorem Inv.nodup_left (h : Inv keep L) : L.left.Nodup :=
  Multiset.nodup_of_le (h.entered ▸ Multiset.le_add_left _ _) h.nodup_entered

/-- The identifier of an entry has been drawn. -/
theorem Inv.lt_next (h : Inv keep L) {e : ℕ × ρ} (he : e ∈ L.pending + L.active) :
    e.1 < L.next := by
  apply h.bound
  rw [h.entered]
  rcases Multiset.mem_add.1 he with he | he
  · exact Multiset.mem_add.2 (.inr (Multiset.mem_map_of_mem Prod.fst he))
  · exact Multiset.mem_add.2 (.inl (Multiset.mem_add.2 (.inl
      (Multiset.mem_map_of_mem Prod.fst he))))

/-- No two active entries have the same resource. -/
theorem Inv.nodup_resources (h : Inv keep L) : (L.active.map Prod.snd).Nodup := by
  refine Multiset.nodup_of_le (le_trans ?_ h.stock.le) h.stock.nodup
  rw [owned, Multiset.map_add, ← add_assoc]
  exact Multiset.le_add_left _ _

/-- How often an identifier has been notified. -/
theorem Paired.count_notified (hpaired : L.Paired) (h : Inv keep L) (id : ℕ) :
    L.notified.count id = if id ∈ L.left then 1 else 0 := by
  rw [hpaired, Multiset.count_eq_of_nodup h.nodup_left]

theorem Grown.of_subset {new : Multiset ρ} (hobtained : L'.obtained = new + L.obtained)
    (hnext : L'.next = L.next) (hentries : L'.pending + L'.active ⊆ L.pending + L.active) :
    Grown new L L' :=
  ⟨hobtained, hnext.ge, fun _ he => .inl (hentries he)⟩

theorem Grown.trans {L'' : Ledger ρ} {new new' : Multiset ρ} (h : Grown new L L')
    (h' : Grown new' L' L'') : Grown (new' + new) L L'' := by
  refine ⟨?_, h.next.trans h'.next, ?_⟩
  · rw [h'.obtained, h.obtained, add_assoc]
  · intro e he
    rcases h'.entries e he with he | ⟨hid, hnew⟩
    · exact (h.entries e he).imp_right fun ⟨hid, hnew⟩ =>
        ⟨hid, Multiset.mem_add.2 (.inr hnew)⟩
    · exact .inr ⟨h.next.trans hid, Multiset.mem_add.2 (.inl hnew)⟩

/-! ## The resources -/

variable {held inUse obtained : Multiset ρ}

theorem Stock.obtain (h : Stock keep held inUse obtained) (hx : x ∉ inUse) :
    Stock keep (x ::ₘ held) (x ::ₘ inUse) (x ::ₘ obtained) where
  nodup := Multiset.nodup_cons.2 ⟨hx, h.nodup⟩
  le := Multiset.cons_le_cons x h.le
  exact := fun hkeep => by rw [h.exact hkeep]
  kept := fun hkeep => by rw [h.kept hkeep]

variable [DecidableEq ρ]

theorem Stock.release (h : Stock keep (x ::ₘ held) inUse obtained) :
    Stock keep held (release keep inUse x) obtained := by
  have hle : held ≤ inUse := (Multiset.le_cons_self held x).trans h.le
  cases keep with
  | true => exact ⟨h.nodup, hle, nofun, h.kept⟩
  | false =>
    have hrelease : Ledger.release false inUse x = held := by
      show inUse.erase x = held
      rw [h.exact rfl, Multiset.erase_cons_head]
    rw [hrelease]
    exact ⟨Multiset.nodup_of_le hle h.nodup, le_rfl, fun _ => rfl, nofun⟩

/-! ## The steps -/

theorem inv_step (h : Inv keep L) (hstep : Step keep quiet L L') : Inv keep L' := by
  have hstock := h.stock
  cases hstep with
  | openRoot x hx =>
    refine ⟨h.ids, h.bound, h.entered, h.notified, ?_⟩
    rw [owned, Multiset.cons_add]
    exact hstock.obtain hx
  | closeRoot x rest hroot =>
    refine ⟨h.ids, h.bound, h.entered, h.notified, Stock.release ?_⟩
    rwa [owned, hroot, Multiset.cons_add] at hstock
  | refuse x hx =>
    exact ⟨h.ids, h.bound, h.entered, h.notified, (hstock.obtain hx).release⟩
  | draw x hx =>
    refine ⟨?_, ?_, h.entered, h.notified, ?_⟩
    · rw [Multiset.map_cons, Multiset.add_cons, Multiset.nodup_cons]
      exact ⟨fun hmem => Nat.lt_irrefl _ (h.bound _ hmem), h.ids⟩
    · intro id hid
      rw [Multiset.map_cons, Multiset.add_cons, Multiset.mem_cons] at hid
      rcases hid with rfl | hid
      · exact Nat.lt_succ_self _
      · exact Nat.lt_succ_of_lt (h.bound id hid)
    · rw [owned_of_pending rfl]
      exact hstock.obtain hx
  | drop id x rest hpending =>
    have hids := ids_of_pending hpending
    refine ⟨?_, ?_, h.entered, h.notified, Stock.release ?_⟩
    · exact (Multiset.nodup_cons.1 (hids ▸ h.ids)).2
    · intro i hi
      exact h.bound i (hids ▸ Multiset.mem_cons_of_mem hi)
    · rwa [owned_of_pending hpending] at hstock
  | enter id x rest hpending =>
    have hids : id ::ₘ L.entered + rest.map Prod.fst = L.entered + L.pending.map Prod.fst := by
      rw [ids_of_pending hpending, Multiset.cons_add]
    refine ⟨hids ▸ h.ids, fun i hi => h.bound i (hids ▸ hi), ?_, h.notified, ?_⟩
    · rw [h.entered, Multiset.map_cons, Multiset.cons_add]
    · rw [owned_of_active rfl]
      rwa [owned_of_pending hpending] at hstock
  | leave id x rest notify hactive hnotify =>
    refine ⟨h.ids, h.bound, ?_, ?_, Stock.release ?_⟩
    · rw [h.entered, hactive, Multiset.map_cons, Multiset.cons_add, Multiset.add_cons]
    · cases notify with
      | true => exact Multiset.cons_le_cons id h.notified
      | false => exact h.notified.trans (Multiset.le_cons_self _ id)
    · rwa [owned_of_active hactive] at hstock

/-- All active entries leave, and nobody is notified. -/
theorem steps_leave_all {es : Multiset (ℕ × ρ)} {inUse left : Multiset _} (hactive : L.active = es)
    (hquiet : quiet = true ∨ es = 0)
    (hinUse : inUse = if keep then L.inUse else L.inUse - es.map Prod.snd)
    (hleft : left = es.map Prod.fst + L.left) :
    ReflTransGen (Step keep quiet) L { L with active := 0, inUse := inUse, left := left } := by
  induction es using Multiset.induction generalizing L with
  | empty =>
    have hsame : { L with active := 0, inUse := inUse, left := left } = L := by
      ext1
      · rfl
      · rfl
      · exact hactive.symm
      · rfl
      · rw [hinUse, Multiset.map_zero, Multiset.sub_zero, ite_self]
      · rfl
      · rfl
      · rw [hleft, Multiset.map_zero, Multiset.zero_add]
      · rfl
    rw [hsame]
  | cons e es ih =>
    have hquiet := hquiet.resolve_right Multiset.cons_ne_zero
    refine .head (.leave L e.1 e.2 es false hactive (.inr hquiet)) (ih rfl (.inl hquiet) ?_ ?_)
    · rw [hinUse, Multiset.map_cons, Multiset.sub_cons]
      cases keep <;> rfl
    · rw [hleft, Multiset.map_cons, Multiset.cons_add]
      exact (Multiset.add_cons _ _ _).symm

theorem paired_step (h : L.Paired) (hstep : Step keep false L L') : L'.Paired := by
  cases hstep with
  | openRoot | closeRoot | refuse | draw | drop | enter => exact h
  | leave id x rest notify hactive hnotify =>
    rcases hnotify with rfl | hquiet
    · show id ::ₘ L.notified = id ::ₘ L.left
      rw [h]
    · cases hquiet

theorem grown_step (hstep : Step keep quiet L L') : ∃ new, Grown new L L' := by
  cases hstep with
  | openRoot x | refuse x => exact ⟨{x}, .of_subset rfl rfl (Multiset.Subset.refl _)⟩
  | closeRoot => exact ⟨0, .of_subset (zero_add _).symm rfl (Multiset.Subset.refl _)⟩
  | draw x hx =>
    refine ⟨{x}, rfl, Nat.le_succ _, ?_⟩
    intro e he
    rw [Multiset.cons_add, Multiset.mem_cons] at he
    rcases he with rfl | he
    · exact .inr ⟨le_rfl, Multiset.mem_singleton_self x⟩
    · exact .inl he
  | drop id x rest hpending =>
    refine ⟨0, .of_subset (zero_add _).symm rfl ?_⟩
    rw [hpending, Multiset.cons_add]
    exact Multiset.subset_cons _ _
  | enter id x rest hpending =>
    refine ⟨0, .of_subset (zero_add _).symm rfl ?_⟩
    rw [hpending, Multiset.cons_add, Multiset.add_cons]
    exact Multiset.Subset.refl _
  | leave id x rest notify hactive =>
    refine ⟨0, .of_subset (zero_add _).symm rfl ?_⟩
    rw [hactive, Multiset.add_cons]
    exact Multiset.subset_cons _ _

/-! ## Runs -/

theorem inv_of_steps (h : Inv keep L) (hsteps : ReflTransGen (Step keep quiet) L L') :
    Inv keep L' := by
  induction hsteps with
  | refl => exact h
  | tail _ hstep ih => exact inv_step ih hstep

theorem paired_of_steps (h : L.Paired) (hsteps : ReflTransGen (Step keep false) L L') :
    L'.Paired := by
  induction hsteps with
  | refl => exact h
  | tail _ hstep ih => exact paired_step ih hstep

theorem grown_of_steps (hsteps : ReflTransGen (Step keep quiet) L L') :
    ∃ new, Grown new L L' := by
  induction hsteps with
  | refl => exact ⟨0, .of_subset (zero_add _).symm rfl (Multiset.Subset.refl _)⟩
  | tail _ hstep ih =>
    obtain ⟨new, hnew⟩ := ih
    obtain ⟨new', hnew'⟩ := grown_step hstep
    exact ⟨_, hnew.trans hnew'⟩

end Ledger

end Mwr.CodeLib
