import Mwr.ServerSocket.Server

/-!
# A failed `listen`

`create_socket` puts the new descriptor into `m_socket` before it sets the options of
the socket, resolves the address, binds and listens.  Only a failure of `::bind` closes
the socket again.

* `StaysOpen` is the condition under which a `listen` that throws leaves the server
  listening.
* `Created` and `Listened` have one case for each way in which `create_socket` and
  `listen` end.
* `listen_failure_resets_iff` is the result.
-/

namespace Mwr.ServerSocket

open Mwr.CodeLib
open Mwr.CodeLib.Throwing

/-- `create_socket` has a port or a host to bind the socket to. -/
def Named (port : UInt16) (host : String) : Prop := 0 < port ∨ host ≠ ""

/-- `create_socket` sets the option. -/
def Sets (linux : Bool) (family : Family) : SockOpt → Prop
  | .reuseAddr => True
  | .reusePort => linux = false
  | .v6Only => family = .inet6

namespace ListenOs

/-- `create_socket` resolves the address that it binds, and fails. -/
def Unresolved (os : ListenOs) (family : Family) (host : String) : Prop :=
  (family = .inet ∨ family = .inet6) ∧ host ≠ "" ∧ os.inetPton family host = false ∧
    os.getaddrinfo family host = none

/-- One of the calls after `::socket` fails, other than `::bind`. -/
def FailsOpen (os : ListenOs) (linux : Bool) (family : Family) (port : UInt16) (host : String) :
    Prop :=
  (∃ opt, Sets linux family opt ∧ os.setsockopt opt ≠ .ok ()) ∨
    Named port host ∧ os.Unresolved family host ∨
    (Named port host → os.socketAddr family host = .ok () ∧ os.bind = .ok ()) ∧
      os.listen ≠ .ok ()

end ListenOs

namespace Server

/-- `listen` opens a socket, and one of the calls after `::socket` fails, other than
`::bind`. -/
def StaysOpen (s : Server) (port : UInt16) (addr : String) (os : ListenOs) : Prop :=
  s.alreadyListening port addr = false ∧ ¬(s.noIpv4 ∧ s.noIpv6) ∧ (∃ fd, os.socket = .ok fd) ∧
    os.FailsOpen s.linux (s.family os addr) port addr

/-- The server does not listen, and its next `listen` does not return early. -/
def Reset (s : Server) : Prop :=
  s.isListening = false ∧ s.port = 0 ∧ s.host = "" ∧
    ∀ port addr, s.alreadyListening port addr = false

end Server

open Server

variable {s s' : Server} {os : ListenOs} {family : Family} {port : UInt16} {host addr : String}
  {fd : Nat}

/-! ## The ways in which `create_socket` ends -/

/-- The ways in which `create_socket` ends after `::socket` has returned a descriptor. -/
inductive Created (os : ListenOs) (family : Family) (port : UInt16) (host : String) (s : Server)
    (fd : Nat) : Except Fault (UInt16 × String) × Server → Prop
  | options (fault : Fault) : os.setOptions s.linux family = .error fault →
    Created os family port host s fd (.error fault, s.openSocket fd)
  | address (fault : Fault) : os.setOptions s.linux family = .ok () → Named port host →
    os.socketAddr family host = .error fault →
    Created os family port host s fd (.error fault, s.openSocket fd)
  | bind (reason message : String) : os.setOptions s.linux family = .ok () → Named port host →
    os.socketAddr family host = .ok () → os.bind = .error reason →
    Created os family port host s fd
      (.error (.report message), (s.openSocket fd).closeListening)
  | listen (reason message : String) : os.setOptions s.linux family = .ok () →
    (Named port host → os.socketAddr family host = .ok () ∧ os.bind = .ok ()) →
    os.listen = .error reason →
    Created os family port host s fd (.error (.report message), s.openSocket fd)
  | getsockname (message : String) : os.setOptions s.linux family = .ok () →
    (Named port host → os.socketAddr family host = .ok () ∧ os.bind = .ok ()) →
    os.listen = .ok () →
    Created os family port host s fd (.error (.error message), s.openSocket fd)
  | done (name : UInt16 × String) : os.setOptions s.linux family = .ok () →
    (Named port host → os.socketAddr family host = .ok () ∧ os.bind = .ok ()) →
    os.listen = .ok () →
    Created os family port host s fd (.ok name, s.openSocket fd)

/-- `create_socket`, from `::listen` on. -/
def finishSocket (os : ListenOs) (port : UInt16) (host : String) : ServerM (UInt16 × String) := do
  match os.listen with
  | .error reason => throw (.report ("listen for connections failed: " ++ reason))
  | .ok () => pure ()
  if port = 0 ∨ host = "" then
    match os.getsockname with
    | .error reason => throw (.error ("getsockname failed: " ++ reason))
    | .ok name => return name
  else
    return (port, host)

theorem created_finish (hoptions : os.setOptions s.linux family = .ok ())
    (hbound : Named port host → os.socketAddr family host = .ok () ∧ os.bind = .ok ()) :
    Created os family port host s fd (exec (finishSocket os port host) (s.openSocket fd)) := by
  unfold finishSocket
  cases hlisten : os.listen with
  | error reason => exact .listen reason _ hoptions hbound hlisten
  | ok _ =>
    by_cases hname : port = 0 ∨ host = ""
    · rw [if_pos hname]
      cases os.getsockname with
      | error reason => exact .getsockname _ hoptions hbound hlisten
      | ok name => exact .done name hoptions hbound hlisten
    · rw [if_neg hname]
      exact .done (port, host) hoptions hbound hlisten

theorem exec_setOptions {r : Except Fault Unit} (h : os.setOptions s.linux family = r) :
    exec (ofExcept (os.setOptions (s.openSocket fd).linux family) : ServerM Unit)
      (s.openSocket fd) = (r, s.openSocket fd) := by
  rw [← h]
  exact exec_ofExcept _ _

theorem created (hsocket : os.socket = .ok fd) :
    Created os family port host s fd (exec (createSocket os family port host) s) := by
  unfold createSocket
  rw [hsocket, exec_bind_of_ok (exec_modify _ _), exec_bind_of_ok (exec_get _)]
  cases hoptions : os.setOptions s.linux family with
  | error fault =>
    rw [exec_bind_of_error (exec_setOptions hoptions)]
    exact .options fault hoptions
  | ok _ =>
    rw [exec_bind_of_ok (exec_setOptions hoptions)]
    by_cases hname : 0 < port ∨ host ≠ ""
    · dsimp only
      rw [if_pos hname]
      cases haddr : os.socketAddr family host with
      | error fault =>
        rw [exec_bind_of_error (exec_ofExcept _ _)]
        exact .address fault hoptions hname haddr
      | ok _ =>
        rw [exec_bind_of_ok (exec_ofExcept _ _)]
        cases hbind : os.bind with
        | error reason => exact .bind reason _ hoptions hname haddr hbind
        | ok _ => exact created_finish hoptions fun _ => ⟨haddr, hbind⟩
    · dsimp only
      rw [if_neg hname]
      exact created_finish hoptions fun hname' => absurd hname' hname

/-! ## The ways in which `listen` ends -/

/-- The ways in which `listen` ends. -/
inductive Listened (s : Server) (port : UInt16) (addr : String) (os : ListenOs) :
    Except Fault Unit × Server → Prop
  | already : s.alreadyListening port addr = true → Listened s port addr os (.ok (), s)
  | disabled (message : String) : s.alreadyListening port addr = false → s.noIpv4 ∧ s.noIpv6 →
    Listened s port addr os (.error (.report message), s.unlisten)
  | socket (reason message : String) : s.alreadyListening port addr = false →
    ¬(s.noIpv4 ∧ s.noIpv6) → os.socket = .error reason →
    Listened s port addr os (.error (.report message), { s.unlisten with socket := none })
  | failed (fd : Nat) (fault : Fault) (s' : Server) : s.alreadyListening port addr = false →
    ¬(s.noIpv4 ∧ s.noIpv6) → os.socket = .ok fd →
    Created os (s.family os addr) port addr s.unlisten fd (.error fault, s') →
    Listened s port addr os (.error fault, s')
  | done (fd : Nat) (name : UInt16 × String) (s' : Server) : s.alreadyListening port addr = false →
    ¬(s.noIpv4 ∧ s.noIpv6) → os.socket = .ok fd →
    Created os (s.family os addr) port addr s.unlisten fd (.ok name, s') →
    Listened s port addr os (.ok (), { s' with port := name.1, host := name.2 })

theorem listened : Listened s port addr os (exec (Server.listen os port addr) s) := by
  unfold Server.listen
  rw [exec_bind_of_ok (exec_get _)]
  dsimp only
  by_cases halready : s.alreadyListening port addr = true
  · rw [if_pos halready]
    exact .already halready
  rw [if_neg halready, exec_bind_of_ok (exec_modify _ _)]
  rw [Bool.not_eq_true] at halready
  by_cases hdisabled : s.noIpv4 = true ∧ s.noIpv6 = true
  · rw [if_pos hdisabled]
    exact .disabled _ halready hdisabled
  rw [if_neg hdisabled]
  cases hsocket : os.socket with
  | error reason =>
    have hcreate : exec (createSocket os (s.family os addr) port addr) s.unlisten =
        (.error (.report ("failed to create socket: " ++ reason)),
          { s.unlisten with socket := none }) := by
      unfold createSocket
      rw [hsocket, exec_bind_of_ok (exec_modify _ _)]
      rfl
    rw [exec_bind_of_error hcreate]
    exact .socket reason _ halready hdisabled hsocket
  | ok fd =>
    have hcreated : Created os (s.family os addr) port addr s.unlisten fd
        (exec (createSocket os (s.family os addr) port addr) s.unlisten) := created hsocket
    rcases hcreate : exec (createSocket os (s.family os addr) port addr) s.unlisten with ⟨r, s₁⟩
    rw [hcreate] at hcreated
    cases r with
    | error fault =>
      rw [exec_bind_of_error hcreate]
      exact .failed fd fault s₁ halready hdisabled hsocket hcreated
    | ok name =>
      rw [exec_bind_of_ok hcreate]
      exact .done fd name s₁ halready hdisabled hsocket hcreated

/-! ## Failures -/

/-- A computation that does not abort. -/
def OnlyReports {α : Type} (x : Except Fault α) : Prop :=
  ∀ fault, x = .error fault → ∃ message, fault = .report message

theorem OnlyReports.bind {α β : Type} {x : Except Fault α} {f : α → Except Fault β}
    (hx : OnlyReports x) (hf : ∀ a, OnlyReports (f a)) : OnlyReports (x >>= f) := by
  intro fault h
  cases x with
  | error fault' =>
    cases h
    exact hx fault rfl
  | ok a => exact hf a fault h

theorem onlyReports_setSockopt (opt : SockOpt) : OnlyReports (os.setSockopt opt) := by
  intro fault h
  unfold ListenOs.setSockopt at h
  split at h <;> cases h
  exact ⟨_, rfl⟩

theorem onlyReports_setOptions (linux : Bool) : OnlyReports (os.setOptions linux family) := by
  unfold ListenOs.setOptions
  refine (onlyReports_setSockopt _).bind fun _ => ?_
  have htail : OnlyReports (if family = .inet6 then os.setSockopt .v6Only else pure ()) := by
    split
    · exact onlyReports_setSockopt _
    · exact nofun
  cases linux with
  | true => exact htail
  | false => exact (onlyReports_setSockopt _).bind fun _ => htail

theorem setSockopt_eq_ok (opt : SockOpt) :
    os.setSockopt opt = .ok () ↔ os.setsockopt opt = .ok () := by
  unfold ListenOs.setSockopt
  split
  next h => exact iff_of_true rfl h
  next h => exact iff_of_false nofun (h ▸ nofun)

theorem bind_eq_ok {x : Except Fault Unit} {f : Unit → Except Fault Unit} :
    (x >>= f) = .ok () ↔ x = .ok () ∧ f () = .ok () := by
  cases x with
  | error fault => exact iff_of_false nofun fun h => nomatch h.1
  | ok _ => exact (and_iff_right rfl).symm

/-- The options are set exactly if each of the calls succeeds. -/
theorem setOptions_eq_ok {linux : Bool} : os.setOptions linux family = .ok () ↔
    ∀ opt, Sets linux family opt → os.setsockopt opt = .ok () := by
  have htail : (if family = .inet6 then os.setSockopt .v6Only else pure ()) = .ok () ↔
      (family = .inet6 → os.setsockopt .v6Only = .ok ()) := by
    by_cases hfamily : family = .inet6
    · rw [if_pos hfamily, setSockopt_eq_ok]
      exact (imp_iff_right hfamily).symm
    · rw [if_neg hfamily]
      exact iff_of_true rfl fun h => absurd h hfamily
  have hport : (os.setOptions linux family = .ok ()) ↔ os.setsockopt .reuseAddr = .ok () ∧
      (linux = false → os.setsockopt .reusePort = .ok ()) ∧
      (family = .inet6 → os.setsockopt .v6Only = .ok ()) := by
    unfold ListenOs.setOptions
    rw [bind_eq_ok, setSockopt_eq_ok, ← htail]
    refine and_congr_right fun _ => ?_
    cases linux with
    | true => exact ⟨fun h => ⟨nofun, h⟩, fun h => h.2⟩
    | false =>
      refine bind_eq_ok.trans (and_congr_left fun _ => ?_)
      exact (setSockopt_eq_ok _).trans (imp_iff_right rfl).symm
  rw [hport]
  constructor
  · rintro ⟨hreuse, hport, hv6⟩ opt hsets
    cases opt with
    | reuseAddr => exact hreuse
    | reusePort => exact hport hsets
    | v6Only => exact hv6 hsets
  · intro h
    exact ⟨h .reuseAddr trivial, h .reusePort, h .v6Only⟩

theorem setOptions_ne_ok {linux : Bool} : os.setOptions linux family ≠ .ok () ↔
    ∃ opt, Sets linux family opt ∧ os.setsockopt opt ≠ .ok () := by
  rw [Ne, setOptions_eq_ok]
  simp only [not_forall, exists_prop, Ne]

/-- The constructor of an address throws exactly if the host cannot be resolved. -/
theorem unresolved_iff : os.Unresolved family host ↔
    ∃ message, os.socketAddr family host = .error (.report message) := by
  have hknown : (family = .inet ∨ family = .inet6) →
      os.socketAddr family host = if host = "" then .ok () else os.resolveAddr family host := by
    rintro (rfl | rfl) <;> rfl
  constructor
  · rintro ⟨hfamily, hhost, hpton, hinfo⟩
    rw [hknown hfamily, if_neg hhost, ListenOs.resolveAddr, hpton, hinfo]
    exact ⟨_, rfl⟩
  · rintro ⟨message, h⟩
    have hfamily : family = .inet ∨ family = .inet6 := by
      cases family with
      | inet => exact .inl rfl
      | inet6 => exact .inr rfl
      | unspec | other => cases h
    rw [hknown hfamily, ite_eq_iff] at h
    obtain ⟨-, h⟩ | ⟨hhost, h⟩ := h
    · cases h
    rw [ListenOs.resolveAddr] at h
    cases hpton : os.inetPton family host with
    | true =>
      rw [hpton] at h
      cases h
    | false =>
      cases hinfo : os.getaddrinfo family host with
      | none => exact ⟨hfamily, hhost, hpton, hinfo⟩
      | some _ =>
        rw [hpton, hinfo] at h
        cases h

theorem not_failsOpen {linux : Bool} (hoptions : os.setOptions linux family = .ok ())
    (haddr : Named port host → os.socketAddr family host = .ok ())
    (hlisten : (Named port host → os.bind = .ok ()) → os.listen = .ok ()) :
    ¬ os.FailsOpen linux family port host := by
  rintro (h | ⟨hname, h⟩ | ⟨hbound, h⟩)
  · exact setOptions_ne_ok.2 h hoptions
  · obtain ⟨message, h⟩ := unresolved_iff.1 h
    cases (haddr hname).symm.trans h
  · exact h (hlisten fun hname => (hbound hname).2)

/-- `create_socket` throws and leaves the socket open, or it does not fail in that way. -/
theorem Created.open_or_closed {r : Except Fault (UInt16 × String)}
    (h : Created os family port host s fd (r, s')) :
    os.FailsOpen s.linux family port host ∧ (∃ message, r = .error (.report message)) ∧
        s' = s.openSocket fd ∨
      ¬ os.FailsOpen s.linux family port host ∧
        ∀ message, r = .error (.report message) → s' = (s.openSocket fd).closeListening := by
  cases h with
  | options fault hoptions =>
    obtain ⟨message, rfl⟩ := onlyReports_setOptions _ fault hoptions
    exact .inl ⟨.inl (setOptions_ne_ok.1 (hoptions ▸ nofun)), ⟨message, rfl⟩, rfl⟩
  | address fault hoptions hname haddr =>
    by_cases hfails : os.Unresolved family host
    · obtain ⟨message, h⟩ := unresolved_iff.1 hfails
      cases haddr.symm.trans h
      exact .inl ⟨.inr (.inl ⟨hname, hfails⟩), ⟨message, rfl⟩, rfl⟩
    · refine .inr ⟨?_, fun message h => ?_⟩
      · rintro (h | ⟨-, h⟩ | ⟨h, -⟩)
        · exact setOptions_ne_ok.2 h hoptions
        · exact hfails h
        · cases haddr.symm.trans (h hname).1
      · cases h
        exact absurd (unresolved_iff.2 ⟨message, haddr⟩) hfails
  | bind reason message hoptions hname haddr hbind =>
    refine .inr ⟨not_failsOpen hoptions (fun _ => haddr) fun h => ?_, fun _ _ => rfl⟩
    cases hbind.symm.trans (h hname)
  | listen reason message hoptions hbound hlisten =>
    exact .inl ⟨.inr (.inr ⟨hbound, hlisten ▸ nofun⟩), ⟨message, rfl⟩, rfl⟩
  | getsockname message hoptions hbound hlisten =>
    exact .inr ⟨not_failsOpen hoptions (fun h => (hbound h).1) fun _ => hlisten, nofun⟩
  | done name hoptions hbound hlisten =>
    exact .inr ⟨not_failsOpen hoptions (fun h => (hbound h).1) fun _ => hlisten, nofun⟩

/-! ## The result -/

theorem reset_of_socket (hsocket : s.socket = none) (hport : s.port = 0) (hhost : s.host = "") :
    s.Reset := by
  refine ⟨?_, hport, hhost, fun port addr => ?_⟩
  · rw [isListening, hsocket]
    rfl
  · rw [alreadyListening, hsocket]
    rfl

/-- A `listen` that throws leaves the server without a socket, a port and a host, and
ready for another `listen`, exactly if none of the calls after `::socket` has failed,
other than `::bind`. -/
theorem listen_failure_resets_iff (s : Server) (port : UInt16) (addr : String) (os : ListenOs) :
    (∀ message s', exec (Server.listen os port addr) s = (.error (.report message), s') →
      s'.Reset) ↔
      ¬ s.StaysOpen port addr os := by
  have hlistened : Listened s port addr os (exec (Server.listen os port addr) s) := listened
  rcases hexec : exec (Server.listen os port addr) s with ⟨r, s₁⟩
  rw [hexec] at hlistened
  have hresets : (∀ message s', (r, s₁) = (.error (.report message), s') → s'.Reset) ↔
      ((∃ message, r = .error (.report message)) → s₁.Reset) := by
    constructor
    · rintro h ⟨message, rfl⟩
      exact h message s₁ rfl
    · rintro h message s' heq
      cases heq
      exact h ⟨message, rfl⟩
  rw [hresets]
  cases hlistened with
  | already halready =>
    refine iff_of_true (fun ⟨_, h⟩ => nomatch h) fun h => ?_
    cases halready.symm.trans h.1
  | disabled message halready hdisabled =>
    exact iff_of_true (fun _ => reset_of_socket (State.unlisten_socket _) rfl rfl)
      fun h => h.2.1 hdisabled
  | socket reason message halready hdisabled hsocket =>
    refine iff_of_true (fun _ => reset_of_socket rfl rfl rfl) fun h => ?_
    obtain ⟨fd, hfd⟩ := h.2.2.1
    cases hsocket.symm.trans hfd
  | failed fd fault _ halready hdisabled hsocket hcreated =>
    have hends := hcreated.open_or_closed
    rw [show s.unlisten.linux = s.linux from State.unlisten_linux _] at hends
    rcases hends with ⟨hfails, ⟨message, hmessage⟩, rfl⟩ | ⟨hfails, hclosed⟩
    · cases hmessage
      refine iff_of_false (fun h => ?_) (not_not.2 ⟨halready, hdisabled, ⟨fd, hsocket⟩, hfails⟩)
      exact absurd (h ⟨message, rfl⟩).1 nofun
    · refine iff_of_true (fun ⟨message, h⟩ => ?_) fun h => hfails h.2.2.2
      cases h
      rw [hclosed message rfl]
      exact reset_of_socket (State.unlisten_socket _) rfl rfl
  | done fd name s' halready hdisabled hsocket hcreated =>
    refine iff_of_true (fun ⟨_, h⟩ => nomatch h) fun h => ?_
    have hends := hcreated.open_or_closed
    rw [show s.unlisten.linux = s.linux from State.unlisten_linux _] at hends
    rcases hends with ⟨-, ⟨_, hmessage⟩, -⟩ | ⟨hfails, -⟩
    · cases hmessage
    · exact hfails h.2.2.2

/-- All ports for sockets that are not bound are in use. -/
def exhausted : ListenOs where
  inetPton := fun _ _ => false
  getaddrinfo := fun _ _ => none
  socket := .ok 3
  setsockopt := fun _ => .ok ()
  bind := .ok ()
  listen := .error "Address already in use"
  getsockname := .ok (0, "0.0.0.0")

/-- A first `listen` throws, and leaves the server listening.  The next one does
nothing, and returns. -/
theorem failed_listen_listens :
    ∃ message s, exec (Server.listen exhausted 0 "") (.new true false false 1) =
        (.error (.report message), s) ∧
      s.isListening = true ∧ exec (Server.listen exhausted 0 "") s = (.ok (), s) :=
  ⟨_, _, rfl, rfl, rfl⟩

end Mwr.ServerSocket
