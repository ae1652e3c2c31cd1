import CorReactor.Socket

set_option autoImplicit false

/-! When the cached addresses of a `Socket` are those of its descriptor. -/

namespace CorReactor

namespace Address

theorem filled_bytes {a : Address} {name : Sockaddr} (fits : name.length ≤ a.m_length) :
    (a.filled name).m_addr.take name.length = name := by
  unfold filled
  simp only [List.take_of_length_le fits, List.take_left']

/-- A reported address is the kernel's name, where the object has room for that. -/
theorem reported_bytes {m_family : Int} {name : Sockaddr}
    (fits : name.length ≤ (empty m_family).m_length)
    (whole : m_family = AF_UNIX ∨ name.length = (empty m_family).m_length) :
    (reported m_family name).m_addr.take (reported m_family name).m_length = name := by
  unfold reported
  split
  · exact filled_bytes fits
  · rename_i other
    rcases whole with same | same
    · exact absurd same other
    · rw [show ((empty m_family).filled name).m_length = name.length from same.symm]
      exact filled_bytes fits

end Address

namespace SocketRun

/-- Of a valid descriptor the kernel has a socket; where that is connected, as the object or as
the kernel has it, the object gives the addresses that the kernel reports. -/
def Coherent (s : SocketRun) : Prop :=
  s.isValid = true → ∃ e, s.endpoint = some e ∧
    (s.socket.m_isConnected = true ∨ e.peername.isSome = true →
      s.getLocalAddress.1 = Address.reported s.socket.m_family e.sockname) ∧
    ∀ peer ∈ e.peername, s.getRemoteAddress.1 = Address.reported s.socket.m_family peer

/-- The local address is not cached, or it is cached with the given name. -/
def LocalCurrent (s : SocketRun) (name : Sockaddr) : Prop :=
  ∀ a ∈ s.socket.m_localAddress, a = Address.reported s.socket.m_family name

/-- The remote address is not cached, or it is cached with the name of the endpoint's peer. -/
def RemoteCurrent (s : SocketRun) (e : Endpoint) : Prop :=
  ∀ peer ∈ e.peername, ∀ a ∈ s.socket.m_remoteAddress,
    a = Address.reported s.socket.m_family peer

/-- The call gets as far as to `bind` or `connect` the descriptor. -/
def Reaches (s : SocketRun) (created : Option (Nat × Sockaddr)) (addr : Address) : Prop :=
  (s.validated created).isValid = true ∧ addr.getFamily = s.socket.m_family

/-- A call that changes a name or connects finds no other address in a cache. -/
def FindsCurrent (s : SocketRun) : SocketOp → Prop
  | .bind created addr (some name) =>
      s.Reaches created addr → s.socket.m_isConnected = true → s.LocalCurrent name
  | .connect created addr (some e) =>
      s.Reaches created addr → s.LocalCurrent e.sockname ∧ s.RemoteCurrent e
  | .listen (some name) =>
      s.isValid = true → s.socket.m_isConnected = true → s.LocalCurrent name
  | _ => True

instance (s : SocketRun) (name : Sockaddr) : Decidable (s.LocalCurrent name) :=
  inferInstanceAs (Decidable (∀ a ∈ s.socket.m_localAddress, _))

instance (s : SocketRun) (e : Endpoint) : Decidable (s.RemoteCurrent e) :=
  inferInstanceAs (Decidable (∀ peer ∈ e.peername, ∀ a ∈ s.socket.m_remoteAddress, _))

instance (s : SocketRun) (created : Option (Nat × Sockaddr)) (addr : Address) :
    Decidable (s.Reaches created addr) :=
  inferInstanceAs (Decidable (_ ∧ _))

instance (s : SocketRun) : (op : SocketOp) → Decidable (s.FindsCurrent op)
  | .bind created addr (some name) =>
      inferInstanceAs (Decidable
        (s.Reaches created addr → s.socket.m_isConnected = true → s.LocalCurrent name))
  | .connect created addr (some e) =>
      inferInstanceAs (Decidable
        (s.Reaches created addr → s.LocalCurrent e.sockname ∧ s.RemoteCurrent e))
  | .listen (some name) =>
      inferInstanceAs (Decidable
        (s.isValid = true → s.socket.m_isConnected = true → s.LocalCurrent name))
  | .bind _ _ none | .connect _ _ none | .listen none | .close | .getLocalAddress
  | .getRemoteAddress | .peerLost => isTrue trivial

/-- Coherent, with the object's flag set for every connected descriptor; an object that has
never had a descriptor, but has the flag, has not cached a local address. -/
structure Inv (s : SocketRun) : Prop where
  coherent : s.Coherent
  flagged : ∀ e, s.endpoint = some e → e.peername.isSome = true → s.socket.m_isConnected = true
  unopened : s.isValid = false → s.socket.m_isConnected = true → s.socket.m_localAddress = none

variable {s t : SocketRun} {e : Endpoint}

theorem isValid_of_endpoint (at_sock : s.endpoint = some e) : s.isValid = true := by
  obtain ⟨fd, sock, -⟩ := Option.bind_eq_some_iff.mp at_sock
  simp only [isValid, sock, Option.isSome_some]

theorem setEndpoint_endpoint (valid : s.isValid = true) (e : Endpoint) :
    (s.setEndpoint e).endpoint = some e := by
  obtain ⟨fd, sock⟩ := Option.isSome_iff_exists.mp valid
  simp only [setEndpoint, endpoint, sock, Option.bind_some, Function.update_self]

theorem setEndpoint_socket (e : Endpoint) : (s.setEndpoint e).socket = s.socket := by
  unfold setEndpoint
  split <;> rfl

theorem setSockname_eq (at_sock : s.endpoint = some e) (name : Sockaddr) :
    s.setSockname name = s.setEndpoint { e with sockname := name } := by
  simp only [setSockname, at_sock]

theorem getLocalAddress_eq {a : Address} (at_sock : s.endpoint = some e)
    (given : s.socket.m_localAddress.getD (Address.reported s.socket.m_family e.sockname) = a) :
    s.getLocalAddress =
      (a, { s with socket := { s.socket with m_localAddress := some a } }) := by
  rcases s with ⟨⟨m_sock, m_family, m_isConnected, cached, m_remoteAddress⟩, kernel⟩
  subst given
  cases cached with
  | some a => rfl
  | none => simp only [getLocalAddress, getsockname, at_sock, Option.map_some, Option.getD_none]

theorem getRemoteAddress_eq {a : Address} {peer : Sockaddr} (at_sock : s.endpoint = some e)
    (connected : e.peername = some peer)
    (given : s.socket.m_remoteAddress.getD (Address.reported s.socket.m_family peer) = a) :
    s.getRemoteAddress =
      (a, { s with socket := { s.socket with m_remoteAddress := some a } }) := by
  rcases s with ⟨⟨m_sock, m_family, m_isConnected, m_localAddress, cached⟩, kernel⟩
  subst given
  cases cached with
  | some a => rfl
  | none =>
      simp only [getRemoteAddress, getpeername, at_sock, Option.bind_some, connected,
        Option.getD_none]

theorem getRemoteAddress_alone (unconnected : s.getpeername = none) :
    s.getRemoteAddress.2 = s := by
  unfold getRemoteAddress
  cases s.socket.m_remoteAddress with
  | some a => rfl
  | none => simp only [unconnected]

theorem getD_eq_iff {o : Option Address} {a : Address} : o.getD a = a ↔ ∀ b ∈ o, b = a := by
  cases o with
  | none => simp only [Option.getD_none, Option.mem_def, reduceCtorEq, false_implies, implies_true]
  | some b => simp only [Option.getD_some, Option.mem_def, Option.some.injEq, forall_eq']

/-- What the object answers for a valid descriptor is decided by its caches. -/
theorem coherent_iff (at_sock : s.endpoint = some e) :
    s.Coherent ↔
      (s.socket.m_isConnected = true ∨ e.peername.isSome = true → s.LocalCurrent e.sockname) ∧
        s.RemoteCurrent e := by
  have local_iff : s.getLocalAddress.1 = Address.reported s.socket.m_family e.sockname ↔
      s.LocalCurrent e.sockname := by
    rw [getLocalAddress_eq at_sock rfl]
    exact getD_eq_iff
  have remote_iff : (∀ peer ∈ e.peername,
      s.getRemoteAddress.1 = Address.reported s.socket.m_family peer) ↔ s.RemoteCurrent e := by
    unfold RemoteCurrent
    apply forall_congr'
    intro peer
    apply imp_congr_right
    intro connected
    rw [getRemoteAddress_eq at_sock connected rfl]
    exact getD_eq_iff
  unfold Coherent
  rw [remote_iff.symm, local_iff.symm]
  constructor
  · intro coherent
    obtain ⟨e', at_sock', answers⟩ := coherent (isValid_of_endpoint at_sock)
    rw [at_sock] at at_sock'
    cases at_sock'
    exact answers
  · intro answers _
    exact ⟨e, at_sock, answers⟩

theorem coherent_of_invalid (invalid : s.isValid = false) : s.Coherent := by
  intro valid
  rw [invalid] at valid
  cases valid

theorem endpoint_of_invalid (invalid : s.isValid = false) : s.endpoint = none := by
  unfold endpoint
  rw [Option.isSome_eq_false_iff.mp invalid |> Option.isNone_iff_eq_none.mp]
  rfl

theorem getLocalAddress_kept :
    s.getLocalAddress.2.endpoint = s.endpoint ∧ s.getLocalAddress.2.isValid = s.isValid ∧
      s.getLocalAddress.2.socket.m_isConnected = s.socket.m_isConnected := by
  unfold getLocalAddress
  split
  · exact ⟨rfl, rfl, rfl⟩
  · split <;> exact ⟨rfl, rfl, rfl⟩

theorem getRemoteAddress_kept :
    s.getRemoteAddress.2.endpoint = s.endpoint ∧ s.getRemoteAddress.2.isValid = s.isValid ∧
      s.getRemoteAddress.2.socket.m_isConnected = s.socket.m_isConnected ∧
      s.getRemoteAddress.2.socket.m_localAddress = s.socket.m_localAddress := by
  unfold getRemoteAddress
  split
  · exact ⟨rfl, rfl, rfl, rfl⟩
  · split <;> exact ⟨rfl, rfl, rfl, rfl⟩

theorem getLocalAddress_alone (unnamed : s.endpoint = none) : s.getLocalAddress.2 = s := by
  unfold getLocalAddress getsockname
  cases s.socket.m_localAddress with
  | some a => rfl
  | none => simp only [unnamed, Option.map_none]

/-- To cache an address does not change what the object answers. -/
theorem getLocalAddress_coherent : s.getLocalAddress.2.Coherent ↔ s.Coherent := by
  cases at_sock : s.endpoint with
  | none => rw [getLocalAddress_alone at_sock]
  | some e =>
      rw [coherent_iff at_sock, coherent_iff (getLocalAddress_kept.1.trans at_sock),
        getLocalAddress_eq at_sock rfl]
      simp only [LocalCurrent, RemoteCurrent, ← getD_eq_iff, Option.getD_some]

theorem getRemoteAddress_coherent : s.getRemoteAddress.2.Coherent ↔ s.Coherent := by
  cases connected : s.getpeername with
  | none => rw [getRemoteAddress_alone connected]
  | some peer =>
      obtain ⟨e, at_sock, has_peer⟩ := Option.bind_eq_some_iff.mp connected
      rw [coherent_iff at_sock, coherent_iff (getRemoteAddress_kept.1.trans at_sock),
        getRemoteAddress_eq at_sock has_peer rfl]
      simp only [LocalCurrent, RemoteCurrent, has_peer, Option.mem_def, Option.some.injEq,
        forall_eq']
      exact and_congr_right' getD_eq_iff

theorem Inv.getLocalAddress (inv : s.Inv) : s.getLocalAddress.2.Inv := by
  obtain ⟨same_endpoint, same_valid, same_flag⟩ := s.getLocalAddress_kept
  refine ⟨getLocalAddress_coherent.mpr inv.coherent, ?_, ?_⟩
  · rw [same_endpoint, same_flag]
    exact inv.flagged
  · intro invalid flag
    rw [same_valid] at invalid
    rw [same_flag] at flag
    rw [getLocalAddress_alone (endpoint_of_invalid invalid)]
    exact inv.unopened invalid flag

theorem Inv.getRemoteAddress (inv : s.Inv) : s.getRemoteAddress.2.Inv := by
  obtain ⟨same_endpoint, same_valid, same_flag, same_local⟩ := s.getRemoteAddress_kept
  refine ⟨getRemoteAddress_coherent.mpr inv.coherent, ?_, ?_⟩
  · rw [same_endpoint, same_flag]
    exact inv.flagged
  · rw [same_valid, same_flag, same_local]
    exact inv.unopened

theorem inv_of_closed (invalid : s.isValid = false) (closed : s.socket.m_isConnected = false) :
    s.Inv where
  coherent := coherent_of_invalid invalid
  flagged := by
    intro e at_sock
    rw [endpoint_of_invalid invalid] at at_sock
    cases at_sock
  unopened := by
    intro _ flag
    rw [closed] at flag
    cases flag

theorem close_inv : s.close.2.Inv := by
  unfold close
  split
  · rename_i closed
    exact inv_of_closed (congrArg Option.isSome closed.2) closed.1
  · split
    · exact inv_of_closed rfl rfl
    · rename_i none_open
      exact inv_of_closed (congrArg Option.isSome none_open) rfl

/-- A socket that the kernel has just made is not connected. -/
theorem Inv.newSock (inv : s.Inv) (invalid : s.isValid = false)
    (created : Option (Nat × Sockaddr)) : (s.newSock created).Inv := by
  cases created with
  | none =>
      refine ⟨coherent_of_invalid rfl, ?_, fun _ => inv.unopened invalid⟩
      intro e at_sock
      cases at_sock
  | some made =>
      have at_sock : (s.newSock (some made)).endpoint = some ⟨made.2, none⟩ := by
        simp only [SocketRun.newSock, endpoint, Option.bind_some, Function.update_self]
      refine ⟨(coherent_iff at_sock).mpr ⟨?_, ?_⟩, ?_, ?_⟩
      · rintro (flag | peer)
        · intro a cached
          have absent : s.socket.m_localAddress = none := inv.unopened invalid flag
          rw [show (s.newSock (some made)).socket.m_localAddress = s.socket.m_localAddress from rfl,
            absent] at cached
          cases cached
        · cases peer
      · intro peer connected
        cases connected
      · intro e at_sock' peer
        rw [at_sock] at at_sock'
        cases at_sock'
        cases peer
      · intro impossible
        rw [isValid_of_endpoint at_sock] at impossible
        cases impossible

theorem Inv.validated (inv : s.Inv) (created : Option (Nat × Sockaddr)) :
    (s.validated created).Inv := by
  unfold SocketRun.validated
  cases valid : s.isValid with
  | true => exact inv
  | false => exact inv.newSock valid created

/-- What `validated` keeps. -/
theorem validated_kept (created : Option (Nat × Sockaddr)) :
    (s.validated created).socket =
      { s.socket with m_sock := (s.validated created).socket.m_sock } := by
  unfold SocketRun.validated
  split
  · rfl
  · cases created <;> rfl

/-- A name for the descriptor: coherent exactly where the cache allows it. -/
theorem Inv.setSockname_iff (inv : s.Inv) (valid : s.isValid = true) (name : Sockaddr) :
    (s.setSockname name).Coherent ↔ (s.socket.m_isConnected = true → s.LocalCurrent name) := by
  obtain ⟨e, at_sock, -⟩ := inv.coherent valid
  obtain ⟨-, remote⟩ := (coherent_iff at_sock).mp inv.coherent
  rw [setSockname_eq at_sock, coherent_iff (setEndpoint_endpoint valid _)]
  unfold LocalCurrent RemoteCurrent
  simp only [setEndpoint_socket]
  constructor
  · rintro ⟨current, -⟩ flag
    exact current (Or.inl flag)
  · intro current
    refine ⟨?_, remote⟩
    rintro (flag | peer)
    · exact current flag
    · exact current (inv.flagged e at_sock peer)

theorem Inv.setSockname (inv : s.Inv) (valid : s.isValid = true) {name : Sockaddr}
    (current : s.socket.m_isConnected = true → s.LocalCurrent name) : (s.setSockname name).Inv := by
  obtain ⟨e, at_sock, -⟩ := inv.coherent valid
  have named := setSockname_eq at_sock name
  have now : (s.setSockname name).endpoint = some { e with sockname := name } := by
    rw [named, setEndpoint_endpoint valid]
  refine ⟨(inv.setSockname_iff valid name).mpr current, ?_, ?_⟩
  · intro e' at_sock' peer
    rw [now] at at_sock'
    cases at_sock'
    rw [named, setEndpoint_socket]
    exact inv.flagged e at_sock peer
  · intro invalid
    rw [isValid_of_endpoint now] at invalid
    cases invalid

theorem Inv.dropPeer (inv : s.Inv) : s.dropPeer.Inv := by
  unfold SocketRun.dropPeer
  cases at_sock : s.endpoint with
  | none => exact inv
  | some e =>
      have valid := isValid_of_endpoint at_sock
      have now := setEndpoint_endpoint valid { e with peername := none }
      obtain ⟨current, -⟩ := (coherent_iff at_sock).mp inv.coherent
      refine ⟨(coherent_iff now).mpr ⟨?_, ?_⟩, ?_, ?_⟩
      · unfold LocalCurrent
        simp only [setEndpoint_socket]
        rintro (flag | peer)
        · exact current (Or.inl flag)
        · cases peer
      · intro peer connected
        cases connected
      · intro e' at_sock' peer
        rw [now] at at_sock'
        cases at_sock'
        cases peer
      · intro invalid
        rw [isValid_of_endpoint now] at invalid
        cases invalid

/-- The descriptor connected and the object's flag set. -/
def connected (s : SocketRun) (e : Endpoint) : SocketRun :=
  let s := s.setEndpoint e
  { s with socket := { s.socket with m_isConnected := true } }

theorem connected_endpoint (valid : s.isValid = true) (e : Endpoint) :
    (s.connected e).endpoint = some e := setEndpoint_endpoint valid e

theorem connected_coherent_iff (valid : s.isValid = true) (e : Endpoint) :
    (s.connected e).Coherent ↔ s.LocalCurrent e.sockname ∧ s.RemoteCurrent e := by
  rw [coherent_iff (connected_endpoint valid e)]
  unfold LocalCurrent RemoteCurrent connected
  simp only [setEndpoint_socket, true_or, true_implies]

theorem connected_inv (valid : s.isValid = true)
    (current : s.LocalCurrent e.sockname ∧ s.RemoteCurrent e) : (s.connected e).Inv where
  coherent := (connected_coherent_iff valid e).mpr current
  flagged := fun _ _ _ => rfl
  unopened := by
    intro invalid
    rw [isValid_of_endpoint (connected_endpoint valid e)] at invalid
    cases invalid

section Calls

variable {created : Option (Nat × Sockaddr)} {addr : Address} {op : SocketOp} {out : SocketOut}

theorem validated_local (name : Sockaddr) :
    (s.validated created).LocalCurrent name ↔ s.LocalCurrent name := by
  unfold LocalCurrent
  rw [validated_kept]

theorem validated_remote (e : Endpoint) :
    (s.validated created).RemoteCurrent e ↔ s.RemoteCurrent e := by
  unfold RemoteCurrent
  rw [validated_kept]

theorem validated_flag :
    (s.validated created).socket.m_isConnected = s.socket.m_isConnected := by
  rw [validated_kept]

theorem validated_family : (s.validated created).socket.m_family = s.socket.m_family := by
  rw [validated_kept]

/-- A call that does not reach the descriptor leaves it at `validated`. -/
theorem bind_stops {answer : Option Sockaddr} (stops : ¬ s.Reaches created addr) :
    (s.bind created addr answer).2 = s.validated created := by
  unfold SocketRun.bind
  simp only [validated_family]
  split
  · rfl
  · rename_i valid
    rw [if_pos (fun same => stops ⟨by simpa using valid, same⟩)]

theorem connect_stops {answer : Option Endpoint} (stops : ¬ s.Reaches created addr) :
    (s.connect created addr answer).2 = s.validated created := by
  unfold SocketRun.connect
  simp only [validated_family]
  split
  · rfl
  · rename_i valid
    rw [if_pos (fun same => stops ⟨by simpa using valid, same⟩)]

theorem bind_reaches {answer : Option Sockaddr} (reaches : s.Reaches created addr) :
    (s.bind created addr answer).2 =
      match answer with
      | none => s.validated created
      | some name => ((s.validated created).setSockname name).getLocalAddress.2 := by
  obtain ⟨valid, family⟩ := reaches
  unfold SocketRun.bind
  simp only [valid, validated_family, family, ne_eq, not_true_eq_false, Bool.true_eq_false,
    ↓reduceIte]
  cases answer <;> rfl

theorem connect_reaches {answer : Option Endpoint} (reaches : s.Reaches created addr) :
    (s.connect created addr answer).2 =
      match answer with
      | none => (s.validated created).close.2
      | some e => ((s.validated created).connected e).getRemoteAddress.2.getLocalAddress.2 := by
  obtain ⟨valid, family⟩ := reaches
  unfold SocketRun.connect
  simp only [valid, validated_family, family, ne_eq, not_true_eq_false, Bool.true_eq_false,
    ↓reduceIte]
  cases answer <;> rfl

theorem Inv.bind (inv : s.Inv) {answer : Option Sockaddr}
    (finds : s.FindsCurrent (.bind created addr answer)) : (s.bind created addr answer).2.Inv := by
  by_cases reaches : s.Reaches created addr
  · rw [bind_reaches reaches]
    cases answer with
    | none => exact inv.validated created
    | some name =>
        apply Inv.getLocalAddress
        apply (inv.validated created).setSockname reaches.1
        rw [validated_flag, validated_local]
        exact finds reaches
  · rw [bind_stops reaches]
    exact inv.validated created

theorem Inv.connect (inv : s.Inv) {answer : Option Endpoint}
    (finds : s.FindsCurrent (.connect created addr answer)) :
    (s.connect created addr answer).2.Inv := by
  by_cases reaches : s.Reaches created addr
  · rw [connect_reaches reaches]
    cases answer with
    | none => exact close_inv
    | some e =>
        apply Inv.getLocalAddress
        apply Inv.getRemoteAddress
        apply connected_inv reaches.1
        rw [validated_local, validated_remote]
        exact finds reaches
  · rw [connect_stops reaches]
    exact inv.validated created

theorem Inv.listen (inv : s.Inv) {answer : Option Sockaddr}
    (finds : s.FindsCurrent (.listen answer)) : (s.listen answer).2.Inv := by
  unfold SocketRun.listen
  cases valid : s.isValid with
  | false => exact inv
  | true =>
      cases answer with
      | none => exact inv
      | some name => exact inv.setSockname valid (finds valid)

theorem step_exec (taken : step s op = some (out, t)) : (s.exec op).2 = t := by
  unfold step at taken
  split at taken
  · exact congrArg Prod.snd (Option.some.inj taken)
  · cases taken

theorem Inv.step (inv : s.Inv) (finds : s.FindsCurrent op)
    (taken : step s op = some (out, t)) : t.Inv := by
  rw [← step_exec taken]
  cases op with
  | bind => exact inv.bind finds
  | connect => exact inv.connect finds
  | listen => exact inv.listen finds
  | close => exact close_inv
  | getLocalAddress => exact inv.getLocalAddress
  | getRemoteAddress => exact inv.getRemoteAddress
  | peerLost => exact inv.dropPeer

/-- An address that is cached already stays. -/
theorem not_coherent (inv : s.Inv) (stale : ¬ s.FindsCurrent op)
    (taken : step s op = some (out, t)) : ¬ t.Coherent := by
  rw [← step_exec taken]
  cases op with
  | bind created addr answer =>
      cases answer with
      | none => exact absurd trivial stale
      | some name =>
          simp only [FindsCurrent, Classical.not_imp] at stale
          obtain ⟨reaches, flag, differs⟩ := stale
          change ¬ (s.bind created addr (some name)).2.Coherent
          rw [bind_reaches reaches, getLocalAddress_coherent,
            (inv.validated created).setSockname_iff reaches.1, validated_flag, validated_local]
          exact fun current => differs (current flag)
  | connect created addr answer =>
      cases answer with
      | none => exact absurd trivial stale
      | some e =>
          simp only [FindsCurrent, Classical.not_imp] at stale
          obtain ⟨reaches, differs⟩ := stale
          change ¬ (s.connect created addr (some e)).2.Coherent
          rw [connect_reaches reaches, getLocalAddress_coherent, getRemoteAddress_coherent,
            connected_coherent_iff reaches.1, validated_local, validated_remote]
          exact differs
  | listen answer =>
      cases answer with
      | none => exact absurd trivial stale
      | some name =>
          simp only [FindsCurrent, Classical.not_imp] at stale
          obtain ⟨valid, flag, differs⟩ := stale
          change ¬ (s.listen (some name)).2.Coherent
          unfold SocketRun.listen
          rw [valid]
          intro coherent
          exact differs ((inv.setSockname_iff valid name).mp coherent flag)
  | close | getLocalAddress | getRemoteAddress | peerLost => exact absurd trivial stale

/-- A connected object that has not cached an address. -/
theorem inv_of_uncached (at_sock : s.endpoint = some e) (flag : s.socket.m_isConnected = true)
    (no_local : s.socket.m_localAddress = none) (no_remote : s.socket.m_remoteAddress = none) :
    s.Inv where
  coherent := by
    rw [coherent_iff at_sock]
    unfold LocalCurrent RemoteCurrent
    rw [no_local, no_remote]
    constructor
    · intro _ a cached
      cases cached
    · intro _ _ a cached
      cases cached
  flagged := fun _ _ _ => flag
  unopened := fun _ _ => no_local

theorem start_inv (start : SocketStart) : start.run.Inv := by
  cases start with
  | new m_family => exact inv_of_closed rfl rfl
  | createUDP m_family created =>
      cases created with
      | none =>
          refine ⟨coherent_of_invalid rfl, ?_, fun _ _ => rfl⟩
          intro e at_sock
          cases at_sock
      | some made =>
          refine inv_of_uncached (e := ⟨made.2, none⟩) ?_ rfl rfl rfl
          exact Function.update_self ..
  | init m_family sock e =>
      apply Inv.getRemoteAddress
      apply Inv.getLocalAddress
      refine inv_of_uncached (e := e) ?_ rfl rfl rfl
      simp only [endpoint, Option.bind_some, Function.update_self]

/-- All along a run on a socket object its addresses are those of its descriptor exactly when
every `bind`, `connect` or `listen` that changes these finds no other ones in the caches. -/
theorem run_coherent_iff (start : SocketStart) {ops : List SocketOp} {outs : List SocketOut}
    (taken : Transition.run step start.run ops = some (outs, t)) :
    Transition.Always step Coherent start.run ops ↔
      Transition.Along step FindsCurrent start.run ops := by
  have keep : ∀ (s : SocketRun) op out t, s.Inv → s.FindsCurrent op →
      step s op = some (out, t) → t.Inv :=
    fun _ _ _ _ inv finds done => inv.step finds done
  have breaks : ∀ (s : SocketRun) op out t, s.Inv → ¬ s.FindsCurrent op →
      step s op = some (out, t) → ¬ t.Coherent :=
    fun _ _ _ _ inv stale done => not_coherent inv stale done
  exact Transition.always_iff_along (fun _ inv => inv.coherent) keep breaks (start_inv start) taken

end Calls

/-- The `sockaddr_in` of a host and a port below 256. -/
def inet (host port : UInt8) : Sockaddr :=
  [2, 0, 0, port, 127, 0, 0, host] ++ List.replicate 8 0

/-- An object that connects, loses its peer, closes and connects to the same address again. -/
theorem run_coherent_again :
    ∃ outs s, Transition.run step (SocketStart.new AF_INET).run
      [.connect (some (3, inet 0 0)) ⟨inet 1 80, 16⟩ (some ⟨inet 1 40, some (inet 1 80)⟩),
        .peerLost, .getRemoteAddress, .close,
        .connect (some (4, inet 0 0)) ⟨inet 1 80, 16⟩ (some ⟨inet 1 40, some (inet 1 80)⟩),
        .getLocalAddress] = some (outs, s) ∧
      outs = [.returned true, .nothing, .address ⟨inet 1 80, 16⟩, .returned false,
        .returned true, .address ⟨inet 1 40, 16⟩] ∧
      Transition.Always step Coherent (SocketStart.new AF_INET).run
        [.connect (some (3, inet 0 0)) ⟨inet 1 80, 16⟩ (some ⟨inet 1 40, some (inet 1 80)⟩),
          .peerLost, .getRemoteAddress, .close,
          .connect (some (4, inet 0 0)) ⟨inet 1 80, 16⟩ (some ⟨inet 1 40, some (inet 1 80)⟩),
          .getLocalAddress] :=
  ⟨_, _, rfl, by decide, (run_coherent_iff _ rfl).mpr (by decide)⟩

/-- A second connection of the same object: it still answers with the addresses of the first one;
and a local address asked for before `connect` stays. -/
theorem run_not_coherent :
    (∃ outs s, Transition.run step (SocketStart.new AF_INET).run
      [.connect (some (3, inet 0 0)) ⟨inet 1 80, 16⟩ (some ⟨inet 1 40, some (inet 1 80)⟩), .close,
        .connect (some (3, inet 0 0)) ⟨inet 2 90, 16⟩ (some ⟨inet 1 41, some (inet 2 90)⟩),
        .getRemoteAddress, .getLocalAddress] = some (outs, s) ∧
      outs = [.returned true, .returned false, .returned true, .address ⟨inet 1 80, 16⟩,
        .address ⟨inet 1 40, 16⟩] ∧
      s.getpeername = some (inet 2 90) ∧ s.getsockname = some (inet 1 41) ∧ ¬ s.Coherent) ∧
    ∃ outs s, Transition.run step (SocketStart.new AF_INET).run
      [.bind (some (3, inet 0 0)) ⟨inet 0 40, 16⟩ (some (inet 0 40)),
        .connect none ⟨inet 1 80, 16⟩ (some ⟨inet 1 40, some (inet 1 80)⟩),
        .getLocalAddress] = some (outs, s) ∧
      outs = [.returned true, .returned true, .address ⟨inet 0 40, 16⟩] ∧
      s.getsockname = some (inet 1 40) ∧ ¬ s.Coherent := by
  refine ⟨⟨_, _, rfl, by decide, by decide, by decide, ?_⟩,
    ⟨_, _, rfl, by decide, by decide, ?_⟩⟩
  · intro coherent
    obtain ⟨e, at_sock, answers, -⟩ := coherent rfl
    cases at_sock
    have stale := answers (Or.inl rfl)
    revert stale
    decide
  · intro coherent
    obtain ⟨e, at_sock, answers, -⟩ := coherent rfl
    cases at_sock
    have stale := answers (Or.inl rfl)
    revert stale
    decide

end SocketRun

end CorReactor
