import CorReactor.Socket

set_option autoImplicit false

/-! `TcpServer::bind` on a list of addresses. -/

namespace CorReactor

/-- A server as far as it binds, and the kernel's sockets by their numbers. -/
structure TcpServer where
  m_socks : List Socket
  kernel : Nat → Option Endpoint

namespace TcpServer

/-- The kernel's answers to the calls for one address. -/
structure Answers where
  created : Option (Nat × Sockaddr)
  bound : Option Sockaddr
  listened : Option Sockaddr

/-- The body of the loop for one address: its socket, where both calls succeed. Otherwise the
object goes away and closes what it has opened. -/
def openOne (kernel : Nat → Option Endpoint) (addr : Address) (answers : Answers) :
    Option Socket × (Nat → Option Endpoint) :=
  let sock : SocketRun := ⟨⟨none, addr.getFamily, false, none, none⟩, kernel⟩
  let bound := sock.bind answers.created addr answers.bound
  if bound.1 = false then (none, bound.2.close.2.kernel)
  else
    let listened := bound.2.listen answers.listened
    if listened.1 = false then (none, listened.2.close.2.kernel)
    else (some listened.2.socket, listened.2.kernel)

/-- The loop over the addresses, with `fails`. -/
def bindEach (t : TcpServer) (fails : List Address) :
    List (Address × Answers) → TcpServer × List Address
  | [] => (t, fails)
  | (addr, answers) :: rest =>
      match openOne t.kernel addr answers with
      | (some sock, kernel) => bindEach ⟨t.m_socks ++ [sock], kernel⟩ fails rest
      | (none, kernel) => bindEach ⟨t.m_socks, kernel⟩ (fails ++ [addr]) rest

/-- `m_socks.clear()`, which closes the sockets that no accept worker holds. -/
def clear (t : TcpServer) (held : Socket → Bool) : TcpServer :=
  ⟨[], t.m_socks.foldl (fun kernel sock =>
    if held sock then kernel else (SocketRun.close ⟨sock, kernel⟩).2.kernel) t.kernel⟩

/-- What is returned, the server, and `fails` afterwards. -/
def bind (t : TcpServer) (held : Socket → Bool) (addrs : List (Address × Answers))
    (fails : List Address) : Bool × TcpServer × List Address :=
  let bound := t.bindEach fails addrs
  if bound.2 ≠ [] then (false, bound.1.clear held, bound.2)
  else (true, bound.1, bound.2)

/-- `bind` on one address. -/
def bindAddress (t : TcpServer) (held : Socket → Bool) (addr : Address) (answers : Answers) :
    Bool × TcpServer :=
  let bound := t.bind held [(addr, answers)] []
  (bound.1, bound.2.1)

/-- All of the three calls succeed. -/
def Answers.succeed (answers : Answers) : Bool :=
  answers.created.isSome && answers.bound.isSome && answers.listened.isSome

/-- The socket is the one made for the address, which was bound and listened on. -/
structure Serves (a : Address × Answers) (sock : Socket) : Prop where
  number : sock.m_sock = a.2.created.map Prod.fst
  family : sock.m_family = a.1.getFamily
  succeed : a.2.succeed = true

def failing (addrs : List (Address × Answers)) : List Address :=
  (addrs.filter fun a => !a.2.succeed).map Prod.fst

/-- Every address is served and the sockets are added, or there is nothing but a report. -/
structure AllOrNothing (t : TcpServer) (addrs : List (Address × Answers)) (fails : List Address)
    (r : Bool × TcpServer × List Address) : Prop where
  returned : r.1 = true ↔ ∀ a ∈ addrs, a.2.succeed = true
  added : r.1 = true → ∃ socks, r.2.1.m_socks = t.m_socks ++ socks ∧
    List.Forall₂ Serves addrs socks
  kept : r.1 = false → r.2.1.m_socks = t.m_socks ∧ r.2.2 = fails ++ failing addrs

/-! ### One address -/

variable {t : TcpServer} {addr : Address} {answers : Answers} {fails : List Address}

theorem getLocalAddress_m_sock (s : SocketRun) :
    s.getLocalAddress.2.socket.m_sock = s.socket.m_sock ∧
      s.getLocalAddress.2.socket.m_family = s.socket.m_family := by
  unfold SocketRun.getLocalAddress
  split
  · exact ⟨rfl, rfl⟩
  · split <;> exact ⟨rfl, rfl⟩

theorem setSockname_socket (s : SocketRun) (name : Sockaddr) :
    (s.setSockname name).socket = s.socket := by
  unfold SocketRun.setSockname SocketRun.setEndpoint
  split
  · split <;> rfl
  · rfl

/-- A socket comes out of it exactly when the three calls succeed. -/
theorem openOne_spec (kernel : Nat → Option Endpoint) (addr : Address) (answers : Answers) :
    (answers.succeed = false ∧ (openOne kernel addr answers).1 = none) ∨
      ∃ sock, (openOne kernel addr answers).1 = some sock ∧ Serves (addr, answers) sock := by
  obtain ⟨created, bound, listened⟩ := answers
  cases created with
  | none => exact Or.inl ⟨rfl, rfl⟩
  | some fd =>
      cases bound with
      | none =>
          refine Or.inl ⟨rfl, ?_⟩
          simp only [openOne, SocketRun.bind, SocketRun.validated, SocketRun.isValid,
            SocketRun.newSock, Option.isSome_none, Bool.false_eq_true, ↓reduceIte,
            Option.isSome_some, reduceCtorEq, ne_eq, not_true_eq_false]
      | some name =>
          let made := (SocketRun.newSock ⟨⟨none, addr.getFamily, false, none, none⟩, kernel⟩
            (some fd)).setSockname name
          have named : SocketRun.bind ⟨⟨none, addr.getFamily, false, none, none⟩, kernel⟩ (some fd)
              addr (some name) = (true, made.getLocalAddress.2) := by
            simp only [made, SocketRun.bind, SocketRun.validated, SocketRun.isValid,
              SocketRun.newSock, Option.isSome_none, Bool.false_eq_true, ↓reduceIte,
              Option.isSome_some, reduceCtorEq, ne_eq, not_true_eq_false]
          have number : made.getLocalAddress.2.socket.m_sock = some fd.1 := by
            rw [(getLocalAddress_m_sock made).1, setSockname_socket]
            rfl
          have family : made.getLocalAddress.2.socket.m_family = addr.getFamily := by
            rw [(getLocalAddress_m_sock made).2, setSockname_socket]
            rfl
          have valid : made.getLocalAddress.2.isValid = true := by
            rw [SocketRun.isValid, number]
            rfl
          cases listened with
          | none =>
              refine Or.inl ⟨rfl, ?_⟩
              simp only [openOne, named, Bool.true_eq_false, ↓reduceIte, SocketRun.listen, valid]
          | some name' =>
              refine Or.inr ⟨(made.getLocalAddress.2.setSockname name').socket, ?_, ?_⟩
              · simp only [openOne, named, Bool.true_eq_false, ↓reduceIte, SocketRun.listen, valid]
              · rw [setSockname_socket]
                exact ⟨number, family, rfl⟩

/-! ### The loop -/

theorem bindEach_spec (addrs : List (Address × Answers)) (t : TcpServer) (fails : List Address) :
    ∃ socks, (t.bindEach fails addrs).1.m_socks = t.m_socks ++ socks ∧
      List.Forall₂ Serves (addrs.filter fun a => a.2.succeed) socks ∧
      (t.bindEach fails addrs).2 = fails ++ failing addrs := by
  induction addrs generalizing t fails with
  | nil => exact ⟨[], (List.append_nil _).symm, List.Forall₂.nil, (List.append_nil _).symm⟩
  | cons a addrs ih =>
      obtain ⟨addr, answers⟩ := a
      cases result : openOne t.kernel addr answers with
      | mk opened kernel =>
          obtain ⟨failed, closed⟩ | ⟨sock, opens, serves⟩ := openOne_spec t.kernel addr answers
          · rw [result] at closed
            obtain rfl : opened = none := closed
            obtain ⟨socks, added, serve, report⟩ :=
              ih ⟨t.m_socks, kernel⟩ (fails ++ [addr])
            refine ⟨socks, ?_, ?_, ?_⟩
            · simp only [bindEach, result, added]
            · simp only [List.filter_cons, failed, Bool.false_eq_true, ↓reduceIte, serve]
            · simp only [bindEach, result, report, failing, List.filter_cons, failed,
                Bool.not_false, ↓reduceIte, List.map_cons, List.append_assoc,
                List.singleton_append]
          · rw [result] at opens
            obtain rfl : opened = some sock := opens
            obtain ⟨socks, added, serve, report⟩ := ih ⟨t.m_socks ++ [sock], kernel⟩ fails
            have succeed : answers.succeed = true := serves.succeed
            refine ⟨sock :: socks, ?_, ?_, ?_⟩
            · simp only [bindEach, result, added, List.append_assoc, List.singleton_append]
            · simp only [List.filter_cons, succeed, ↓reduceIte]
              exact List.Forall₂.cons serves serve
            · simp only [bindEach, result, report, failing, List.filter_cons, succeed,
                Bool.not_true, Bool.false_eq_true, ↓reduceIte]

theorem failing_eq_nil {addrs : List (Address × Answers)} :
    failing addrs = [] ↔ ∀ a ∈ addrs, a.2.succeed = true := by
  rw [failing, List.map_eq_nil_iff, List.filter_eq_nil_iff]
  simp only [Bool.not_eq_true', Bool.not_eq_false]

/-- It returns `true` exactly when nothing is in `fails` after the loop. -/
theorem bind_returned (t : TcpServer) (held : Socket → Bool) (addrs : List (Address × Answers))
    (fails : List Address) :
    (t.bind held addrs fails).1 = true ↔ fails = [] ∧ failing addrs = [] := by
  obtain ⟨socks, added, serve, report⟩ := bindEach_spec addrs t fails
  rw [← List.append_eq_nil_iff, ← report]
  by_cases empty : (t.bindEach fails addrs).2 = []
  · simp only [bind, empty, ne_eq, not_true_eq_false, ↓reduceIte]
  · simp only [bind, empty, ne_eq, not_false_eq_true, ↓reduceIte, Bool.false_eq_true]

/-- On `true` the sockets of this call stand behind those of the earlier ones. -/
theorem bind_added {held : Socket → Bool} {addrs : List (Address × Answers)}
    (returned : (t.bind held addrs fails).1 = true) :
    ∃ socks, (t.bind held addrs fails).2.1.m_socks = t.m_socks ++ socks ∧
      List.Forall₂ Serves addrs socks := by
  have nothing := (bind_returned t held addrs fails).mp returned
  obtain ⟨socks, added, serve, report⟩ := bindEach_spec addrs t fails
  rw [nothing.1, nothing.2, List.append_nil] at report
  rw [List.filter_eq_self.mpr (failing_eq_nil.mp nothing.2)] at serve
  refine ⟨socks, ?_, serve⟩
  simp only [bind, nothing.1, report, ne_eq, not_true_eq_false, ↓reduceIte]
  rw [← nothing.1, added]

/-- On `false` the server has no socket left, those of the earlier calls included. -/
theorem bind_cleared {held : Socket → Bool} {addrs : List (Address × Answers)}
    (returned : (t.bind held addrs fails).1 = false) :
    (t.bind held addrs fails).2.1.m_socks = [] ∧
      (t.bind held addrs fails).2.2 = fails ++ failing addrs := by
  obtain ⟨socks, added, serve, report⟩ := bindEach_spec addrs t fails
  have left : (t.bindEach fails addrs).2 ≠ [] := by
    intro empty
    rw [report, List.append_eq_nil_iff] at empty
    rw [(bind_returned t held addrs fails).mpr empty] at returned
    exact absurd returned (by decide)
  have cleared : t.bind held addrs fails =
      (false, (t.bindEach fails addrs).1.clear held, (t.bindEach fails addrs).2) := if_pos left
  rw [cleared]
  exact ⟨rfl, report⟩

/-- On one address the list of failures starts empty, and only that address decides. -/
theorem bindAddress_returned (t : TcpServer) (held : Socket → Bool) (addr : Address)
    (answers : Answers) :
    (t.bindAddress held addr answers).1 = true ↔ answers.succeed = true := by
  have returned := bind_returned t held [(addr, answers)] []
  rw [failing_eq_nil, List.forall_mem_singleton] at returned
  exact returned.trans (and_iff_right rfl)

/-- It is all or nothing exactly when no address of the call fails and the caller's list starts
empty, or one fails and the server has no sockets yet. -/
theorem bind_allOrNothing_iff (t : TcpServer) (held : Socket → Bool)
    (addrs : List (Address × Answers)) (fails : List Address) :
    AllOrNothing t addrs fails (t.bind held addrs fails) ↔
      (failing addrs = [] ∧ fails = []) ∨ (failing addrs ≠ [] ∧ t.m_socks = []) := by
  have returned := bind_returned t held addrs fails
  constructor
  · intro all
    by_cases every : failing addrs = []
    · have succeeded := all.returned.mpr (failing_eq_nil.mp every)
      exact Or.inl ⟨every, (returned.mp succeeded).1⟩
    · have failed : (t.bind held addrs fails).1 = false := by
        rw [Bool.eq_false_iff]
        exact fun succeeded => every (returned.mp succeeded).2
      exact Or.inr ⟨every, (all.kept failed).1.symm.trans (bind_cleared failed).1⟩
  · intro condition
    have complete : (t.bind held addrs fails).1 = true ↔ ∀ a ∈ addrs, a.2.succeed = true := by
      rw [returned, ← failing_eq_nil]
      obtain ⟨every, nothing⟩ | ⟨fails, -⟩ := condition
      · exact ⟨fun both => both.2, fun _ => ⟨nothing, every⟩⟩
      · exact ⟨fun both => both.2, fun every => absurd every fails⟩
    refine ⟨complete, bind_added, ?_⟩
    intro failed
    obtain ⟨cleared, report⟩ := bind_cleared failed
    refine ⟨?_, report⟩
    obtain ⟨every, -⟩ | ⟨-, empty⟩ := condition
    · rw [complete.mpr (failing_eq_nil.mp every)] at failed
      exact absurd failed (by decide)
    · rw [cleared, empty]

/-- A second call with the list of the first still in it reports a failure although its only
address is served, and a call whose address is taken loses the socket of an earlier one. -/
theorem bind_loses :
    ¬AllOrNothing ⟨[], fun _ => none⟩
        [(Address.IPv4Address, ⟨some (3, []), some [], some []⟩)] [Address.IPv4Address]
        (bind ⟨[], fun _ => none⟩ (fun _ => false)
          [(Address.IPv4Address, ⟨some (3, []), some [], some []⟩)] [Address.IPv4Address]) ∧
      ¬AllOrNothing ⟨[⟨some 3, 2, false, none, none⟩], fun _ => none⟩
        [(Address.IPv4Address, ⟨some (4, []), none, none⟩)] []
        (bind ⟨[⟨some 3, 2, false, none, none⟩], fun _ => none⟩ (fun _ => false)
          [(Address.IPv4Address, ⟨some (4, []), none, none⟩)] []) := by
  constructor
  · intro all
    have returned := all.returned.mpr (by decide)
    exact absurd returned (by decide)
  · intro all
    have kept := (all.kept (by decide)).1
    exact absurd (congrArg List.length kept) (by decide)

end TcpServer

end CorReactor
