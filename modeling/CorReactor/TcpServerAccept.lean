import CorReactor.Transition
import Mathlib.Data.List.Nodup
import Mathlib.Data.List.Perm.Basic

set_option autoImplicit false

/-! `TcpServer::start`, `stop` and the accept workers between them. -/

namespace CorReactor

/-- Where a task of `startAccept` stands. -/
inductive AcceptPc
  | scheduled
  | testing
  | accepting
  | accepted (client : Nat)
  | ended
  deriving DecidableEq

/-- A task of `startAccept` with its socket. -/
structure AcceptLoop where
  sock : Nat
  pc : AcceptPc

/-- A server with its tasks. Sockets and clients are objects, by numbers. `bound` and `taken` are
ghosts: the sockets there have been, and the clients that `accept` has given. -/
structure Serving where
  m_isStop : Bool
  m_socks : List Nat
  loops : List AcceptLoop
  stops : Nat
  handled : List Nat
  bound : List Nat
  taken : List Nat

/-- `bind` adds a socket, and clears them all where an address fails. -/
inductive ServeOp
  | bind (sock : Nat)
  | bindFails
  | start
  | stop
  | runStop
  | loop (i : Nat) (answer : Option Nat)
  deriving DecidableEq

/-- The client that a task is about to give to `handleClient`. -/
def AcceptPc.client? : AcceptPc → Option Nat
  | .accepted client => some client
  | .scheduled | .testing | .accepting | .ended => none

/-- The task is behind its test of `m_isStop`. -/
def AcceptPc.inside : AcceptPc → Bool
  | .accepting | .accepted _ => true
  | .scheduled | .testing | .ended => false

namespace Serving

def boot : Serving := ⟨true, [], [], 0, [], [], []⟩

/-- One step of a task. `accept` may fail or give a new client at any time, whatever has become of
the socket. -/
def advance (s : Serving) (answer : Option Nat) : AcceptPc → Option (AcceptPc × Serving)
  | .scheduled => some (.testing, s)
  | .testing => some (if s.m_isStop then .ended else .accepting, s)
  | .accepting =>
      match answer with
      | none => some (.testing, s)
      | some client =>
          if client ∈ s.taken then none
          else some (.accepted client, { s with taken := s.taken ++ [client] })
  | .accepted client => some (.testing, { s with handled := s.handled ++ [client] })
  | .ended => none

def exec (s : Serving) : ServeOp → Option Serving
  | .bind sock =>
      if sock ∈ s.bound then none
      else some { s with m_socks := s.m_socks ++ [sock], bound := s.bound ++ [sock] }
  | .bindFails => some { s with m_socks := [] }
  | .start =>
      if s.m_isStop = false then some s
      else some { s with
        m_isStop := false
        loops := s.loops ++ s.m_socks.map fun sock => ⟨sock, .scheduled⟩ }
  | .stop => some { s with m_isStop := true, stops := s.stops + 1 }
  | .runStop =>
      if s.stops = 0 then none else some { s with m_socks := [], stops := s.stops - 1 }
  | .loop i answer =>
      s.loops[i]?.bind fun l =>
        (s.advance answer l.pc).map fun r =>
          { r.2 with loops := s.loops.set i ⟨l.sock, r.1⟩ }

def step : Transition.Step Serving ServeOp Unit := fun s op => (s.exec op).map fun t => ((), t)

/-- The clients that tasks hold. -/
def inHand (s : Serving) : List Nat := s.loops.filterMap fun l => l.pc.client?

/-- How many tasks are behind their test. -/
def inside (s : Serving) : Nat := s.loops.countP fun l => l.pc.inside

variable {s t : Serving} {op : ServeOp}

/-! ### One step of a task -/

/-- The task stands among the others, and only it moves on. -/
theorem loop_cases {i : Nat} {answer : Option Nat} (taken : s.exec (.loop i answer) = some t) :
    ∃ front behind sock pc pc' r, s.loops = front ++ ⟨sock, pc⟩ :: behind ∧
      s.advance answer pc = some (pc', r) ∧
      t = { r with loops := front ++ ⟨sock, pc'⟩ :: behind } := by
  obtain ⟨⟨sock, pc⟩, here, moved⟩ := Option.bind_eq_some_iff.mp taken
  obtain ⟨⟨pc', r⟩, advanced, rfl⟩ := Option.map_eq_some_iff.mp moved
  obtain ⟨less, same⟩ := List.getElem?_eq_some_iff.mp here
  obtain ⟨front, behind, whole, -, placed⟩ : ∃ front behind,
      s.loops = front ++ s.loops[i] :: behind ∧ front.length = i ∧
        s.loops.set i ⟨sock, pc'⟩ = front ++ ⟨sock, pc'⟩ :: behind := List.exists_of_set less
  rw [same] at whole
  exact ⟨front, behind, sock, pc, pc', r, whole, advanced, congrArg (fun loops =>
    { r with loops := loops }) placed⟩

/-- What a step of a task does to the clients: it takes one, hands it over, or neither. -/
inductive Moved (s : Serving) : AcceptPc → AcceptPc → Serving → Prop
  | still {pc pc' : AcceptPc} (before : pc.client? = none) (after : pc'.client? = none)
      (tested : pc'.inside = true → s.m_isStop = false) : Moved s pc pc' s
  | takes {client : Nat} (fresh : client ∉ s.taken) :
      Moved s .accepting (.accepted client) { s with taken := s.taken ++ [client] }
  | hands (client : Nat) :
      Moved s (.accepted client) .testing { s with handled := s.handled ++ [client] }

theorem advance_moved {answer : Option Nat} {pc pc' : AcceptPc} {r : Serving}
    (advanced : s.advance answer pc = some (pc', r)) : Moved s pc pc' r := by
  cases pc with
  | scheduled =>
      cases advanced
      exact .still rfl rfl nofun
  | testing =>
      cases advanced
      cases stopped : s.m_isStop with
      | true => exact .still rfl rfl nofun
      | false => exact .still rfl rfl fun _ => stopped
  | accepting =>
      cases answer with
      | none =>
          cases advanced
          exact .still rfl rfl nofun
      | some client =>
          by_cases known : client ∈ s.taken
          · rw [advance, if_pos known] at advanced
            cases advanced
          · rw [advance, if_neg known] at advanced
            cases advanced
            exact .takes known
  | accepted client =>
      cases advanced
      exact .hands client
  | ended => cases advanced

/-! ### Clients -/

/-- Every client that `accept` has given is handled or in the hand of one task, once. -/
structure Once (s : Serving) : Prop where
  all : s.taken.Perm (s.handled ++ s.inHand)
  once : s.taken.Nodup

theorem boot_once : Once boot := ⟨List.Perm.refl [], List.nodup_nil⟩

theorem Once.step (once : Once s) (taken : s.exec op = some t) : Once t := by
  obtain ⟨all, single⟩ := once
  cases op with
  | bind sock =>
      rw [exec] at taken
      split at taken
      · cases taken
      · cases taken
        exact ⟨all, single⟩
  | bindFails =>
      cases taken
      exact ⟨all, single⟩
  | start =>
      rw [exec] at taken
      split at taken
      · cases taken
        exact ⟨all, single⟩
      · cases taken
        refine ⟨?_, single⟩
        have nothing : (s.m_socks.map fun sock => AcceptLoop.mk sock .scheduled).filterMap
            (fun l => l.pc.client?) = [] := by
          rw [List.filterMap_map, List.filterMap_eq_nil_iff]
          exact fun _ _ => rfl
        rw [inHand, List.filterMap_append, nothing, List.append_nil]
        exact all
  | stop =>
      cases taken
      exact ⟨all, single⟩
  | runStop =>
      rw [exec] at taken
      split at taken
      · cases taken
      · cases taken
        exact ⟨all, single⟩
  | loop i answer =>
      obtain ⟨front, behind, sock, pc, pc', r, whole, advanced, rfl⟩ := loop_cases taken
      rw [inHand, whole, List.filterMap_append, List.filterMap_cons] at all
      cases advance_moved advanced with
      | still before after tested =>
          refine ⟨?_, single⟩
          rw [before] at all
          rw [inHand, List.filterMap_append, List.filterMap_cons, after]
          exact all
      | @takes client fresh =>
          refine ⟨?_, ?_⟩
          · rw [inHand, List.filterMap_append, List.filterMap_cons]
            refine (all.append_right [client]).trans ?_
            rw [List.append_assoc]
            exact List.Perm.append_left _
              ((List.perm_append_singleton client _).trans List.perm_middle.symm)
          · exact (List.perm_append_singleton client s.taken).nodup_iff.mpr
              (List.nodup_cons.mpr ⟨fresh, single⟩)
      | hands client =>
          refine ⟨all.trans ?_, single⟩
          rw [inHand, List.filterMap_append, List.filterMap_cons, List.append_assoc]
          exact List.Perm.append_left _ List.perm_middle

/-! ### After `stop` -/

/-- Where no `start` follows, a task that is not behind its test comes to no client, and one that
is comes to one. -/
theorem step_inside (taken : s.exec op = some t) (stopped : s.m_isStop = true)
    (other : op ≠ .start) : t.m_isStop = true ∧
      ∃ more, t.handled = s.handled ++ more ∧ more.length + t.inside ≤ s.inside := by
  have same {u : Serving} (still : u.m_isStop = true) (handled : u.handled = s.handled)
      (loops : u.loops = s.loops) : u.m_isStop = true ∧
        ∃ more, u.handled = s.handled ++ more ∧ more.length + u.inside ≤ s.inside := by
    refine ⟨still, [], handled.trans (List.append_nil _).symm, ?_⟩
    rw [inside, loops, List.length_nil, Nat.zero_add]
    exact Nat.le_refl _
  cases op with
  | bind sock =>
      rw [exec] at taken
      split at taken
      · cases taken
      · cases taken
        exact same stopped rfl rfl
  | bindFails =>
      cases taken
      exact same stopped rfl rfl
  | start => exact absurd rfl other
  | stop =>
      cases taken
      exact same rfl rfl rfl
  | runStop =>
      rw [exec] at taken
      split at taken
      · cases taken
      · cases taken
        exact same stopped rfl rfl
  | loop i answer =>
      obtain ⟨front, behind, sock, pc, pc', r, whole, advanced, rfl⟩ := loop_cases taken
      have before : s.inside = front.countP (fun l => l.pc.inside) +
          (behind.countP (fun l => l.pc.inside) + if pc.inside then 1 else 0) := by
        rw [inside, whole, List.countP_append, List.countP_cons]
      have after {u : Serving} : inside { u with loops := front ++ ⟨sock, pc'⟩ :: behind } =
          front.countP (fun l => l.pc.inside) +
            (behind.countP (fun l => l.pc.inside) + if pc'.inside then 1 else 0) := by
        rw [inside, List.countP_append, List.countP_cons]
      rw [after, before]
      cases advance_moved advanced with
      | still _ _ tested =>
          refine ⟨stopped, [], (List.append_nil _).symm, ?_⟩
          have outside : pc'.inside = false := by
            refine Bool.eq_false_iff.mpr fun entered => ?_
            rw [tested entered] at stopped
            cases stopped
          rw [outside, if_neg Bool.false_ne_true, List.length_nil]
          omega
      | takes _ =>
          refine ⟨stopped, [], (List.append_nil _).symm, ?_⟩
          rw [List.length_nil, Nat.zero_add]
          exact Nat.le_refl _
      | hands client =>
          refine ⟨stopped, [client], rfl, ?_⟩
          rw [List.length_singleton]
          simp only [AcceptPc.inside, Bool.false_eq_true, ↓reduceIte]
          omega

theorem run_inside {ops : List ServeOp} {os : List Unit}
    (taken : Transition.run step s ops = some (os, t)) (stopped : s.m_isStop = true)
    (others : ∀ op ∈ ops, op ≠ .start) :
    ∃ more, t.handled = s.handled ++ more ∧ more.length + t.inside ≤ s.inside := by
  induction ops generalizing s os with
  | nil =>
      cases taken
      exact ⟨[], (List.append_nil _).symm, Nat.le_of_eq (Nat.zero_add _)⟩
  | cons op ops ih =>
      obtain ⟨o, m, tail, first, later, -⟩ :=
        (Transition.run_cons_iff step s t op ops os).mp taken
      obtain ⟨m', moved, same⟩ := Option.map_eq_some_iff.mp first
      cases same
      obtain ⟨still, more, handled, bound⟩ :=
        step_inside moved stopped (others op List.mem_cons_self)
      obtain ⟨rest, handled', bound'⟩ :=
        ih later still fun op inside => others op (List.mem_cons_of_mem _ inside)
      refine ⟨more ++ rest, ?_, ?_⟩
      · rw [handled', handled, List.append_assoc]
      · rw [List.length_append]
        omega

theorem step_once (s : Serving) (op : ServeOp) (o : Unit) (t : Serving) (once : Once s)
    (taken : step s op = some (o, t)) : Once t := by
  obtain ⟨t, moved, same⟩ := Option.map_eq_some_iff.mp taken
  cases same
  exact once.step moved

/-- In every state a run comes to each client that `accept` has given is handled or in the hand of
one task, once; and after a `stop` that no `start` follows, no more clients are handled than there
were tasks behind their test. -/
theorem run_hands (reached : Transition.Reachable step boot s) :
    s.taken.Perm (s.handled ++ s.inHand) ∧ s.taken.Nodup ∧
      (s.m_isStop = true → ∀ ops, (∀ op ∈ ops, op ≠ .start) →
        ∀ os t, Transition.run step s ops = some (os, t) →
          ∃ more, t.handled = s.handled ++ more ∧ more.length ≤ s.inside) := by
  have once := Transition.Reachable.invariant step_once boot_once reached
  refine ⟨once.all, once.once, fun stopped ops others os t later => ?_⟩
  obtain ⟨more, handled, bound⟩ := run_inside later stopped others
  exact ⟨more, handled, Nat.le_trans (Nat.le_add_right _ _) bound⟩

/-- A server with one task, which holds a client when `stop` is called. -/
def stopping : Serving := ⟨true, [3], [⟨3, .accepted 7⟩], 1, [], [3], [7]⟩

theorem run_hands_one : stopping.taken.Perm (stopping.handled ++ stopping.inHand) ∧
    stopping.taken.Nodup ∧
      (stopping.m_isStop = true → ∀ ops, (∀ op ∈ ops, op ≠ ServeOp.start) →
        ∀ os t, Transition.run step stopping ops = some (os, t) →
          ∃ more, t.handled = stopping.handled ++ more ∧ more.length ≤ stopping.inside) :=
  run_hands ⟨[.bind 3, .start, .loop 0 none, .loop 0 none, .loop 0 (some 7), .stop], _, rfl⟩

/-! ### One task for a socket -/

/-- No `start` comes between a `stop` and the task that the `stop` has left. -/
def Settled (s : Serving) (op : ServeOp) : Prop :=
  op = .start → s.m_isStop = true → s.stops = 0

instance (s : Serving) (op : ServeOp) : Decidable (Settled s op) :=
  inferInstanceAs (Decidable (op = .start → s.m_isStop = true → s.stops = 0))

def serving (s : Serving) : List Nat := s.loops.map AcceptLoop.sock

structure Single (s : Serving) : Prop where
  loops : s.serving.Nodup
  socks : s.m_socks.Nodup
  known : ∀ sock, sock ∈ s.m_socks ∨ sock ∈ s.serving → sock ∈ s.bound
  apart : s.m_isStop = true → s.stops = 0 → ∀ sock ∈ s.m_socks, sock ∉ s.serving

theorem boot_single : Single boot where
  loops := List.nodup_nil
  socks := List.nodup_nil
  known := fun _ => Or.rec nofun nofun
  apart := fun _ _ _ => nofun

theorem serving_start (s : Serving) :
    (s.loops ++ s.m_socks.map fun sock => AcceptLoop.mk sock .scheduled).map AcceptLoop.sock =
      s.serving ++ s.m_socks := by
  rw [List.map_append, List.map_map, serving]
  exact congrArg (s.loops.map AcceptLoop.sock ++ ·) (List.map_id s.m_socks)

theorem Single.start (single : Single s) (settled : Settled s .start)
    (taken : s.exec .start = some t) : Single t := by
  cases stopped : s.m_isStop with
  | false =>
      rw [exec, if_pos stopped] at taken
      cases taken
      exact single
  | true =>
      rw [exec, if_neg (Bool.not_eq_false _ ▸ stopped)] at taken
      cases taken
      refine ⟨?_, single.socks, ?_, nofun⟩
      · rw [serving, serving_start]
        refine List.nodup_append'.mpr ⟨single.loops, single.socks, ?_⟩
        intro sock served listed
        exact single.apart stopped (settled rfl stopped) sock listed served
      · rw [serving, serving_start]
        intro sock either
        refine single.known sock ?_
        rcases either with listed | inside
        · exact Or.inl listed
        · exact (List.mem_append.mp inside).symm

/-- No socket is left to start on. -/
theorem Single.clear (single : Single s) (loops : t.loops = s.loops) (bound : t.bound = s.bound)
    (empty : t.m_socks = []) : Single t := by
  have same : t.serving = s.serving := congrArg (List.map AcceptLoop.sock) loops
  refine ⟨same ▸ single.loops, empty ▸ List.nodup_nil, fun sock either => ?_, ?_⟩
  · rw [empty, same] at either
    rw [bound]
    exact single.known sock (Or.inr (either.resolve_left List.not_mem_nil))
  · rw [empty]
    exact fun _ _ _ => nofun

theorem Single.step (single : Single s) (settled : Settled s op) (taken : s.exec op = some t) :
    Single t := by
  cases op with
  | bind sock =>
      by_cases known : sock ∈ s.bound
      · rw [exec, if_pos known] at taken
        cases taken
      · rw [exec, if_neg known] at taken
        cases taken
        have unserved : sock ∉ s.serving := fun inside => known (single.known sock (Or.inr inside))
        refine ⟨single.loops, ?_, ?_, ?_⟩
        · refine (List.perm_append_singleton sock s.m_socks).nodup_iff.mpr ?_
          exact List.nodup_cons.mpr
            ⟨fun inside => known (single.known sock (Or.inl inside)), single.socks⟩
        · rintro other (listed | served)
          · exact List.mem_append.mpr ((List.mem_append.mp listed).imp_left fun listed =>
              single.known other (Or.inl listed))
          · exact List.mem_append.mpr (Or.inl (single.known other (Or.inr served)))
        · intro stopped none other listed
          rcases List.mem_append.mp listed with listed | here
          · exact single.apart stopped none other listed
          · rw [List.mem_singleton.mp here]
            exact unserved
  | bindFails =>
      cases taken
      exact single.clear rfl rfl rfl
  | start => exact single.start settled taken
  | stop =>
      cases taken
      exact ⟨single.loops, single.socks, single.known, fun _ none =>
        absurd none (Nat.succ_ne_zero _)⟩
  | runStop =>
      rw [exec] at taken
      split at taken
      · cases taken
      · cases taken
        exact single.clear rfl rfl rfl
  | loop i answer =>
      obtain ⟨front, behind, sock, pc, pc', r, whole, advanced, rfl⟩ := loop_cases taken
      have same : serving { r with loops := front ++ ⟨sock, pc'⟩ :: behind } = s.serving := by
        rw [serving, serving, whole, List.map_append, List.map_append, List.map_cons, List.map_cons]
      -- whatever it does to the clients
      cases advance_moved advanced <;>
        exact ⟨same ▸ single.loops, single.socks, fun other => same ▸ single.known other,
          same ▸ single.apart⟩

theorem step_single (s : Serving) (op : ServeOp) (o : Unit) (t : Serving) (single : Single s)
    (settled : Settled s op) (taken : Serving.step s op = some (o, t)) : Single t := by
  obtain ⟨t, moved, same⟩ := Option.map_eq_some_iff.mp taken
  cases same
  exact single.step settled moved

/-- In a run in which no `start` overtakes the task of a `stop`, however often `start` is called,
no socket has two tasks. -/
theorem run_oneTask {ops : List ServeOp} {os : List Unit}
    (along : Transition.Along step Settled boot ops)
    (taken : Transition.run step boot ops = some (os, s)) :
    (s.loops.map AcceptLoop.sock).Nodup :=
  (Transition.run_invariant step_single boot_single along taken).loops

theorem run_oneTask_restarted :
    ([AcceptLoop.mk 3 .testing, ⟨4, .scheduled⟩].map AcceptLoop.sock).Nodup :=
  @run_oneTask ⟨false, [4], [⟨3, .testing⟩, ⟨4, .scheduled⟩], 0, [], [3, 4], []⟩
    [.bind 3, .start, .start, .loop 0 none, .stop, .runStop, .bind 4, .start] _ (by decide) rfl

end Serving

end CorReactor
