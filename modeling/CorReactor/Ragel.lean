import Mathlib.Data.List.Sort

set_option autoImplicit false

/-! Regular expressions with embedded actions, as Ragel has them, and the deterministic
machines they stand for. -/

namespace Ragel

variable {α A S T : Type}

/-- A deterministic machine. `step` gives the actions of a transition, `final` those that wait
in a final state for a transition out of the machine. -/
structure Machine (α A : Type) where
  State : Type
  start : State
  step : State → α → Option (List A × State)
  final : State → Option (List A)

/-- The waiting actions of the final states among several. -/
def gather : List (List A) → Option (List A)
  | [] => none
  | waiting => some waiting.flatten

/-- The transitions that two parts take at once. -/
def join : Option (List A × S) → List (List A × T) → Option (List A × (Option S × List T))
  | none, [] => none
  | l, rs =>
      some (l.toList.flatMap Prod.fst ++ rs.flatMap Prod.fst, (l.map Prod.snd, rs.map Prod.snd))

namespace Machine

def empty : Machine α A where
  State := Unit
  start := ()
  step _ _ := none
  final _ := some []

/-- One character of a class. -/
def chars (p : α → Bool) : Machine α A where
  State := Bool
  start := false
  step s c := if !s && p c then some ([], true) else none
  final s := if s then some [] else none

section Parts

variable (M N : Machine α A)

def left (m : Option M.State) (c : α) : Option (List A × M.State) := m.bind fun m => M.step m c

def right (ns : List N.State) (c : α) : List (List A × N.State) := ns.filterMap fun n => N.step n c

/-- `M | N`. -/
def alt : Machine α A where
  State := Option M.State × List N.State
  start := (some M.start, [N.start])
  step s c := join (M.left s.1 c) (N.right s.2 c)
  final s := gather ((s.1.bind M.final).toList ++ s.2.filterMap N.final)

/-- A transition from a final state of `M` into `N`. -/
def entry (m : Option M.State) (c : α) : Option (List A × N.State) :=
  (m.bind M.final).bind fun waiting =>
    (N.step N.start c).map fun t => (waiting ++ t.1, t.2)

def catFinal (s : Option M.State × List N.State) : Option (List A) :=
  gather (((s.1.bind M.final).bind fun waiting => (N.final N.start).map (waiting ++ ·)).toList ++
    s.2.filterMap N.final)

/-- `M . N`. -/
def cat : Machine α A where
  State := Option M.State × List N.State
  start := (some M.start, [])
  step s c := join (M.left s.1 c) ((entry M N s.1 c).toList ++ N.right s.2 c)
  final := catFinal M N

/-- `M :> N`: where `N` can be entered, `M` does not go on. -/
def guard : Machine α A where
  State := Option M.State × List N.State
  start := (some M.start, [])
  step s c :=
    match entry M N s.1 c with
    | some t => join none (t :: N.right s.2 c)
    | none => join (M.left s.1 c) (N.right s.2 c)
  final := catFinal M N

/-- `M :>> N`: where `N` is finished, `M` does not go on. -/
def finGuard : Machine α A where
  State := Option M.State × List N.State
  start := (some M.start, [])
  step s c :=
    let inside := (entry M N s.1 c).toList ++ N.right s.2 c
    if inside.any fun t => (N.final t.2).isSome then join none inside
    else join (M.left s.1 c) inside
  final := catFinal M N

/-- What waits where the next round of a loop can begin. -/
def again (ms : List M.State) : Option (List A) :=
  if ms.isEmpty then some ((M.final M.start).getD []) else gather (ms.filterMap M.final)

/-- `M*`. -/
def star : Machine α A where
  State := List M.State
  start := []
  step ms c :=
    let round := (M.again ms).bind fun waiting =>
      (M.step M.start c).map fun t => (waiting ++ t.1, t.2)
    match M.right ms c ++ round.toList with
    | [] => none
    | ts => some (ts.flatMap Prod.fst, ts.map Prod.snd)
  final := M.again

/-- `M >a`: the action is on the transitions out of the start state, and waits there where
that is final. -/
def enter (a : A) : Machine α A where
  State := Option M.State
  start := none
  step s c :=
    match s with
    | none => (M.step M.start c).map fun t => (a :: t.1, some t.2)
    | some m => (M.step m c).map fun t => (t.1, some t.2)
  final s :=
    match s with
    | none => (M.final M.start).map (a :: ·)
    | some m => M.final m

/-- `M %a`. -/
def leave (a : A) : Machine α A where
  State := M.State
  start := M.start
  step := M.step
  final m := (M.final m).map (· ++ [a])

/-- `M @a`: the action is on the transitions into final states. -/
def finish (a : A) : Machine α A where
  State := M.State
  start := M.start
  step m c := (M.step m c).map fun t => (if (M.final t.2).isSome then t.1 ++ [a] else t.1, t.2)
  final := M.final

end Parts

end Machine

inductive Expr (α A : Type)
  | empty
  | chars (p : α → Bool)
  | alt (e f : Expr α A)
  | cat (e f : Expr α A)
  | guard (e f : Expr α A)
  | finGuard (e f : Expr α A)
  | star (e : Expr α A)
  | enter (e : Expr α A) (a : A)
  | leave (e : Expr α A) (a : A)
  | finish (e : Expr α A) (a : A)

namespace Expr

instance : OrOp (Expr α A) := ⟨.alt⟩

def seq : List (Expr α A) → Expr α A
  | [] => .empty
  | [e] => e
  | e :: es => .cat e (seq es)

def oneOf : List (Expr α A) → Expr α A
  | [] => .empty
  | [e] => e
  | e :: es => .alt e (oneOf es)

def opt (e : Expr α A) : Expr α A := .alt e .empty

def plus (e : Expr α A) : Expr α A := .cat e (.star e)

/-- `e{n}`. -/
def times (n : Nat) (e : Expr α A) : Expr α A := seq (List.replicate n e)

/-- `e{,n}`. -/
def upTo (e : Expr α A) : Nat → Expr α A
  | 0 => .empty
  | n + 1 => opt (.cat e (e.upTo n))

/-- The number of embedded actions, by which they are stamped in the order they are written. -/
def embeddings : Expr α A → Nat
  | empty | chars _ => 0
  | alt e f | cat e f | guard e f | finGuard e f => e.embeddings + f.embeddings
  | star e => e.embeddings
  | enter e _ | leave e _ | finish e _ => e.embeddings + 1

/-- The machine of an expression, whose actions carry their stamps from `n` on. -/
def machine : Expr α A → Nat → Machine α (Nat × A)
  | empty, _ => .empty
  | chars p, _ => .chars p
  | alt e f, n => .alt (e.machine n) (f.machine (n + e.embeddings))
  | cat e f, n => .cat (e.machine n) (f.machine (n + e.embeddings))
  | guard e f, n => .guard (e.machine n) (f.machine (n + e.embeddings))
  | finGuard e f, n => .finGuard (e.machine n) (f.machine (n + e.embeddings))
  | star e, n => .star (e.machine n)
  | enter e a, n => .enter (e.machine (n + 1)) (n, a)
  | leave e a, n => .leave (e.machine n) (n + e.embeddings, a)
  | finish e a, n => .finish (e.machine n) (n + e.embeddings, a)

end Expr

/-- The actions of a transition as they are executed: by their stamps, each action once. -/
def inOrder [DecidableEq A] (as : List (Nat × A)) : List A :=
  ((as.insertionSort fun a b => a.1 ≤ b.1).map Prod.snd).eraseDups

end Ragel
