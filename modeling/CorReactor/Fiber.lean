import Mathlib.Data.List.Basic

set_option autoImplicit false

namespace CorReactor

/-- A number for each `Fiber` object. -/
abbrev FiberId := Nat

inductive Fiber.State
  | INIT
  | HOLD
  | EXEC
  | TERM
  | READY
  | EXCEPT
  deriving DecidableEq, Repr

/-- What `m_ctx` holds: the start of `MainFunc`, the context of the last suspension, or
one that was resumed and not saved since. -/
inductive Fiber.Context
  | entry
  | saved
  | live
  deriving DecidableEq

/-- A `Fiber` object with callbacks of type `γ`. An empty `std::function` is `none`. -/
structure Fiber (γ : Type) where
  m_state : Fiber.State := .INIT
  m_cb : Option γ := none
  m_ctx : Fiber.Context := .entry

namespace Fiber

variable {γ : Type}

/-- The constructor `Fiber(cb)`. -/
def new (cb : γ) : Fiber γ where
  m_cb := some cb

/-- `reset`; `none` is the failed assertion. -/
def reset (f : Fiber γ) (cb : Option γ) : Option (Fiber γ) :=
  if f.m_state = .TERM ∨ f.m_state = .INIT ∨ f.m_state = .EXCEPT then
    some { m_state := .INIT, m_cb := cb, m_ctx := .entry }
  else none

/-- `swapIn` up to the switch; `none` is the failed assertion, or the one that `MainFunc`
reaches when it calls an empty `m_cb`. -/
def swapIn (f : Fiber γ) : Option (Fiber γ) :=
  if f.m_state = .EXEC then none
  else if f.m_ctx = .entry ∧ f.m_cb = none then none
  else some { f with m_state := .EXEC, m_ctx := .live }

/-- The switch of `swapOut`. -/
def swapOut (f : Fiber γ) : Fiber γ := { f with m_ctx := .saved }

def setState (f : Fiber γ) (state : State) : Fiber γ := { f with m_state := state }

/-- `MainFunc` after the callback has returned. -/
def finish (f : Fiber γ) : Fiber γ := { f with m_cb := none, m_state := .TERM }

/-- The fiber can still be resumed. -/
def alive (f : Fiber γ) : Bool := f.m_state ≠ .TERM && f.m_state ≠ .EXCEPT

theorem reset_isSome {f : Fiber γ} (ended : f.m_state = .INIT ∨ f.alive = false)
    (cb : Option γ) : (f.reset cb).isSome := by
  have allowed : f.m_state = .TERM ∨ f.m_state = .INIT ∨ f.m_state = .EXCEPT := by
    rcases ended with initial | dead
    · exact Or.inr (Or.inl initial)
    · rcases Bool.and_eq_false_iff.mp dead with term | except
      · exact Or.inl (Decidable.not_not.mp (of_decide_eq_false term))
      · exact Or.inr (Or.inr (Decidable.not_not.mp (of_decide_eq_false except)))
  unfold reset
  rw [if_pos allowed]
  rfl

end Fiber

/-- What `schedule` is given: a callback of type `β` or a fiber. -/
inductive Task (β : Type)
  | cb (f : β)
  | fiber (f : FiberId)
  deriving DecidableEq

end CorReactor
