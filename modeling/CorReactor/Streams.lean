import Mathlib.Data.List.Basic

set_option autoImplicit false

/-! Operations on a state that take items from a source or put them into a sink: what a
composed operation takes or puts. -/

namespace Streams

variable {ε σ ι α α' : Type}

/-- A composed operation completes through its parts. -/
theorem bind_ok {x : EStateM ε σ α} {f : α → EStateM ε σ α'} {s u : σ} {b : α'}
    (done : (x >>= f) s = .ok b u) : ∃ a t, x s = .ok a t ∧ f a t = .ok b u := by
  change EStateM.bind x f s = _ at done
  unfold EStateM.bind at done
  cases first : x s with
  | ok a t =>
      rw [first] at done
      exact ⟨a, t, rfl, done⟩
  | error e t =>
      rw [first] at done
      cases done

/-- `Next s xs u`: the items `xs` come next in `s`, and `u` is behind them. -/
structure Source (σ ι : Type) where
  Next : σ → List ι → σ → Prop
  next_nil : ∀ {s u : σ}, Next s [] u → u = s
  next_append : ∀ {s v : σ} {xs ys : List ι}, Next s (xs ++ ys) v →
    ∃ u, Next s xs u ∧ Next u ys v

/-- Where the items come next, the operation takes them and returns `a`. -/
def Decodes (source : Source σ ι) (x : EStateM ε σ α) (xs : List ι) (a : α) : Prop :=
  ∀ s u, source.Next s xs u → x s = .ok a u

section Source

variable {source : Source σ ι} {x : EStateM ε σ α} {xs ys : List ι} {a : α} {b : α'}

theorem decodes_pure (a : α) : Decodes source (pure a : EStateM ε σ α) [] a := by
  intro s u next
  rw [source.next_nil next]
  rfl

theorem Decodes.bind {f : α → EStateM ε σ α'} (first : Decodes source x xs a)
    (second : Decodes source (f a) ys b) : Decodes source (x >>= f) (xs ++ ys) b := by
  intro s v next
  obtain ⟨u, front, back⟩ := source.next_append next
  change EStateM.bind x f s = _
  unfold EStateM.bind
  rw [first s u front]
  exact second u v back

theorem Decodes.map (f : α → α') (first : Decodes source x xs a) :
    Decodes source (f <$> x) xs (f a) := by
  intro s u next
  change EStateM.map f x s = _
  unfold EStateM.map
  rw [first s u next]

end Source

/-- `Put s xs t`: with the items `xs` put into it `s` becomes `t`. -/
structure Sink (σ ι : Type) where
  Put : σ → List ι → σ → Prop
  put_nil : ∀ s : σ, Put s [] s
  put_append : ∀ {s t u : σ} {xs ys : List ι}, Put s xs t → Put t ys u → Put s (xs ++ ys) u

/-- Where the operation completes it has put the items. -/
def Emits (sink : Sink σ ι) (x : EStateM ε σ α) (xs : List ι) : Prop :=
  ∀ s a t, x s = .ok a t → sink.Put s xs t

section Sink

variable {sink : Sink σ ι} {x : EStateM ε σ α} {xs ys : List ι}

theorem Emits.bind {f : α → EStateM ε σ α'} (first : Emits sink x xs)
    (second : ∀ a, Emits sink (f a) ys) : Emits sink (x >>= f) (xs ++ ys) := by
  intro s b u done
  obtain ⟨a, t, front, back⟩ := bind_ok done
  exact sink.put_append (first s a t front) (second a t b u back)

end Sink

end Streams
