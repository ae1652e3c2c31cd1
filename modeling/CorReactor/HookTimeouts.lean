import CorReactor.HookIo
import CorReactor.HookSleep

set_option autoImplicit false

/-! The hooked `setsockopt` and the timeouts of a `Socket`, up to the timer that `do_io` adds. -/

namespace CorReactor.Hook

structure Timeval where
  tv_sec : Int64
  tv_usec : Int64
  deriving DecidableEq

namespace Timeval

/-- `v->tv_sec * 1000 + v->tv_usec / 1000`; `none` where a `long` overflows. -/
def milliseconds (v : Timeval) : Option Int :=
  let seconds := v.tv_sec.toInt * 1000
  let total := seconds + v.tv_usec.toInt.tdiv 1000
  if isLong seconds && isLong total then some total else none

def microseconds (v : Timeval) : Int := v.tv_sec.toInt * 10 ^ 6 + v.tv_usec.toInt

/-- The microseconds that the kernel takes; it refuses the others with `EDOM`. -/
def Accepted (v : Timeval) : Prop := 0 ≤ v.tv_usec.toInt ∧ v.tv_usec.toInt < 10 ^ 6

instance (v : Timeval) : Decidable v.Accepted :=
  inferInstanceAs (Decidable (_ ∧ _))

/-- Some whole milliseconds, and not before now. -/
def Whole (v : Timeval) : Prop :=
  v ≠ ⟨0, 0⟩ ∧ 1000 ∣ v.tv_usec.toInt ∧ 0 ≤ v.tv_sec.toInt

instance (v : Timeval) : Decidable v.Whole :=
  inferInstanceAs (Decidable (_ ∧ _ ∧ _))

end Timeval

def SOL_SOCKET : Int := 1

/-- What the language leaves undefined. -/
inductive OptFault
  | fd (fault : FdFault)
  | overflow
  deriving DecidableEq

section Calls

variable (s : Fds)

/-- `setsockopt` of a `timeval`. The kernel answers 0 if `granted`. -/
def setsockopt (hook_enable : Bool) (sockfd level optname : Int) (optval : Timeval)
    (granted : Bool) : Except OptFault (Int × Fds) :=
  let rt := if granted then 0 else -1
  if hook_enable = false then .ok (rt, s)
  else if level = SOL_SOCKET ∧ (optname = SO_RCVTIMEO ∨ optname = SO_SNDTIMEO) then
    match s.get sockfd false with
    | .error fault => .error (.fd fault)
    | .ok (none, s) => .ok (rt, s)
    | .ok (some ctx, s) =>
        match optval.milliseconds with
        | none => .error .overflow
        | some v => .ok (rt, s.update ctx fun c => c.setTimeout optname (UInt64.ofInt v))
  else .ok (rt, s)

/-- `Socket::setRecvTimeout` and `Socket::setSendTimeout`. -/
def setSocketTimeout (hook_enable : Bool) (m_sock optname : Int) (v : Int64) (granted : Bool) :
    Except OptFault (Int × Fds) :=
  let tv : Timeval := ⟨(v / 1000).toInt32.toInt64, (v % 1000 * 1000).toInt32.toInt64⟩
  setsockopt s hook_enable m_sock SOL_SOCKET optname tv granted

def setRecvTimeout (hook_enable : Bool) (m_sock : Int) (v : Int64) (granted : Bool) :
    Except OptFault (Int × Fds) :=
  setSocketTimeout s hook_enable m_sock SO_RCVTIMEO v granted

def setSendTimeout (hook_enable : Bool) (m_sock : Int) (v : Int64) (granted : Bool) :
    Except OptFault (Int × Fds) :=
  setSocketTimeout s hook_enable m_sock SO_SNDTIMEO v granted

/-- What `getTimeout` gives on the descriptor's context, or `none` where it has none. -/
def timeout (fd optname : Int) : Except OptFault (Option UInt64) :=
  match s.get fd false with
  | .error fault => .error (.fd fault)
  | .ok (none, _) => .ok none
  | .ok (some ctx, s) => .ok (s.ctxs[ctx]?.map fun c => c.getTimeout optname)

/-- `Socket::getRecvTimeout` and `Socket::getSendTimeout`. -/
def getSocketTimeout (m_sock optname : Int) : Except OptFault Int64 :=
  (timeout s m_sock optname).map fun stored => (stored.map UInt64.toInt64).getD (-1)

def getRecvTimeout (m_sock : Int) : Except OptFault Int64 :=
  getSocketTimeout s m_sock SO_RCVTIMEO

def getSendTimeout (m_sock : Int) : Except OptFault Int64 :=
  getSocketTimeout s m_sock SO_SNDTIMEO

end Calls

/-- The descriptor has a context. -/
structure Managed (s : Fds) (fd : Int) (id : CtxId) (ctx : FdCtx) : Prop where
  looked : s.mgr.lookup fd false = .ok (.found (some id))
  stored : s.ctxs[id]? = some ctx

/-- The interval of the timer that `do_io` adds stands for the `timeval`, where all ones stand
for no timer. -/
def StandsFor (v : Timeval) (ms : UInt64) : Prop :=
  if v = ⟨0, 0⟩ then ms = -1
  else ms ≠ -1 ∧ v.microseconds ≤ ms.toNat * 1000 ∧ ms.toNat * 1000 < v.microseconds + 1000

/-- A call keeps the meaning of the timeouts of a descriptor. -/
structure KeepsMeaning (s s' : Fds) (fd optname : Int) (v : Timeval) (granted : Bool) :
    Prop where
  waits : granted = true → ∀ fn : IoFun, fn.timeout_so = optname →
    ∃ ms, timeout s' fd fn.timeout_so = .ok (some ms) ∧ StandsFor v ms
  used : ∀ (fn : IoFun) (call : IoCall), IoCall.enter s' true fd fn = .ok (some call) →
    call.pc = .retry → timeout s' fd fn.timeout_so = .ok (some call.timeout)
  other : granted = true → ∀ type, (type = SO_RCVTIMEO ∨ type = SO_SNDTIMEO) → type ≠ optname →
    timeout s' fd type = timeout s fd type
  kept : granted = false → ∀ type, timeout s' fd type = timeout s fd type

/-- What a `Socket` stores it also reports. -/
def Reports (s : Fds) (fd optname : Int) (v : Int64) : Prop :=
  ∃ s', setSocketTimeout s true fd optname v true = .ok (0, s') ∧
    getSocketTimeout s' fd optname = .ok v

/-! ### Stored timeouts -/

variable {s s' : Fds} {fd type : Int} {id : CtxId} {ctx : FdCtx} {v : Timeval}

theorem Managed.get (managed : Managed s fd id ctx) : s.get fd false = .ok (some id, s) := by
  rw [Fds.get, managed.looked]

theorem Managed.timeout_eq (managed : Managed s fd id ctx) (type : Int) :
    timeout s fd type = .ok (some (ctx.getTimeout type)) := by
  rw [timeout, managed.get]
  simp only [managed.stored, Option.map_some]

theorem Managed.update (managed : Managed s fd id ctx) (change : FdCtx → FdCtx) :
    Managed (s.update id change) fd id (change ctx) where
  looked := managed.looked
  stored := by
    rw [Fds.update, List.getElem?_modify_eq, managed.stored]
    rfl

theorem getTimeout_setTimeout_self (ctx : FdCtx) (type : Int) (ms : UInt64) :
    (ctx.setTimeout type ms).getTimeout type = ms := by
  unfold FdCtx.setTimeout FdCtx.getTimeout
  split <;> rfl

theorem getTimeout_setTimeout_other (ctx : FdCtx) {type other : Int} (ms : UInt64)
    (apart : ¬(type = SO_RCVTIMEO ↔ other = SO_RCVTIMEO)) :
    (ctx.setTimeout type ms).getTimeout other = ctx.getTimeout other := by
  unfold FdCtx.setTimeout FdCtx.getTimeout
  by_cases recv : type = SO_RCVTIMEO
  · have send : other ≠ SO_RCVTIMEO := fun same => apart ⟨fun _ => same, fun _ => recv⟩
    rw [if_pos recv, if_neg send, if_neg send]
  · have send : other = SO_RCVTIMEO := by
      by_contra neither
      exact apart ⟨fun same => absurd same recv, fun same => absurd same neither⟩
    rw [if_neg recv, if_pos send, if_pos send]

/-- A call that waits does so for what is stored. -/
theorem Managed.enter_timeout (managed : Managed s fd id ctx) {fn : IoFun} {call : IoCall}
    (entered : IoCall.enter s true fd fn = .ok (some call)) (waits : call.pc = .retry) :
    call.timeout = ctx.getTimeout fn.timeout_so := by
  simp only [IoCall.enter, Bool.not_true, Bool.false_eq_true, ↓reduceIte, managed.get,
    managed.stored] at entered
  split at entered
  · cases entered
  · split at entered
    · cases entered
      cases waits
    · cases entered
      rfl

/-- What the call stores, whatever the kernel answers to it. -/
theorem Managed.setsockopt_eq (managed : Managed s fd id ctx)
    (direction : type = SO_RCVTIMEO ∨ type = SO_SNDTIMEO) (v : Timeval) (granted : Bool) :
    setsockopt s true fd SOL_SOCKET type v granted =
      match v.milliseconds with
      | none => .error .overflow
      | some ms => .ok (if granted then 0 else -1,
          s.update id fun c => c.setTimeout type (UInt64.ofInt ms)) := by
  simp only [setsockopt, Bool.true_eq_false, direction, managed.get, and_self, ↓reduceIte]

/-! ### The conversion -/

theorem milliseconds_eq_some {ms : Int} (stored : v.milliseconds = some ms) :
    ms = v.tv_sec.toInt * 1000 + v.tv_usec.toInt.tdiv 1000 ∧ -2 ^ 63 ≤ ms ∧ ms < 2 ^ 63 := by
  simp only [Timeval.milliseconds] at stored
  split at stored
  · rename_i long
    rw [Bool.and_eq_true, isLong_iff, isLong_iff] at long
    obtain rfl := Option.some_inj.mp stored
    exact ⟨rfl, long.2⟩
  · cases stored

/-- Only whole milliseconds are kept, and of these not none at all. -/
theorem standsFor_iff (accepted : v.Accepted) {ms : Int} (stored : v.milliseconds = some ms) :
    StandsFor v (UInt64.ofInt ms) ↔ v.Whole := by
  obtain ⟨value, lower, upper⟩ := milliseconds_eq_some stored
  obtain ⟨nonneg, below⟩ := accepted
  rw [Int.tdiv_eq_ediv_of_nonneg nonneg] at value
  have number := toNat_ofInt ms
  have infinite : ((-1 : UInt64).toNat : Int) = 2 ^ 64 - 1 := by decide
  unfold StandsFor Timeval.microseconds Timeval.Whole
  by_cases zero : v = ⟨0, 0⟩
  · rw [if_pos zero]
    have none : ms = 0 := by
      rw [value, zero]
      decide
    constructor
    · intro same
      rw [same, none] at number
      exact absurd (infinite.symm.trans number) (by decide)
    · intro condition
      exact absurd zero condition.1
  · rw [if_neg zero]
    constructor
    · intro stands
      obtain ⟨-, atLeast, atMost⟩ := stands
      refine ⟨zero, ?_, ?_⟩ <;> omega
    · intro condition
      obtain ⟨-, whole, positive⟩ := condition
      refine ⟨fun same => ?_, by omega, by omega⟩
      rw [same] at number
      omega

/-! ### The calls -/

theorem exists_direction (direction : type = SO_RCVTIMEO ∨ type = SO_SNDTIMEO) :
    ∃ fn : IoFun, fn.timeout_so = type := by
  obtain rfl | rfl := direction
  · exact ⟨.read, rfl⟩
  · exact ⟨.write, rfl⟩

theorem other_direction {other : Int} (direction : type = SO_RCVTIMEO ∨ type = SO_SNDTIMEO)
    (other_ : other = SO_RCVTIMEO ∨ other = SO_SNDTIMEO) (apart : other ≠ type) :
    ¬(type = SO_RCVTIMEO ↔ other = SO_RCVTIMEO) := by
  obtain rfl | rfl := direction <;> obtain rfl | rfl := other_
  · exact absurd rfl apart
  · decide
  · decide
  · exact absurd rfl apart

/-- A call that stores the milliseconds keeps the meaning exactly when they stand for the
`timeval`, or the kernel refuses it and they were stored before. -/
theorem keepsMeaning_iff (managed : Managed s fd id ctx)
    (direction : type = SO_RCVTIMEO ∨ type = SO_SNDTIMEO) (ms : UInt64) (granted : Bool) :
    KeepsMeaning s (s.update id fun c => c.setTimeout type ms) fd type v granted ↔
      if granted then StandsFor v ms else ms = ctx.getTimeout type := by
  have updated := managed.update fun c => c.setTimeout type ms
  have used : ∀ (fn : IoFun) (call : IoCall),
      IoCall.enter (s.update id fun c => c.setTimeout type ms) true fd fn = .ok (some call) →
      call.pc = .retry →
      timeout (s.update id fun c => c.setTimeout type ms) fd fn.timeout_so =
        .ok (some call.timeout) := by
    intro fn call entered waits
    rw [updated.enter_timeout entered waits, updated.timeout_eq]
  cases granted with
  | true =>
      rw [if_pos rfl]
      constructor
      · intro keeps
        obtain ⟨fn, here⟩ := exists_direction direction
        obtain ⟨stored, found, stands⟩ := keeps.waits rfl fn here
        rw [here, updated.timeout_eq, getTimeout_setTimeout_self] at found
        rw [Option.some_inj.mp (Except.ok.inj found)]
        exact stands
      · intro stands
        refine ⟨fun _ fn here => ⟨ms, ?_, stands⟩, used, ?_, fun no => (by cases no)⟩
        · rw [here, updated.timeout_eq, getTimeout_setTimeout_self]
        · intro _ other known apart
          rw [updated.timeout_eq, managed.timeout_eq,
            getTimeout_setTimeout_other ctx ms (other_direction direction known apart)]
  | false =>
      rw [if_neg Bool.false_ne_true]
      constructor
      · intro keeps
        have kept := keeps.kept rfl type
        rw [updated.timeout_eq, managed.timeout_eq, getTimeout_setTimeout_self] at kept
        exact Option.some_inj.mp (Except.ok.inj kept)
      · intro same
        refine ⟨fun no => (by cases no), used, fun no => (by cases no), fun _ other => ?_⟩
        rw [updated.timeout_eq, managed.timeout_eq]
        by_cases here : type = SO_RCVTIMEO ↔ other = SO_RCVTIMEO
        · have alike : ∀ c : FdCtx, c.getTimeout other = c.getTimeout type := by
            intro c
            unfold FdCtx.getTimeout
            simp only [here]
          rw [alike, alike, getTimeout_setTimeout_self, same]
        · rw [getTimeout_setTimeout_other ctx ms here]

/-- The call is defined and keeps the meaning of the timeouts. -/
def Keeps (s : Fds) (fd type : Int) (v : Timeval) (granted : Bool) : Prop :=
  ∃ rt s', setsockopt s true fd SOL_SOCKET type v granted = .ok (rt, s') ∧
    KeepsMeaning s s' fd type v granted

theorem keeps_iff (managed : Managed s fd id ctx)
    (direction : type = SO_RCVTIMEO ∨ type = SO_SNDTIMEO) (v : Timeval) (granted : Bool)
    (accepted : granted = true → v.Accepted) :
    Keeps s fd type v granted ↔ ∃ ms, v.milliseconds = some ms ∧
      if granted then v.Whole else UInt64.ofInt ms = ctx.getTimeout type := by
  unfold Keeps
  rw [managed.setsockopt_eq direction]
  cases stored : v.milliseconds with
  | none =>
      constructor
      · intro keeps
        obtain ⟨rt, s', called, -⟩ := keeps
        cases called
      · intro condition
        obtain ⟨ms, called, -⟩ := condition
        cases called
  | some ms =>
      have meaning := keepsMeaning_iff (v := v) managed direction (UInt64.ofInt ms) granted
      have same : (if granted then StandsFor v (UInt64.ofInt ms)
          else UInt64.ofInt ms = ctx.getTimeout type) ↔
          if granted then v.Whole else UInt64.ofInt ms = ctx.getTimeout type := by
        cases granted with
        | true => exact standsFor_iff (accepted rfl) stored
        | false => exact Iff.rfl
      constructor
      · intro keeps
        obtain ⟨rt, s', called, keeps⟩ := keeps
        obtain ⟨-, rfl⟩ := Prod.mk.inj (Except.ok.inj called)
        exact ⟨ms, rfl, same.mp (meaning.mp keeps)⟩
      · intro condition
        obtain ⟨ms', stored', condition⟩ := condition
        obtain rfl := Option.some_inj.mp stored'
        exact ⟨_, _, rfl, meaning.mpr (same.mpr condition)⟩

/-! ### Round trips of a `Socket` -/

/-- The seconds are narrowed to an `int`, and the microseconds are one. -/
theorem split_toInt {w : Int64} (positive : 0 < w) :
    (w / 1000).toInt32.toInt64.toInt = (w.toInt / 1000).bmod (2 ^ 32) ∧
      (w % 1000 * 1000).toInt32.toInt64.toInt = w.toInt % 1000 * 1000 := by
  have number : 0 < w.toInt := Int64.lt_iff_toInt_lt.mp positive
  have upper := w.toInt_lt
  have thousand : (1000 : Int64).toInt = 1000 := by decide
  constructor
  · rw [Int32.toInt_toInt64, Int64.toInt_toInt32, Int64.toInt_div, thousand,
      Int.tdiv_eq_ediv_of_nonneg (by omega),
      Int.bmod_eq_of_le (n := w.toInt / 1000) (by omega) (by omega)]
  · rw [Int32.toInt_toInt64, Int64.toInt_toInt32, Int64.toInt_mul, Int64.toInt_mod, thousand,
      Int.tmod_eq_emod_of_nonneg (by omega),
      Int.bmod_eq_of_le (n := w.toInt % 1000 * 1000) (by omega) (by omega),
      Int.bmod_eq_of_le (by omega) (by omega)]

theorem toInt_reported {ms : Int} (lower : -2 ^ 63 ≤ ms) (upper : ms < 2 ^ 63) :
    (UInt64.ofInt ms).toInt64.toInt = ms := by
  have positive : 0 ≤ ms % 2 ^ 64 := Int.emod_nonneg ms (by decide)
  rw [UInt64.ofInt, UInt64.toInt64_ofNat', Int64.toInt_ofNat', Int.toNat_of_nonneg positive]
  exact (Int.emod_bmod ms (2 ^ 64)).trans (Int.bmod_eq_of_le (by omega) (by omega))

theorem reports_iff (managed : Managed s fd id ctx)
    (direction : type = SO_RCVTIMEO ∨ type = SO_SNDTIMEO) {w : Int64} (positive : 0 < w) :
    Reports s fd type w ↔ w < 2147483648000 := by
  have number : 0 < w.toInt := Int64.lt_iff_toInt_lt.mp positive
  have bound : w < 2147483648000 ↔ w.toInt < 2147483648000 := Int64.lt_iff_toInt_lt
  have upper := w.toInt_lt
  obtain ⟨seconds, rest⟩ := split_toInt positive
  let ms : Int := (w.toInt / 1000).bmod (2 ^ 32) * 1000 + w.toInt % 1000
  have narrow := Int.bmod_lt (x := w.toInt / 1000) (m := 2 ^ 32) (by decide)
  have wide := Int.le_bmod (x := w.toInt / 1000) (m := 2 ^ 32) (by decide)
  have stored : Timeval.milliseconds
      ⟨(w / 1000).toInt32.toInt64, (w % 1000 * 1000).toInt32.toInt64⟩ = some ms := by
    have whole : (w.toInt % 1000 * 1000).tdiv 1000 = w.toInt % 1000 :=
      Int.mul_tdiv_cancel _ (by decide)
    simp only [Timeval.milliseconds, seconds, rest, whole]
    rw [if_pos]
    rw [Bool.and_eq_true, isLong_iff, isLong_iff]
    omega
  have called : setSocketTimeout s true fd type w true =
      .ok (0, s.update id fun c => c.setTimeout type (UInt64.ofInt ms)) := by
    simp only [setSocketTimeout, managed.setsockopt_eq direction, stored, ↓reduceIte]
  have got : getSocketTimeout (s.update id fun c => c.setTimeout type (UInt64.ofInt ms)) fd type =
      .ok (UInt64.ofInt ms).toInt64 := by
    rw [getSocketTimeout, (managed.update _).timeout_eq, getTimeout_setTimeout_self]
    rfl
  have same : (UInt64.ofInt ms).toInt64 = w ↔ ms = w.toInt := by
    rw [← Int64.toInt_inj, toInt_reported (by omega) (by omega)]
  constructor
  · intro reports
    obtain ⟨s', called', got'⟩ := reports
    rw [called] at called'
    obtain ⟨-, rfl⟩ := Prod.mk.inj (Except.ok.inj called')
    rw [got] at got'
    have equal : ms = w.toInt := same.mp (Except.ok.inj got')
    rw [bound]
    omega
  · intro small
    rw [bound] at small
    refine ⟨_, called, got.trans (congrArg Except.ok (same.mpr ?_))⟩
    have kept : (w.toInt / 1000).bmod (2 ^ 32) = w.toInt / 1000 :=
      Int.bmod_eq_of_le (by omega) (by omega)
    omega

/-- The timeouts of a managed descriptor keep their meaning exactly in these cases: a call that
the kernel grants gives some whole milliseconds, one that it refuses gives what is stored
already, and a `Socket` reports what is below 2^31 seconds. -/
theorem timeouts_iff (managed : Managed s fd id ctx)
    (direction : type = SO_RCVTIMEO ∨ type = SO_SNDTIMEO) (v : Timeval) (granted : Bool)
    (accepted : granted = true → v.Accepted) :
    (Keeps s fd type v granted ↔ ∃ ms, v.milliseconds = some ms ∧
      if granted then v.Whole else UInt64.ofInt ms = ctx.getTimeout type) ∧
    ∀ w : Int64, 0 < w → (Reports s fd type w ↔ w < 2147483648000) :=
  ⟨keeps_iff managed direction v granted accepted, fun _ => reports_iff managed direction⟩

/-- A blocking socket under the number 3, without timeouts. -/
def connection : FdCtx := ⟨true, true, true, false, false, 3, -1, -1, none⟩

def connected : Fds := ⟨Kernel.boot, ⟨[none, none, none, some 0]⟩, [connection]⟩

theorem connected_managed : Managed connected 3 0 connection := ⟨rfl, rfl⟩

theorem timeouts_kept :
    Keeps connected 3 SO_RCVTIMEO ⟨1, 500000⟩ true ∧ Reports connected 3 SO_RCVTIMEO 120000 := by
  obtain ⟨keeps, reports⟩ :=
    timeouts_iff connected_managed (Or.inl rfl) ⟨1, 500000⟩ true (fun _ => by decide)
  exact ⟨keeps.mpr ⟨1500, by decide, by decide⟩, (reports 120000 (by decide)).mpr (by decide)⟩

/-- No limit, half a millisecond, a refused call and 2^31 seconds. -/
theorem timeouts_lost :
    ¬Keeps connected 3 SO_RCVTIMEO ⟨0, 0⟩ true ∧
      ¬Keeps connected 3 SO_RCVTIMEO ⟨0, 500⟩ true ∧
      ¬Keeps connected 3 SO_RCVTIMEO ⟨0, 1000000⟩ false ∧
      ¬Reports connected 3 SO_RCVTIMEO 2147483648000 := by
  have keeps := fun v granted =>
    @keeps_iff _ _ SO_RCVTIMEO _ _ connected_managed (Or.inl rfl) v granted
  refine ⟨?_, ?_, ?_, ?_⟩
  · rw [keeps ⟨0, 0⟩ true fun _ => by decide]
    intro condition
    obtain ⟨ms, -, whole⟩ := condition
    rw [if_pos rfl] at whole
    exact absurd whole (by decide)
  · rw [keeps ⟨0, 500⟩ true fun _ => by decide]
    intro condition
    obtain ⟨ms, -, whole⟩ := condition
    rw [if_pos rfl] at whole
    exact absurd whole (by decide)
  · rw [keeps ⟨0, 1000000⟩ false fun refused => by cases refused]
    intro condition
    obtain ⟨ms, stored, same⟩ := condition
    have second : ms = 1000 := (milliseconds_eq_some stored).1
    rw [second] at same
    exact absurd same (by decide)
  · rw [reports_iff connected_managed (Or.inl rfl) (by decide)]
    decide

end CorReactor.Hook
