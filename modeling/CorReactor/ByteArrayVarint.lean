import Mathlib.Data.Nat.Digits.Lemmas
import Mathlib.Data.Nat.Log
import Mathlib.Order.Bounds.Defs
import CorReactor.ByteArrayCapacity
import CorReactor.ByteArrayTruncated
import CorReactor.Continued

set_option autoImplicit false

/-! Which numbers the varints stand for: what a read makes of any bytes, and what a write
appends. -/

namespace CorReactor

open Continued

/-- The byte has its high bit set. -/
def continues (b : UInt8) : Bool := decide (0x80 ≤ b.toNat)

/-- The number whose groups of seven bits the bytes hold, the lowest first. -/
def groupsValue (bytes : List UInt8) : Nat :=
  Nat.ofDigits 128 (bytes.map fun b => b.toNat % 128)

@[simp] theorem groupsValue_nil : groupsValue [] = 0 := rfl

theorem groupsValue_cons (b : UInt8) (rest : List UInt8) :
    groupsValue (b :: rest) = b.toNat % 128 + 128 * groupsValue rest := by
  unfold groupsValue
  rw [List.map_cons, Nat.ofDigits_cons]

theorem groupsValue_append_singleton (front : List UInt8) (last : UInt8) :
    groupsValue (front ++ [last]) =
      groupsValue front + 128 ^ front.length * (last.toNat % 128) := by
  unfold groupsValue
  rw [List.map_append, List.map_singleton, Nat.ofDigits_append, Nat.ofDigits_singleton,
    List.length_map]

theorem groupsValue_lt (bytes : List UInt8) : groupsValue bytes < 128 ^ bytes.length := by
  have small := Nat.ofDigits_lt_base_pow_length (b := 128)
    (l := bytes.map fun b => b.toNat % 128) (by decide) (by
      intro digit inside
      obtain ⟨b, -, same⟩ := List.mem_map.mp inside
      rw [← same]
      exact Nat.mod_lt _ (by decide))
  rwa [List.length_map] at small

/-- The last group decides which multiple of its weight the value stays below. -/
theorem groupsValue_append_singleton_lt_iff (front : List UInt8) {last : UInt8} (top : Nat)
    (below : last.toNat < 128) :
    groupsValue (front ++ [last]) < 128 ^ front.length * top ↔ last.toNat < top := by
  rw [groupsValue_append_singleton, Nat.mod_eq_of_lt below]
  constructor
  · intro small
    exact Nat.lt_of_mul_lt_mul_left (Nat.lt_of_le_of_lt (Nat.le_add_left _ _) small)
  · intro small
    calc
      _ < 128 ^ front.length + 128 ^ front.length * last.toNat :=
        Nat.add_lt_add_right (groupsValue_lt front) _
      _ = 128 ^ front.length * (last.toNat + 1) := by rw [Nat.mul_succ, Nat.add_comm]
      _ ≤ 128 ^ front.length * top := Nat.mul_le_mul_left _ small

namespace ByteArray

/-! ### The value of any bytes -/

/-- A group behind the lower ones, cut to the width of the type. -/
theorem or_group {w i : Nat} (inside : i ≤ w) {result : BitVec w} (low : result.toNat < 2 ^ i)
    (group : BitVec 8) :
    result ||| (group.setWidth w <<< i) =
      BitVec.ofNat w (result.toNat + 2 ^ i * group.toNat) := by
  obtain ⟨r, rfl⟩ := Nat.exists_eq_add_of_le inside
  have cut_off : ∀ n, 2 ^ i * n % 2 ^ (i + r) = 2 ^ i * (n % 2 ^ r) := by
    intro n
    rw [Nat.pow_add, Nat.mul_mod_mul_left]
  have below : 2 ^ i * (group.toNat % 2 ^ r) + result.toNat < 2 ^ (i + r) := by
    have high := Nat.mod_lt group.toNat (Nat.two_pow_pos r)
    calc
      _ < 2 ^ i * (group.toNat % 2 ^ r) + 2 ^ i := Nat.add_lt_add_left low _
      _ = 2 ^ i * (group.toNat % 2 ^ r + 1) := (Nat.mul_succ _ _).symm
      _ ≤ 2 ^ i * 2 ^ r := Nat.mul_le_mul_left _ high
      _ = 2 ^ (i + r) := (Nat.pow_add 2 i r).symm
  apply BitVec.eq_of_toNat_eq
  have shifted : (group.setWidth (i + r) <<< i).toNat = 2 ^ i * (group.toNat % 2 ^ r) := by
    rw [BitVec.toNat_shiftLeft, BitVec.toNat_setWidth, Nat.shiftLeft_eq, Nat.mul_comm, cut_off,
      Nat.mod_mod_of_dvd _ (Nat.pow_dvd_pow 2 (Nat.le_add_left r i))]
  rw [BitVec.toNat_or, shifted, Nat.or_comm, ← Nat.two_pow_add_eq_or_of_lt low,
    BitVec.toNat_ofNat, Nat.add_comm result.toNat, Nat.add_mod, cut_off, Nat.add_mod_mod,
    Nat.mod_eq_of_lt below]

/-- One more group stays below the weight of the next one. -/
theorem group_lt {k n : Nat} (low : n < 2 ^ (7 * k)) (b : Nat) :
    n + 2 ^ (7 * k) * (b % 128) < 2 ^ (7 * (k + 1)) := by
  have high := Nat.mod_lt b (by decide : 0 < 128)
  have wider : 2 ^ (7 * (k + 1)) = 2 ^ (7 * k) * 128 := by
    rw [Nat.mul_succ, Nat.pow_add]
  have room := Nat.mul_le_mul_left (2 ^ (7 * k)) (Nat.le_of_lt_succ high)
  omega

/-- What is cut off after a group is not missed by the groups behind it. -/
theorem ofNat_group (w k n group groups : Nat) :
    BitVec.ofNat w ((BitVec.ofNat w (n + 2 ^ (7 * k) * group)).toNat +
      2 ^ (7 * (k + 1)) * groups) =
      BitVec.ofNat w (n + 2 ^ (7 * k) * (group + 128 * groups)) := by
  apply BitVec.eq_of_toNat_eq
  rw [BitVec.toNat_ofNat, BitVec.toNat_ofNat, BitVec.toNat_ofNat, Nat.mod_add_mod,
    Nat.mul_succ, Nat.pow_add, Nat.mul_add, Nat.mul_assoc, Nat.add_assoc]

/-- From its `k`-th turn on the loop reads one word of at most `count` bytes. -/
theorem decodeVarint_eq {w : Nat} (k count : Nat) (turns : count = 0 ∨ 7 * (k + count - 1) ≤ w)
    (result : BitVec w) (low : result.toNat < 2 ^ (7 * k)) (bytes : List UInt8) :
    decodeVarint w ((List.range' k count).map (7 * ·)) result bytes =
      (cut continues count bytes).map fun found =>
        (BitVec.ofNat w (result.toNat + 2 ^ (7 * k) * groupsValue found.1), found.2) := by
  induction count generalizing k result bytes with
  | zero =>
      simp only [List.range'_zero, List.map_nil, decodeVarint, cut, Option.map_some,
        groupsValue_nil, Nat.mul_zero, Nat.add_zero, BitVec.ofNat_toNat, BitVec.setWidth_eq]
  | succ count ih =>
      have inside : 7 * k ≤ w := by omega
      cases bytes with
      | nil => rfl
      | cons b rest =>
          have byte : (BitVec.ofNat 8 b.toNat).toNat = b.toNat := by
            have small := b.toNat_lt
            rw [BitVec.toNat_ofNat, Nat.mod_eq_of_lt small]
          rw [List.range'_succ, List.map_cons, decodeVarint]
          simp only [byte]
          by_cases last : b.toNat < 0x80
          · have stops : continues b = false := by
              unfold continues
              exact decide_eq_false (by omega)
            have value : groupsValue [b] = b.toNat := by
              rw [groupsValue_cons, groupsValue_nil]
              omega
            rw [if_pos last, or_group inside low, byte]
            simp only [cut, stops, Bool.false_eq_true, ↓reduceIte, Option.map_some, value]
          · have again : continues b = true := by
              unfold continues
              exact decide_eq_true (by omega)
            have group : (BitVec.ofNat 8 b.toNat &&& 0x7f).toNat = b.toNat % 128 := by
              rw [BitVec.toNat_and, byte]
              exact Nat.and_two_pow_sub_one_eq_mod b.toNat 7
            have next : result ||| ((BitVec.ofNat 8 b.toNat &&& 0x7f).setWidth w <<< (7 * k)) =
                BitVec.ofNat w (result.toNat + 2 ^ (7 * k) * (b.toNat % 128)) := by
              rw [or_group inside low, group]
            rw [if_neg last, next]
            have low' : (BitVec.ofNat w (result.toNat + 2 ^ (7 * k) * (b.toNat % 128))).toNat <
                2 ^ (7 * (k + 1)) := by
              rw [BitVec.toNat_ofNat]
              exact Nat.lt_of_le_of_lt (Nat.mod_le _ _) (group_lt low b.toNat)
            rw [ih (k + 1) (by omega) _ low' rest]
            simp only [cut, again, ↓reduceIte, Option.map_map]
            congr 1
            funext found
            simp only [Function.comp_apply, groupsValue_cons, ofNat_group]

/-- The decoded number is what the groups of the first word hold, cut to the width. -/
theorem decodeVarint_cut {w : Nat} (positive : 0 < w) (bytes : List UInt8) :
    decodeVarint w (varintShifts w) 0 bytes =
      (cut continues ((w + 6) / 7) bytes).map fun found =>
        (BitVec.ofNat w (groupsValue found.1), found.2) := by
  have whole := decodeVarint_eq 0 ((w + 6) / 7) (by omega) (0 : BitVec w)
    (Nat.two_pow_pos _) bytes
  rw [← List.range_eq_range'] at whole
  unfold varintShifts
  rw [whole]
  simp only [BitVec.ofNat_eq_ofNat, BitVec.toNat_ofNat, Nat.zero_mod, Nat.zero_add, Nat.mul_zero,
    Nat.pow_zero, Nat.one_mul]

/-! ### What a read loses -/

/-- The bytes between the positions of two states of the array. -/
def consumed (s t : ByteArray) : List UInt8 := s.unread.take (t.m_position - s.m_position)

/-- Whenever the read returns it has read one whole varint, and the value is that of its
groups. -/
def Lossless {w : Nat} (s : ByteArray) (read : Op (BitVec w)) : Prop :=
  ∀ value t, read s = .ok value t → Terminated continues (consumed s t) ∧
    groupsValue (consumed s t) < 2 ^ w ∧ groupsValue (consumed s t) = value.toNat

/-- What the narrow read returns the wide one returns too. -/
def Agree (s : ByteArray) : Prop :=
  ∀ value t, readUint32 s = .ok value t →
    ∃ wide, readUint64 s = .ok wide t ∧ wide.toNat = value.toNat

/-- The byte behind `front` bytes that all have their high bit set is below `top`. -/
def InRange (front top : Nat) (bytes : List UInt8) : Prop :=
  (∀ b ∈ bytes.take front, 0x80 ≤ b.toNat) → ∀ b ∈ bytes[front]?, b.toNat < top

instance (front top : Nat) (bytes : List UInt8) : Decidable (InRange front top bytes) :=
  @forall_prop_decidable _ _ (List.decidableBAll (0x80 ≤ ·.toNat) (bytes.take front))
    fun _ => Option.decidableForallMem bytes[front]?

/-- The first word is whole and fits into the type exactly where the byte behind `front` bytes
with their high bit set leaves the other bits of the type free. -/
theorem inRange_iff (front : Nat) {r : Nat} (narrow : r ≤ 7) (bytes : List UInt8) :
    InRange front (2 ^ r) bytes ↔
      ∀ word rest, cut continues (front + 1) bytes = some (word, rest) →
        Terminated continues word ∧ groupsValue word < 2 ^ (7 * front + r) := by
  have wide : 2 ^ (7 * front + r) = 128 ^ front * 2 ^ r := by
    rw [Nat.pow_add, Nat.pow_mul]
  have top : 2 ^ r ≤ 2 ^ 7 := Nat.pow_le_pow_right (by decide) narrow
  have positive := Nat.two_pow_pos r
  rw [wide]
  constructor
  · intro range word rest found
    obtain ⟨-, short, ending⟩ := cut_eq_some found
    by_cases full : word.length = front + 1
    · obtain ⟨last, rfl, here, all⟩ := cut_of_length found full
      have length : (bytes.take front).length = front := by
        rw [List.length_append, List.length_singleton] at full
        exact Nat.succ.inj full
      have small := range (fun b inside => of_decide_eq_true (all b inside)) last here
      refine ⟨(terminated_iff _).mpr ⟨_, last, rfl, all, ?_⟩, ?_⟩
      · unfold continues
        exact decide_eq_false (by omega)
      · have value := groupsValue_append_singleton_lt_iff (bytes.take front) (2 ^ r)
          (by omega : last.toNat < 128)
        rw [length] at value
        exact value.mpr small
    · refine ⟨?_, ?_⟩
      · rcases ending with terminated | ⟨exactly, -⟩
        · exact terminated
        · exact absurd exactly full
      · calc
          _ < 128 ^ word.length := groupsValue_lt word
          _ ≤ 128 ^ front := Nat.pow_le_pow_right (by decide) (by omega)
          _ ≤ 128 ^ front * 2 ^ r := Nat.le_mul_of_pos_right _ positive
  · intro sound all last here
    obtain ⟨inside, value⟩ := List.getElem?_eq_some_iff.mp here
    have length : (bytes.take front).length = front := by
      rw [List.length_take]
      omega
    have split : bytes = bytes.take front ++ last :: bytes.drop (front + 1) := by
      rw [← value, ← List.drop_eq_getElem_cons inside, List.take_append_drop]
    have continuing : ∀ b ∈ bytes.take front, continues b = true := fun b member =>
      decide_eq_true (all b member)
    have cut_off := cut_full continuing last (bytes.drop (front + 1))
    rw [length, ← split] at cut_off
    obtain ⟨terminated, small⟩ := sound _ _ cut_off
    obtain ⟨front', last', same, -, stops⟩ := (terminated_iff _).mp terminated
    have ends : continues last = false := by
      rw [List.singleton_inj.mp (List.append_inj' same rfl).2]
      exact stops
    have below : last.toNat < 128 := Nat.lt_of_not_le (of_decide_eq_false ends)
    have value := groupsValue_append_singleton_lt_iff (bytes.take front) (2 ^ r) below
    rw [length] at value
    exact value.mp small

variable {s : ByteArray}

/-- A varint is read as its first word, or the bytes end within it. -/
theorem readVarint_cut {w : Nat} (positive : 0 < w) (rep : Rep s) :
    readVarint w (varintShifts w) 0 s =
      match cut continues ((w + 6) / 7) s.unread with
      | some (word, _) => .ok (BitVec.ofNat w (groupsValue word)) (s.advance word.length)
      | none => .error .outOfRange (s.advance s.unread.length) := by
  have front := readVarint_front (varintShifts w) (0 : BitVec w) rep
  unfold TakesFront at front
  rw [front, decodeVarint_cut positive]
  cases found : cut continues ((w + 6) / 7) s.unread with
  | none => rfl
  | some both =>
      obtain ⟨word, rest⟩ := both
      have count : s.unread.length - rest.length = word.length := by
        rw [(cut_eq_some found).1, List.length_append]
        omega
      simp only [Option.map_some, count]

theorem consumed_advance {word rest : List UInt8} (whole : s.unread = word ++ rest) :
    consumed s (s.advance word.length) = word := by
  have position : (s.advance word.length).m_position = s.m_position + word.length := rfl
  unfold consumed
  rw [position, Nat.add_sub_cancel_left, whole, List.take_left]

theorem lossless_iff (front r : Nat) (some_bits : 0 < r) (narrow : r ≤ 7) (rep : Rep s) :
    Lossless s (readVarint (7 * front + r) (varintShifts (7 * front + r)) 0) ↔
      InRange front (2 ^ r) s.unread := by
  have read := readVarint_cut (w := 7 * front + r) (by omega) rep
  have rounds : (7 * front + r + 6) / 7 = front + 1 := by omega
  rw [rounds] at read
  rw [inRange_iff front narrow]
  unfold Lossless
  rw [read]
  constructor
  · intro lossless word rest found
    rw [found] at lossless
    have kept := lossless _ _ rfl
    rw [consumed_advance (cut_eq_some found).1] at kept
    exact ⟨kept.1, kept.2.1⟩
  · intro sound value t done
    cases found : cut continues (front + 1) s.unread with
    | none =>
        rw [found] at done
        cases done
    | some both =>
        obtain ⟨word, rest⟩ := both
        rw [found] at done
        obtain ⟨terminated, small⟩ := sound word rest found
        cases done
        rw [consumed_advance (cut_eq_some found).1]
        refine ⟨terminated, small, ?_⟩
        rw [BitVec.toNat_ofNat, Nat.mod_eq_of_lt small]

/-- The wide read goes on where the narrow one stops for want of shifts, and keeps the bits that
the narrow one drops. -/
theorem agree_iff (rep : Rep s) : Agree s ↔ InRange 4 16 s.unread := by
  have narrow : readUint32 s = _ := readVarint_cut (w := 32) (by decide) rep
  have wide : readUint64 s = _ := readVarint_cut (w := 64) (by decide) rep
  refine Iff.trans ?_ (inRange_iff 4 (by decide : 4 ≤ 7) s.unread).symm
  unfold Agree
  rw [narrow, wide]
  constructor
  · intro agree word rest found
    obtain ⟨whole, short, -⟩ := cut_eq_some found
    rw [found] at agree
    obtain ⟨value, done, same⟩ := agree _ _ rfl
    cases again : cut continues 10 s.unread with
    | none =>
        rw [again] at done
        cases done
    | some both =>
        obtain ⟨word', rest'⟩ := both
        rw [again] at done
        obtain ⟨whole', -, ending⟩ := cut_eq_some again
        obtain ⟨value_eq, moved⟩ := EStateM.Result.ok.inj done
        have length : word'.length = word.length :=
          Nat.add_left_cancel (congrArg m_position moved)
        have equal : word' = word := by
          rw [whole] at whole'
          exact (List.append_inj whole' length.symm).1.symm
        subst equal
        have small : groupsValue word' < 2 ^ 64 := by
          calc
            _ < 128 ^ word'.length := groupsValue_lt word'
            _ ≤ 128 ^ 5 := Nat.pow_le_pow_right (by decide) short
            _ ≤ 2 ^ 64 := by decide
        refine ⟨?_, ?_⟩
        · rcases ending with terminated | ⟨full, -⟩
          · exact terminated
          · omega
        · rw [← value_eq, BitVec.toNat_ofNat, Nat.mod_eq_of_lt small, BitVec.toNat_ofNat] at same
          rw [same]
          exact Nat.mod_lt _ (by decide)
  · intro sound value t done
    cases found : cut continues 5 s.unread with
    | none =>
        rw [found] at done
        cases done
    | some both =>
        obtain ⟨word, rest⟩ := both
        rw [found] at done
        cases done
        obtain ⟨whole, short, -⟩ := cut_eq_some found
        obtain ⟨terminated, small⟩ := sound word rest found
        have more := cut_terminated terminated (Nat.le_trans short (by decide : 5 ≤ 10)) rest
        rw [← whole] at more
        refine ⟨_, by rw [more], ?_⟩
        rw [BitVec.toNat_ofNat, BitVec.toNat_ofNat, Nat.mod_eq_of_lt small,
          Nat.mod_eq_of_lt (Nat.lt_trans small (by decide))]

/-- A read of a varint loses nothing exactly where the last byte it may look at leaves the bits
free that the type does not have. -/
theorem readVarint_lossless_iff {base_size : Nat} (reached : Reached base_size s) :
    (Lossless s readUint32 ↔ InRange 4 16 s.unread) ∧
      (Lossless s readUint64 ↔ InRange 9 2 s.unread) ∧ (Agree s ↔ InRange 4 16 s.unread) := by
  rcases reached.rep_or_roomless with rep | none_left
  · exact ⟨lossless_iff 4 4 (by decide) (by decide) rep,
      lossless_iff 9 1 (by decide) (by decide) rep, agree_iff rep⟩
  · have fails32 := none_left.read_front .Uint32
    have fails64 := none_left.read_front .Uint64
    have range : ∀ front top, InRange front top s.unread := by
      intro front top _ last here
      rw [none_left.unread] at here
      cases here
    have never : ∀ {w : Nat} {read : Op (BitVec w)}, read s = .error .outOfRange s →
        Lossless s read := by
      intro w read failed value t done
      rw [failed] at done
      cases done
    refine ⟨iff_of_true (never fails32) (range _ _), iff_of_true (never fails64) (range _ _),
      iff_of_true ?_ (range _ _)⟩
    intro value t done
    rw [show readUint32 s = _ from fails32] at done
    cases done

/-- The largest number of 32 bits. -/
theorem readVarint_lossless_max :
    ∃ outs s, Transition.run Call.step (new 8 fun _ => 0)
        [.write [0xff, 0xff, 0xff, 0xff, 0x0f, 1], .setPosition 0] = some (outs, s) ∧
      Lossless s readUint32 ∧ Agree s := by
  refine ⟨_, _, rfl, ?_⟩
  have lossless := readVarint_lossless_iff (show Reached 8 _ from
    ⟨fun _ => 0, [.write [0xff, 0xff, 0xff, 0xff, 0x0f, 1], .setPosition 0], _, rfl⟩)
  exact ⟨lossless.1.mpr (by decide), lossless.2.2.mpr (by decide)⟩

/-- What a narrow read gives on a stored word. -/
theorem readUint32_word {base_size : Nat} (positive : 0 < base_size)
    (reached : Reached base_size s) {word rest : List UInt8}
    (found : cut continues 5 s.unread = some (word, rest)) :
    readUint32 s = .ok (BitVec.ofNat 32 (groupsValue word)) (s.advance word.length) ∧
      consumed s (s.advance word.length) = word := by
  have read : readUint32 s = _ := readVarint_cut (w := 32) (by decide) (reached.rep positive).1
  rw [found] at read
  exact ⟨read, consumed_advance (cut_eq_some found).1⟩

/-- A fifth byte 16 stands for 2 to the 32 and is read as 0, and a fifth byte 128 is taken for the
last one. -/
theorem readVarint_loses :
    (∃ outs s t, Transition.run Call.step (new 8 fun _ => 0)
        [.write [0x80, 0x80, 0x80, 0x80, 0x10, 1], .setPosition 0] = some (outs, s) ∧
      readUint32 s = .ok 0 t ∧ consumed s t = [0x80, 0x80, 0x80, 0x80, 0x10] ∧
      groupsValue (consumed s t) = 2 ^ 32 ∧ ¬ Lossless s readUint32 ∧ ¬ Agree s) ∧
    ∃ outs s t, Transition.run Call.step (new 8 fun _ => 0)
        [.write [0x80, 0x80, 0x80, 0x80, 0x80, 1], .setPosition 0] = some (outs, s) ∧
      readUint32 s = .ok 0 t ∧ consumed s t = [0x80, 0x80, 0x80, 0x80, 0x80] ∧
      ¬ Lossless s readUint32 := by
  constructor
  · obtain ⟨outs, s, run, stored⟩ : ∃ outs s, Transition.run Call.step (new 8 fun _ => 0)
        [.write [0x80, 0x80, 0x80, 0x80, 0x10, 1], .setPosition 0] = some (outs, s) ∧
        s.unread = [0x80, 0x80, 0x80, 0x80, 0x10, 1] := ⟨_, _, rfl, rfl⟩
    have reached : Reached 8 s := ⟨fun _ => 0, _, _, run⟩
    have word : cut continues 5 s.unread = some ([0x80, 0x80, 0x80, 0x80, 0x10], [1]) := by
      rw [stored]
      decide
    have value : groupsValue [0x80, 0x80, 0x80, 0x80, 0x10] = 2 ^ 32 := by decide
    obtain ⟨read, bytes⟩ := readUint32_word (by decide) reached word
    have rep := (reached.rep (by decide)).1
    refine ⟨outs, s, _, run, read, bytes, by rw [bytes, value], ?_, ?_⟩
    · rw [show Lossless s readUint32 ↔ _ from lossless_iff 4 4 (by decide) (by decide) rep, stored]
      decide
    · rw [agree_iff rep, stored]
      decide
  · obtain ⟨outs, s, run, stored⟩ : ∃ outs s, Transition.run Call.step (new 8 fun _ => 0)
        [.write [0x80, 0x80, 0x80, 0x80, 0x80, 1], .setPosition 0] = some (outs, s) ∧
        s.unread = [0x80, 0x80, 0x80, 0x80, 0x80, 1] := ⟨_, _, rfl, rfl⟩
    have reached : Reached 8 s := ⟨fun _ => 0, _, _, run⟩
    have word : cut continues 5 s.unread = some ([0x80, 0x80, 0x80, 0x80, 0x80], [1]) := by
      rw [stored]
      decide
    obtain ⟨read, bytes⟩ := readUint32_word (by decide) reached word
    have rep := (reached.rep (by decide)).1
    refine ⟨outs, s, _, run, read, bytes, ?_⟩
    rw [show Lossless s readUint32 ↔ _ from lossless_iff 4 4 (by decide) (by decide) rep, stored]
    decide

/-! ### What a write appends -/

/-- How many groups of seven bits hold a number. -/
def groupCount (value : Nat) : Nat := Nat.log 128 value + 1

theorem groupCount_least (value : Nat) :
    IsLeast {k | 0 < k ∧ value < 128 ^ k} (groupCount value) := by
  refine ⟨⟨Nat.succ_pos _, Nat.lt_pow_succ_log_self (by decide) value⟩, ?_⟩
  intro k holds
  obtain ⟨positive, small⟩ := holds
  exact Nat.log_lt_of_lt_pow' (Nat.ne_of_gt positive) small

/-- A value of one group. -/
theorem single_word {value : Nat} (small : value < 0x80) :
    Terminated continues [UInt8.ofNat value] ∧ groupsValue [UInt8.ofNat value] = value ∧
      [UInt8.ofNat value].length = groupCount value := by
  have byte : (UInt8.ofNat value).toNat = value := by
    rw [UInt8.toNat_ofNat']
    omega
  have stops : continues (UInt8.ofNat value) = false := by
    unfold continues
    exact decide_eq_false (by omega)
  refine ⟨(terminated_cons_last stops).mpr rfl, ?_, ?_⟩
  · rw [groupsValue_cons, groupsValue_nil, byte]
    omega
  · rw [groupCount, Nat.log_of_lt small]
    rfl

/-- The encoding is one whole word of the groups that the value needs. -/
theorem varintBytes_word {w : Nat} (rounds : Nat) (value : BitVec w)
    (enough : value.toNat < 128 ^ (rounds + 1)) :
    Terminated continues (varintBytes w rounds value) ∧
      groupsValue (varintBytes w rounds value) = value.toNat ∧
      (varintBytes w rounds value).length = groupCount value.toNat := by
  induction rounds generalizing value with
  | zero => exact single_word enough
  | succ rounds ih =>
      unfold varintBytes
      split
      · rename_i more
        have rest : (value >>> 7).toNat = value.toNat / 128 := by
          rw [BitVec.toNat_ushiftRight, Nat.shiftRight_eq_div_pow]
        have small : (value >>> 7).toNat < 128 ^ (rounds + 1) := by
          rw [rest]
          rw [Nat.pow_succ'] at enough
          exact Nat.div_lt_of_lt_mul enough
        have byte := continued_toNat value.toNat
        have again : continues (UInt8.ofNat (value.toNat &&& 0x7F) ||| 0x80) = true := by
          unfold continues
          exact decide_eq_true (by omega)
        obtain ⟨terminated, groups, length⟩ := ih (value >>> 7) small
        refine ⟨(terminated_cons_more again).mpr terminated, ?_, ?_⟩
        · rw [groupsValue_cons, groups, rest, byte]
          omega
        · have positive : 0 < Nat.log 128 value.toNat := Nat.log_pos (by decide) more
          rw [List.length_cons, length, rest, groupCount, groupCount, Nat.log_div_base]
          omega
      · exact single_word (by omega)

theorem varintBytes_whole {w : Nat} (value : BitVec w) :
    Terminated continues (varintBytes w w value) ∧
      groupsValue (varintBytes w w value) = value.toNat ∧
      (varintBytes w w value).length = groupCount value.toNat := by
  apply varintBytes_word
  calc
    _ < 2 ^ w := value.isLt
    _ ≤ 128 ^ w := Nat.pow_le_pow_left (by decide) w
    _ ≤ 128 ^ (w + 1) := Nat.pow_le_pow_right (by decide) (Nat.le_succ w)

/-- The operation returns and has written the bytes at the position. -/
def Appends (s : ByteArray) (op : Op Unit) (bytes : List UInt8) : Prop :=
  ∃ t, op s = .ok () t ∧ t.m_position = s.m_position + bytes.length ∧
    ∀ f, Represents s f → Represents t (f.write bytes)

/-- How a value is encoded where the array is `s`. -/
structure Canonical {w : Nat} (s : ByteArray) (write : BitVec w → Op Unit)
    (read : Op (BitVec w)) (most : Nat) (value : BitVec w) : Prop where
  appends : Appends s (write value) (varintBytes w w value)
  least : IsLeast {k | 0 < k ∧ value.toNat < 128 ^ k} (varintBytes w w value).length
  inside : 1 ≤ (varintBytes w w value).length ∧ (varintBytes w w value).length ≤ most
  prefixFree : ∀ other, varintBytes w w value <+: varintBytes w w other → other = value
  readsBack : ∀ base_size u rest, Reached base_size u →
    u.unread = varintBytes w w value ++ rest →
    read u = .ok value (u.advance (varintBytes w w value).length)

/-- A write of some bytes appends them exactly where there is room after `addCapacity`. -/
theorem appends_write_iff {base_size : Nat} (reached : Reached base_size s) {buf : List UInt8}
    (some_bytes : buf ≠ []) :
    Appends s (ByteArray.write buf) buf ↔ 0 < base_size ∧ Fits s buf.length := by
  rcases Nat.eq_zero_or_pos base_size with rfl | positive
  · have none_left : Roomless s := reached.invariant roomless_primitives Roomless.new
    refine iff_of_false ?_ (fun both => absurd both.1 (Nat.lt_irrefl 0))
    intro appends
    obtain ⟨t, done, moved, -⟩ := appends
    have kept := roomless_write buf s none_left
    rw [done] at kept
    have length := List.length_pos_of_ne_nil some_bytes
    have before := none_left.position
    have after := kept.position
    omega
  · have rep := (reached.rep positive).1
    have spec := write_spec rep some_bytes
    rw [← addCapacity_enough_iff rep]
    by_cases room : s.m_position + buf.length ≤ (s.addCapacity buf.length).m_capacity
    · rw [if_pos room] at spec
      obtain ⟨t, done, written⟩ := spec
      refine iff_of_true ⟨t, done, ?_, fun f rel => rel.write_sim done⟩ ⟨positive, room⟩
      rw [written.position, (addCapacity_grown rep buf.length).position]
    · rw [if_neg room] at spec
      refine iff_of_false ?_ (fun both => room both.2)
      intro appends
      obtain ⟨t, done, -⟩ := appends
      rw [spec] at done
      cases done

theorem groupCount_le {w most value : Nat} (positive : 0 < most) (room : 2 ^ w ≤ 128 ^ most)
    (small : value < 2 ^ w) : groupCount value ≤ most :=
  (groupCount_least value).2 ⟨positive, Nat.lt_of_lt_of_le small room⟩

/-- The encoding is canonical wherever the bytes it takes have room. -/
theorem canonical_iff {base_size w most : Nat} (reached : Reached base_size s)
    {write : BitVec w → Op Unit} {read : Op (BitVec w)}
    (writes : ∀ value, write value = ByteArray.write (varintBytes w w value))
    (decodes : ∀ endian value, Streams.Decodes (source endian) read (varintBytes w w value) value)
    (positive : 0 < most) (room : 2 ^ w ≤ 128 ^ most) (value : BitVec w) :
    Canonical s write read most value ↔ 0 < base_size ∧ Fits s (groupCount value.toNat) := by
  obtain ⟨terminated, groups, length⟩ := varintBytes_whole value
  have appends := appends_write_iff reached terminated.ne_nil
  rw [length, ← writes] at appends
  rw [← appends]
  constructor
  · intro canonical
    exact canonical.appends
  · intro appended
    have least := groupCount_least value.toNat
    refine ⟨appended, by rwa [length], ?_, ?_, ?_⟩
    · rw [length]
      exact ⟨least.1.1, groupCount_le positive room value.isLt⟩
    · intro other front
      obtain ⟨terminated', groups', -⟩ := varintBytes_whole other
      have same := terminated.eq_of_begins terminated' front
      apply BitVec.eq_of_toNat_eq
      rw [← groups, ← groups', same]
    · intro base_size u rest reached' next
      rcases reached'.rep_or_roomless with rep | none_left
      · exact decodes u.m_endian value u _ ⟨⟨rep, rfl⟩, ⟨rest, next.symm⟩, rfl⟩
      · rw [none_left.unread] at next
        exact absurd next.symm (List.append_ne_nil_of_left_ne_nil terminated.ne_nil rest)

/-- Every value has one encoding, of the least number of bytes, that is read back whatever
follows; it is appended exactly where `addCapacity` makes room for it. -/
theorem writeVarint_canonical_iff {base_size : Nat} (reached : Reached base_size s) :
    (∀ value, Canonical s writeUint32 readUint32 5 value ↔
        0 < base_size ∧ Fits s (groupCount value.toNat)) ∧
      ∀ value, Canonical s writeUint64 readUint64 10 value ↔
        0 < base_size ∧ Fits s (groupCount value.toNat) :=
  ⟨canonical_iff reached (fun _ => rfl) (fun _ => decodes_readUint32) (by decide) (by decide),
    canonical_iff reached (fun _ => rfl) (fun _ => decodes_readUint64) (by decide) (by decide)⟩

/-- A number of two groups fits into the 4 bytes of a fresh array. -/
theorem canonical_three_hundred :
    Canonical (new 4 fun _ => 0) writeUint32 readUint32 5 300#32 ∧
      varintBytes 32 32 300#32 = [0xac, 0x02] := by
  have canonical := writeVarint_canonical_iff
    (show Reached 4 (new 4 fun _ => 0) from ⟨_, Transition.Reachable.refl _ _⟩)
  exact ⟨(canonical.1 300#32).mpr (by decide), by decide⟩

/-- A number of five groups needs one byte more than a fresh 4-byte array has, and no block is
added for it. -/
theorem not_canonical_largest :
    Reached 4 (new 4 fun _ => 0) ∧
      (∃ t, writeUint32 (BitVec.allOnes 32) (new 4 fun _ => 0) = .error .nullNode t) ∧
      ¬ Canonical (new 4 fun _ => 0) writeUint32 readUint32 5 (BitVec.allOnes 32) := by
  have fails : ∃ t, writeUint32 (BitVec.allOnes 32) (new 4 fun _ => 0) = .error .nullNode t :=
    ⟨_, rfl⟩
  refine ⟨⟨_, Transition.Reachable.refl _ _⟩, fails, ?_⟩
  intro canonical
  obtain ⟨t, failed⟩ := fails
  obtain ⟨u, done, -⟩ := canonical.appends
  rw [failed] at done
  cases done

end ByteArray

end CorReactor
