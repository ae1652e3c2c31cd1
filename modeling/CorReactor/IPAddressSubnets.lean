import CorReactor.ByteArrayCodec
import CorReactor.IPAddress
import Mathlib.Data.Nat.Bitwise

set_option autoImplicit false

/-! Which of the subnet operations compute the address they are named after. -/

namespace CorReactor

/-- The mask of a prefix: its leading `p` bits are one. -/
def leadingOnes (w p : Nat) : BitVec w := ~~~(BitVec.allOnes w >>> p)

theorem getLsbD_leadingOnes {w p i : Nat} (inside : i < w) :
    (leadingOnes w p).getLsbD i = decide (w ≤ p + i) := by
  unfold leadingOnes
  rw [BitVec.getLsbD_not, BitVec.getLsbD_ushiftRight, BitVec.getLsbD_allOnes]
  by_cases high : w ≤ p + i
  · simp [inside, high]
  · simp [inside, high, Nat.lt_of_not_le high]

/-! ### Bits of numbers and bytes -/

/-- A bit of a number that is made up of bytes. -/
theorem testBit_fromBytes (bytes : List UInt8) (i : Nat) :
    (fromBytes bytes).testBit i = ((bytes[i / 8]?.getD 0).toNat.testBit (i % 8)) := by
  induction bytes generalizing i with
  | nil => simp [fromBytes]
  | cons b rest ih =>
      have small : b.toNat < 2 ^ 8 := b.toNat_lt
      have split : fromBytes (b :: rest) = 2 ^ 8 * fromBytes rest + b.toNat := by
        rw [fromBytes]
        omega
      rw [split, Nat.testBit_two_pow_mul_add _ small]
      by_cases first : i < 8
      · rw [if_pos first, Nat.div_eq_of_lt first, Nat.mod_eq_of_lt first]
        rfl
      · have block : i / 8 = (i - 8) / 8 + 1 := by omega
        have offset : i % 8 = (i - 8) % 8 := by omega
        rw [if_neg first, ih, block, offset, List.getElem?_cons_succ]

theorem getElem?_toBytes (n value k : Nat) :
    (toBytes n value)[k]? = if k < n then some (UInt8.ofNat (value / 256 ^ k)) else none := by
  unfold toBytes
  rw [List.getElem?_map]
  by_cases inside : k < n
  · rw [List.getElem?_range inside, if_pos inside]
    rfl
  · rw [List.getElem?_eq_none (by rw [List.length_range]; omega), if_neg inside]
    rfl

/-- Byte `i / 8` of a swapped number is the one from the other end. -/
theorem testBit_byteswap (n value i : Nat) : (byteswap n value).testBit i =
    (decide (i < 8 * n) && value.testBit (8 * (n - 1 - i / 8) + i % 8)) := by
  have length := length_toBytes n value
  unfold byteswap
  rw [testBit_fromBytes]
  by_cases inside : i < 8 * n
  · have block : i / 8 < (toBytes n value).length := by omega
    have power : 256 ^ (n - 1 - i / 8) = 2 ^ (8 * (n - 1 - i / 8)) := by
      rw [Nat.pow_mul]
    have low : i % 8 < 8 := Nat.mod_lt _ (by decide)
    rw [Nat.add_comm, List.getElem?_reverse block, length, getElem?_toBytes, if_pos (by omega),
      Option.getD_some, UInt8.toNat_ofNat', power, Nat.testBit_mod_two_pow,
      Nat.testBit_div_two_pow]
    simp only [low, inside, decide_true, Bool.true_and]
  · have outside : (toBytes n value).reverse[i / 8]? = none := by
      apply List.getElem?_eq_none
      rw [List.length_reverse, length]
      omega
    simp [outside, inside]

section Swap

variable {w : Nat}

theorem getLsbD_byteswapOnLittleEndian (t : BitVec w) {i : Nat} (inside : i < w) :
    (byteswapOnLittleEndian t).getLsbD i =
      (decide (i < 8 * (w / 8)) && t.getLsbD (8 * (w / 8 - 1 - i / 8) + i % 8)) := by
  have swaps : byteswapOnLittleEndian t = BitVec.ofNat w (byteswap (w / 8) t.toNat) := rfl
  rw [swaps, BitVec.getLsbD_ofNat, testBit_byteswap]
  simp only [inside, decide_true, Bool.true_and]
  rfl

theorem byteswapOnLittleEndian_and (s t : BitVec w) : byteswapOnLittleEndian (s &&& t) =
    byteswapOnLittleEndian s &&& byteswapOnLittleEndian t := by
  apply BitVec.eq_of_getLsbD_eq
  intro i inside
  simp only [BitVec.getLsbD_and, getLsbD_byteswapOnLittleEndian _ inside]
  cases decide (i < 8 * (w / 8)) <;> simp

theorem byteswapOnLittleEndian_or (s t : BitVec w) : byteswapOnLittleEndian (s ||| t) =
    byteswapOnLittleEndian s ||| byteswapOnLittleEndian t := by
  apply BitVec.eq_of_getLsbD_eq
  intro i inside
  simp only [BitVec.getLsbD_or, getLsbD_byteswapOnLittleEndian _ inside]
  cases decide (i < 8 * (w / 8)) <;> simp

theorem byteswapOnLittleEndian_not (whole : 8 ∣ w) (t : BitVec w) :
    byteswapOnLittleEndian (~~~t) = ~~~byteswapOnLittleEndian t := by
  obtain ⟨n, rfl⟩ := whole
  apply BitVec.eq_of_getLsbD_eq
  intro i inside
  have bytes : 8 * n / 8 = n := by omega
  have other : 8 * (n - 1 - i / 8) + i % 8 < 8 * n := by omega
  simp only [BitVec.getLsbD_not, getLsbD_byteswapOnLittleEndian _ inside, bytes, inside, other,
    decide_true, Bool.true_and]

theorem byteswapOnLittleEndian_twice (whole : 8 ∣ w) (t : BitVec w) :
    byteswapOnLittleEndian (byteswapOnLittleEndian t) = t := by
  obtain ⟨n, rfl⟩ := whole
  apply BitVec.eq_of_getLsbD_eq
  intro i inside
  have bytes : 8 * n / 8 = n := by omega
  have other : 8 * (n - 1 - i / 8) + i % 8 < 8 * n := by omega
  have back : 8 * (n - 1 - (8 * (n - 1 - i / 8) + i % 8) / 8) +
      (8 * (n - 1 - i / 8) + i % 8) % 8 = i := by omega
  rw [getLsbD_byteswapOnLittleEndian _ inside, bytes, getLsbD_byteswapOnLittleEndian _ other, bytes,
    back]
  simp only [inside, other, decide_true, Bool.true_and]

end Swap

/-! ### The mask -/

theorem createMask_32 : ∀ p ≤ 32,
    createMask 32 p = if p < 2 then none else some (leadingOnes 32 p) := by
  decide

theorem createMask_8 : ∀ r < 8, createMask 8 r = some (leadingOnes 8 r) := by
  decide

/-! ### IPv4 -/

namespace IPv4Address

/-- The operation gives an address with the number `value`, of the family and with the port. -/
def Gives (result : Option (Option SockaddrIn)) (value : BitVec 32) (port : BitVec 16) : Prop :=
  ∃ r, result = some (some r) ∧ getAddress r = value ∧ r.sin_family = AF_INET ∧ getPort r = port

theorem getPort_new (a : BitVec 32) (port : BitVec 16) : getPort (new a port) = port :=
  byteswapOnLittleEndian_twice (by decide) port

theorem getAddress_new (a : BitVec 32) (port : BitVec 16) : getAddress (new a port) = a :=
  byteswapOnLittleEndian_twice (by decide) a

/-- A mask that an address swallows together with its complement. -/
theorem or_not_iff (a mask : BitVec 32) : a ||| mask = a ||| ~~~mask ↔ a = BitVec.allOnes 32 := by
  constructor
  · intro same
    apply BitVec.eq_of_getLsbD_eq
    intro i inside
    have bit := congrArg (BitVec.getLsbD · i) same
    simp only [BitVec.getLsbD_or, BitVec.getLsbD_not, inside, decide_true, Bool.true_and] at bit
    rw [BitVec.getLsbD_allOnes, decide_eq_true inside]
    revert bit
    cases a.getLsbD i <;> cases mask.getLsbD i <;> decide
  · intro all
    rw [all, BitVec.allOnes_or, BitVec.allOnes_or]

/-- The network address is right for every mask that can be made, the broadcast address only for
the address of ones, and the subnet mask never. -/
theorem subnets_iff (a : BitVec 32) (port : BitVec 16) {p : Nat} (short : p ≤ 32) :
    (Gives (networdAddress (new a port) p) (a &&& leadingOnes 32 p) port ↔ 2 ≤ p) ∧
      (Gives (broadcastAddress (new a port) p) (a ||| ~~~leadingOnes 32 p) port ↔
        2 ≤ p ∧ a = BitVec.allOnes 32) ∧
      ¬ ∃ r, subnetMask p = some (some r) ∧ getAddress r = leadingOnes 32 p ∧
        r.sin_family = AF_INET := by
  have mask := createMask_32 p short
  have fits : ¬ p > 32 := Nat.not_lt.mpr short
  have address := getAddress_new a port
  unfold networdAddress broadcastAddress subnetMask
  rw [if_neg fits, if_neg fits, mask]
  by_cases few : p < 2
  · have little : ¬ 2 ≤ p := Nat.not_le.mpr few
    rw [if_pos few]
    refine ⟨iff_of_false ?_ little, iff_of_false ?_ (fun both => little both.1), ?_⟩
    all_goals
      intro gives
      obtain ⟨r, same, -⟩ := gives
      cases same
  · have enough : 2 ≤ p := Nat.le_of_not_lt few
    rw [if_neg few]
    refine ⟨iff_of_true ?_ enough, ?_, ?_⟩
    · refine ⟨_, rfl, ?_, rfl, getPort_new a port⟩
      unfold getAddress at address ⊢
      rw [byteswapOnLittleEndian_and, address, byteswapOnLittleEndian_twice (by decide)]
    · have value : ∀ r, some (some r) = some (some { new a port with
          sin_addr := (new a port).sin_addr ||| byteswapOnLittleEndian (leadingOnes 32 p) }) →
          getAddress r = a ||| leadingOnes 32 p := by
        intro r same
        cases same
        unfold getAddress at address ⊢
        rw [byteswapOnLittleEndian_or, address, byteswapOnLittleEndian_twice (by decide)]
      constructor
      · intro gives
        obtain ⟨r, same, is, -⟩ := gives
        have both := value r same.symm
        rw [is] at both
        exact ⟨enough, (or_not_iff a _).mp both.symm⟩
      · intro both
        refine ⟨_, rfl, ?_, rfl, getPort_new a port⟩
        rw [value _ rfl]
        exact (or_not_iff a _).mpr both.2
    · intro gives
      obtain ⟨r, same, is, -⟩ := gives
      cases same
      unfold getAddress at is
      rw [byteswapOnLittleEndian_not (by decide), byteswapOnLittleEndian_twice (by decide)] at is
      have bit := congrArg (BitVec.getLsbD · 0) is
      simp at bit

/-- 192.168.1.100/24 with port 80, and the address of ones. -/
theorem subnets_ones :
    Gives (networdAddress (new 0xc0a80164 80) 24) (0xc0a80164 &&& leadingOnes 32 24) 80 ∧
      Gives (broadcastAddress (new 0xffffffff 80) 24) (0xffffffff ||| ~~~leadingOnes 32 24) 80 :=
  ⟨(subnets_iff 0xc0a80164 80 (by decide)).1.mpr (by decide),
    (subnets_iff 0xffffffff 80 (by decide)).2.1.mpr (by decide)⟩

/-- The broadcast address of 192.168.1.100/24 comes out as 255.255.255.100 and the mask as
0.0.0.255, and the masks of the prefixes 0 and 1 are undefined. -/
theorem subnets_wrong :
    (broadcastAddress (new 0xc0a80164 80) 24).map (·.map getAddress) = some (some 0xffffff64) ∧
      (0xc0a80164 ||| ~~~leadingOnes 32 24 : BitVec 32) = 0xc0a801ff ∧
      (subnetMask 24).map (·.map getAddress) = some (some 0x000000ff) ∧
      leadingOnes 32 24 = 0xffffff00 ∧ networdAddress (new 0xc0a80164 80) 0 = none ∧
      networdAddress (new 0xc0a80164 80) 1 = none := by
  decide

end IPv4Address

/-! ### IPv6 -/

namespace IPv6Address

/-- The number that the bytes of an address stand for. -/
def number (s6_addr : Vector UInt8 16) : BitVec 128 :=
  BitVec.ofNat 128 (fromBytes s6_addr.toList.reverse)

/-- The operation gives an address with the number `value`. -/
def Gives (result : Option SockaddrIn6) (value : BitVec 128) : Prop :=
  ∃ r, result = some r ∧ number r.sin6_addr = value

theorem getLsbD_number (s6_addr : Vector UInt8 16) {i : Nat} (inside : i < 128) :
    (number s6_addr).getLsbD i = s6_addr[15 - i / 8].toNat.testBit (i % 8) := by
  have block : i / 8 < s6_addr.toList.length := by
    rw [Vector.length_toList]
    omega
  have there : s6_addr.toList[15 - i / 8]? = some s6_addr[15 - i / 8] := by
    rw [← Vector.getElem_toList, List.getElem?_eq_getElem]
    rw [Vector.length_toList]
    omega
  unfold number
  rw [BitVec.getLsbD_ofNat, testBit_fromBytes, List.getElem?_reverse block, Vector.length_toList,
    there, Option.getD_some]
  simp only [inside, decide_true, Bool.true_and]

/-- An address is the number whose bits stand in its bytes. -/
theorem number_eq_iff (s6_addr : Vector UInt8 16) (value : BitVec 128) :
    number s6_addr = value ↔ ∀ (i k : Nat) (inside : i < 16), k < 8 →
      s6_addr[i].toNat.testBit k = value.getLsbD (8 * (15 - i) + k) := by
  constructor
  · intro same i k inside small
    have block : 15 - (8 * (15 - i) + k) / 8 = i := by omega
    have offset : (8 * (15 - i) + k) % 8 = k := by omega
    rw [← same, getLsbD_number s6_addr (by omega)]
    simp only [block, offset]
  · intro bits
    apply BitVec.eq_of_getLsbD_eq
    intro j inside
    have place : 8 * (15 - (15 - j / 8)) + j % 8 = j := by omega
    rw [getLsbD_number s6_addr inside, bits (15 - j / 8) (j % 8) (by omega) (by omega), place]

theorem modifyAt_eq (s6_addr : Vector UInt8 16) {i : Nat} (f : UInt8 → UInt8) (inside : i < 16) :
    modifyAt s6_addr i f = some (s6_addr.set i (f s6_addr[i])) := dif_pos inside

theorem modifyAt_outside (s6_addr : Vector UInt8 16) {i : Nat} (f : UInt8 → UInt8)
    (outside : 16 ≤ i) : modifyAt s6_addr i f = none := dif_neg (Nat.not_lt.mpr outside)

/-- The loop writes its range and nothing else. -/
theorem fill_eq (value : UInt8) {first count : Nat} (within : first + count ≤ 16)
    (s6_addr : Vector UInt8 16) :
    ∃ r, fill value first count s6_addr = some r ∧ ∀ (i : Nat) (inside : i < 16),
      r[i] = if first ≤ i ∧ i < first + count then value else s6_addr[i] := by
  induction count generalizing first s6_addr with
  | zero =>
      refine ⟨s6_addr, rfl, ?_⟩
      intro i inside
      rw [if_neg (by omega)]
  | succ count ih =>
      obtain ⟨r, filled, bytes⟩ := ih (by omega : first + 1 + count ≤ 16)
        (s6_addr.set first value)
      refine ⟨r, ?_, ?_⟩
      · rw [fill, modifyAt_eq _ _ (by omega), Option.bind_some]
        exact filled
      · intro i inside
        rw [bytes i inside, Vector.getElem_set]
        by_cases here : first = i
        · rw [if_pos here, if_neg (by omega), if_pos (by omega)]
        · rw [if_neg here]
          congr 1
          simp only [eq_iff_iff]
          omega

/-- A byte is changed, and those behind it are set. -/
theorem modify_fill (f : UInt8 → UInt8) (tail : UInt8) {q : Nat} (within : q < 16)
    (s6_addr : Vector UInt8 16) :
    ∃ r, (∀ g : Vector UInt8 16 → SockaddrIn6, ((modifyAt s6_addr q f).bind fun bytes =>
        (fill tail (q + 1) (16 - (q + 1)) bytes).map g) = some (g r)) ∧
      ∀ (i : Nat) (inside : i < 16),
        r[i] = if i < q then s6_addr[i] else if i = q then f s6_addr[i] else tail := by
  obtain ⟨r, filled, bytes⟩ := fill_eq tail (by omega : q + 1 + (16 - (q + 1)) ≤ 16)
    (s6_addr.set q (f s6_addr[q]))
  refine ⟨r, ?_, ?_⟩
  · intro g
    rw [modifyAt_eq s6_addr f within, Option.bind_some, filled, Option.map_some]
  · intro i inside
    rw [bytes i inside, Vector.getElem_set]
    by_cases here : q = i
    · subst here
      simp
    · rw [if_neg here]
      by_cases before : i < q
      · rw [if_neg (by omega), if_pos before]
      · rw [if_pos (by omega), if_neg before, if_neg (Ne.symm here)]

/-- The bits of the mask in the boundary byte. -/
theorem testBit_mask (r k : Nat) (small : k < 8) :
    (UInt8.ofBitVec (leadingOnes 8 r)).toNat.testBit k = decide (8 ≤ r + k) :=
  getLsbD_leadingOnes small

theorem createMask8_eq (p : Nat) :
    createMask8 (p % 8) = some (UInt8.ofBitVec (leadingOnes 8 (p % 8))) := by
  unfold createMask8
  rw [createMask_8 (p % 8) (Nat.mod_lt p (by decide)), Option.map_some]

theorem eq_ones_iff (b : UInt8) : b = 0xff ↔ ∀ k < 8, b.toNat.testBit k = true := by
  constructor
  · intro same
    rw [same]
    decide
  · intro bits
    apply UInt8.eq_of_toBitVec_eq
    apply BitVec.eq_of_getLsbD_eq
    intro k small
    have ones : ∀ k < 8, (0xff : UInt8).toBitVec.getLsbD k = true := by decide
    rw [ones k small]
    exact bits k small

theorem getLsbD_group (s6_addr : Vector UInt8 16) {i k : Nat} (inside : i < 16) (small : k < 8) :
    (number s6_addr).getLsbD (8 * (15 - i) + k) = s6_addr[i].toNat.testBit k :=
  ((number_eq_iff s6_addr _).mp rfl i k inside small).symm

theorem not_gives_none (value : BitVec 128) : ¬ Gives none value := by
  intro gives
  obtain ⟨r, same, -⟩ := gives
  cases same

variable (m_addr : SockaddrIn6) {p : Nat}

theorem networdAddress_iff :
    Gives (networdAddress m_addr p) (number m_addr.sin6_addr &&& leadingOnes 128 p) ↔
      p < 128 := by
  unfold networdAddress
  rw [createMask8_eq, Option.bind_some]
  by_cases full : p < 128
  · have within : p / 8 < 16 := by omega
    obtain ⟨r, done, bytes⟩ := modify_fill (· &&& UInt8.ofBitVec (leadingOnes 8 (p % 8))) 0x00
      within m_addr.sin6_addr
    refine iff_of_true ⟨_, done _, (number_eq_iff r _).mpr fun i k inside small => ?_⟩ full
    rw [BitVec.getLsbD_and, getLsbD_group _ inside small, getLsbD_leadingOnes (by omega),
      bytes i inside]
    split
    · have covered : 128 ≤ p + (8 * (15 - i) + k) := by omega
      rw [decide_eq_true covered, Bool.and_true]
    · split
      · have edge : 8 ≤ p % 8 + k ↔ 128 ≤ p + (8 * (15 - i) + k) := by omega
        simp only [UInt8.toNat_and, Nat.testBit_and, testBit_mask _ _ small, edge]
      · have free : ¬ 128 ≤ p + (8 * (15 - i) + k) := by omega
        rw [decide_eq_false free, Bool.and_false]
        exact Nat.zero_testBit k
  · rw [modifyAt_outside _ _ (by omega)]
    exact iff_of_false (not_gives_none _) full

/-- In the boundary byte the mask itself takes the place of its complement. -/
theorem broadcastAddress_iff :
    Gives (broadcastAddress m_addr p) (number m_addr.sin6_addr ||| ~~~leadingOnes 128 p) ↔
      m_addr.sin6_addr[p / 8]? = some 0xff := by
  unfold broadcastAddress
  rw [createMask8_eq, Option.bind_some]
  by_cases full : p < 128
  · have within : p / 8 < 16 := by omega
    obtain ⟨r, done, bytes⟩ := modify_fill (· ||| UInt8.ofBitVec (leadingOnes 8 (p % 8))) 0xff
      within m_addr.sin6_addr
    rw [Vector.getElem?_eq_getElem within, Option.some.injEq, eq_ones_iff]
    have value : ∀ (i k : Nat) (inside : i < 16), k < 8 →
        (number m_addr.sin6_addr ||| ~~~leadingOnes 128 p).getLsbD (8 * (15 - i) + k) =
          (m_addr.sin6_addr[i].toNat.testBit k ||
            !decide (128 ≤ p + (8 * (15 - i) + k))) := by
      intro i k inside small
      have below : 8 * (15 - i) + k < 128 := by omega
      rw [BitVec.getLsbD_or, BitVec.getLsbD_not, getLsbD_group _ inside small,
        getLsbD_leadingOnes below, decide_eq_true below, Bool.true_and]
    constructor
    · intro gives k small
      obtain ⟨s, same, is⟩ := gives
      rw [done] at same
      cases same
      have edge : 128 ≤ p + (8 * (15 - p / 8) + k) ↔ 8 ≤ p % 8 + k := by omega
      have here := (number_eq_iff r _).mp is (p / 8) k within small
      rw [value (p / 8) k within small, bytes (p / 8) within] at here
      simp only [Nat.lt_irrefl, ↓reduceIte, UInt8.toNat_or, Nat.testBit_or,
        testBit_mask _ _ small, edge] at here
      revert here
      cases m_addr.sin6_addr[p / 8].toNat.testBit k <;> cases decide (8 ≤ p % 8 + k) <;> decide
    · intro ones
      refine ⟨_, done _, (number_eq_iff r _).mpr fun i k inside small => ?_⟩
      rw [value i k inside small, bytes i inside]
      split
      · have covered : 128 ≤ p + (8 * (15 - i) + k) := by omega
        rw [decide_eq_true covered, Bool.not_true, Bool.or_false]
      · split
        · rename_i here
          subst here
          simp only [UInt8.toNat_or, Nat.testBit_or, ones k small, Bool.true_or]
        · have free : ¬ 128 ≤ p + (8 * (15 - i) + k) := by omega
          rw [decide_eq_false free, Bool.not_false, Bool.or_true]
          exact (eq_ones_iff 0xff).mp rfl k small
  · have nothing : m_addr.sin6_addr[p / 8]? = none := Vector.getElem?_eq_none (by omega)
    rw [modifyAt_outside _ _ (by omega), nothing]
    exact iff_of_false (not_gives_none _) nofun

theorem not_subnetMask : ¬ Gives (subnetMask p) (leadingOnes 128 p) := by
  unfold subnetMask
  rw [createMask8_eq, Option.bind_some]
  by_cases full : p < 128
  · have within : p / 8 < 16 := by omega
    intro gives
    obtain ⟨r, filled, bytes⟩ := fill_eq 0xff (by omega : 0 + p / 8 ≤ 16)
      ((Vector.replicate 16 (0 : UInt8)).set (p / 8)
        (~~~UInt8.ofBitVec (leadingOnes 8 (p % 8))))
    obtain ⟨s, same, is⟩ := gives
    rw [modifyAt_eq _ _ within, Option.bind_some, filled] at same
    cases same
    -- The lowest bit of the boundary byte is not in the mask, and is set.
    have here := (number_eq_iff r _).mp is (p / 8) 0 within (by decide)
    have free : ¬ 128 ≤ p + (8 * (15 - p / 8) + 0) := by omega
    have low : ¬ 8 ≤ p % 8 + 0 := by omega
    rw [getLsbD_leadingOnes (by omega), decide_eq_false free, bytes (p / 8) within,
      if_neg (by omega), Vector.getElem_set_self] at here
    have bit : (UInt8.ofBitVec (leadingOnes 8 (p % 8))).toBitVec.getLsbD 0 = false := by
      have clear := testBit_mask (p % 8) 0 (by decide)
      rw [decide_eq_false low] at clear
      exact clear
    have set : (~~~UInt8.ofBitVec (leadingOnes 8 (p % 8))).toBitVec.getLsbD 0 = true := by
      rw [UInt8.toBitVec_not, BitVec.getLsbD_not, bit]
      rfl
    rw [← UInt8.toNat_toBitVec, ← BitVec.getLsbD, set] at here
    cases here
  · rw [modifyAt_outside _ _ (by omega)]
    exact not_gives_none _

/-- The network address is right for every prefix but 128, where the byte behind the address is
changed; the broadcast address needs a boundary byte of ones as well, and the subnet mask is never
right. -/
theorem subnets6_iff (m_addr : SockaddrIn6) (p : Nat) :
    (Gives (networdAddress m_addr p) (number m_addr.sin6_addr &&& leadingOnes 128 p) ↔ p < 128) ∧
      (Gives (broadcastAddress m_addr p) (number m_addr.sin6_addr ||| ~~~leadingOnes 128 p) ↔
        m_addr.sin6_addr[p / 8]? = some 0xff) ∧
      ¬ Gives (subnetMask p) (leadingOnes 128 p) :=
  ⟨networdAddress_iff m_addr, broadcastAddress_iff m_addr, not_subnetMask⟩

/-- The boundary byte of the broadcast address of 2001:db8::1/60 is taken from the prefix, the mask
is wrong in the same byte, and the prefix 128 leads outside of the address. -/
theorem subnets6_wrong :
    let a : Vector UInt8 16 := #v[0x20, 0x01, 0x0d, 0xb8, 0, 0, 0, 0, 0, 0, 0, 0, 0, 0, 0, 1]
    ((broadcastAddress (new a 80) 60).map fun r => number r.sin6_addr) =
        some 0x20010db8000000f0ffffffffffffffff ∧
      number a ||| ~~~leadingOnes 128 60 = 0x20010db80000000fffffffffffffffff ∧
      ((subnetMask 60).map fun r => number r.sin6_addr) =
        some 0xffffffffffffff0f0000000000000000 ∧
      leadingOnes 128 60 = 0xfffffffffffffff00000000000000000 ∧
      (networdAddress (new a 80) 128).isNone = true := by
  decide

end IPv6Address

end CorReactor
