import CorReactor.ByteArrayCodec
import CorReactor.IPAddressText

set_option autoImplicit false

/-! An `IPv6Address` is read back from its text. -/

namespace CorReactor.IPv6Address

open Http

/-! ### One group -/

/-- Each of the sixteen digits is read as its own value. -/
theorem hexValue_digitChar : ∀ d < 16, hexValue (Nat.digitChar d).toNat.toUInt8 = some d := by
  decide

theorem hexadecimal_value (n : Nat) : ∃ values, (hexadecimal n).mapM hexValue = some values ∧
    values.foldl (fun n d => 16 * n + d) 0 = n := by
  induction n using Nat.strongRecOn with
  | ind n ih =>
      unfold hexadecimal at ih ⊢
      rw [Nat.toDigits_eq_if (by decide)]
      by_cases single : n < 16
      · rw [if_pos single]
        refine ⟨[n], ?_, ?_⟩
        · simp only [List.map_cons, List.map_nil, List.mapM_cons, List.mapM_nil,
            hexValue_digitChar n single, Option.pure_def, Option.bind_eq_bind, Option.bind_some]
        · simp only [List.foldl_cons, List.foldl_nil]
          omega
      · obtain ⟨high, read, value⟩ := ih (n / 16) (by omega)
        rw [if_neg single]
        refine ⟨high ++ [n % 16], ?_, ?_⟩
        · rw [List.map_append, List.mapM_append, read]
          simp only [List.map_cons, List.map_nil, List.mapM_cons, List.mapM_nil,
            hexValue_digitChar (n % 16) (Nat.mod_lt n (by decide)), Option.pure_def,
            Option.bind_eq_bind, Option.bind_some]
        · rw [List.foldl_append, value]
          simp only [List.foldl_cons, List.foldl_nil]
          omega

theorem isSome_of_mapM {α β : Type} {f : α → Option β} {as : List α} {bs : List β}
    (all : as.mapM f = some bs) : ∀ a ∈ as, (f a).isSome := by
  induction as generalizing bs with
  | nil => exact fun a inside => absurd inside List.not_mem_nil
  | cons first as ih =>
      simp only [List.mapM_cons, Option.pure_def, Option.bind_eq_bind, Option.bind_eq_some_iff]
        at all
      obtain ⟨b, here, rest, there, -⟩ := all
      intro a inside
      rcases List.mem_cons.mp inside with rfl | later
      · rw [here]
        rfl
      · exact ih there a later

/-- What the loop writes for a group is read as that group. -/
theorem field_digits (v : BitVec 16) : field (digits v) = some (byteswapOnLittleEndian v) := by
  obtain ⟨values, read, value⟩ := hexadecimal_value (byteswapOnLittleEndian v).toNat
  have long : 1 ≤ (digits v).length := by
    unfold digits hexadecimal
    rw [List.length_map]
    exact Nat.length_toDigits_pos
  have short : (digits v).length ≤ 4 := by
    unfold digits hexadecimal
    rw [List.length_map]
    exact (Nat.length_toDigits_le_iff (by decide) (by decide)).mpr (BitVec.isLt _)
  unfold field
  rw [if_pos ⟨long, short⟩, digits, read, Option.map_some, value, BitVec.ofNat_toNat,
    BitVec.setWidth_eq]

theorem field_wellFormed {text : Bytes} {v : BitVec 16} (read : field text = some v) :
    Field text := by
  unfold field at read
  split at read
  · rename_i length
    obtain ⟨values, all, -⟩ := Option.map_eq_some_iff.mp read
    exact ⟨length.1, length.2, isSome_of_mapM all⟩
  · cases read

/-- A field has no colon and is not empty. -/
theorem Field.plain {text : Bytes} (formed : Field text) : text ≠ [] ∧ (58 : UInt8) ∉ text := by
  obtain ⟨long, -, hex⟩ := formed
  refine ⟨fun empty => ?_, fun inside => ?_⟩
  · rw [empty] at long
    exact absurd long (by decide)
  · exact absurd (hex 58 inside) (by decide)

/-! ### Fields between colons -/

theorem colons_cons {text : Bytes} {texts : List Bytes} (more : texts ≠ []) :
    colons (text :: texts) = text ++ 58 :: colons texts := by
  unfold colons
  rw [List.intercalate_cons_of_ne_nil more, List.append_assoc]
  rfl

theorem colons_ne_nil {texts : List Bytes} (formed : ∀ t ∈ texts, Field t)
    (some_text : texts ≠ []) : colons texts ≠ [] := by
  cases texts with
  | nil => exact absurd rfl some_text
  | cons text texts =>
      have filled := (formed text List.mem_cons_self).plain.1
      cases texts with
      | nil => rwa [colons, List.intercalate_singleton]
      | cons next texts =>
          rw [colons_cons (List.cons_ne_nil _ _)]
          exact List.append_ne_nil_of_left_ne_nil filled _

theorem fields_colons {texts : List Bytes} (formed : ∀ t ∈ texts, Field t) :
    fields (colons texts) = texts.mapM field := by
  unfold fields
  by_cases none_there : texts = []
  · rw [none_there]
    rfl
  · rw [if_neg (colons_ne_nil formed none_there), colons,
      List.splitOn_intercalate 58 (fun t inside => (formed t inside).plain.2) none_there]

theorem head?_colons {texts : List Bytes} (formed : ∀ t ∈ texts, Field t) (rest : Bytes)
    (some_text : texts ≠ []) : (colons texts ++ rest).head? ≠ some 58 := by
  cases texts with
  | nil => exact absurd rfl some_text
  | cons text texts =>
      obtain ⟨filled, clean⟩ := (formed text List.mem_cons_self).plain
      obtain ⟨c, text, rfl⟩ := List.exists_cons_of_ne_nil filled
      have other : c ≠ 58 := fun same => clean (same ▸ List.mem_cons_self)
      unfold colons
      rw [List.intercalate_cons_cons_left]
      simpa using other

/-! ### The double colon -/

section Double

variable {text rest : Bytes}

/-- A text without a colon adds no double colon. -/
theorem doubles_append (clean : (58 : UInt8) ∉ text) : doubles (text ++ rest) = doubles rest := by
  induction text with
  | nil => rfl
  | cons c text ih =>
      have other : c ≠ 58 := fun same => clean (same ▸ List.mem_cons_self)
      rw [List.cons_append, doubles, if_neg (fun both => other both.1), Nat.zero_add,
        ih fun inside => clean (List.mem_cons_of_mem c inside)]

theorem cutAtDouble_append (clean : (58 : UInt8) ∉ text) : cutAtDouble (text ++ rest) =
    (cutAtDouble rest).map fun cut => (text ++ cut.1, cut.2) := by
  induction text with
  | nil => simp
  | cons c text ih =>
      have other : c ≠ 58 := fun same => clean (same ▸ List.mem_cons_self)
      rw [List.cons_append, cutAtDouble, if_neg (fun both => other both.1),
        ih fun inside => clean (List.mem_cons_of_mem c inside), Option.map_map]
      rfl

/-- A colon before another character is passed. -/
theorem doubles_colon (single : rest.head? ≠ some 58) : doubles (58 :: rest) = doubles rest := by
  rw [doubles, if_neg (fun both => single both.2), Nat.zero_add]

theorem cutAtDouble_colon (single : rest.head? ≠ some 58) : cutAtDouble (58 :: rest) =
    (cutAtDouble rest).map fun cut => (58 :: cut.1, cut.2) := by
  rw [cutAtDouble, if_neg (fun both => single both.2)]

variable {texts : List Bytes}

theorem doubles_colons (formed : ∀ t ∈ texts, Field t) (rest : Bytes) :
    doubles (colons texts ++ rest) = doubles rest := by
  induction texts with
  | nil => rfl
  | cons text texts ih =>
      have clean := (formed text List.mem_cons_self).plain.2
      have others : ∀ t ∈ texts, Field t := fun t later =>
        formed t (List.mem_cons_of_mem text later)
      by_cases last : texts = []
      · rw [last, colons, List.intercalate_singleton, doubles_append clean]
      · rw [colons_cons last, List.append_assoc, doubles_append clean, List.cons_append,
          doubles_colon (head?_colons others rest last), ih others]

theorem cutAtDouble_colons (formed : ∀ t ∈ texts, Field t) (rest : Bytes) :
    cutAtDouble (colons texts ++ rest) =
      (cutAtDouble rest).map fun cut => (colons texts ++ cut.1, cut.2) := by
  induction texts with
  | nil => simp [colons]
  | cons text texts ih =>
      have clean := (formed text List.mem_cons_self).plain.2
      have others : ∀ t ∈ texts, Field t := fun t later =>
        formed t (List.mem_cons_of_mem text later)
      by_cases last : texts = []
      · rw [last, colons, List.intercalate_singleton, cutAtDouble_append clean]
      · rw [colons_cons last, List.append_assoc, cutAtDouble_append clean, List.cons_append,
          cutAtDouble_colon (head?_colons others rest last), ih others, Option.map_map,
          Option.map_map]
        congr 1
        funext cut
        simp

end Double

/-- Eight groups that are all written out. -/
theorem expandGroups_full {texts : List Bytes} {all : List (BitVec 16)}
    (formed : ∀ t ∈ texts, Field t) (read : texts.mapM field = some all) (eight : all.length = 8) :
    expandGroups (colons texts) = some all := by
  have uncut : cutAtDouble (colons texts) = none := by
    have cut := cutAtDouble_colons formed []
    rwa [List.append_nil] at cut
  unfold expandGroups
  rw [uncut]
  simp only [fields_colons formed, read, Option.bind_some, eight, ↓reduceIte]

/-- Groups on both sides of a double colon. -/
theorem expandGroups_compressed {front back : List Bytes} {high low : List (BitVec 16)}
    (formed : ∀ t ∈ front, Field t) (formed' : ∀ t ∈ back, Field t)
    (read : front.mapM field = some high) (read' : back.mapM field = some low)
    (few : high.length + low.length ≤ 7) :
    expandGroups (colons front ++ bytes "::" ++ colons back) =
      some (high ++ List.replicate (8 - (high.length + low.length)) 0 ++ low) := by
  have cut : cutAtDouble (colons front ++ bytes "::" ++ colons back) =
      some (colons front, colons back) := by
    rw [List.append_assoc, cutAtDouble_colons formed]
    have here : cutAtDouble (bytes "::" ++ colons back) = some ([], colons back) := rfl
    rw [here, Option.map_some, List.append_nil]
  unfold expandGroups
  rw [cut]
  simp only [fields_colons formed, fields_colons formed', read, read', Option.bind_some, if_pos few]

/-! ### The loop -/

section Loop

variable {gs rest : List (BitVec 16)}

/-- What the loop writes for groups behind another one. -/
def written (gs : List (BitVec 16)) : Bytes := gs.flatMap fun v => 58 :: digits v

theorem colons_digits (v : BitVec 16) (gs : List (BitVec 16)) :
    colons ((v :: gs).map digits) = digits v ++ written gs := by
  induction gs generalizing v with
  | nil => simp [colons, written]
  | cons next gs ih =>
      rw [List.map_cons, colons_cons (by simp), ih next]
      simp [written]

theorem insertLoop_skip (before : Option (BitVec 16)) :
    insertLoop false before (0 :: gs) = insertLoop false (some 0) gs := by
  rw [insertLoop, if_pos ⟨rfl, rfl⟩]

/-- Once a double colon is written, every group is. -/
theorem insertLoop_used (before : BitVec 16) :
    insertLoop true (some before) gs = (written gs, true) := by
  induction gs generalizing before with
  | nil => rfl
  | cons v gs ih =>
      have open_loop : ¬ (v = 0 ∧ true = false) := fun both => Bool.noConfusion both.2
      simp only [insertLoop, if_neg open_loop, Bool.true_or, ih]
      simp [written, bytes]

/-- A run of zeros is written as a double colon by the group behind it. -/
theorem insertLoop_zeros (k : Nat) (before : Option (BitVec 16)) (last : gs.head? ≠ some 0) :
    insertLoop false before (List.replicate (k + 1) 0 ++ gs) =
      if gs = [] then ([], false) else (bytes "::" ++ colons (gs.map digits), true) := by
  induction k generalizing before with
  | zero =>
      rw [List.replicate_one, List.singleton_append, insertLoop_skip]
      cases gs with
      | nil => rfl
      | cons v gs =>
          have filled : ¬ (v = 0 ∧ false = false) := by
            intro both
            rw [both.1] at last
            exact last rfl
          rw [insertLoop, if_neg filled, if_neg (List.cons_ne_nil v gs), colons_digits]
          simp [insertLoop_used, bytes]
  | succ k ih =>
      rw [List.replicate_succ, List.cons_append, insertLoop_skip]
      exact ih (some 0)

/-- Groups that are not zero are written one after the other, up to a zero or to the end. -/
theorem insertLoop_written (filled : ∀ v ∈ gs, v ≠ 0) {before : BitVec 16} (open_run : before ≠ 0)
    (stop : rest = [] ∨ rest.head? = some 0) :
    insertLoop false (some before) (gs ++ rest) =
      (written gs ++ (insertLoop false none rest).1, (insertLoop false none rest).2) := by
  induction gs generalizing before with
  | nil =>
      rcases stop with empty | zero
      · rw [empty]
        rfl
      · obtain ⟨rest', rfl⟩ : ∃ rest', rest = 0 :: rest' := by
          cases rest with
          | nil => cases zero
          | cons v rest' => exact ⟨rest', by rw [Option.some.inj zero]⟩
        rw [List.nil_append, insertLoop_skip, insertLoop_skip]
        rfl
  | cons v gs ih =>
      have here := filled v List.mem_cons_self
      have later := ih (fun w inside => filled w (List.mem_cons_of_mem v inside)) here
      have same_run : ¬ before = 0#16 := open_run
      rw [List.cons_append, insertLoop, if_neg (fun both => here both.1)]
      simp [same_run, later, written, bytes]

theorem insertLoop_first (filled : ∀ v ∈ gs, v ≠ 0) (stop : rest = [] ∨ rest.head? = some 0) :
    insertLoop false none (gs ++ rest) =
      (colons (gs.map digits) ++ (insertLoop false none rest).1,
        (insertLoop false none rest).2) := by
  cases gs with
  | nil => rfl
  | cons v gs =>
      have here := filled v List.mem_cons_self
      have later := insertLoop_written
        (fun w inside => filled w (List.mem_cons_of_mem v inside)) here stop
      rw [List.cons_append, insertLoop, if_neg (fun both => here both.1), colons_digits]
      simp [later]

end Loop

/-! ### The whole text -/

/-- The first run of zeros in the groups of an address. -/
theorem zeros_split (addr : List (BitVec 16)) : (∀ v ∈ addr, v ≠ 0) ∨
    ∃ front k back, addr = front ++ (List.replicate (k + 1) 0 ++ back) ∧ (∀ v ∈ front, v ≠ 0) ∧
      back.head? ≠ some 0 := by
  induction addr with
  | nil => exact Or.inl fun v inside => absurd inside List.not_mem_nil
  | cons v addr ih =>
      by_cases zero : v = 0
      · right
        rw [zero]
        rcases ih with filled | ⟨front, k, back, split, high, low⟩
        · refine ⟨[], 0, addr, rfl, by simp, ?_⟩
          intro head
          exact filled 0 (List.mem_of_mem_head? head) rfl
        · cases front with
          | nil => exact ⟨[], k + 1, back, by rw [split]; rfl, by simp, low⟩
          | cons w front =>
              refine ⟨[], 0, addr, rfl, by simp, ?_⟩
              rw [split]
              intro head
              exact high w List.mem_cons_self (Option.some.inj head)
      · rcases ih with filled | ⟨front, k, back, split, high, low⟩
        · left
          intro w inside
          rcases List.mem_cons.mp inside with rfl | later
          · exact zero
          · exact filled w later
        · refine Or.inr ⟨v :: front, k, back, by rw [split]; rfl, ?_, low⟩
          intro w inside
          rcases List.mem_cons.mp inside with rfl | later
          · exact zero
          · exact high w later

theorem pair_of_length {n : Nat} {data : List UInt8} (even : data.length = 2 * (n + 1)) :
    ∃ a b rest, data = a :: b :: rest ∧ rest.length = 2 * n := by
  match data, even with
  | a :: b :: rest, even =>
      rw [List.length_cons, List.length_cons] at even
      exact ⟨a, b, rest, rfl, by omega⟩
  | [_], odd =>
      rw [List.length_singleton] at odd
      omega

theorem length_groups {n : Nat} {data : List UInt8} (even : data.length = 2 * n) :
    (groups data).length = n := by
  induction n generalizing data with
  | zero =>
      rw [List.length_eq_zero_iff.mp even]
      rfl
  | succ n ih =>
      obtain ⟨a, b, rest, rfl, fewer⟩ := pair_of_length even
      rw [groups, List.length_cons, ih fewer]

/-- What stands between the brackets, when all groups are written out and when they are not. -/
theorem insertText_shape {s6_addr : Vector UInt8 16} {addr : List (BitVec 16)}
    (cast : groups s6_addr.toList = addr) (eight : addr.length = 8) :
    ((∀ v ∈ addr, v ≠ 0) ∧ insertText s6_addr = colons (addr.map digits)) ∨
      ∃ front k back, addr = front ++ (List.replicate (k + 1) 0 ++ back) ∧
        insertText s6_addr =
          colons (front.map digits) ++ bytes "::" ++ colons (back.map digits) := by
  unfold insertText
  rw [cast]
  rcases zeros_split addr with filled | ⟨front, k, back, split, high, low⟩
  · refine Or.inl ⟨filled, ?_⟩
    have loop := insertLoop_first filled (Or.inl rfl)
    rw [List.append_nil] at loop
    have last : addr[7]? ≠ some 0#16 := fun zero => filled 0 (List.mem_of_getElem? zero) rfl
    simp [loop, insertLoop, last]
  · refine Or.inr ⟨front, k, back, split, ?_⟩
    have zero : (List.replicate (k + 1) (0 : BitVec 16) ++ back).head? = some 0 := by
      rw [List.replicate_succ]
      rfl
    have loop := insertLoop_first high (Or.inr zero)
    rw [← split, insertLoop_zeros k none low] at loop
    by_cases ends : back = []
    · rw [if_pos ends] at loop
      have final : addr.getLast? = some 0#16 := by
        rw [split, ends, List.append_nil, List.replicate_succ', ← List.append_assoc,
          List.getLast?_concat]
        rfl
      have last : addr[7]? = some 0#16 := by
        rwa [List.getLast?_eq_getElem?, eight] at final
      simp [loop, ends, last, colons]
    · rw [if_neg ends] at loop
      simp [loop]

/-- What is printed for a group has the first byte as its high one. -/
theorem toNat_group (first second : UInt8) :
    (byteswapOnLittleEndian (BitVec.ofNat 16 (fromBytes [first, second]))).toNat =
      256 * first.toNat + second.toNat := by
  have high := first.toNat_lt
  have low := second.toNat_lt
  have number : fromBytes [first, second] = first.toNat + 256 * second.toNat := by
    simp [fromBytes]
  have small : fromBytes [first, second] < 2 ^ 16 := by omega
  have swaps : byteswapOnLittleEndian (BitVec.ofNat 16 (fromBytes [first, second])) =
      BitVec.ofNat 16 (byteswap 2 (BitVec.ofNat 16 (fromBytes [first, second])).toNat) := rfl
  have split : toBytes 2 (fromBytes [first, second]) = [first, second] :=
    toBytes_fromBytes [first, second]
  have swapped : byteswap 2 (fromBytes [first, second]) = 256 * first.toNat + second.toNat := by
    unfold byteswap
    rw [split]
    simp [fromBytes]
    omega
  rw [swaps, BitVec.toNat_ofNat, BitVec.toNat_ofNat, Nat.mod_eq_of_lt small, swapped,
    Nat.mod_eq_of_lt (by omega)]

theorem bytes_groups {n : Nat} {data : List UInt8} (even : data.length = 2 * n) :
    ((groups data).map byteswapOnLittleEndian).flatMap (fun v =>
      [UInt8.ofNat (v.toNat / 256), UInt8.ofNat (v.toNat % 256)]) = data := by
  induction n generalizing data with
  | zero =>
      rw [List.length_eq_zero_iff.mp even]
      rfl
  | succ n ih =>
      obtain ⟨a, b, rest, rfl, fewer⟩ := pair_of_length even
      have low := b.toNat_lt
      have first : (256 * a.toNat + b.toNat) / 256 = a.toNat := by omega
      have second : (256 * a.toNat + b.toNat) % 256 = b.toNat := by omega
      rw [groups, List.map_cons, List.flatMap_cons, toNat_group, first, second, UInt8.ofNat_toNat,
        UInt8.ofNat_toNat, ih fewer]
      rfl

theorem wellFormed_char {text : Bytes} (formed : WellFormed text) :
    ∀ c ∈ text, c = 58 ∨ (hexValue c).isSome := by
  have list : ∀ texts : List Bytes, (∀ t ∈ texts, Field t) →
      ∀ c ∈ colons texts, c = 58 ∨ (hexValue c).isSome := by
    intro texts each
    induction texts with
    | nil => exact fun c inside => absurd inside List.not_mem_nil
    | cons text texts ih =>
        have hex := (each text List.mem_cons_self).2.2
        by_cases last : texts = []
        · rw [last, colons, List.intercalate_singleton]
          exact fun c inside => Or.inr (hex c inside)
        · intro c inside
          rw [colons_cons last] at inside
          rcases List.mem_append.mp inside with here | behind
          · exact Or.inr (hex c here)
          · rcases List.mem_cons.mp behind with colon | later
            · exact Or.inl colon
            · exact ih (fun t member => each t (List.mem_cons_of_mem text member)) c later
  intro c inside
  cases formed with
  | full texts each eight => exact list texts each c inside
  | compressed front back high low few =>
      rcases List.mem_append.mp inside with before | behind
      · rcases List.mem_append.mp before with here | colon
        · exact list front high c here
        · have two : bytes "::" = [58, 58] := rfl
          rw [two] at colon
          simp at colon
          exact Or.inl colon
      · exact list back low c behind

theorem mapM_digits (gs : List (BitVec 16)) :
    (gs.map digits).mapM field = some (gs.map byteswapOnLittleEndian) := by
  induction gs with
  | nil => rfl
  | cons v gs ih =>
      simp only [List.map_cons, List.mapM_cons, field_digits, ih, Option.pure_def,
        Option.bind_eq_bind, Option.bind_some]

theorem digits_formed (gs : List (BitVec 16)) : ∀ t ∈ gs.map digits, Field t := by
  intro t inside
  obtain ⟨v, -, rfl⟩ := List.mem_map.mp inside
  exact field_wellFormed (field_digits v)

theorem insertText_wellFormed (s6_addr : Vector UInt8 16) :
    WellFormed (insertText s6_addr) ∧ doubles (insertText s6_addr) ≤ 1 := by
  have eight : (groups s6_addr.toList).length = 8 := length_groups (by simp)
  rcases insertText_shape rfl eight with ⟨-, text⟩ | ⟨front, k, back, split, text⟩
  · rw [text]
    refine ⟨WellFormed.full _ (digits_formed _) (by rwa [List.length_map]), ?_⟩
    have none_there := doubles_colons (digits_formed (groups s6_addr.toList)) []
    rw [List.append_nil] at none_there
    rw [none_there]
    exact Nat.zero_le 1
  · rw [text]
    have few : front.length + back.length ≤ 7 := by
      have length := congrArg List.length split
      rw [eight, List.length_append, List.length_append, List.length_replicate] at length
      omega
    refine ⟨WellFormed.compressed _ _ (digits_formed _) (digits_formed _) ?_, ?_⟩
    · rwa [List.length_map, List.length_map]
    · rw [List.append_assoc, doubles_colons (digits_formed _)]
      have here : doubles (bytes "::" ++ colons (back.map digits)) =
          1 + doubles (58 :: colons (back.map digits)) := rfl
      have none_there := doubles_colons (digits_formed back) []
      rw [List.append_nil] at none_there
      rw [here]
      by_cases ends : back = []
      · rw [ends]
        decide
      · have single := head?_colons (digits_formed back) []
          (fun nothing => ends (List.map_eq_nil_iff.mp nothing))
        rw [List.append_nil] at single
        rw [doubles_colon single, none_there]
        decide

theorem expand_insertText (s6_addr : Vector UInt8 16) :
    expand (insertText s6_addr) = some s6_addr.toList := by
  have even : s6_addr.toList.length = 2 * 8 := Vector.length_toList
  have eight := length_groups even
  have all : expandGroups (insertText s6_addr) =
      some ((groups s6_addr.toList).map byteswapOnLittleEndian) := by
    rcases insertText_shape rfl eight with ⟨-, text⟩ | ⟨front, k, back, split, text⟩
    · rw [text]
      exact expandGroups_full (digits_formed _) (mapM_digits _) (by rwa [List.length_map])
    · have zero : byteswapOnLittleEndian (0 : BitVec 16) = 0 := by decide
      have length := congrArg List.length split
      rw [eight, List.length_append, List.length_append, List.length_replicate] at length
      have missing : 8 - (front.length + back.length) = k + 1 := by omega
      have few : (front.map byteswapOnLittleEndian).length +
          (back.map byteswapOnLittleEndian).length ≤ 7 := by
        rw [List.length_map, List.length_map]
        omega
      rw [text, split, expandGroups_compressed (digits_formed _) (digits_formed _)
        (mapM_digits _) (mapM_digits _) few]
      simp only [List.length_map, List.map_append, List.map_replicate, zero, missing,
        List.append_assoc]
  unfold expand
  rw [all, Option.map_some, bytes_groups even]

theorem insertText_injective {a b : Vector UInt8 16} (same : insertText a = insertText b) :
    a = b := by
  have left := expand_insertText a
  rw [same, expand_insertText] at left
  exact Vector.toList_inj.mp (Option.some.inj left).symm

/-- The text ends at the first bracket. -/
theorem text_of_insert (m_addr : SockaddrIn6) :
    (insert m_addr).tail.takeWhile (· != 93) = insertText m_addr.sin6_addr := by
  have clean : ∀ c ∈ insertText m_addr.sin6_addr, (c != 93) = true := by
    intro c inside
    rcases wellFormed_char (insertText_wellFormed m_addr.sin6_addr).1 c inside with colon | hex
    · rw [colon]
      rfl
    · rw [bne_iff_ne]
      intro same
      rw [same] at hex
      cases hex
  have shape : (insert m_addr).tail = insertText m_addr.sin6_addr ++
      93 :: 58 :: Http.HttpRequest.decimal (byteswapOnLittleEndian m_addr.sin6_port).toNat := by
    have open_bracket : bytes "[" = [91] := rfl
    have close_bracket : bytes "]:" = [93, 58] := rfl
    unfold insert
    rw [open_bracket, close_bracket]
    simp
  rw [shape, List.takeWhile_append_of_pos clean]
  exact List.append_nil _

/-- The text is well formed, has one double colon at most, and stands for the address it was written
for; no two addresses have the same text. -/
theorem insert_faithful :
    (∀ m_addr : SockaddrIn6, ∃ text, insert m_addr = bytes "[" ++ text ++ bytes "]:" ++
        Http.HttpRequest.decimal (byteswapOnLittleEndian m_addr.sin6_port).toNat ∧
      (93 : UInt8) ∉ text ∧ WellFormed text ∧ doubles text ≤ 1 ∧
      expand text = some m_addr.sin6_addr.toList) ∧
    ∀ a b : SockaddrIn6, insert a = insert b → a.sin6_addr = b.sin6_addr := by
  refine ⟨fun m_addr => ?_, fun a b same => ?_⟩
  · obtain ⟨formed, few⟩ := insertText_wellFormed m_addr.sin6_addr
    refine ⟨_, rfl, fun bracket => ?_, formed, few, expand_insertText m_addr.sin6_addr⟩
    rcases wellFormed_char formed 93 bracket with colon | hex
    · cases colon
    · cases hex
  · apply insertText_injective
    rw [← text_of_insert, ← text_of_insert, same]

/-- With an `inet_pton` that expands these texts, `Create` gives the address back. -/
theorem create_insertText {inet_pton : Bytes → Option (Vector UInt8 16)}
    (expands : ∀ text a, expand text = some a.toList → inet_pton text = some a)
    (s6_addr : Vector UInt8 16) (port : BitVec 16) :
    Create inet_pton (insertText s6_addr) port = some (new s6_addr port) := by
  unfold Create
  rw [expands _ _ (expand_insertText s6_addr), Option.map_some]
  rfl

end CorReactor.IPv6Address
