import Mathlib.Tactic.Ring

set_option autoImplicit false

namespace CorReactor

/-- Ways an operation on a `ByteArray` ends without returning. Only `outOfRange` and
`lengthError` are exceptions; the others are undefined behaviour. -/
inductive Fault
  | nullNode
  | outOfRange
  | lengthError
  | outsideBlock
  deriving DecidableEq, Repr

/-- `SYLAR_LITTLE_ENDIAN` and `SYLAR_BIG_ENDIAN`. -/
inductive Endian
  | little
  | big
  deriving DecidableEq, Repr

/-- The host is little-endian. -/
def SYLAR_BYTE_ORDER : Endian := .little

/-- A storage block; the `next` pointers are the order of the chain it stands in. -/
structure Node where
  ptr : List UInt8
  deriving DecidableEq, Repr

def Node.size (node : Node) : Nat := node.ptr.length

/-- `new Node(s)`: the block holds whatever the allocator's memory held. -/
def Node.new (size : Nat) (heap : Nat → UInt8) : Node := ⟨(List.range size).map heap⟩

/-- `memcpy` into a block at offset `npos`. -/
def Node.memcpy (node : Node) (npos : Nat) (buf : List UInt8) : Node :=
  ⟨node.ptr.take npos ++ buf ++ node.ptr.drop (npos + buf.length)⟩

/-- `m_root` is the chain of blocks, first block first. `m_cur` is the number of the
block it points to, `none` for the null pointer. `heap` is the content of the memory
that the next `new char[s]` calls will hand out. Sizes are unbounded: all blocks of a
chain fit in the address space. -/
structure ByteArray where
  m_baseSize : Nat
  m_position : Nat
  m_capacity : Nat
  m_size : Nat
  m_endian : Endian
  m_root : List Node
  m_cur : Option Nat
  heap : Nat → UInt8

/-- Subtraction in `size_t`. -/
def sizeSub (a b : Nat) : Nat := if b ≤ a then a - b else a + 2 ^ 64 - b

theorem sizeSub_of_le {a b : Nat} (le : b ≤ a) : sizeSub a b = a - b := by
  rw [sizeSub, if_pos le]

/-- An operation: its value and the state it leaves, also when it throws. -/
abbrev Op (α : Type) := EStateM Fault ByteArray α

theorem Op.bind_apply {α β : Type} (x : Op α) (f : α → Op β) (s : ByteArray) :
    (x >>= f) s = match x s with
      | .ok a t => f a t
      | .error e t => .error e t := by
  change EStateM.bind x f s = _
  unfold EStateM.bind
  cases x s <;> rfl

theorem Op.map_apply {α β : Type} (f : α → β) (x : Op α) (s : ByteArray) :
    (f <$> x) s = match x s with
      | .ok a t => .ok (f a) t
      | .error e t => .error e t := by
  change EStateM.map f x s = _
  unfold EStateM.map
  cases x s <;> rfl

theorem Op.map_error {α β : Type} {f : α → β} {x : Op α} {e : Fault} {s t : ByteArray}
    (failed : x s = .error e t) : (f <$> x) s = .error e t := by
  rw [Op.map_apply, failed]

theorem Op.bind_error {α β : Type} {f : α → Op β} {x : Op α} {e : Fault} {s t : ByteArray}
    (failed : x s = .error e t) : (x >>= f) s = .error e t := by
  rw [Op.bind_apply, failed]

/-- Part of one block handed to `readv`/`writev`: block number, offset and length. -/
structure IoVec where
  node : Nat
  npos : Nat
  iov_len : Nat
  deriving DecidableEq, Repr

namespace ByteArray

/-- The constructor `ByteArray(base_size)`. -/
def new (base_size : Nat) (heap : Nat → UInt8) : ByteArray where
  m_baseSize := base_size
  m_position := 0
  m_capacity := base_size
  m_size := 0
  m_endian := .big
  m_root := [Node.new base_size heap]
  m_cur := some 0
  heap := fun i => heap (base_size + i)

def getPosition (s : ByteArray) : Nat := s.m_position
def getSize (s : ByteArray) : Nat := s.m_size
def getBaseSize (s : ByteArray) : Nat := s.m_baseSize
def getReadSize (s : ByteArray) : Nat := sizeSub s.m_size s.m_position
def getCapacity (s : ByteArray) : Nat := sizeSub s.m_capacity s.m_position
def isLittleEndian (s : ByteArray) : Bool := s.m_endian = .little

def setIsLittleEndian (val : Bool) : Op Unit := fun s =>
  .ok () { s with m_endian := if val then .little else .big }

/-- The pointer to block number `i`: null past the last one. -/
def nodePtr (nodes : List Node) (i : Nat) : Option Nat :=
  if i < nodes.length then some i else none

/-! ### Growing -/

/-- One round of the loop in `addCapacity`. -/
def appendNode (s : ByteArray) : ByteArray :=
  { s with
    m_root := s.m_root ++ [Node.new s.m_baseSize s.heap]
    m_capacity := s.m_capacity + s.m_baseSize
    heap := fun i => s.heap (s.m_baseSize + i) }

def appendNodes : Nat → ByteArray → ByteArray
  | 0, s => s
  | count + 1, s => appendNodes count s.appendNode

/-- The number of blocks `addCapacity` allocates for `size` bytes, `old_cap` being the
capacity left. -/
def growCount (baseSize old_cap size : Nat) : Nat :=
  (size - old_cap) / baseSize + if (size - old_cap) % baseSize > old_cap then 1 else 0

def addCapacity (s : ByteArray) (size : Nat) : ByteArray :=
  if size = 0 then s
  else
    let old_cap := s.getCapacity
    if old_cap ≥ size then s
    else
      let grown := appendNodes (growCount s.m_baseSize old_cap size) s
      -- `first` is the first new block, null when there is none
      if old_cap = 0 then { grown with m_cur := nodePtr grown.m_root s.m_root.length } else grown

/-! ### The copy loops

Each walks the blocks from `m_cur` on, starting `npos` bytes into the first. They also
give the number of blocks `m_cur` moves on; `none` is a null node followed. -/

def copyIn : List Node → Nat → List UInt8 → Option (List Node × Nat)
  | nodes, _, [] => some (nodes, 0)
  | [], _, _ :: _ => none
  | node :: rest, npos, buf =>
      let ncap := node.size - npos
      if ncap ≥ buf.length then
        some (node.memcpy npos buf :: rest, if node.size = npos + buf.length then 1 else 0)
      else
        (copyIn rest 0 (buf.drop ncap)).map fun r =>
          (node.memcpy npos (buf.take ncap) :: r.1, r.2 + 1)

def copyOut : List Node → Nat → Nat → Option (List UInt8 × Nat)
  | _, _, 0 => some ([], 0)
  | [], _, _ + 1 => none
  | node :: rest, npos, size =>
      let ncap := node.size - npos
      if ncap ≥ size then
        some ((node.ptr.drop npos).take size, if node.size = npos + size then 1 else 0)
      else
        (copyOut rest 0 (size - ncap)).map fun r => ((node.ptr.drop npos).take ncap ++ r.1, r.2 + 1)

/-- The loop of the three buffer lists; `cur` is the number of the first block. -/
def gather : List Node → Nat → Nat → Nat → Option (List IoVec)
  | _, _, _, 0 => some []
  | [], _, _, _ + 1 => none
  | node :: rest, cur, npos, len =>
      let ncap := node.size - npos
      if ncap ≥ len then some [⟨cur, npos, len⟩]
      else (gather rest (cur + 1) 0 (len - ncap)).map (⟨cur, npos, ncap⟩ :: ·)

/-- The walk of `setPosition` from `m_root`: the number of blocks it moves on. -/
def seek : List Node → Nat → Option Nat
  | [], _ => none
  | node :: rest, v =>
      if v > node.size then (seek rest (v - node.size)).map (· + 1)
      else some (if v = node.size then 1 else 0)

/-! ### Raw access -/

def clear : Op Unit := fun s =>
  .ok () { s with
    m_position := 0
    m_size := 0
    m_capacity := s.m_baseSize
    m_root := s.m_root.take 1
    m_cur := some 0 }

def write (buf : List UInt8) : Op Unit := fun s =>
  if buf.length = 0 then .ok () s
  else
    let grown := s.addCapacity buf.length
    match grown.m_cur with
    | none => .error .nullNode grown
    | some cur =>
        match copyIn (grown.m_root.drop cur) (grown.m_position % grown.m_baseSize) buf with
        | none => .error .nullNode grown
        | some (nodes, moved) =>
            let position := grown.m_position + buf.length
            .ok () { grown with
              m_root := grown.m_root.take cur ++ nodes
              m_cur := nodePtr grown.m_root (cur + moved)
              m_position := position
              m_size := if position > grown.m_size then position else grown.m_size }

def read (size : Nat) : Op (List UInt8) := fun s =>
  if size > s.getReadSize then .error .outOfRange s
  else
    match s.m_cur with
    | none => .error .nullNode s
    | some cur =>
        match copyOut (s.m_root.drop cur) (s.m_position % s.m_baseSize) size with
        | none => .error .nullNode s
        | some (bytes, moved) =>
            .ok bytes { s with
              m_position := s.m_position + size
              m_cur := nodePtr s.m_root (cur + moved) }

/-- `read(buf, size, position) const`. It starts at `m_cur` whatever `position` is. -/
def readAt (size position : Nat) : Op (List UInt8) := fun s =>
  if size > sizeSub s.m_size position then .error .outOfRange s
  else
    match s.m_cur with
    | none => .error .nullNode s
    | some cur =>
        match copyOut (s.m_root.drop cur) (position % s.m_baseSize) size with
        | none => .error .nullNode s
        | some (bytes, _) => .ok bytes s

def setPosition (v : Nat) : Op Unit := fun s =>
  if v > s.m_capacity then .error .outOfRange s
  else
    match seek s.m_root v with
    | none => .error .nullNode s
    | some moved =>
        .ok () { s with
          m_position := v
          m_size := if v > s.m_size then v else s.m_size
          m_cur := nodePtr s.m_root moved }

def toString : Op (List UInt8) := fun s =>
  if s.getReadSize = 0 then .ok [] s else readAt s.getReadSize s.m_position s

/-- Two hexadecimal digits and a blank for each byte, 32 bytes a line. -/
def hexDump : Nat → List UInt8 → List Char
  | _, [] => []
  | i, b :: rest =>
      (if i > 0 ∧ i % 32 = 0 then ['\n'] else []) ++
        [Nat.digitChar (b.toNat / 16), Nat.digitChar (b.toNat % 16), ' '] ++ hexDump (i + 1) rest

def toHexString : Op (List Char) := hexDump 0 <$> toString

/-! ### Buffer lists -/

def getReadBuffers (buffers : List IoVec) (len : Nat) : Op (List IoVec × Nat) := fun s =>
  let len := if len > s.getReadSize then s.getReadSize else len
  if len = 0 then .ok (buffers, 0) s
  else
    match s.m_cur with
    | none => .error .nullNode s
    | some cur =>
        match gather (s.m_root.drop cur) cur (s.m_position % s.m_baseSize) len with
        | none => .error .nullNode s
        | some iovs => .ok (buffers ++ iovs, len) s

/-- `getReadBuffers(buffers, len, position)`: the start block is found from `m_root`. -/
def getReadBuffersAt (buffers : List IoVec) (len position : Nat) : Op (List IoVec × Nat) := fun s =>
  let len := if len > s.getReadSize then s.getReadSize else len
  if len = 0 then .ok (buffers, 0) s
  else
    let count := position / s.m_baseSize
    if count < s.m_root.length then
      match gather (s.m_root.drop count) count (position % s.m_baseSize) len with
      | none => .error .nullNode s
      | some iovs => .ok (buffers ++ iovs, len) s
    else .error .nullNode s

def getWriteBuffers (buffers : List IoVec) (len : Nat) : Op (List IoVec × Nat) := fun s =>
  if len = 0 then .ok (buffers, 0) s
  else
    let grown := s.addCapacity len
    match grown.m_cur with
    | none => .error .nullNode grown
    | some cur =>
        match gather (grown.m_root.drop cur) cur (grown.m_position % grown.m_baseSize) len with
        | none => .error .nullNode grown
        | some iovs => .ok (buffers ++ iovs, len) grown

/-! ### Files -/

/-- The loop of `writeToFile`: the bytes that reach the file. The offset is an `int`, and
the remaining size is signed, so that `len` can come out negative. -/
def writeToFileLoop (baseSize : Nat) : List Node → Int → Int → Except Fault (List UInt8)
  | nodes, read_size, pos =>
      if read_size ≤ 0 then .ok []
      else
        match nodes with
        | [] => .error .nullNode
        | node :: rest =>
            let diff := (pos % baseSize).bmod (2 ^ 32)
            let len := (if read_size > baseSize then (baseSize : Int) else read_size) - diff
            if diff < 0 ∨ len < 0 ∨ node.size < diff + len then .error .outsideBlock
            else
              (writeToFileLoop baseSize rest (read_size - len) (pos + len)).map
                (((node.ptr.drop diff.toNat).take len.toNat) ++ ·)

/-- `writeToFile(name)`, where `opens` says whether the file could be opened: the
content of the file, or `none` for the result `false`. -/
def writeToFile (opens : Bool) : Op (Option (List UInt8)) := fun s =>
  if opens then
    let nodes := match s.m_cur with
      | none => []
      | some cur => s.m_root.drop cur
    match writeToFileLoop s.m_baseSize nodes s.getReadSize s.m_position with
    | .error e => .error e s
    | .ok bytes => .ok (some bytes) s
  else .ok none s

/-- The loop of `readFromFile`. The end of the file is noticed by the read that gets
fewer bytes than it asked for; for a positive block size that happens within
`file.length + 1` rounds. -/
def readFromFileLoop : Nat → List UInt8 → Op Unit
  | 0, _ => pure ()
  | rounds + 1, file => fun s =>
      let chunk := file.take s.m_baseSize
      match write chunk s with
      | .error e t => .error e t
      | .ok _ t =>
          if chunk.length < s.m_baseSize then .ok () t
          else readFromFileLoop rounds (file.drop s.m_baseSize) t

/-- `readFromFile(name)`, with the content of the file or `none` if it does not open. -/
def readFromFile : Option (List UInt8) → Op Bool
  | none => pure false
  | some file => do
      readFromFileLoop (file.length + 1) file
      pure true

end ByteArray

end CorReactor
