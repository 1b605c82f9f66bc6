import HeapWindow.Memory

/-!
# Block headers

Every block begins with a header of two words: how many bytes follow it, and where the next free
block begins. Zero stands for no next block, since no window contains address zero. The header
of a block in use keeps its size; its link means nothing.
-/

namespace HeapWindow

structure Header where
  /-- Bytes of payload behind the header. -/
  size : UInt32
  next : Option Addr
  deriving DecidableEq

namespace Header

def byteSize : UInt32 := 8

@[simp] theorem toNat_byteSize : byteSize.toNat = 8 := rfl

/-- The least payload for which it is worth cutting a block in two. -/
def leastRest : UInt32 := 8

def linkWord (next : Option Addr) : UInt32 := next.getD 0

def ofLinkWord (w : UInt32) : Option Addr := if w = 0 then none else some w

@[simp] theorem linkWord_ofLinkWord (w : UInt32) : linkWord (ofLinkWord w) = w := by
  unfold ofLinkWord
  split <;> simp_all [linkWord]

theorem ofLinkWord_linkWord (next : Option Addr) :
    ofLinkWord (linkWord next) = next.filter (· ≠ 0) := by
  cases next with
  | none => rfl
  | some a => by_cases h : a = 0 <;> simp [linkWord, ofLinkWord, Option.filter, h]

/-- A header as it is stored: the size, then the link. -/
def encode (h : Header) : Vector UInt8 8 :=
  LittleEndian.bytes h.size ++ LittleEndian.bytes (linkWord h.next)

def decode (b : Vector UInt8 8) : Header where
  size := LittleEndian.word #v[b[0], b[1], b[2], b[3]]
  next := ofLinkWord (LittleEndian.word #v[b[4], b[5], b[6], b[7]])

/-- The header with a link to address zero read as the end of the list. -/
def normal (h : Header) : Header := { h with next := h.next.filter (· ≠ 0) }

theorem decode_encode (h : Header) : decode h.encode = h.normal := by
  have halves : ∀ v w : Vector UInt8 4, decode (v ++ w) =
      ⟨LittleEndian.word v, ofLinkWord (LittleEndian.word w)⟩ := by
    intro v w
    rw [LittleEndian.vector_four v, LittleEndian.vector_four w]
    rfl
  rw [encode, halves]
  simp [normal, ofLinkWord_linkWord]

theorem encode_decode (b : Vector UInt8 8) : (decode b).encode = b := by
  simp only [encode, decode, linkWord_ofLinkWord, LittleEndian.bytes_word]
  apply Vector.ext
  intro i hi
  match i, hi with
  | 0, _ | 1, _ | 2, _ | 3, _ | 4, _ | 5, _ | 6, _ | 7, _ => rfl

/-- The header that the bytes from `a` on stand for, wherever that is. -/
def peek (m : Memory) (a : Addr) : Header := decode (m.peek a 8)

def read (m : Memory) (a : Addr) : Except Fault Header := (m.load a 8).map decode

theorem read_eq (m : Memory) (a : Addr) :
    read m a = if m.Holds a 8 then .ok (peek m a) else .error (.outOfBounds a 8) := by
  rw [read, Memory.load]
  split <;> rfl

def write (a : Addr) (h : Header) : Action Memory Unit := Memory.store a h.encode

def writeSize (a : Addr) (size : UInt32) : Action Memory Unit := Memory.writeWord a size

/-- Where the link is stored of the header at `a`, wrapping past the top. -/
def linkAddr (a : Addr) : Addr := a + Rounding.wordSize

def writeNext (a : Addr) (next : Option Addr) : Action Memory Unit :=
  Memory.writeWord (linkAddr a) (linkWord next)

/-- A link is inside memory with its header, at an address that does not wrap. -/
theorem toNat_linkAddr {m : Memory} {a : Addr} (h : m.Holds a 8) :
    (linkAddr a).toNat = a.toNat + 4 := by
  have := (Memory.holds_iff.1 h).2
  have := m.stop.toNat_lt
  rw [linkAddr, UInt32.toNat_add, Rounding.toNat_wordSize]
  omega

theorem holds_linkAddr {m : Memory} {a : Addr} (h : m.Holds a 8) : m.Holds (linkAddr a) 4 := by
  have hb := Memory.holds_iff.1 h
  rw [Memory.holds_iff, toNat_linkAddr h]
  omega

theorem holds_size {m : Memory} {a : Addr} (h : m.Holds a 8) : m.Holds a 4 := by
  have hb := Memory.holds_iff.1 h
  rw [Memory.holds_iff]
  omega

theorem peek_put_encode {m : Memory} {a : Addr} {h : Header} (hm : m.Holds a 8) :
    peek (m.put a h.encode.toList) a = h.normal := by
  rw [peek, Memory.peek_put_same hm, decode_encode]

theorem run_write {m : Memory} {a : Addr} {h : Header} (hm : m.Holds a 8) :
    (write a h).run m = ⟨.ok (), m.put a h.encode.toList, []⟩ := Memory.run_store hm

theorem run_writeSize {m : Memory} {a : Addr} {size : UInt32} (hm : m.Holds a 8) :
    (writeSize a size).run m = ⟨.ok (), m.put a (LittleEndian.bytes size).toList, []⟩ :=
  Memory.run_store (holds_size hm)

theorem run_writeNext {m : Memory} {a : Addr} {next : Option Addr} (hm : m.Holds a 8) :
    (writeNext a next).run m =
      ⟨.ok (), m.put (linkAddr a) (LittleEndian.bytes (linkWord next)).toList, []⟩ :=
  Memory.run_store (holds_linkAddr hm)

theorem peek_eq {m : Memory} {a : Addr} (h : m.Holds a 8) :
    peek m a =
      ⟨LittleEndian.word (m.peek a 4), ofLinkWord (LittleEndian.word (m.peek (linkAddr a) 4))⟩ := by
  rw [LittleEndian.vector_four (m.peek a 4), LittleEndian.vector_four (m.peek (linkAddr a) 4)]
  simp only [peek, decode, Memory.getElem_peek, toNat_linkAddr h]

theorem peek_put_size {m : Memory} {a : Addr} {size : UInt32} (h : m.Holds a 8) :
    peek (m.put a (LittleEndian.bytes size).toList) a = { peek m a with size } := by
  have h₄ : m.Holds a 4 := holds_size h
  have hd : (linkAddr a).toNat + 4 ≤ a.toNat ∨ a.toNat + 4 ≤ (linkAddr a).toNat := by
    rw [toNat_linkAddr h]
    omega
  rw [peek_eq h, peek_eq (Memory.holds_put.2 h), Memory.peek_put_same h₄,
    Memory.peek_put_of_disjoint (by simpa using h₄) (by simpa using hd), LittleEndian.word_bytes]

theorem peek_put_next {m : Memory} {a : Addr} {next : Option Addr} (h : m.Holds a 8) :
    peek (m.put (linkAddr a) (LittleEndian.bytes (linkWord next)).toList) a =
      { peek m a with next := next.filter (· ≠ 0) } := by
  have h₄ : m.Holds (linkAddr a) 4 := holds_linkAddr h
  have hd : a.toNat + 4 ≤ (linkAddr a).toNat ∨ (linkAddr a).toNat + 4 ≤ a.toNat := by
    rw [toNat_linkAddr h]
    omega
  rw [peek_eq h, peek_eq (Memory.holds_put.2 h), Memory.peek_put_same h₄,
    Memory.peek_put_of_disjoint (by simpa using h₄) (by simpa using hd), LittleEndian.word_bytes,
    ofLinkWord_linkWord]

def payload (a : Addr) : Addr := a + byteSize

/-- Where the header is of the block whose payload begins at `p`. -/
def ofPayload? (p : Addr) : Option Addr := if byteSize ≤ p then some (p - byteSize) else none

/-- The first address past the block whose header is `h` at `a`, which need not be a 32-bit one. -/
def stop (h : Header) (a : Addr) : Nat := a.toNat + byteSize.toNat + h.size.toNat

theorem ofPayload?_eq_some_iff {p a : Addr} :
    ofPayload? p = some a ↔ a.toNat + 8 = p.toNat := by
  unfold ofPayload?
  split
  · next h =>
    have := UInt32.le_iff_toNat_le.1 h
    simp only [Option.some.injEq, ← UInt32.toNat_inj, UInt32.toNat_sub_of_le _ _ h,
      toNat_byteSize] at *
    omega
  · next h =>
    rw [UInt32.le_iff_toNat_le, toNat_byteSize] at h
    simp only [reduceCtorEq, false_iff]
    omega

end Header
end HeapWindow
