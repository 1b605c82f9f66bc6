import HeapWindow.Walk

/-!
# Frames

What an operation leaves alone is said by the addresses at which it may change a byte. Whatever
is read elsewhere is read as before: words, headers, and whether a block can be linked to.
-/

namespace HeapWindow
namespace Memory

variable {m m' m₁ m₂ m₃ : Memory} {S T : Nat → Prop}

/-- The bounds are the same, and so is every byte outside `S`. -/
structure SameBut (S : Nat → Prop) (m m' : Memory) : Prop where
  start : m'.start = m.start
  size : m'.bytes.size = m.bytes.size
  byte : ∀ x, ¬ S x → m'.byte x = m.byte x

namespace SameBut

theorem refl (S : Nat → Prop) (m : Memory) : SameBut S m m := ⟨rfl, rfl, fun _ _ => rfl⟩

theorem symm (h : SameBut S m m') : SameBut S m' m :=
  ⟨h.start.symm, h.size.symm, fun x hx => (h.byte x hx).symm⟩

theorem mono (h : SameBut S m m') (hst : ∀ x, S x → T x) : SameBut T m m' :=
  ⟨h.start, h.size, fun x hx => h.byte x fun hs => hx (hst x hs)⟩

theorem trans (h₁ : SameBut S m₁ m₂) (h₂ : SameBut S m₂ m₃) : SameBut S m₁ m₃ where
  start := h₂.start.trans h₁.start
  size := h₂.size.trans h₁.size
  byte x hx := (h₂.byte x hx).trans (h₁.byte x hx)

theorem stop (h : SameBut S m m') : m'.stop = m.stop := by
  rw [← UInt32.toNat_inj, toNat_stop, toNat_stop, h.start, h.size]

theorem holds_iff (h : SameBut S m m') {a : Addr} {n : Nat} : m'.Holds a n ↔ m.Holds a n := by
  rw [Memory.holds_iff, Memory.holds_iff, h.start, h.stop]

theorem peek (h : SameBut S m m') {a : Addr} {n : Nat}
    (hs : ∀ x, a.toNat ≤ x → x < a.toNat + n → ¬ S x) : m'.peek a n = m.peek a n := by
  apply Vector.ext
  intro i hi
  rw [getElem_peek hi, getElem_peek hi]
  exact h.byte _ (hs _ (by omega) (by omega))

theorem header (h : SameBut S m m') {a : Addr}
    (hs : ∀ x, a.toNat ≤ x → x < a.toNat + 8 → ¬ S x) : Header.peek m' a = Header.peek m a := by
  rw [Header.peek, Header.peek, h.peek hs]

theorem inside (h : SameBut S m m') {n : Node} : n.Inside m' ↔ n.Inside m := by
  rw [Node.Inside, Node.Inside, h.holds_iff, h.stop]

theorem at? (h : SameBut S m m') {a : Addr}
    (hs : ∀ x, a.toNat ≤ x → x < a.toNat + 8 → ¬ S x) : Node.at? m' a = Node.at? m a := by
  have hp : Node.peek m' a = Node.peek m a := by rw [Node.peek, Node.peek, h.header hs]
  simp only [Node.at?, hp, h.inside]

end SameBut

theorem sameBut_put {a : Addr} (bs : List UInt8) (h : m.Holds a bs.length) :
    SameBut (fun x => a.toNat ≤ x ∧ x < a.toNat + bs.length) m (m.put a bs) where
  start := rfl
  size := size_bytes_put m a bs
  byte x hx := by rw [byte_put h, if_neg hx]

theorem sameBut_putHeader {a : Addr} (k : Header) (h : m.Holds a 8) :
    SameBut (fun x => a.toNat ≤ x ∧ x < a.toNat + 8) m (m.put a k.encode.toList) := by
  have hl : k.encode.toList.length = 8 := by simp
  have hp := sameBut_put k.encode.toList (by rwa [hl])
  rwa [hl] at hp

theorem sameBut_putSize {a : Addr} (size : UInt32) (h : m.Holds a 8) :
    SameBut (fun x => a.toNat ≤ x ∧ x < a.toNat + 4) m
      (m.put a (LittleEndian.bytes size).toList) := by
  have hl : (LittleEndian.bytes size).toList.length = 4 := by simp
  have hp := sameBut_put (LittleEndian.bytes size).toList
    (by rw [hl]; exact Header.holds_size h)
  rwa [hl] at hp

theorem sameBut_putNext {a : Addr} (next : Option Addr) (h : m.Holds a 8) :
    SameBut (fun x => a.toNat + 4 ≤ x ∧ x < a.toNat + 8) m
      (m.put (Header.linkAddr a) (LittleEndian.bytes (Header.linkWord next)).toList) := by
  have hl : (LittleEndian.bytes (Header.linkWord next)).toList.length = 4 := by simp
  have hp := sameBut_put (LittleEndian.bytes (Header.linkWord next)).toList
    (by rw [hl]; exact Header.holds_linkAddr h)
  rw [hl, Header.toNat_linkAddr h] at hp
  exact hp.mono fun x hx => by omega

end Memory
end HeapWindow
