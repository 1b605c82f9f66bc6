/-!
# Words in memory

A word is stored as four bytes, the least significant first. The two codes below are inverse to
each other, so every four bytes are a word and every word is read back as it was written.
-/

namespace HeapWindow
namespace LittleEndian

/-- The number that a run of bytes denotes, the first byte counting least. -/
def value : List UInt8 → Nat
  | [] => 0
  | b :: bs => b.toNat + 0x100 * value bs

def bytes (w : UInt32) : Vector UInt8 4 :=
  #v[w.toUInt8, (w / 0x100).toUInt8, (w / 0x10000).toUInt8, (w / 0x1000000).toUInt8]

/-- The word that four bytes in memory order make up. -/
def word (b : Vector UInt8 4) : UInt32 :=
  let unit : UInt32 := 0x100
  b[0].toUInt32 + unit * (b[1].toUInt32 + unit * (b[2].toUInt32 + unit * b[3].toUInt32))

theorem toNat_word (b : Vector UInt8 4) :
    (word b).toNat =
      b[0].toNat + b[1].toNat * 0x100 + b[2].toNat * 0x10000 + b[3].toNat * 0x1000000 := by
  have h₀ := b[0].toNat_lt
  have h₁ := b[1].toNat_lt
  have h₂ := b[2].toNat_lt
  have h₃ := b[3].toNat_lt
  simp [word, UInt32.toNat_add, UInt32.toNat_mul]
  omega

theorem vector_four (b : Vector UInt8 4) : b = #v[b[0], b[1], b[2], b[3]] := by
  apply Vector.ext
  intro i hi
  match i, hi with
  | 0, _ | 1, _ | 2, _ | 3, _ => rfl

theorem toNat_word_eq_value (b : Vector UInt8 4) : (word b).toNat = value b.toList := by
  rw [toNat_word, vector_four b]
  simp [value]
  omega

@[simp] theorem word_bytes (w : UInt32) : word (bytes w) = w := by
  have := w.toNat_lt
  rw [← UInt32.toNat_inj, toNat_word]
  simp [bytes]
  omega

@[simp] theorem bytes_word (b : Vector UInt8 4) : bytes (word b) = b := by
  have h₀ := b[0].toNat_lt
  have h₁ := b[1].toNat_lt
  have h₂ := b[2].toNat_lt
  have h₃ := b[3].toNat_lt
  apply Vector.ext
  intro i hi
  rw [← UInt8.toNat_inj]
  match i, hi with
  | 0, _ | 1, _ | 2, _ | 3, _ => simp [bytes, toNat_word]; omega

end LittleEndian
end HeapWindow
