import HeapWindow.Memory

/-!
# Sequences of writes

A write is refused or changes exactly the bytes it reaches. So after any sequence of writes a byte
is the one that the last write to reach it has for it.
-/

namespace HeapWindow

inductive Write
  | word (a : Addr) (w : UInt32)
  | fill (a : Addr) (len : UInt32) (b : UInt8)
  | bytes (a : Addr) (bs : List UInt8)
  deriving DecidableEq

namespace Write

def addr : Write → Addr
  | word a _ | fill a _ _ | bytes a _ => a

/-- The bytes that the write has for the addresses from its own on. -/
def data : Write → List UInt8
  | word _ w => (LittleEndian.bytes w).toList
  | fill _ len b => .replicate len.toNat b
  | bytes _ bs => bs

def perform : Write → Action Memory Unit
  | word a w => Memory.writeWord a w
  | fill a len b => Memory.fill a len b
  | bytes a bs => Memory.store a bs.toArray.toVector

/-- The write is carried out, and `x` is one of its addresses. -/
def Reaches (w : Write) (m : Memory) (x : Nat) : Prop :=
  m.Holds w.addr w.data.length ∧ w.addr.toNat ≤ x ∧ x < w.addr.toNat + w.data.length

instance (w : Write) (m : Memory) (x : Nat) : Decidable (w.Reaches m x) :=
  inferInstanceAs (Decidable (_ ∧ _))

def byteFor (w : Write) (x : Nat) : UInt8 := w.data.getD (x - w.addr.toNat) 0

/-- Memory after the write, whether it is carried out or refused. -/
def after (m : Memory) (w : Write) : Memory := (w.perform.run m).state

theorem run_perform (m : Memory) (w : Write) :
    w.perform.run m =
      if m.Holds w.addr w.data.length then ⟨.ok (), m.put w.addr w.data, []⟩
      else ⟨.error (.outOfBounds w.addr (.ofNat w.data.length)), m, []⟩ := by
  cases w with
  | word a v => simp [perform, Memory.writeWord, Memory.store, addr, data]
  | fill a len b => simp [perform, Memory.fill, addr, data]
  | bytes a bs => exact Memory.run_store_toVector m a bs

theorem after_eq (m : Memory) (w : Write) :
    w.after m = if m.Holds w.addr w.data.length then m.put w.addr w.data else m := by
  rw [after, run_perform, apply_ite Outcome.state]

theorem byte_after (m : Memory) (w : Write) (x : Nat) :
    (w.after m).byte x = if w.Reaches m x then w.byteFor x else m.byte x := by
  rw [after_eq]
  by_cases h : m.Holds w.addr w.data.length
  · rw [if_pos h, Memory.byte_put h]
    simp [Reaches, h, byteFor]
  · rw [if_neg h, if_neg fun hr => h hr.1]

def last? (m : Memory) (ws : List Write) (x : Nat) : Option Write :=
  ws.reverse.find? fun w => decide (w.Reaches m x)

end Write
end HeapWindow
