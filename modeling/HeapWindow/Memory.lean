import HeapWindow.Action
import HeapWindow.LittleEndian

/-!
# Memory

The bytes of one window under their own addresses. Reads and writes name the first address and
the number of bytes, and are refused as a whole unless every byte lies in the window. What memory
holds is described by `byte`, over addresses that do not wrap: a write changes the bytes it names
to the ones it is given, and no other.
-/

namespace HeapWindow

open Rounding

/-- The bytes from `start` on. The first address past them is a 32-bit address too. -/
structure Memory where
  start : Addr
  bytes : Array UInt8
  start_ne_zero : start ≠ 0
  aligned_start : Aligned start
  stop_lt : start.toNat + bytes.size < UInt32.size
  deriving DecidableEq

namespace Memory

def ofWindow (w : Window) : Except Fault Memory :=
  match h : w.flaw? with
  | some flaw => .error (.badWindow w flaw)
  | none => .ok {
      start := w.start
      bytes := .replicate w.size.toNat 0
      start_ne_zero := (Window.flaw?_eq_none_iff.1 h).1
      aligned_start := (Window.flaw?_eq_none_iff.1 h).2.1
      stop_lt := by simpa using (Window.flaw?_eq_none_iff.1 h).2.2 }

theorem bounds_of_ofWindow {w : Window} {m : Memory} (hm : ofWindow w = .ok m) :
    m.start = w.start ∧ m.bytes.size = w.size.toNat := by
  unfold ofWindow at hm
  split at hm
  · cases hm
  · cases hm
    exact ⟨rfl, Array.size_replicate⟩

def size (m : Memory) : UInt32 := .ofNat m.bytes.size

@[simp] theorem toNat_size (m : Memory) : m.size.toNat = m.bytes.size := by
  have := m.stop_lt
  simp only [size, UInt32.size, UInt32.toNat_ofNat'] at *
  omega

def stop (m : Memory) : Addr := m.start + m.size

@[simp] theorem toNat_stop (m : Memory) : m.stop.toNat = m.start.toNat + m.bytes.size := by
  rw [stop, UInt32.toNat_add, toNat_size, Nat.mod_eq_of_lt m.stop_lt]

/-- The byte at an address of any width, zero outside. -/
def byte (m : Memory) (x : Nat) : UInt8 :=
  if m.start.toNat ≤ x then m.bytes.getD (x - m.start.toNat) 0 else 0

theorem byte_start_add (m : Memory) {i : Nat} (h : i < m.bytes.size) :
    m.byte (m.start.toNat + i) = m.bytes[i] := by
  simp [byte, h]

theorem ext_byte {m₁ m₂ : Memory} (hs : m₁.start = m₂.start)
    (hn : m₁.bytes.size = m₂.bytes.size) (hb : ∀ x, m₁.byte x = m₂.byte x) : m₁ = m₂ := by
  have he : m₁.bytes = m₂.bytes := by
    apply Array.ext hn
    intro i h₁ h₂
    rw [← byte_start_add m₁ h₁, ← byte_start_add m₂ h₂, hb, hs]
  cases m₁
  cases m₂
  cases hs
  cases he
  rfl

/-- Memory has all the `n` bytes from `a` on. -/
def Holds (m : Memory) (a : Addr) (n : Nat) : Prop :=
  m.start ≤ a ∧ (a - m.start).toNat + n ≤ m.bytes.size

instance (m : Memory) (a : Addr) (n : Nat) : Decidable (m.Holds a n) :=
  inferInstanceAs (Decidable (_ ∧ _))

theorem holds_iff {m : Memory} {a : Addr} {n : Nat} :
    m.Holds a n ↔ m.start.toNat ≤ a.toNat ∧ a.toNat + n ≤ m.stop.toNat := by
  rw [Holds, UInt32.le_iff_toNat_le, toNat_stop, and_congr_right_iff]
  intro h
  rw [UInt32.toNat_sub_of_le _ _ (UInt32.le_iff_toNat_le.2 h)]
  omega

/-- All addresses from `lo` up to `hi`, which are numbers that do not wrap, are in memory. -/
def Spans (m : Memory) (lo hi : Nat) : Prop :=
  m.start.toNat ≤ lo ∧ hi ≤ m.start.toNat + m.bytes.size

instance (m : Memory) (lo hi : Nat) : Decidable (m.Spans lo hi) :=
  inferInstanceAs (Decidable (_ ∧ _))

theorem holds_iff_spans {m : Memory} {a : Addr} {n : Nat} :
    m.Holds a n ↔ m.Spans a.toNat (a.toNat + n) := by
  rw [holds_iff, toNat_stop, Spans]

/-- Puts bytes in the place of those from position `i` on. -/
def overlay (old : Array UInt8) (i : Nat) : List UInt8 → Array UInt8
  | [] => old
  | b :: bs => overlay (old.setIfInBounds i b) (i + 1) bs

@[simp] theorem size_overlay (old : Array UInt8) (i : Nat) (bs : List UInt8) :
    (overlay old i bs).size = old.size := by
  induction bs generalizing old i with
  | nil => rfl
  | cons b bs ih => simp [overlay, ih]

theorem getD_overlay (old : Array UInt8) (i : Nat) (bs : List UInt8) (j : Nat)
    (h : i + bs.length ≤ old.size) :
    (overlay old i bs).getD j 0 =
      if i ≤ j ∧ j < i + bs.length then bs.getD (j - i) 0 else old.getD j 0 := by
  induction bs generalizing old i with
  | nil => rw [overlay, if_neg (by simp)]
  | cons b bs ih =>
    simp only [List.length_cons] at h
    rw [overlay, ih _ _ (by simp; omega)]
    by_cases hj : j = i
    · subst hj
      simp [show ¬ j + 1 ≤ j by omega, show j < old.size by omega]
    · by_cases hlt : i + 1 ≤ j
      · obtain ⟨k, rfl⟩ : ∃ k, j = i + 1 + k := ⟨j - (i + 1), by omega⟩
        have e : i + 1 + k - i = k + 1 := by omega
        have e' : i + 1 + bs.length = i + (bs.length + 1) := by omega
        simp [e, e', show i ≤ i + 1 + k by omega, show i ≠ i + 1 + k by omega]
      · simp [hlt, show ¬ i ≤ j by omega, show i ≠ j by omega]

def put (m : Memory) (a : Addr) (bs : List UInt8) : Memory :=
  { m with
    bytes := overlay m.bytes (a.toNat - m.start.toNat) bs
    stop_lt := by simpa using m.stop_lt }

@[simp] theorem start_put (m : Memory) (a : Addr) (bs : List UInt8) :
    (m.put a bs).start = m.start := rfl

@[simp] theorem size_bytes_put (m : Memory) (a : Addr) (bs : List UInt8) :
    (m.put a bs).bytes.size = m.bytes.size := by
  simp [put]

@[simp] theorem holds_put {m : Memory} {a c : Addr} {bs : List UInt8} {n : Nat} :
    (m.put a bs).Holds c n ↔ m.Holds c n := by
  simp [Holds]

theorem byte_put {m : Memory} {a : Addr} {bs : List UInt8} (h : m.Holds a bs.length) (x : Nat) :
    (m.put a bs).byte x =
      if a.toNat ≤ x ∧ x < a.toNat + bs.length then bs.getD (x - a.toNat) 0 else m.byte x := by
  have hb := holds_iff.1 h
  rw [toNat_stop] at hb
  unfold byte
  rw [start_put]
  by_cases hx : m.start.toNat ≤ x
  · rw [if_pos hx, if_pos hx, put, getD_overlay _ _ _ _ (by omega)]
    have e : x - m.start.toNat - (a.toNat - m.start.toNat) = x - a.toNat := by omega
    have e' : (a.toNat - m.start.toNat ≤ x - m.start.toNat ∧
        x - m.start.toNat < a.toNat - m.start.toNat + bs.length) ↔
        (a.toNat ≤ x ∧ x < a.toNat + bs.length) := by omega
    simp only [e, e']
  · rw [if_neg hx, if_neg hx, if_neg (by omega)]

/-- The `n` bytes from `a` on, zeros standing for those that are outside. -/
def peek (m : Memory) (a : Addr) (n : Nat) : Vector UInt8 n :=
  .ofFn fun i => m.byte (a.toNat + i)

@[simp] theorem getElem_peek {m : Memory} {a : Addr} {n i : Nat} (h : i < n) :
    (m.peek a n)[i] = m.byte (a.toNat + i) := by
  simp [peek]

theorem peek_put_of_disjoint {m : Memory} {a c : Addr} {bs : List UInt8} {n : Nat}
    (h : m.Holds a bs.length)
    (hd : c.toNat + n ≤ a.toNat ∨ a.toNat + bs.length ≤ c.toNat) :
    (m.put a bs).peek c n = m.peek c n := by
  apply Vector.ext
  intro i hi
  rw [getElem_peek hi, getElem_peek hi, byte_put h, if_neg (by omega)]

theorem peek_put_same {m : Memory} {a : Addr} {n : Nat} {v : Vector UInt8 n} (h : m.Holds a n) :
    (m.put a v.toList).peek a n = v := by
  apply Vector.ext
  intro i hi
  rw [getElem_peek hi, byte_put (by simpa using h), if_pos (by simp; omega)]
  simp [hi]

def load (m : Memory) (a : Addr) (n : Nat) : Except Fault (Vector UInt8 n) :=
  if m.Holds a n then .ok (m.peek a n) else .error (.outOfBounds a (.ofNat n))

def store {n : Nat} (a : Addr) (v : Vector UInt8 n) : Action Memory Unit := ⟨fun m =>
  if m.Holds a n then ⟨.ok (), m.put a v.toList, []⟩
  else ⟨.error (.outOfBounds a (.ofNat n)), m, []⟩⟩

theorem run_store {m : Memory} {a : Addr} {n : Nat} {v : Vector UInt8 n} (h : m.Holds a n) :
    (store a v).run m = ⟨.ok (), m.put a v.toList, []⟩ := if_pos h

theorem run_store_of_not_holds {m : Memory} {a : Addr} {n : Nat} {v : Vector UInt8 n}
    (h : ¬ m.Holds a n) :
    (store a v).run m = ⟨.error (.outOfBounds a (.ofNat n)), m, []⟩ := if_neg h

theorem run_store_toVector (m : Memory) (a : Addr) (bytes : List UInt8) :
    (store a bytes.toArray.toVector).run m =
      if m.Holds a bytes.length then ⟨.ok (), m.put a bytes, []⟩
      else ⟨.error (.outOfBounds a (.ofNat bytes.length)), m, []⟩ := by
  by_cases hm : m.Holds a bytes.length
  · rw [if_pos hm]
    exact run_store hm
  · rw [if_neg hm]
    exact run_store_of_not_holds hm

def fill (a : Addr) (len : UInt32) (b : UInt8) : Action Memory Unit := ⟨fun m =>
  if m.Holds a len.toNat then ⟨.ok (), m.put a (.replicate len.toNat b), []⟩
  else ⟨.error (.outOfBounds a len), m, []⟩⟩

theorem run_fill {m : Memory} {a : Addr} {len : UInt32} {b : UInt8} (h : m.Holds a len.toNat) :
    (fill a len b).run m = ⟨.ok (), m.put a (.replicate len.toNat b), []⟩ := if_pos h

theorem run_fill_of_not_holds {m : Memory} {a : Addr} {len : UInt32} {b : UInt8}
    (h : ¬ m.Holds a len.toNat) :
    (fill a len b).run m = ⟨.error (.outOfBounds a len), m, []⟩ := if_neg h

/-- The word at `a`, which need not be aligned. -/
def readWord (m : Memory) (a : Addr) : Except Fault UInt32 :=
  (m.load a 4).map LittleEndian.word

def writeWord (a : Addr) (w : UInt32) : Action Memory Unit := store a (LittleEndian.bytes w)

/-- Memory cut into words from its start; those that are not zero, under their addresses. -/
def nonzeroWords (m : Memory) : List (Addr × UInt32) :=
  (List.range ((m.bytes.size + 3) / 4)).filterMap fun i =>
    let a := m.start + .ofNat (4 * i)
    let w := LittleEndian.word (m.peek a 4)
    if w = 0 then none else some (a, w)

def describe (m : Memory) : String :=
  "HeapRegion \x7b start: " ++ Hex.address m.start ++ ", end: " ++ Hex.address m.stop ++ " \x7d"

end Memory
end HeapWindow
