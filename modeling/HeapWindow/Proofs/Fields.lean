import HeapWindow.Proofs.Frame
import Mathlib.Data.List.GetD

/-!
# The fields of a stored header

A header is written as a whole or one word at a time, through different addresses: the link has one
of its own, which is computed without a check. The two ways agree. The words are disjoint, so each of
them can be changed without the other and in any order, and together they are the header. The address
of a link that wraps is below every window, so nothing is ever written there.
-/

namespace HeapWindow

open Rounding

namespace Memory

variable {m : Memory} {a c : Addr} {bs cs : List UInt8}

theorem put_append (h : m.Holds a (bs ++ cs).length) (hc : c.toNat = a.toNat + bs.length) :
    (m.put a bs).put c cs = m.put a (bs ++ cs) := by
  have hb := holds_iff.1 h
  rw [List.length_append] at hb
  have ha : m.Holds a bs.length := holds_iff.2 (by omega)
  have hc' : (m.put a bs).Holds c cs.length := holds_put.2 (holds_iff.2 (by omega))
  refine ext_byte rfl (by simp) fun x => ?_
  rw [byte_put hc', byte_put ha, byte_put h, List.length_append, hc]
  by_cases hlo : a.toNat + bs.length ≤ x
  · rw [List.getD_append_right _ _ _ _ (by omega)]
    simp only [show a.toNat ≤ x by omega, show ¬ x < a.toNat + bs.length by omega, hlo, true_and,
      and_false, if_false, Nat.add_assoc, Nat.sub_sub]
  · rw [if_neg (by omega)]
    by_cases hx : a.toNat ≤ x
    · rw [if_pos (by omega), if_pos (by omega), List.getD_append _ _ _ _ (by omega)]
    · rw [if_neg (by omega), if_neg (by omega)]

theorem put_comm (ha : m.Holds a bs.length) (hc : m.Holds c cs.length)
    (hd : c.toNat + cs.length ≤ a.toNat ∨ a.toNat + bs.length ≤ c.toNat) :
    (m.put a bs).put c cs = (m.put c cs).put a bs := by
  refine ext_byte rfl (by simp) fun x => ?_
  rw [byte_put (holds_put.2 hc), byte_put ha, byte_put (holds_put.2 ha), byte_put hc]
  by_cases hx : c.toNat ≤ x ∧ x < c.toNat + cs.length
  · rw [if_pos hx, if_neg (by omega), if_pos hx]
  · rw [if_neg hx, if_neg hx]

end Memory

namespace Header

variable {m : Memory} {a : Addr} {h : Header} {size : UInt32} {next : Option Addr}

theorem read_of_holds (hm : m.Holds a 8) : read m a = .ok (peek m a) := by
  rw [read_eq, if_pos hm]

theorem put_size_next (hm : m.Holds a 8) :
    (m.put a (LittleEndian.bytes h.size).toList).put (linkAddr a)
        (LittleEndian.bytes (linkWord h.next)).toList = m.put a h.encode.toList := by
  rw [encode, Vector.toList_append]
  exact Memory.put_append (by simpa using hm) (by rw [toNat_linkAddr hm, Vector.length_toList])

theorem put_size_comm (hm : m.Holds a 8) :
    (m.put a (LittleEndian.bytes size).toList).put (linkAddr a)
        (LittleEndian.bytes (linkWord next)).toList =
      (m.put (linkAddr a) (LittleEndian.bytes (linkWord next)).toList).put a
        (LittleEndian.bytes size).toList := by
  refine Memory.put_comm ?_ ?_ (Or.inr ?_)
  · simpa using holds_size hm
  · simpa using holds_linkAddr hm
  · simp [toNat_linkAddr hm]

/-- A link in memory has an address that did not wrap. Past the top comes the word at zero, which is in
no window. -/
theorem toNat_linkAddr_of_holds (hl : m.Holds (linkAddr a) 4) :
    (linkAddr a).toNat = a.toNat + 4 := by
  have hlo := (Memory.holds_iff.1 hl).1
  have hzero : m.start.toNat ≠ 0 := fun h0 => m.start_ne_zero (UInt32.toNat_inj.1 h0)
  have haligned := aligned_iff.1 m.aligned_start
  have ha := a.toNat_lt
  rw [linkAddr, UInt32.toNat_add, toNat_wordSize] at hlo ⊢
  omega

theorem holds_linkAddr_iff : m.Holds (linkAddr a) 4 ↔ m.Spans (a.toNat + 4) (a.toNat + 8) := by
  constructor
  · intro hl
    have hs := Memory.holds_iff_spans.1 hl
    rwa [toNat_linkAddr_of_holds hl] at hs
  · intro hs
    have hlt : a.toNat + 8 < UInt32.size := Nat.lt_of_le_of_lt hs.2 m.stop_lt
    have ha : (linkAddr a).toNat = a.toNat + 4 := by
      rw [linkAddr, UInt32.toNat_add, toNat_wordSize]
      exact Nat.mod_eq_of_lt (Nat.lt_of_le_of_lt (by omega) hlt)
    rwa [Memory.holds_iff_spans, ha]

/-- The action changes the header at `a` by `f`, and no byte but those from `lo` up to `hi` bytes
behind `a`. -/
structure Changes (m : Memory) (a : Addr) (lo hi : Nat) (f : Header → Header)
    (x : Action Memory Unit) : Prop where
  result : (x.run m).result = .ok ()
  read : ∃ k, read m a = .ok k ∧ read (x.run m).state a = .ok (f k)
  frame : Memory.SameBut (fun y => a.toNat + lo ≤ y ∧ y < a.toNat + hi) m (x.run m).state

theorem changes_of_run {m' : Memory} {lo hi : Nat} {f : Header → Header} {x : Action Memory Unit}
    (hm : m.Holds a 8) (hx : x.run m = ⟨.ok (), m', []⟩) (hp : peek m' a = f (peek m a))
    (hf : Memory.SameBut (fun y => a.toNat + lo ≤ y ∧ y < a.toNat + hi) m m') :
    Changes m a lo hi f x where
  result := by rw [hx]
  read := ⟨peek m a, read_of_holds hm, by rw [hx, read_of_holds (hf.holds_iff.2 hm), hp]⟩
  frame := by rwa [hx]

/-- The header at `a` can be made `h` as a whole, or field by field in either order. -/
structure Rewrites (m : Memory) (a : Addr) (h : Header) : Prop where
  whole : Changes m a 0 8 (fun _ => h.normal) (write a h)
  size : Changes m a 0 4 (fun k => { k with size := h.size }) (writeSize a h.size)
  next : Changes m a 4 8 (fun k => { k with next := h.normal.next }) (writeNext a h.next)
  size_next : (do writeSize a h.size; writeNext a h.next).run m = (write a h).run m
  next_size : (do writeNext a h.next; writeSize a h.size).run m = (write a h).run m

theorem rewrites (hm : m.Holds a 8) (h : Header) : Rewrites m a h where
  whole := changes_of_run hm (run_write hm) (peek_put_encode hm) (Memory.sameBut_putHeader h hm)
  size := changes_of_run hm (run_writeSize hm) (peek_put_size hm) (Memory.sameBut_putSize _ hm)
  next := changes_of_run hm (run_writeNext hm) (peek_put_next hm) (Memory.sameBut_putNext _ hm)
  size_next := by
    rw [Action.run_bind_ok (run_writeSize hm), run_writeNext (Memory.holds_put.2 hm), run_write hm,
      put_size_next hm]
    rfl
  next_size := by
    rw [Action.run_bind_ok (run_writeNext hm), run_writeSize (Memory.holds_put.2 hm), run_write hm,
      ← put_size_comm hm, put_size_next hm]
    rfl

theorem run_writeNext_of_spans (hs : m.Spans (a.toNat + 4) (a.toNat + 8)) (next : Option Addr) :
    ((writeNext a next).run m).result = .ok () ∧
      Memory.SameBut (fun x => a.toNat + 4 ≤ x ∧ x < a.toNat + 8) m
        ((writeNext a next).run m).state := by
  have hl := holds_linkAddr_iff.2 hs
  have hrun : (writeNext a next).run m =
      ⟨.ok (), m.put (linkAddr a) (LittleEndian.bytes (linkWord next)).toList, []⟩ :=
    Memory.run_store hl
  rw [hrun]
  refine ⟨rfl, ?_⟩
  have hf := Memory.sameBut_put (LittleEndian.bytes (linkWord next)).toList (by simpa using hl)
  rwa [Vector.length_toList, toNat_linkAddr_of_holds hl] at hf

/-- The eight stored bytes and the header are codes of each other but for a link to zero. Where memory
has all eight bytes a header can be written and read, as a whole or by its fields, and elsewhere
neither. A link is set where memory has its four bytes, at addresses that do not wrap, and nowhere
else. -/
theorem fields_agree :
    (∀ b : Vector UInt8 8, (decode b).encode = b) ∧ (∀ h : Header, decode h.encode = h.normal) ∧
    ∀ (m : Memory) (a : Addr),
      (m.Spans a.toNat (a.toNat + 8) → ∀ h, Rewrites m a h) ∧
      (¬ m.Spans a.toNat (a.toNat + 8) → read m a = .error (.outOfBounds a 8) ∧
        ∀ h, (write a h).run m = ⟨.error (.outOfBounds a 8), m, []⟩) ∧
      (m.Spans (a.toNat + 4) (a.toNat + 8) → ∀ next, ((writeNext a next).run m).result = .ok () ∧
        Memory.SameBut (fun x => a.toNat + 4 ≤ x ∧ x < a.toNat + 8) m
          ((writeNext a next).run m).state) ∧
      (¬ m.Spans (a.toNat + 4) (a.toNat + 8) →
        ∀ next, (writeNext a next).run m = ⟨.error (.outOfBounds (linkAddr a) 4), m, []⟩) := by
  refine ⟨encode_decode, decode_encode, fun m a => ⟨fun hs h => ?_, fun hs => ?_, fun hs => ?_,
    fun hs next => ?_⟩⟩
  · exact rewrites (Memory.holds_iff_spans.2 hs) h
  · have hm : ¬ m.Holds a 8 := mt Memory.holds_iff_spans.1 hs
    exact ⟨by rw [read_eq, if_neg hm], fun h => Memory.run_store_of_not_holds hm⟩
  · exact run_writeNext_of_spans hs
  · exact Memory.run_store_of_not_holds (mt holds_linkAddr_iff.1 hs)

/-- In sixteen dirty bytes a link to zero is read as none. One byte further there is no header. The
link of a header just below memory can be set, but not the one whose address wraps to zero. -/
theorem fields_agree_on_sixteen_bytes :
    let m : Memory := ⟨0x1000, .replicate 16 0xAB, by decide, by decide, by decide⟩
    read ((write 0x1008 ⟨20, some 0⟩).run m).state 0x1008 = .ok ⟨20, none⟩ ∧
      read m 0x1009 = .error (.outOfBounds 0x1009 8) ∧
      ((writeNext 0x0FFC (some 0x1008)).run m).result = .ok () ∧
      (writeNext 0xFFFFFFFC (some 0x1008)).run m = ⟨.error (.outOfBounds 0 4), m, []⟩ := by
  intro m
  have hagree := fields_agree.2.2 m
  refine ⟨?_, ((hagree 0x1009).2.1 (by decide)).1, ((hagree 0x0FFC).2.2.1 (by decide) _).1,
    (hagree 0xFFFFFFFC).2.2.2 (by decide) _⟩
  obtain ⟨k, -, hk⟩ := ((hagree 0x1008).1 (by decide) ⟨20, some 0⟩).whole.read
  exact hk

end Header
end HeapWindow
