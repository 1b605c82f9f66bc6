import HeapWindow.Proofs.Frame
import HeapWindow.Writes

/-!
# The last writer of a byte

An access to memory is answered if the range that it names is inside, in numbers that do not wrap, and
otherwise refused by its name. Writes move no bounds, so whether one is carried out does not depend
on those before it. After any sequence of writes every byte of a new memory is the one that the last
of them to reach it has for it, or zero if none does.
-/

namespace HeapWindow

namespace Memory

variable {α : Type} {m : Memory} {a : Addr} {len : UInt32} {result : Except Fault α}

def Guards (m : Memory) (a : Addr) (len : UInt32) (result : Except Fault α) : Prop :=
  (m.Holds a len.toNat → ∃ v, result = .ok v) ∧
    (¬ m.Holds a len.toNat → result = .error (.outOfBounds a len))

theorem guards_of_eq {v : α}
    (h : result = if m.Holds a len.toNat then .ok v else .error (.outOfBounds a len)) :
    m.Guards a len result :=
  ⟨fun hm => ⟨v, by rw [h, if_pos hm]⟩, fun hm => by rw [h, if_neg hm]⟩

theorem guards_load (m : Memory) (a : Addr) (len : UInt32) :
    m.Guards a len (m.load a len.toNat) :=
  guards_of_eq (by rw [load, UInt32.ofNat_toNat])

theorem guards_store (m : Memory) (a : Addr) (len : UInt32) (v : Vector UInt8 len.toNat) :
    m.Guards a len ((store a v).run m).result :=
  guards_of_eq (v := ()) (by rw [store, UInt32.ofNat_toNat, apply_ite Outcome.result])

theorem guards_fill (m : Memory) (a : Addr) (len : UInt32) (b : UInt8) :
    m.Guards a len ((fill a len b).run m).result :=
  guards_of_eq (v := ()) (by rw [fill, apply_ite Outcome.result])

theorem guards_readWord (m : Memory) (a : Addr) : m.Guards a 4 (m.readWord a) :=
  guards_of_eq (by rw [readWord, load, apply_ite (Except.map LittleEndian.word)]; rfl)

theorem guards_writeWord (m : Memory) (a : Addr) (v : UInt32) :
    m.Guards a 4 ((writeWord a v).run m).result :=
  guards_store m a 4 (LittleEndian.bytes v)

theorem exists_ofWindow {w : Window} (hw : w.flaw? = none) : ∃ m, ofWindow w = .ok m := by
  unfold ofWindow
  split
  · next h => cases hw.symm.trans h
  · exact ⟨_, rfl⟩

theorem byte_ofWindow {w : Window} (hm : ofWindow w = .ok m) (x : Nat) : m.byte x = 0 := by
  unfold ofWindow at hm
  split at hm
  · cases hm
  · cases hm
    simp [byte, Array.getD]

theorem getElem_of_load_eq_ok {n i : Nat} {v : Vector UInt8 n} (hv : m.load a n = .ok v)
    (hi : i < n) : v[i] = m.byte (a.toNat + i) := by
  unfold load at hv
  split at hv
  · cases hv
    exact getElem_peek hi
  · cases hv

theorem toNat_of_readWord_eq_ok {v : UInt32} (hv : m.readWord a = .ok v) :
    v.toNat = LittleEndian.value
      [m.byte a.toNat, m.byte (a.toNat + 1), m.byte (a.toNat + 2), m.byte (a.toNat + 3)] := by
  unfold readWord at hv
  cases hb : m.load a 4 with
  | error f =>
    rw [hb] at hv
    cases hv
  | ok b =>
    rw [hb] at hv
    cases hv
    rw [LittleEndian.toNat_word_eq_value, LittleEndian.vector_four b,
      getElem_of_load_eq_ok hb (by decide), getElem_of_load_eq_ok hb (by decide),
      getElem_of_load_eq_ok hb (by decide), getElem_of_load_eq_ok hb (by decide)]
    rfl

/-- Memory is the range of the window, and each access to it is answered from the bytes that it names
or is refused. -/
structure BoundsChecked (w : Window) (m : Memory) : Prop where
  holds_iff : ∀ a len : UInt32, m.Holds a len.toNat ↔
    w.start.toNat ≤ a.toNat ∧ a.toNat + len.toNat ≤ w.start.toNat + w.size.toNat
  load : ∀ a len : UInt32, m.Guards a len (m.load a len.toNat)
  store : ∀ (a len : UInt32) (v : Vector UInt8 len.toNat), m.Guards a len ((store a v).run m).result
  fill : ∀ a len b, m.Guards a len ((fill a len b).run m).result
  readWord : ∀ a, m.Guards a 4 (m.readWord a)
  writeWord : ∀ a v, m.Guards a 4 ((writeWord a v).run m).result
  loaded : ∀ (a : Addr) (n : Nat) (v : Vector UInt8 n), m.load a n = .ok v →
    ∀ (i : Nat) (hi : i < n), v[i] = m.byte (a.toNat + i)
  word : ∀ a v, m.readWord a = .ok v → v.toNat = LittleEndian.value
    [m.byte a.toNat, m.byte (a.toNat + 1), m.byte (a.toNat + 2), m.byte (a.toNat + 3)]

theorem boundsChecked {w : Window} (hs : m.start = w.start) (hn : m.bytes.size = w.size.toNat) :
    BoundsChecked w m where
  holds_iff a len := by rw [holds_iff_spans, Spans, hs, hn]
  load := m.guards_load
  store := m.guards_store
  fill := m.guards_fill
  readWord := m.guards_readWord
  writeWord := m.guards_writeWord
  loaded _ _ _ hv _ hi := getElem_of_load_eq_ok hv hi
  word _ _ hv := toNat_of_readWord_eq_ok hv

end Memory

namespace Write

variable {m : Memory} {u : Write} {x : Nat}

theorem result_perform_eq_ok_iff (m : Memory) (u : Write) :
    (u.perform.run m).result = .ok () ↔ m.Holds u.addr u.data.length := by
  rw [run_perform]
  split <;> simp_all

theorem sameBut_after (m : Memory) (u : Write) : Memory.SameBut (u.Reaches m) m (u.after m) := by
  rw [after_eq]
  split
  · next h => exact (Memory.sameBut_put u.data h).mono fun _ hx => ⟨h, hx⟩
  · exact .refl _ m

theorem reaches_after (v : Write) : u.Reaches (v.after m) x ↔ u.Reaches m x := by
  rw [Reaches, Reaches, (sameBut_after m v).holds_iff]

theorem last?_after (m : Memory) (v : Write) (ws : List Write) (x : Nat) :
    last? (v.after m) ws x = last? m ws x := by
  simp only [last?, reaches_after]

theorem last?_cons (m : Memory) (v : Write) (ws : List Write) (x : Nat) :
    last? m (v :: ws) x = (last? m ws x).or (if v.Reaches m x then some v else none) := by
  rw [last?, List.reverse_cons, List.find?_append, List.find?_singleton]
  simp only [last?, decide_eq_true_eq]

theorem sameBut_foldl_after (m : Memory) (ws : List Write) :
    Memory.SameBut (fun _ => True) m (ws.foldl after m) := by
  induction ws generalizing m with
  | nil => exact .refl _ m
  | cons v ws ih => exact ((sameBut_after m v).mono fun _ _ => trivial).trans (ih (v.after m))

theorem reaches_foldl_after (ws : List Write) :
    u.Reaches (ws.foldl after m) x ↔ u.Reaches m x := by
  rw [Reaches, Reaches, (sameBut_foldl_after m ws).holds_iff]

/-- The writes done from the first to the last agree with a search from the last to the first. -/
theorem byte_foldl_after (m : Memory) (ws : List Write) (x : Nat) :
    (ws.foldl after m).byte x =
      match last? m ws x with
      | some u => u.byteFor x
      | none => m.byte x := by
  induction ws generalizing m with
  | nil => rfl
  | cons v ws ih =>
    rw [List.foldl_cons, ih, last?_after, last?_cons]
    cases last? m ws x with
    | some u => rfl
    | none =>
      rw [byte_after, Option.none_or]
      by_cases h : v.Reaches m x
      · rw [if_pos h, if_pos h]
      · rw [if_neg h, if_neg h]

/-- The memory of a window without a flaw answers every access inside the window and refuses every
other one, at any address and whatever was written before. After any sequence of writes each byte is
the one that the last write to reach it has for it, which is the last to cover it of those that were
carried out, and zero where there is none. -/
theorem last_write_counts {w : Window} (hw : w.flaw? = none) :
    ∃ m, Memory.ofWindow w = .ok m ∧ ∀ ws : List Write,
      Memory.BoundsChecked w (ws.foldl after m) ∧
      (∀ u x, Reaches u m x ↔ (u.perform.run (ws.foldl after m)).result = .ok () ∧
        u.addr.toNat ≤ x ∧ x < u.addr.toNat + u.data.length) ∧
      (∀ x, (ws.foldl after m).byte x =
        match last? m ws x with
        | some u => u.byteFor x
        | none => 0) ∧
      ∀ a v, LittleEndian.value (Write.word a v).data = v.toNat := by
  obtain ⟨m, hm⟩ := Memory.exists_ofWindow hw
  obtain ⟨hs, hn⟩ := Memory.bounds_of_ofWindow hm
  refine ⟨m, hm, fun ws => ?_⟩
  have hb := sameBut_foldl_after m ws
  refine ⟨Memory.boundsChecked (hb.start.trans hs) (hb.size.trans hn), fun u x => ?_, fun x => ?_,
    fun a v => ?_⟩
  · rw [result_perform_eq_ok_iff, ← reaches_foldl_after ws, Reaches]
  · rw [byte_foldl_after, Memory.byte_ofWindow hm]
  · rw [data, ← LittleEndian.toNat_word_eq_value, LittleEndian.word_bytes]

/-- A word over an earlier one counts from its address on. Bytes past the end are refused as a whole,
and so is a read there, but not a fill of no bytes. -/
theorem last_write_counts_on_eight_bytes :
    let m : Memory := ⟨0x1000, .replicate 8 0, by decide, by decide, by decide⟩
    let ws : List Write := [.word 0x1000 0x44332211, .word 0x1003 0xDDCCBBAA,
      .bytes 0x1006 [1, 2, 3], .fill 0x1001 1 0xFF, .fill 0x1008 0 7]
    Memory.ofWindow ⟨0x1000, 8⟩ = .ok m ∧
      (List.range' 0x0FFF 10).map (ws.foldl after m).byte =
        [0, 0x11, 0xFF, 0x33, 0xAA, 0xBB, 0xCC, 0xDD, 0, 0] ∧
      (ws.foldl after m).readWord 0x1005 = .error (.outOfBounds 0x1005 4) ∧
      ((Write.fill 0x1008 0 7).perform.run (ws.foldl after m)).result = .ok () := by
  intro m ws
  have hm : Memory.ofWindow ⟨0x1000, 8⟩ = .ok m := rfl
  obtain ⟨m', hm', hlast⟩ := last_write_counts (w := ⟨0x1000, 8⟩) (by decide)
  obtain rfl : m = m' := by simpa [hm] using hm'
  obtain ⟨hchecked, -, hbytes, -⟩ := hlast ws
  refine ⟨hm, ?_, (hchecked.readWord 0x1005).2 ?_, ?_⟩
  · rw [List.map_congr_left fun x _ => hbytes x]
    decide
  · rw [hchecked.holds_iff]
    decide
  · rw [result_perform_eq_ok_iff, addr, data, List.length_replicate, hchecked.holds_iff]
    decide

end Write
end HeapWindow
