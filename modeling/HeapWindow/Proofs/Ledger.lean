import HeapWindow.Tenancy
import HeapWindow.Proofs.Slots

/-!
# Ledgers

What a well-behaved client can know of a heap: the free blocks in order, and the blocks it holds,
the latest first. A ledger is kept by list surgery alone. Its blocks tile the window for ever, and
where a block once began one begins for ever, since blocks are cut and never joined.
-/

namespace HeapWindow

open Rounding

structure Ledger where
  free : List Slot
  held : List Slot
  deriving DecidableEq

def Slot.isAt (p : Addr) (s : Slot) : Bool := s.addr + 8 == p.toNat

theorem Slot.isAt_iff {p : Addr} {s : Slot} : s.isAt p ↔ p.toNat = s.addr + 8 :=
  beq_iff_eq.trans eq_comm

theorem Slot.toNat_of_isAt {p : Addr} {s : Slot} (h : s.isAt p) : p.toNat = s.addr + 8 :=
  isAt_iff.1 h

theorem Slot.isAt_of_addr {p : Addr} {s u : Slot} (he : u.addr = s.addr) (h : s.isAt p) :
    u.isAt p := by
  rw [isAt_iff] at *
  rw [h, he]

namespace Ledger

variable {l : Ledger} {lo hi : Nat} {s : Slot} {p : Addr}

def blocks (l : Ledger) : List Slot := l.free ++ l.held

def ofWindow (w : Window) : Ledger := ⟨[⟨w.start.toNat, w.size.toNat / 4 * 4 - 8⟩], []⟩

def step (l : Ledger) : Request → Ledger
  | .allocate n =>
    match (roundUp? n).bind fun need => Pool.allocate need.toNat l.free with
    | some (taken, free) => ⟨free, taken :: l.held⟩
    | none => l
  | .release p | .releaseOnce p =>
    match l.held.find? (Slot.isAt p) with
    | some s => ⟨s :: l.free, l.held.eraseP (Slot.isAt p)⟩
    | none => l
  | .write .. => l

def after (l : Ledger) (rs : List Request) : Ledger := rs.foldl step l

/-- What the client is told, if it gives back nothing but blocks of the ledger. -/
def answer (l : Ledger) : Request → Except Fault (Option Addr)
  | .allocate n =>
    match roundUp? n with
    | none => .error .requestTooLarge
    | some need =>
      match Pool.allocate need.toNat l.free with
      | some (taken, _) => .ok (some (.ofNat (taken.addr + 8)))
      | none => .error (.outOfMemory need (.ofNat (Pool.largest l.free)))
  | .releaseOnce p => if l.free.any (Slot.isAt p) then .error (.alreadyFree p) else .ok none
  | .release _ | .write .. => .ok none

/-- Where a request may change a byte. -/
def Reaches (l : Ledger) : Request → Nat → Prop
  | .allocate _, x => Slot.Within l.free x
  | .release p, x | .releaseOnce p, x => p.toNat ≤ x + 4 ∧ x < p.toNat
  | .write a bytes, x => a.toNat ≤ x ∧ x < a.toNat + bytes.length

def Tiles (l : Ledger) (lo hi : Nat) : Prop := Extent.Tile lo (l.blocks.map Slot.extent) hi

end Ledger

namespace Pool

variable {need : Nat} {pool pool' : List Slot} {s taken : Slot}

@[simp] theorem addr_cut (s : Slot) (need : Nat) : (cut s need).1.addr = s.addr := by
  unfold cut
  split <;> rfl

theorem perm_of_allocate (h : allocate need pool = some (taken, pool')) :
    ∃ s rest, need ≤ s.size ∧ taken = (cut s need).1 ∧ pool.Perm (s :: rest) ∧
      pool'.Perm ((cut s need).2.toList ++ rest) := by
  obtain ⟨front, s, back, rfl, -, hs, htaken, rfl⟩ := allocate_eq_some_iff.1 h
  refine ⟨s, front ++ back, hs, htaken, List.perm_middle, ?_⟩
  rw [← List.append_assoc]
  exact List.perm_append_comm.append_right back

end Pool

theorem perm_of_find? {α : Type} {q : α → Bool} {a : α} {as : List α} (h : as.find? q = some a) :
    as.Perm (a :: as.eraseP q) := by
  induction as with
  | nil => simp at h
  | cons b as ih =>
    by_cases hb : q b
    · rw [List.find?_cons_of_pos hb, Option.some.injEq] at h
      rw [List.eraseP_cons_of_pos hb, h]
    · rw [List.find?_cons_of_neg hb] at h
      rw [List.eraseP_cons_of_neg hb]
      exact ((ih h).cons b).trans (.swap ..)

namespace Ledger

variable {l : Ledger} {lo hi : Nat} {s : Slot} {p : Addr}

theorem perm_giveBack (h : l.held.find? (Slot.isAt p) = some s) :
    l.blocks.Perm (blocks ⟨s :: l.free, l.held.eraseP (Slot.isAt p)⟩) :=
  ((perm_of_find? h).append_left l.free).trans List.perm_middle

theorem perm_step_of_ne_allocate {r : Request} (hr : ∀ n, r ≠ .allocate n) :
    (l.step r).blocks.Perm l.blocks := by
  cases r with
  | allocate n => exact absurd rfl (hr n)
  | release p | releaseOnce p =>
    rw [step]
    split
    · next s h => exact (perm_giveBack h).symm
    · exact .refl _
  | write a bytes => exact .refl _

/-- Every request leaves the blocks as they are, or puts in the place of one block what it is cut
into. -/
theorem perm_step (l : Ledger) (r : Request) :
    (l.step r).blocks.Perm l.blocks ∨
      ∃ s need rest, need ≤ s.size ∧ l.blocks.Perm (s :: rest) ∧
        (l.step r).blocks.Perm ((Pool.cut s need).1 :: ((Pool.cut s need).2.toList ++ rest)) := by
  cases r with
  | allocate n =>
    rw [step]
    split
    · next taken free h =>
      obtain ⟨need, -, ha⟩ := Option.bind_eq_some_iff.1 h
      obtain ⟨s, rest, hs, rfl, hp, hp'⟩ := Pool.perm_of_allocate ha
      refine Or.inr ⟨s, need.toNat, rest ++ l.held, hs, hp.append_right l.held, ?_⟩
      have hq := hp'.append_right l.held
      rw [List.append_assoc] at hq
      exact List.perm_middle.trans (hq.cons _)
    · exact Or.inl (.refl _)
  | release p | releaseOnce p | write a bytes => exact Or.inl (perm_step_of_ne_allocate nofun)

theorem Tiles.step (h : l.Tiles lo hi) (r : Request) : (l.step r).Tiles lo hi := by
  rcases l.perm_step r with hp | ⟨s, need, rest, hs, hp, hp'⟩
  · exact h.perm (hp.symm.map _)
  · have hs' := h.perm (hp.map _)
    refine Extent.Tile.perm ?_ (hp'.symm.map _)
    unfold Pool.cut
    split
    · next hle =>
      have hstop : s.addr + 8 + need + 8 + (s.size - need - 8) = s.stop := by
        rw [Slot.stop]
        omega
      have hcut := hs'.cut (b := s.addr + 8 + need) (by omega) (by rw [Slot.stop]; omega)
      simpa [Slot.extent, Slot.stop, hstop] using hcut
    · exact hs'

theorem exists_addr_step (r : Request) (hs : s ∈ l.blocks) :
    ∃ t ∈ (l.step r).blocks, t.addr = s.addr := by
  rcases l.perm_step r with hp | ⟨u, need, rest, -, hp, hp'⟩
  · exact ⟨s, hp.mem_iff.2 hs, rfl⟩
  · rcases List.mem_cons.1 (hp.mem_iff.1 hs) with rfl | hs
    · exact ⟨_, hp'.mem_iff.2 (List.mem_cons_self ..), Pool.addr_cut s need⟩
    · exact ⟨s, hp'.mem_iff.2 (by simp [hs]), rfl⟩

end Ledger
end HeapWindow
