import HeapWindow.Proofs.Payloads

/-!
# The accounts of a heap

Every whole word of the window is part of the header or of the payload of one block, free or held,
and there is one block more than blocks were cut. So the free bytes are what is left of the window
when the headers and the payloads that are held are taken away. An allocation takes header and
payload of one block away from what is free, and a release puts just as much back.
-/

namespace HeapWindow

open Rounding

def Event.isSplit : Event → Bool
  | blockSplit .. => true
  | _ => false

def Event.splits (es : List Event) : Nat := es.countP isSplit

/-- Header and payload bytes of blocks. -/
def Slot.bytes (slots : List Slot) : Nat := (slots.map fun s => s.size + 8).sum

namespace Slot

variable {s : Slot} {slots slots' : List Slot}

@[simp] theorem bytes_nil : bytes [] = 0 := rfl

@[simp] theorem bytes_cons : bytes (s :: slots) = s.size + 8 + bytes slots := by
  simp [bytes]

@[simp] theorem bytes_append : bytes (slots ++ slots') = bytes slots + bytes slots' := by
  simp [bytes]

theorem bytes_perm (h : slots.Perm slots') : bytes slots = bytes slots' := (h.map _).sum_nat

theorem bytes_eq (slots : List Slot) :
    bytes slots = (slots.map Slot.size).sum + 8 * slots.length := by
  induction slots with
  | nil => rfl
  | cons s slots ih =>
    rw [bytes_cons, ih, List.map_cons, List.sum_cons, List.length_cons]
    omega

theorem bytes_eq_length_extent (slots : List Slot) :
    bytes slots = ((slots.map extent).map Extent.length).sum := by
  have hlength : ∀ s : Slot, s.size + 8 = s.extent.length := by
    intro s
    simp only [extent, Extent.length, stop]
    omega
  rw [bytes, List.map_map]
  exact congrArg List.sum (List.map_congr_left fun s _ => hlength s)

end Slot

namespace Pool

variable {need : Nat} {pool pool' : List Slot} {taken : Slot}

theorem bytes_of_allocate (h : allocate need pool = some (taken, pool')) :
    Slot.bytes pool' + (taken.size + 8) = Slot.bytes pool ∧ need ≤ taken.size ∧
      taken.size < need + 16 := by
  obtain ⟨s, rest, hs, rfl, hp, hp'⟩ := perm_of_allocate h
  obtain ⟨hle, hlt, hcut⟩ := cut_size hs
  refine ⟨?_, hle, hlt⟩
  rw [Slot.bytes_perm hp, Slot.bytes_perm hp', Slot.bytes_append, Slot.bytes_cons]
  cases hr : (cut s need).2 with
  | none =>
    rw [hr] at hcut
    simp only [Option.elim_none] at hcut
    simp only [Option.toList_none, Slot.bytes_nil]
    omega
  | some r =>
    rw [hr] at hcut
    simp only [Option.elim_some] at hcut
    simp only [Option.toList_some, Slot.bytes_cons, Slot.bytes_nil]
    omega

end Pool

namespace Ledger

variable {l : Ledger} {lo hi : Nat} {r : Request} {p : Addr}

theorem Tiles.bytes_blocks (h : l.Tiles lo hi) : hi = lo + Slot.bytes l.blocks := by
  obtain ⟨row, hp, hr⟩ := h
  rw [hr.stop_eq, (hp.map _).sum_nat, ← Slot.bytes_eq_length_extent]

theorem length_blocks_of_givesBack (hr : r.GivesBack p) :
    (l.step r).blocks.length = l.blocks.length := by
  rcases hr with rfl | rfl
  all_goals
    rw [step]
    split
    · next s hs => exact (perm_giveBack hs).length_eq.symm
    · rfl

end Ledger

theorem Walk.toNat_total (w : Walk) :
    w.total.toNat = min (w.nodes.map fun n => n.size.toNat).sum (UInt32.size - 1) := by
  -- The bound is met at each addition, which comes to the same as meeting it once at the end.
  have hfold : ∀ (nodes : List Node) (a : UInt32),
      (nodes.foldl (fun sum n => addUpTo sum n.size) a).toNat =
        min (a.toNat + (nodes.map fun n => n.size.toNat).sum) (UInt32.size - 1) := by
    intro nodes
    induction nodes with
    | nil =>
      intro a
      have := a.toNat_lt
      simp only [UInt32.size, List.foldl_nil, List.map_nil, List.sum_nil]
      omega
    | cons n nodes ih =>
      intro a
      rw [List.foldl_cons, ih, toNat_addUpTo, List.map_cons, List.sum_cons]
      omega
  rw [total, hfold]
  simp

namespace FirstFit

variable {h : FirstFit} {free free' held : List Slot} {taken : Slot} {need size : UInt32}

theorem splits_release (h : FirstFit) (p : Addr) :
    Event.splits ((release p).run h).events = 0 := by
  rw [run_release]
  split
  · rfl
  · split <;> rfl

theorem splits_releaseOnce (h : FirstFit) (p : Addr) :
    Event.splits ((releaseOnce p).run h).events = 0 := by
  rw [run_releaseOnce]
  split
  · rfl
  · split
    · rfl
    · split
      · rfl
      · exact splits_release h p

/-- A block is cut exactly if there is a free block more than there would be without it. -/
theorem Layout.splits_allocate (hl : h.Layout free held) (hneed : roundUp? size = some need)
    (ha : Pool.allocate need.toNat free = some (taken, free')) :
    Event.splits ((allocate size).run h).events + free.length = free'.length + 1 := by
  obtain ⟨front, n, back, before, rfl, hn, -, hspot, rfl, rfl⟩ := hl.exists_spot ha
  have hi := (Node.at?_eq_some_iff.1 hn).2.1
  have hholds := (inside_of_find? hspot).2
  have hrun : (allocate size).run h = (take ⟨before, n⟩ need).run h := by
    rw [FirstFit.run_allocate, hneed]
    simp only [hspot]
  rw [hrun]
  cases hr : n.rest? need with
  | none =>
    have hs : Event.splits [.blockTaken n.addr n.size] = 0 := rfl
    rw [run_take_of_none hholds hr, Node.cut_slot_of_none hr, hs]
    simp only [List.length_append, List.length_cons, Option.toList_none, List.length_nil]
    omega
  | some r =>
    have hs : Event.splits [.blockSplit n.addr need r.addr r.size] = 1 := rfl
    rw [run_take_of_some hi hholds hr, Node.cut_slot_of_some hi hr, hs]
    simp only [List.length_append, List.length_cons, Option.toList_some, List.length_nil]
    omega

end FirstFit

namespace Tenancy

variable {w : Window} {h : FirstFit} {t : Tenancy} {l : Ledger} {r : Request} {rs : List Request}
  {n : UInt32} {p : Addr}

namespace Follows

theorem splits_step (hf : Follows t l) :
    Event.splits (r.perform.run t.heap).events + l.blocks.length = (l.step r).blocks.length := by
  cases r with
  | allocate n =>
    rw [Request.perform, Action.run_map, Ledger.step]
    cases hn : roundUp? n with
    | none =>
      rw [FirstFit.run_allocate_tooLarge hn]
      exact Nat.zero_add _
    | some need =>
      rw [Option.bind_some]
      cases ha : Pool.allocate need.toNat l.free with
      | none =>
        rw [hf.layout.run_allocate_none hn ha]
        exact Nat.zero_add _
      | some found =>
        have hs := hf.layout.splits_allocate hn ha
        simp only [Ledger.blocks, List.length_append, List.length_cons]
        omega
  | release q =>
    rw [Ledger.length_blocks_of_givesBack (Or.inl rfl), Request.perform, Action.run_map]
    simp only [FirstFit.splits_release, Nat.zero_add]
  | releaseOnce q =>
    rw [Ledger.length_blocks_of_givesBack (Or.inr rfl), Request.perform, Action.run_map]
    simp only [FirstFit.splits_releaseOnce, Nat.zero_add]
  | write a bytes =>
    rw [Request.run_write, Ledger.step]
    split <;> exact Nat.zero_add _

theorem splits_after {lo hi : Nat} (hf : Follows t l) (ht : l.Tiles lo hi)
    (hrs : Run.Along Tenancy.step Keeps t rs) :
    ∃ k, Follows (t.after rs) k ∧ k.Tiles lo hi ∧
      k.blocks.length = l.blocks.length + Event.splits (t.journal rs) := by
  induction rs generalizing t l with
  | nil => exact ⟨l, hf, ht, rfl⟩
  | cons r rs ih =>
    obtain ⟨k, hk, hkt, hlen⟩ := ih (hf.step hrs.1).follows (ht.step r) hrs.2
    refine ⟨k, hk, hkt, ?_⟩
    rw [hlen, ← hf.splits_step, journal, Event.splits, Event.splits, Event.splits,
      List.countP_append]
    omega

theorem payloadSize_of_mem_live (hf : Follows t l) (hp : p ∈ t.live) :
    t.heap.payloadSize p = .ok (Node.peek t.heap.memory (p - Header.byteSize)).size := by
  obtain ⟨s, hs, hat⟩ := hf.mem_live_iff.1 hp
  have hps := Slot.toNat_of_isAt hat
  obtain ⟨size, hsize, he⟩ := hf.layout.exists_payloadSize (List.mem_append_right _ hs) hps
  have hslot := (hf.layout.present s hs).slot_peek hps
  rw [hsize, ← UInt32.toNat_inj.1 (he.trans (congrArg Slot.size hslot).symm)]

theorem exists_sizes (hf : Follows t l) : ∃ sizes : List UInt32,
    t.live.map t.heap.payloadSize = sizes.map .ok ∧
      sizes.map UInt32.toNat = l.held.map Slot.size := by
  refine ⟨t.held.map fun n => n.size, ?_, ?_⟩
  · rw [held, List.map_map, List.map_map]
    exact List.map_congr_left fun p hp => hf.payloadSize_of_mem_live hp
  · rw [← hf.map_slot_held, List.map_map, List.map_map]
    rfl

theorem sum_walk (hf : Follows t l) :
    (t.heap.walk.nodes.map fun n => n.size.toNat).sum = (l.free.map Slot.size).sum := by
  rw [← hf.layout.pool_eq, FirstFit.pool, List.map_map]
  rfl

theorem toNat_totalFree (hf : Follows t l)
    (ht : l.Tiles w.start.toNat (w.start.toNat + w.size.toNat / 4 * 4)) :
    t.heap.totalFree.toNat = (l.free.map Slot.size).sum := by
  have hwhole := ht.bytes_blocks
  have hw := w.size.toNat_lt
  rw [Ledger.blocks, Slot.bytes_append, Slot.bytes_eq] at hwhole
  rw [FirstFit.totalFree, Walk.toNat_total, hf.sum_walk]
  simp only [UInt32.size]
  omega

theorem allocate_of_ok (hf : Follows t l)
    (hr : ((Request.allocate n).perform.run t.heap).result = .ok (some p)) :
    ∃ need taken free, roundUp? n = some need ∧
      Pool.allocate need.toNat l.free = some (taken, free) ∧ taken.isAt p ∧
      Follows (t.step (.allocate n)) ⟨free, taken :: l.held⟩ := by
  have hm := hf.allocate n
  have ha := hm.answer.symm.trans hr
  rw [Ledger.answer] at ha
  cases hn : roundUp? n with
  | none =>
    rw [hn] at ha
    cases ha
  | some need =>
    rw [hn] at ha
    dsimp only at ha
    cases hp : Pool.allocate need.toNat l.free with
    | none =>
      rw [hp] at ha
      cases ha
    | some found =>
      obtain ⟨taken, free⟩ := found
      have hs : l.step (.allocate n) = ⟨free, taken :: l.held⟩ := by
        rw [Ledger.step, hn, Option.bind_some, hp]
      have hf' := hm.follows
      rw [hs] at hf'
      refine ⟨need, taken, free, rfl, hp, Slot.isAt_iff.2 ?_, hf'⟩
      have hlive : (t.step (.allocate n)).live = p :: t.live := by
        simp only [Tenancy.step, hr, liveAfter]
      have he := hf'.live
      rw [hlive] at he
      exact (List.cons.inj he).1

end Follows

/-- The block at `p` has room for `n` bytes in whole words and at most twelve bytes more; it is no
longer among the free ones, and it keeps its size until it is given back. -/
structure Lends (t : Tenancy) (n : UInt32) (p : Addr) (need size : UInt32) : Prop where
  rounded : roundUp? n = some need
  enough : need.toNat ≤ size.toNat
  waste : size.toNat ≤ need.toNat + 12
  taken : Slot.bytes (t.step (.allocate n)).heap.pool + (size.toNat + 8) =
    Slot.bytes t.heap.pool
  kept : ∀ qs, Run.Along step Allows (t.step (.allocate n)) qs → (∀ r ∈ qs, ¬ r.GivesBack p) →
    p ∈ ((t.step (.allocate n)).after qs).live ∧
      ((t.step (.allocate n)).after qs).heap.payloadSize p = .ok size

structure TakesBack (t : Tenancy) (r : Request) (p : Addr) (size : UInt32) : Prop where
  answer : (r.perform.run t.heap).result = .ok none
  held : t.heap.payloadSize p = .ok size
  given : Slot.bytes (t.step r).heap.pool = Slot.bytes t.heap.pool + (size.toNat + 8)

namespace Follows

theorem lends (hf : Follows t l)
    (hr : ((Request.allocate n).perform.run t.heap).result = .ok (some p)) :
    ∃ need size, Lends t n p need size := by
  obtain ⟨need, taken, free, hn, ha, hat, hf'⟩ := hf.allocate_of_ok hr
  obtain ⟨hbytes, hle, hlt⟩ := Pool.bytes_of_allocate ha
  have hs : taken ∈ taken :: l.held := List.mem_cons_self ..
  have hps := Slot.toNat_of_isAt hat
  obtain ⟨size, -, hz⟩ := hf'.layout.exists_payloadSize (List.mem_append_right _ hs) hps
  have hwhole := (hf'.layout.present taken hs).whole.2
  have hneed := aligned_iff.1 (aligned_of_roundUp? hn)
  refine ⟨need, size, hn, by omega, by omega, ?_, fun qs hqs hno => ?_⟩
  · rw [hf'.layout.pool_eq, hf.layout.pool_eq, hz]
    exact hbytes
  · obtain ⟨k, hk, hsk, -⟩ := hf'.kept_after (hqs.mono fun _ _ => Or.inl) hs hat hno
    obtain ⟨z, hsize, hz'⟩ := hk.layout.exists_payloadSize (List.mem_append_right _ hsk) hps
    refine ⟨hk.mem_live_iff.2 ⟨taken, hsk, hat⟩, ?_⟩
    rw [hsize, UInt32.toNat_inj.1 (hz'.trans hz.symm)]

theorem takesBack (hf : Follows t l) (hp : p ∈ t.live) (hr : r.GivesBack p) :
    ∃ size, TakesBack t r p size := by
  obtain ⟨s, hs⟩ := hf.find?_of_mem_live hp
  have hmem := List.mem_of_find?_eq_some hs
  have hat := List.find?_some hs
  obtain ⟨size, hsize, hz⟩ :=
    hf.layout.exists_payloadSize (List.mem_append_right _ hmem) (Slot.toNat_of_isAt hat)
  have hm := hf.give_back hp hr
  have hl : l.step r = ⟨s :: l.free, l.held.eraseP (Slot.isAt p)⟩ := by
    rcases hr with rfl | rfl <;> rw [Ledger.step, hs]
  have hf' := hm.follows
  rw [hl] at hf'
  refine ⟨size, ?_, hsize, ?_⟩
  · rw [hm.answer]
    rcases hr with rfl | rfl
    · rfl
    · rw [Ledger.answer, hf.any_free_of_held hmem hat]
      rfl
  · rw [hf'.layout.pool_eq, hf.layout.pool_eq, Slot.bytes_cons]
    omega

end Follows

theorem live_eq_issued (hno : ∀ r ∈ rs, ∀ p, ¬ r.GivesBack p) (he : t.live = t.issued) :
    (t.after rs).live = (t.after rs).issued := by
  induction rs generalizing t with
  | nil => exact he
  | cons r rs ih =>
    refine ih (fun q hq => hno q (List.mem_cons_of_mem _ hq)) ?_
    have hr := hno r (List.mem_cons_self ..)
    cases r with
    | allocate n =>
      simp only [step, Request.perform, Action.run_map]
      cases ((FirstFit.allocate n).run t.heap).result with
      | error fault => exact he
      | ok p => exact congrArg (p :: ·) he
    | release p => exact absurd (Or.inl rfl) (hr p)
    | releaseOnce p => exact absurd (Or.inr rfl) (hr p)
    | write a bytes =>
      simp only [step, Request.run_write]
      split <;> exact he

/-- The accounts of a tenancy whose heap has cut a block `cuts` times. -/
structure Balanced (w : Window) (cuts : Nat) (t : Tenancy) : Prop where
  /-- Free bytes, headers and the payloads that are held are the whole words of the window. -/
  balance : ∃ sizes : List UInt32, t.live.map t.heap.payloadSize = sizes.map .ok ∧
    t.heap.totalFree.toNat + 8 * (1 + cuts) + (sizes.map UInt32.toNat).sum =
      w.size.toNat / 4 * 4
  total : t.heap.totalFree.toNat = (t.heap.walk.nodes.map fun n => n.size.toNat).sum
  blocks : t.blocks.length = 1 + cuts
  lends : ∀ n p, ((Request.allocate n).perform.run t.heap).result = .ok (some p) →
    ∃ need size, Lends t n p need size
  takesBack : ∀ p ∈ t.live, ∀ r : Request, r.GivesBack p → ∃ size, TakesBack t r p size

theorem Follows.balanced {cuts : Nat} (hf : Follows t l)
    (ht : l.Tiles w.start.toNat (w.start.toNat + w.size.toNat / 4 * 4))
    (hcuts : l.blocks.length = 1 + cuts) : Balanced w cuts t where
  balance := by
    obtain ⟨sizes, hsizes, he⟩ := hf.exists_sizes
    have hwhole := ht.bytes_blocks
    rw [Slot.bytes_eq, hcuts, Ledger.blocks, List.map_append, List.sum_append] at hwhole
    refine ⟨sizes, hsizes, ?_⟩
    rw [hf.toNat_totalFree ht, he]
    omega
  total := (hf.toNat_totalFree ht).trans hf.sum_walk.symm
  blocks := by
    rw [← hcuts, ← hf.map_slot_blocks, List.length_map]
  lends n p := hf.lends
  takesBack p hp r := hf.takesBack hp

/-- Whatever a client does that keeps to what it was given, the accounts balance, and without
giving anything back it is given no more blocks than there is room for headers. -/
theorem accounts_balance (rs : List Request) (hw : FirstFit.Opens w h)
    (hrs : Run.Along step Allows (fresh h) rs) :
    Balanced w (Event.splits ((fresh h).journal rs)) ((fresh h).after rs) ∧
      ((∀ r ∈ rs, ∀ p, ¬ r.GivesBack p) →
        ((fresh h).after rs).issued.length ≤ w.size.toNat / 4 * 4 / 8) := by
  obtain ⟨l, hf, ht, hcuts⟩ := (follows_fresh hw).splits_after (tiles_ofWindow hw)
    (hrs.mono fun _ _ => Or.inl)
  refine ⟨hf.balanced ht hcuts, fun hno => ?_⟩
  have hheld : ((fresh h).after rs).issued.length = l.held.length := by
    have hlen := congrArg List.length hf.live
    rwa [List.length_map, List.length_map, live_eq_issued hno rfl] at hlen
  have hwhole := ht.bytes_blocks
  rw [Slot.bytes_eq, Ledger.blocks, List.length_append] at hwhole
  rw [hheld, Nat.le_div_iff_mul_le (by decide)]
  omega

/-- The block is cut twice, once for no bytes at all. The empty block is given back and does not do
for the last request, which is given eight bytes for four. -/
theorem accounts_balance_on_ten_words :
    let rs : List Request :=
      [.allocate 5, .allocate 0, .write 0x1009 [1, 2], .release 0x1018, .allocate 3, .allocate 1]
    ((fresh .onTenWords).after rs).live = [0x1020, 0x1008] ∧
      Balanced ⟨0x1000, 40⟩ 2 ((fresh .onTenWords).after rs) ∧
      ((fresh .onTenWords).after [.allocate 5, .allocate 0]).issued.length ≤ 5 := by
  intro rs
  have hcuts : Event.splits ((fresh .onTenWords).journal rs) = 2 := by decide +kernel
  have hrs := accounts_balance rs FirstFit.opens_onTenWords (by decide +kernel)
  have hfew := accounts_balance [.allocate 5, .allocate 0] FirstFit.opens_onTenWords
    (by decide +kernel)
  rw [hcuts] at hrs
  exact ⟨by decide +kernel, hrs.1, hfew.2 (by simp [Request.GivesBack])⟩

end Tenancy
end HeapWindow
