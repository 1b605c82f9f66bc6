import HeapWindow.Proofs.Accounting
import HeapWindow.Proofs.Containment
import HeapWindow.Proofs.Partitions
import Mathlib.Data.List.Perm.Basic

/-!
# Blocks are divided and never joined

An allocation may cut a free block in two, and nothing else changes where blocks begin. So each block
of a heap is made up of blocks that the heap has at any later time, which lie end to end, and no
block grows. What was once too large a request for every block is too large for ever.
-/

namespace HeapWindow

open Rounding

namespace Extent

variable {lo hi a b c : Nat} {e : Extent} {es fs row : List Extent}

/-- Some of the extents lie end to end and make up this one. -/
def MadeOf (es : List Extent) (e : Extent) : Prop := ∃ row ⊆ es, Row e.start row e.stop

theorem madeOf_self (he : e ∈ es) (hle : e.start ≤ e.stop) : MadeOf es e :=
  ⟨[e], by simpa using he, rfl, hle, rfl⟩

theorem madeOf_pair (hab : ⟨a, b⟩ ∈ es) (hbc : ⟨b, c⟩ ∈ es) (hle : a ≤ b) (hle' : b ≤ c) :
    MadeOf es ⟨a, c⟩ :=
  ⟨[⟨a, b⟩, ⟨b, c⟩], by simp [hab, hbc], rfl, hle, rfl, hle', rfl⟩

theorem Row.refine (h : Row lo row hi) (hf : ∀ f ∈ row, MadeOf fs f) :
    ∃ row' ⊆ fs, Row lo row' hi := by
  induction row generalizing lo with
  | nil => exact ⟨[], List.nil_subset _, h⟩
  | cons f row ih =>
    obtain ⟨rfl, -, hr⟩ := h
    obtain ⟨front, hfront, hrow⟩ := hf f (List.mem_cons_self ..)
    obtain ⟨back, hback, hrow'⟩ := ih hr fun g hg => hf g (List.mem_cons_of_mem _ hg)
    exact ⟨front ++ back, List.append_subset.2 ⟨hfront, hback⟩, row_append.2 ⟨_, hrow, hrow'⟩⟩

theorem MadeOf.trans (h : MadeOf es e) (hf : ∀ f ∈ es, MadeOf fs f) : MadeOf fs e := by
  obtain ⟨row, hsub, hr⟩ := h
  exact hr.refine fun f h => hf f (hsub h)

theorem MadeOf.exists_start (h : MadeOf es e) (hlt : e.start < e.stop) :
    ∃ f ∈ es, f.start = e.start := by
  obtain ⟨row, hsub, hr⟩ := h
  cases row with
  | nil => exact absurd hr (Nat.ne_of_lt hlt)
  | cons f row => exact ⟨f, hsub (List.mem_cons_self ..), hr.1⟩

end Extent

namespace Pool

variable {s : Slot} {need : Nat}

def parts (s : Slot) (need : Nat) : List Slot := (cut s need).1 :: (cut s need).2.toList

theorem parts_of_le (h : need + 16 ≤ s.size) :
    parts s need = [⟨s.addr, need⟩, ⟨s.addr + 8 + need, s.size - need - 8⟩] := by
  rw [parts, cut, if_pos h]
  rfl

theorem parts_of_lt (h : ¬ need + 16 ≤ s.size) : parts s need = [s] := by
  rw [parts, cut, if_neg h]
  rfl

theorem madeOf_parts (s : Slot) (need : Nat) :
    Extent.MadeOf ((parts s need).map Slot.extent) s.extent := by
  by_cases h : need + 16 ≤ s.size
  · rw [parts_of_le h]
    have hstop : s.addr + 8 + need + 8 + (s.size - need - 8) = s.stop := by
      rw [Slot.stop]
      omega
    refine Extent.madeOf_pair (b := s.addr + 8 + need) ?_ ?_ (by omega) (by rw [Slot.stop]; omega)
    · simp [Slot.extent, Slot.stop]
    · simp [Slot.extent, Slot.stop, hstop]
  · rw [parts_of_lt h]
    exact Extent.madeOf_self (by simp) (by have := s.header_lt_stop; simp [Slot.extent]; omega)

theorem size_le_of_mem_parts {p : Slot} (hp : p ∈ parts s need) : p.size ≤ s.size := by
  by_cases h : need + 16 ≤ s.size
  · rw [parts_of_le h] at hp
    simp only [List.mem_cons, List.not_mem_nil, or_false] at hp
    rcases hp with rfl | rfl
    · dsimp only
      omega
    · dsimp only
      omega
  · rw [parts_of_lt h] at hp
    obtain rfl := List.mem_singleton.1 hp
    exact Nat.le_refl _

end Pool

namespace Ledger

variable {l : Ledger} {s : Slot} {k : Nat}

theorem exists_parts_of_step (r : Request) (hs : s ∈ l.blocks) :
    s ∈ (l.step r).blocks ∨ ∃ need, Pool.parts s need ⊆ (l.step r).blocks := by
  rcases l.perm_step r with hp | ⟨u, need, rest, -, hp, hp'⟩
  · exact Or.inl (hp.mem_iff.2 hs)
  · rcases List.mem_cons.1 (hp.mem_iff.1 hs) with rfl | hs
    · refine Or.inr ⟨need, fun p hp => hp'.mem_iff.2 ?_⟩
      exact List.mem_append_left rest hp
    · exact Or.inl (hp'.mem_iff.2 (by simp [hs]))

theorem exists_whole_of_step (r : Request) (hs : s ∈ (l.step r).blocks) :
    ∃ u ∈ l.blocks, s.size ≤ u.size := by
  rcases l.perm_step r with hp | ⟨u, need, rest, -, hp, hp'⟩
  · exact ⟨s, hp.mem_iff.1 hs, Nat.le_refl _⟩
  · have hparts : s ∈ Pool.parts u need ++ rest := hp'.mem_iff.1 hs
    rcases List.mem_append.1 hparts with hs | hs
    · exact ⟨u, hp.mem_iff.2 (List.mem_cons_self ..), Pool.size_le_of_mem_parts hs⟩
    · exact ⟨s, hp.mem_iff.2 (List.mem_cons_of_mem _ hs), Nat.le_refl _⟩

theorem madeOf_step (r : Request) (hs : s ∈ l.blocks) :
    Extent.MadeOf ((l.step r).blocks.map Slot.extent) s.extent := by
  rcases exists_parts_of_step r hs with hs | ⟨need, hsub⟩
  · refine Extent.madeOf_self (List.mem_map_of_mem hs) ?_
    exact Nat.le_trans (Nat.le_add_right ..) s.header_lt_stop
  · obtain ⟨row, hrow, hr⟩ := Pool.madeOf_parts s need
    exact ⟨row, fun e he => List.map_subset _ hsub (hrow he), hr⟩

theorem madeOf_after (rs : List Request) (hs : s ∈ l.blocks) :
    Extent.MadeOf ((l.after rs).blocks.map Slot.extent) s.extent := by
  induction rs generalizing l s with
  | nil =>
    refine Extent.madeOf_self (List.mem_map_of_mem hs) ?_
    exact Nat.le_trans (Nat.le_add_right ..) s.header_lt_stop
  | cons r rs ih =>
    refine (madeOf_step r hs).trans fun e he => ?_
    obtain ⟨u, hu, rfl⟩ := List.mem_map.1 he
    exact ih hu

theorem size_lt_after (rs : List Request) (hk : ∀ s ∈ l.blocks, s.size < k) :
    ∀ s ∈ (l.after rs).blocks, s.size < k := by
  induction rs generalizing l with
  | nil => exact hk
  | cons r rs ih =>
    refine ih fun s hs => ?_
    obtain ⟨u, hu, hle⟩ := exists_whole_of_step r hs
    exact Nat.lt_of_le_of_lt hle (hk u hu)

end Ledger

/-- The request is met by a free block of which so much is left over that it is cut in two. -/
def Request.Cuts (r : Request) (h : FirstFit) : Prop :=
  ∃ n need, r = .allocate n ∧ roundUp? n = some need ∧ ∃ k ∈ h.walk.nodes,
    (r.perform.run h).result = .ok (some (Header.payload k.addr)) ∧
      need.toNat + 16 ≤ k.size.toNat

/-- Which block was chosen can be told from the answer. -/
theorem Request.cuts_iff {h : FirstFit} {n need : UInt32} {k : Node} (hn : roundUp? n = some need)
    (hk : k ∈ h.walk.nodes)
    (hr : ((allocate n).perform.run h).result = .ok (some (Header.payload k.addr))) :
    (allocate n).Cuts h ↔ need.toNat + 16 ≤ k.size.toNat := by
  constructor
  · rintro ⟨n', need', hne, hn', k', hk', hr', hle⟩
    cases hne
    rw [hn] at hn'
    rw [hr] at hr'
    obtain rfl := Option.some.inj hn'
    have haddr : k'.addr = k.addr := by
      have hp := Option.some.inj (Except.ok.inj hr')
      exact ((UInt32.add_left_inj _).1 hp).symm
    have hat := Walk.at?_of_mem_nodes hk'
    rw [haddr, Walk.at?_of_mem_nodes hk] at hat
    rwa [Option.some.inj hat]
  · exact fun hle => ⟨n, need, rfl, hn, k, hk, hr, hle⟩

theorem Request.not_cuts_of_error {h : FirstFit} {r : Request} {fault : Fault}
    (hr : (r.perform.run h).result = .error fault) : ¬ r.Cuts h := by
  rintro ⟨n, need, -, -, k, -, hr', -⟩
  rw [hr] at hr'
  cases hr'

namespace Tenancy

variable {w : Window} {h : FirstFit} {t t' : Tenancy} {l l' : Ledger} {r : Request}

def headers (t : Tenancy) : List Addr := t.blocks.map fun n => n.addr

/-- The request adds one header if it cuts a block, and leaves the headers where they are if not. -/
structure AddsHeader (t : Tenancy) (r : Request) : Prop where
  cut : r.Cuts t.heap → ∃ a ∉ t.headers, (t.step r).headers.Perm (a :: t.headers)
  whole : ¬ r.Cuts t.heap → (t.step r).headers.Perm t.headers

namespace Follows

theorem map_toNat_headers (hf : Follows t l) :
    t.headers.map UInt32.toNat = l.blocks.map Slot.addr := by
  rw [headers, ← hf.map_slot_blocks, List.map_map, List.map_map]
  rfl

theorem perm_headers (hf : Follows t l) {as : List Addr}
    (hp : (l.blocks.map Slot.addr).Perm (as.map UInt32.toNat)) : t.headers.Perm as := by
  have hinj : Function.Injective UInt32.toNat := fun _ _ => UInt32.toNat_inj.1
  rw [← hf.map_toNat_headers] at hp
  exact (List.map_perm_map_iff hinj).1 hp

theorem exists_chosen {n need : UInt32} {taken : Slot} {free : List Slot} (hf : Follows t l)
    (hn : roundUp? n = some need) (ha : Pool.allocate need.toNat l.free = some (taken, free)) :
    ∃ k ∈ t.heap.walk.nodes, ∃ rest,
      ((Request.allocate n).perform.run t.heap).result = .ok (some (Header.payload k.addr)) ∧
      l.blocks.Perm (k.slot :: rest) ∧
      (l.step (.allocate n)).blocks.Perm (Pool.parts k.slot need.toNat ++ rest) := by
  obtain ⟨front, k, back, before, hfree, -, -, hspot, rfl, hfree'⟩ := hf.layout.exists_spot ha
  obtain ⟨fs, bs, hnodes, -⟩ := Spot.find?_eq_some_iff.1 hspot
  obtain ⟨e, hrun⟩ := FirstFit.run_take hspot
  refine ⟨k, by simp [hnodes], front ++ back ++ l.held, ?_, ?_, ?_⟩
  · rw [Request.perform, Action.run_map, FirstFit.run_allocate, hn]
    simp only [hspot, hrun]
    rfl
  · rw [Ledger.blocks, hfree]
    exact FirstFit.perm_take front back l.held k.slot
  · rw [Ledger.step, hn, Option.bind_some, ha, Ledger.blocks, hfree']
    -- The rest of the block, if there is one, is moved to the front, and then the block itself.
    have hrest : ∀ between : List Slot, (front ++ back ++ (between ++ l.held)).Perm
        (between ++ (front ++ back ++ l.held)) := fun between => by
      have hp : (front ++ back ++ between).Perm (between ++ (front ++ back)) :=
        List.perm_append_comm
      simpa only [List.append_assoc] using hp.append_right l.held
    have hblock := FirstFit.Layout.perm_exchange front (Pool.cut k.slot need.toNat).2.toList back
      l.held (Pool.cut k.slot need.toNat).1
    have htake := FirstFit.perm_take front back ((Pool.cut k.slot need.toNat).2.toList ++ l.held)
      (Pool.cut k.slot need.toNat).1
    have hall := hblock.symm.trans (htake.trans ((hrest _).cons _))
    rwa [← List.append_assoc front] at hall

theorem headers_perm_of_blocks (hf : Follows t l) (hf' : Follows t' l')
    (hp : l'.blocks.Perm l.blocks) : t'.headers.Perm t.headers := by
  refine hf'.perm_headers ?_
  rw [hf.map_toNat_headers]
  exact hp.map Slot.addr

theorem addsHeader_of_not_cuts (hf : Follows t l) (hr : t.Keeps r) (hn : ¬ r.Cuts t.heap)
    (hp : (l.step r).blocks.Perm l.blocks) : AddsHeader t r where
  cut hc := absurd hc hn
  whole _ := hf.headers_perm_of_blocks (hf.step hr).follows hp

theorem addsHeader_allocate {n need : UInt32} {taken : Slot} {free : List Slot}
    (hf : Follows t l) (hn : roundUp? n = some need)
    (ha : Pool.allocate need.toNat l.free = some (taken, free)) : AddsHeader t (.allocate n) := by
  obtain ⟨k, hk, rest, hr, hp, hp'⟩ := hf.exists_chosen hn ha
  have hf' := (hf.allocate n).follows
  have hold := hp.map Slot.addr
  have hnew := hp'.map Slot.addr
  rw [← hf.map_toNat_headers] at hold
  refine ⟨fun hc => ?_, fun hc => ?_⟩
  · have hle := (Request.cuts_iff hn hk hr).1 hc
    have hi := (Node.at?_eq_some_iff.1 (Walk.at?_of_mem_nodes hk)).2.1
    cases hrest : k.rest? need with
    | none =>
      have := Node.rest?_eq_none_iff.1 hrest
      omega
    | some q =>
      have haddr := (Node.rest?_eq_some hi hrest).1
      rw [Pool.parts_of_le hle] at hnew
      have hq : (t.step (.allocate n)).headers.Perm (q.addr :: t.headers) := by
        refine hf'.perm_headers ?_
        rw [List.map_cons, haddr]
        exact hnew.trans ((List.Perm.swap ..).trans (hold.symm.cons _))
      -- The header is a new one, since no two blocks begin in one place.
      exact ⟨q.addr, (List.nodup_cons.1 (hq.nodup_iff.1 hf'.nodup_addr)).1, hq⟩
  · have hlt : ¬ need.toNat + 16 ≤ k.slot.size := fun hle => hc ((Request.cuts_iff hn hk hr).2 hle)
    refine hf'.perm_headers (hnew.trans ?_)
    rw [Pool.parts_of_lt hlt]
    exact hold.symm

theorem addsHeader (hf : Follows t l) (hr : t.Keeps r) : AddsHeader t r := by
  cases r with
  | allocate n =>
    have ha := (hf.allocate n).answer
    rw [Ledger.answer] at ha
    cases hn : roundUp? n with
    | none =>
      rw [hn] at ha
      refine hf.addsHeader_of_not_cuts hr (Request.not_cuts_of_error ha) ?_
      rw [Ledger.step, hn]
      exact .refl _
    | some need =>
      cases hp : Pool.allocate need.toNat l.free with
      | none =>
        simp only [hn, hp] at ha
        refine hf.addsHeader_of_not_cuts hr (Request.not_cuts_of_error ha) ?_
        rw [Ledger.step, hn, Option.bind_some, hp]
      | some found => exact hf.addsHeader_allocate hn hp
  | release p | releaseOnce p | write a bytes =>
    refine hf.addsHeader_of_not_cuts hr ?_ (Ledger.perm_step_of_ne_allocate fun n hne => ?_)
    · rintro ⟨n, need, hne, -⟩
      cases hne
    · cases hne

theorem madeOf_after {rs : List Request} (hf : Follows t l) (hf' : Follows t' (l.after rs))
    {n : Node} (hn : n ∈ t.blocks) :
    Extent.MadeOf (t'.blocks.map Node.extent) n.extent := by
  have hs : n.slot ∈ l.blocks := by
    rw [← hf.map_slot_blocks]
    exact List.mem_map_of_mem hn
  have hm := Ledger.madeOf_after rs hs
  rwa [← hf'.map_slot_blocks, List.map_map] at hm

theorem refused_of_size_lt (hf : Follows t l) {n : UInt32}
    (hk : ∀ need, roundUp? n = some need → ∀ s ∈ l.blocks, s.size < need.toNat) :
    ∃ fault, fault.WantsRoom ∧ ((FirstFit.allocate n).run t.heap).result = .error fault := by
  cases hn : roundUp? n with
  | none =>
    rw [FirstFit.run_allocate_tooLarge hn]
    refine ⟨_, ?_, rfl⟩
    trivial
  | some need =>
    have ha : Pool.allocate need.toNat l.free = none :=
      Pool.allocate_eq_none_iff.2 fun s hs => hk need hn s (List.mem_append_left _ hs)
    rw [hf.layout.run_allocate_none hn ha]
    refine ⟨_, ?_, rfl⟩
    trivial

end Follows

/-- Between any two times of a run headers are added and never taken away, and each block is divided
into the blocks that are in its place later on. A step adds at most one header, and adds one if it
is an allocation that cuts a block. So a request that is too large for all blocks, free and held, is
refused ever after. -/
theorem blocks_only_divide (rs qs : List Request) (hw : FirstFit.Opens w h)
    (hrs : Run.Along step Keeps (fresh h) (rs ++ qs)) :
    let t := (fresh h).after rs
    let t' := (fresh h).after (rs ++ qs)
    t.headers ⊆ t'.headers ∧
      (∀ n ∈ t.blocks, Extent.MadeOf (t'.blocks.map Node.extent) n.extent) ∧
      (∀ r, t.Keeps r → AddsHeader t r) ∧
      ∀ n, (∀ need, roundUp? n = some need → ∀ k ∈ t.blocks, k.size < need) →
        ∃ fault, fault.WantsRoom ∧ ((FirstFit.allocate n).run t'.heap).result = .error fault := by
  obtain ⟨hrs, hqs⟩ := Run.along_append.1 hrs
  have hafter : (fresh h).after (rs ++ qs) = ((fresh h).after rs).after qs := List.foldl_append ..
  have hf := (follows_fresh hw).after hrs
  have hf' := hf.after hqs
  rw [hafter]
  generalize (fresh h).after rs = t at hf hf' ⊢
  generalize (Ledger.ofWindow w).after rs = l at hf hf'
  intro t t'
  have hmade : ∀ n ∈ t.blocks, Extent.MadeOf (t'.blocks.map Node.extent) n.extent :=
    fun n hn => hf.madeOf_after hf' hn
  refine ⟨fun a ha => ?_, hmade, fun r hr => hf.addsHeader hr, fun n hn => ?_⟩
  · obtain ⟨n, hn, rfl⟩ := List.mem_map.1 ha
    have hlt : n.extent.start < n.extent.stop := by
      have := n.slot.header_lt_stop
      exact Nat.lt_of_lt_of_le (by simp [Node.extent]) this
    obtain ⟨e, he, hstart⟩ := (hmade n hn).exists_start hlt
    obtain ⟨k, hk, rfl⟩ := List.mem_map.1 he
    exact List.mem_map.2 ⟨k, hk, UInt32.toNat_inj.1 hstart⟩
  · refine hf'.refused_of_size_lt fun need hneed => Ledger.size_lt_after qs fun s hs => ?_
    rw [← hf.map_slot_blocks] at hs
    obtain ⟨k, hk, rfl⟩ := List.mem_map.1 hs
    exact UInt32.lt_iff_toNat_lt.1 (hn need hneed k hk)

/-- The free block of sixteen bytes is cut for a request of none. Twenty bytes are refused also when
the other block is given back. -/
theorem blocks_only_divide_on_ten_words :
    let t := (fresh .onTenWords).after [.allocate 5]
    let t' := (fresh .onTenWords).after [.allocate 5, .allocate 0, .release 0x1008]
    Extent.MadeOf (t'.blocks.map Node.extent) ⟨0x1010, 0x1028⟩ ∧
      (∃ a ∉ t.headers, (t.step (.allocate 0)).headers.Perm (a :: t.headers)) ∧
      ∃ fault, fault.WantsRoom ∧ ((FirstFit.allocate 20).run t'.heap).result = .error fault := by
  obtain ⟨-, hmade, hadds, hrefused⟩ := blocks_only_divide [.allocate 5]
    [.allocate 0, .release 0x1008] FirstFit.opens_onTenWords
    (Run.Along.mono (fun _ _ => Or.inl) (by decide +kernel))
  refine ⟨?_, ?_, ?_⟩
  · exact hmade ⟨⟨16, none⟩, 0x1010⟩ (by decide +kernel)
  · refine (hadds (.allocate 0) (Or.inl trivial)).cut ⟨0, 0, rfl, by decide, ?_⟩
    exact ⟨⟨⟨16, none⟩, 0x1010⟩, by decide +kernel, by decide +kernel, by decide⟩
  · refine hrefused 20 fun need hneed => ?_
    obtain rfl : 20 = need := Option.some.inj hneed
    decide +kernel

end Tenancy
end HeapWindow
