import HeapWindow.Proofs.Interleavings
import HeapWindow.Proofs.Leases
import HeapWindow.Proofs.Partitions
import HeapWindow.Proofs.Payloads

/-!
# Threads that share a heap

To the heap all threads are one client, whose requests are theirs in turn. So the leases of an arena
lie end to end, and a first-fit heap follows a ledger, whoever is served first. What a thread may
write to overlaps no part of another, so a byte of it is changed by this thread or not at all.
-/

namespace HeapWindow

open Rounding

namespace Move

def request : Move → Request
  | allocate n => .allocate n
  | release p => .release p
  | write a bytes => .write a bytes

def arenaRequest : Move → Arena.Request
  | allocate n => .allocate n
  | release p => .release p
  | write a bytes => .write a bytes

theorem perform_request (m : Move) : m.perform = m.request.perform := by cases m <;> rfl

theorem perform_arenaRequest (m : Move) : m.perform = m.arenaRequest.perform := by cases m <;> rfl

end Move

namespace Sharing

section Ownership

variable {η : Type} {T : Terms η} {w : Window} {s : Sharing η} {k j : Holding}
  {i x : Nat} {a : Addr} {bytes : List UInt8}

/-- The parts that the threads own are inside the window and do not overlap, and whatever is done
next, a byte that a thread may write to changes only if it is the one who writes it. -/
structure Secure [Allocator η] (T : Terms η) (w : Window) (s : Sharing η) : Prop where
  inside : ∀ k ∈ s.holdings, w.start.toNat ≤ (T.lot s.heap k).start ∧
    (T.lot s.heap k).stop ≤ w.start.toNat + w.size.toNat
  apart : (s.holdings.map (T.lot s.heap)).Pairwise Extent.Apart
  own : ∀ turn, s.Allows T turn → ∀ k ∈ s.holdings, ∀ x, T.InPayload s.heap k x →
    (Backed.memory (s.step T turn).heap).byte x ≠ (Backed.memory s.heap).byte x →
      ∃ a bytes, turn = (k.thread, .write a bytes) ∧ a.toNat ≤ x ∧ x < a.toNat + bytes.length

theorem eq_of_inPayload (ha : (s.holdings.map (T.lot s.heap)).Pairwise Extent.Apart)
    (hk : k ∈ s.holdings) (hj : j ∈ s.holdings) (hkx : T.InPayload s.heap k x)
    (hjx : T.InPayload s.heap j x) : k = j := by
  by_contra hne
  have : Std.Symm fun k j => (T.lot s.heap k).Apart (T.lot s.heap j) :=
    ⟨fun _ _ => Extent.Apart.symm⟩
  have hkj := (List.pairwise_map.1 ha).forall hk hj hne
  simp only [Extent.Apart, Terms.lot, Terms.InPayload] at hkj hkx hjx
  omega

/-- It is enough that nothing but a write changes what may be written to. -/
theorem secure_of_frame [Allocator η]
    (hin : ∀ k ∈ s.holdings, w.start.toNat ≤ (T.lot s.heap k).start ∧
      (T.lot s.heap k).stop ≤ w.start.toNat + w.size.toNat)
    (ha : (s.holdings.map (T.lot s.heap)).Pairwise Extent.Apart)
    (hframe : ∀ turn, s.Allows T turn → ∀ k ∈ s.holdings, ∀ x, T.InPayload s.heap k x →
      (Backed.memory (s.step T turn).heap).byte x ≠ (Backed.memory s.heap).byte x →
        ∃ a bytes, turn.2 = .write a bytes ∧ a.toNat ≤ x ∧ x < a.toNat + bytes.length) :
    Secure T w s where
  inside := hin
  apart := ha
  own turn hr k hk x hx hchanged := by
    obtain ⟨i, m⟩ := turn
    obtain ⟨a, bytes, rfl, hlo, hhi⟩ := hframe _ hr k hk x hx hchanged
    obtain ⟨j, hj, rfl, hjlo, hjhi⟩ := hr
    obtain rfl := eq_of_inPayload ha hk hj hx ⟨by omega, by omega⟩
    exact ⟨a, bytes, rfl, hlo, hhi⟩

end Ownership

section Arenas

variable {w : Window} {s : Sharing Arena}

/-- The leases of an arena are what all threads were given. -/
def leasing (s : Sharing Arena) : Leasing :=
  ⟨s.heap, (s.holdings.map (Arena.terms.lot s.heap)).reverse⟩

theorem leasing_step (s : Sharing Arena) (turn : Nat × Move) :
    (s.step Arena.terms turn).leasing = s.leasing.step turn.2.arenaRequest := by
  obtain ⟨i, m⟩ := turn
  have hrun : (m.perform.run s.heap : Outcome Arena (Option Addr)) =
      m.arenaRequest.perform.run s.heap := by rw [m.perform_arenaRequest]
  unfold leasing step Leasing.step
  dsimp only
  rw [hrun]
  cases m with
  | allocate n =>
    rw [Move.arenaRequest, Arena.Request.perform, Action.run_map]
    generalize (Arena.allocate n).run s.heap = o
    obtain ⟨result, heap, es⟩ := o
    cases result with
    | error fault => rfl
    | ok p =>
      dsimp only [Except.map]
      rw [List.map_cons, List.reverse_cons]
      rfl
  | release p => rfl
  | write a bytes =>
    rw [Move.arenaRequest, Arena.Request.perform, Action.run_map]
    generalize (Arena.onMemory (Memory.store a bytes.toArray.toVector)).run s.heap = o
    obtain ⟨result, heap, es⟩ := o
    cases result <;> rfl

theorem byte_step_arena {turn : Nat × Move} {x : Nat}
    (hx : (s.step Arena.terms turn).heap.memory.byte x ≠ s.heap.memory.byte x) :
    ∃ a bytes, turn.2 = .write a bytes ∧ a.toNat ≤ x ∧ x < a.toNat + bytes.length := by
  obtain ⟨i, m⟩ := turn
  cases m with
  | allocate n =>
    refine absurd ?_ hx
    show ((Arena.allocate n).run s.heap).state.memory.byte x = _
    rw [Arena.run_allocate]
    cases roundUp? n with
    | none => rfl
    | some need =>
      dsimp only
      split <;> rfl
  | release p => exact absurd rfl hx
  | write a bytes =>
    refine ⟨a, bytes, rfl, ?_⟩
    by_contra hout
    refine hx ?_
    show ((Memory.store a bytes.toArray.toVector).run s.heap.memory).state.byte x = _
    rw [Memory.run_store_toVector]
    split
    · next hm => exact (Memory.sameBut_put bytes hm).byte x hout
    · rfl

theorem secure_of_fills (h : Leasing.Fills w s.leasing) : Secure Arena.terms w s ∧
    s.heap.cursor.toNat = w.start.toNat + (s.holdings.map (Arena.terms.room s.heap)).sum := by
  have he := h.endToEnd
  refine ⟨secure_of_frame (fun k hk => ?_) ?_ ?_, ?_⟩
  · exact he.inside _ (List.mem_reverse.2 (List.mem_map_of_mem hk))
  · exact (List.pairwise_reverse.1 he.apart).imp Extent.Apart.symm
  · exact fun turn _ k _ x _ hx => byte_step_arena hx
  · have hlen : s.leasing.leases.map Extent.length =
        (s.holdings.map (Arena.terms.room s.heap)).reverse := by
      rw [leasing, List.map_reverse, List.map_map]
      refine congrArg List.reverse (List.map_congr_left fun k _ => ?_)
      show k.addr.toNat + _ - (k.addr.toNat - 0) = _
      rw [Nat.sub_zero, Nat.add_sub_cancel_left]
    have hstop := h.row.stop_eq
    rwa [hlen, List.sum_reverse] at hstop

theorem fills_after (h : Leasing.Fills w s.leasing) (turns : List (Nat × Move)) :
    Leasing.Fills w (s.after Arena.terms turns).leasing := by
  induction turns generalizing s with
  | nil => exact h
  | cons turn turns ih =>
    refine ih ?_
    rw [leasing_step]
    exact h.step turn.2.arenaRequest

end Arenas

section Blocks

variable {w : Window} {s : Sharing FirstFit} {l : Ledger} {k : Holding} {turn : Nat × Move}
  {i : Nat} {p : Addr}

/-- All threads together are one client. -/
def tenancy (s : Sharing FirstFit) : Tenancy := ⟨s.heap, s.holdings.map Holding.addr, []⟩

theorem room_eq {size : UInt32} (h : s.heap.payloadSize k.addr = .ok size) :
    FirstFit.terms.room s.heap k = size.toNat := by
  simp only [FirstFit.terms, h]

theorem exists_slot (hf : s.tenancy.Follows l) (hk : k ∈ s.holdings) :
    ∃ u ∈ l.held, ∃ size, k.addr.toNat = u.addr + 8 ∧ s.heap.payloadSize k.addr = .ok size ∧
      size.toNat = u.size := by
  have hlive : k.addr ∈ s.tenancy.live := List.mem_map_of_mem hk
  obtain ⟨u, hu, hat⟩ := hf.mem_live_iff.1 hlive
  have hku := Slot.toNat_of_isAt hat
  obtain ⟨size, hsize, he⟩ := hf.layout.exists_payloadSize (List.mem_append_right _ hu) hku
  exact ⟨u, hu, size, hku, hsize, he⟩

theorem lot_eq (hf : s.tenancy.Follows l) (hk : k ∈ s.holdings) :
    FirstFit.terms.lot s.heap k =
      (Node.peek s.heap.memory (k.addr - Header.byteSize)).slot.extent := by
  obtain ⟨u, hu, size, hku, hsize, he⟩ := exists_slot hf hk
  have hslot : (Node.peek s.heap.memory (k.addr - Header.byteSize)).slot = u :=
    (hf.layout.present u hu).slot_peek hku
  rw [hslot, Terms.lot, room_eq hsize, he, hku]
  rfl

theorem map_lot (hf : s.tenancy.Follows l) :
    s.holdings.map (FirstFit.terms.lot s.heap) = l.held.map Slot.extent := by
  rw [← hf.map_slot_held, Tenancy.held, tenancy, List.map_map, List.map_map, List.map_map]
  exact List.map_congr_left fun k hk => lot_eq hf hk

theorem allows_request (hf : s.tenancy.Follows l) (hr : s.Allows FirstFit.terms turn) :
    s.tenancy.Allows turn.2.request := by
  obtain ⟨i, m⟩ := turn
  cases m with
  | allocate n => trivial
  | release p =>
    refine hr.imp_right fun ⟨k, hk, hi, hp⟩ => ?_
    exact hp ▸ List.mem_map_of_mem hk
  | write a bytes =>
    obtain ⟨k, hk, -, hlo, hhi⟩ := hr
    obtain ⟨-, -, size, -, hsize, -⟩ := exists_slot hf hk
    rw [room_eq hsize] at hhi
    exact ⟨k.addr, List.mem_map_of_mem hk, hlo, size, hsize, hhi⟩

theorem eraseP_congr {α : Type} {q q' : α → Bool} {as : List α} (h : ∀ a ∈ as, q a = q' a) :
    as.eraseP q = as.eraseP q' := by
  induction as with
  | nil => rfl
  | cons a as ih =>
    rw [List.eraseP_cons, List.eraseP_cons, h a (List.mem_cons_self ..),
      ih fun b hb => h b (List.mem_cons_of_mem _ hb)]

theorem map_addr_eraseP (hf : s.tenancy.Follows l)
    (hr : s.Allows FirstFit.terms (i, .release p)) :
    (s.holdings.eraseP fun k => k.thread = i ∧ k.addr = p).map Holding.addr =
      (s.holdings.map Holding.addr).erase p := by
  have hmine : ∀ k ∈ s.holdings, k.addr = p → k.thread = i := by
    intro k hk hkp
    rcases hr with rfl | ⟨j, hj, rfl, hjp⟩
    · obtain ⟨u, -, -, hku, -⟩ := exists_slot hf hk
      rw [hkp, UInt32.toNat_zero] at hku
      omega
    · have hn : (s.holdings.map Holding.addr).Nodup := hf.nodup_live
      rw [List.inj_on_of_nodup_map hn hk hj (hkp.trans hjp.symm)]
  rw [List.erase_eq_eraseP', List.eraseP_map]
  refine congrArg _ (eraseP_congr fun k hk => ?_)
  by_cases hkp : k.addr = p
  · simp [hkp, hmine k hk hkp]
  · simp [hkp]

/-- A turn of a thread is a request of the one client. -/
theorem tenancy_step (hf : s.tenancy.Follows l) (hr : s.Allows FirstFit.terms turn) :
    (s.step FirstFit.terms turn).tenancy =
      ⟨(s.tenancy.step turn.2.request).heap, (s.tenancy.step turn.2.request).live, []⟩ := by
  obtain ⟨i, m⟩ := turn
  have hrun : (m.perform.run s.heap : Outcome FirstFit (Option Addr)) =
      m.request.perform.run s.heap := by rw [m.perform_request]
  unfold tenancy step Tenancy.step
  dsimp only
  rw [hrun]
  cases m with
  | allocate n =>
    rw [Move.request, Request.perform, Action.run_map]
    generalize (FirstFit.allocate n).run s.heap = o
    obtain ⟨result, heap, es⟩ := o
    cases result <;> rfl
  | release p =>
    have herase := map_addr_eraseP hf hr
    rw [Move.request, Request.perform, Action.run_map]
    generalize (FirstFit.release p).run s.heap = o
    obtain ⟨result, heap, es⟩ := o
    cases result with
    | error fault => rfl
    | ok u => exact congrArg (fun live => Tenancy.mk heap live []) herase
  | write a bytes => rfl

theorem follows_step (hf : s.tenancy.Follows l) (hr : s.Allows FirstFit.terms turn) :
    (s.step FirstFit.terms turn).tenancy.Follows (l.step turn.2.request) := by
  have hf' := (hf.step (Or.inl (allows_request hf hr))).follows
  rw [tenancy_step hf hr]
  exact ⟨hf'.layout, hf'.live, fun _ hq => absurd hq List.not_mem_nil⟩

theorem byte_step_blocks {x : Nat} (hf : s.tenancy.Follows l)
    (hr : s.Allows FirstFit.terms turn) (hk : k ∈ s.holdings)
    (hx : FirstFit.terms.InPayload s.heap k x)
    (hchanged : (s.step FirstFit.terms turn).heap.memory.byte x ≠ s.heap.memory.byte x) :
    ∃ a bytes, turn.2 = .write a bytes ∧ a.toNat ≤ x ∧ x < a.toNat + bytes.length := by
  obtain ⟨u, hu, size, hku, hsize, he⟩ := exists_slot hf hk
  rw [Terms.InPayload, room_eq hsize, he, hku] at hx
  have hbyte := hf.byte_payload_step (Or.inl (allows_request hf hr)) hu hx.1 hx.2
  have hheap : (s.step FirstFit.terms turn).heap = (s.tenancy.step turn.2.request).heap :=
    congrArg Tenancy.heap (tenancy_step hf hr)
  rw [hheap, hbyte] at hchanged
  obtain ⟨i, m⟩ := turn
  cases m with
  | allocate n | release p => exact absurd rfl hchanged
  | write a bytes =>
    refine ⟨a, bytes, rfl, ?_⟩
    by_contra hout
    refine hchanged ?_
    rw [Move.request, Request.overwrite, if_neg hout, ite_self]
    rfl

theorem secure_of_follows (hf : s.tenancy.Follows l)
    (ht : l.Tiles w.start.toNat (w.start.toNat + w.size.toNat / 4 * 4)) :
    Secure FirstFit.terms w s ∧ s.heap.walk.broken = none ∧
      (∀ k ∈ s.holdings, ∃ size, s.heap.payloadSize k.addr = .ok size) ∧
      Extent.Tile w.start.toNat (s.heap.walk.nodes.map Node.extent ++
          s.holdings.map (FirstFit.terms.lot s.heap))
        (w.start.toNat + w.size.toNat / 4 * 4) := by
  have hlots := map_lot hf
  have hfree : s.heap.walk.nodes.map Node.extent = l.free.map Slot.extent := by
    rw [← hf.layout.pool_eq, FirstFit.pool, List.map_map]
    rfl
  refine ⟨secure_of_frame (fun k hk => ?_) ?_ ?_, hf.layout.broken_walk, fun k hk => ?_, ?_⟩
  · have hlot : FirstFit.terms.lot s.heap k ∈ l.held.map Slot.extent := by
      rw [← hlots]
      exact List.mem_map_of_mem hk
    obtain ⟨row, hp, hr⟩ := ht
    have hb := hr.bounds.2 (FirstFit.terms.lot s.heap k) (hp.mem_iff.2 ?_)
    · omega
    · rw [Ledger.blocks, List.map_append]
      exact List.mem_append_right _ hlot
  · rw [hlots]
    exact List.pairwise_map.2 (List.pairwise_append.1 hf.layout.apart).2.1
  · exact fun turn hr k hk x hx => byte_step_blocks hf hr hk hx
  · obtain ⟨-, -, size, -, hsize, -⟩ := exists_slot hf hk
    exact ⟨size, hsize⟩
  · rw [hfree, hlots, ← List.map_append]
    exact ht

theorem exists_follows {h : FirstFit} {turns : List (Nat × Move)} (hw : FirstFit.Opens w h)
    (hr : Run.Along (step FirstFit.terms) (Allows FirstFit.terms) (fresh h) turns) :
    ∃ l : Ledger, ((fresh h).after FirstFit.terms turns).tenancy.Follows l ∧
      l.Tiles w.start.toNat (w.start.toNat + w.size.toNat / 4 * 4) := by
  refine Run.Along.induction (P := fun s : Sharing FirstFit => ∃ l : Ledger, s.tenancy.Follows l ∧
    l.Tiles w.start.toNat (w.start.toNat + w.size.toNat / 4 * 4)) ?_ hr
    ⟨Ledger.ofWindow w, Tenancy.follows_fresh hw, Tenancy.tiles_ofWindow hw⟩
  intro s turn ⟨l, hf, ht⟩ hr
  exact ⟨l.step turn.2.request, follows_step hf hr, ht.step _⟩

end Blocks

/-- However the turns of threads are mixed, at any time what they own is theirs alone, and nothing
of the heap is lost: the lengths of all that an arena gave out add up to what is used, and the blocks
of the threads and the free ones tile the window, if all threads keep to what they own. Calls that
all ask for the same size are answered with the same addresses and faults in any order. -/
theorem interleavings_secure :
    (∀ (w : Window) (a : Arena) (threads : List (List Move)) (turns : List Nat),
      Arena.Opens w a →
      let s := (fresh a).after Arena.terms (Turns.schedule threads turns)
      ((Turns.serve (threads.map (List.map Move.perform)) turns).run a).state = s.heap ∧
        Secure Arena.terms w s ∧
        s.heap.cursor.toNat = w.start.toNat + (s.holdings.map (Arena.terms.room s.heap)).sum) ∧
    (∀ (w : Window) (h : FirstFit) (threads : List (List Move)) (turns : List Nat),
      FirstFit.Opens w h →
      Run.Along (step FirstFit.terms) (Allows FirstFit.terms) (fresh h)
        (Turns.schedule threads turns) →
      let s := (fresh h).after FirstFit.terms (Turns.schedule threads turns)
      ((Turns.serve (threads.map (List.map Move.perform)) turns).run h).state = s.heap ∧
        Secure FirstFit.terms w s ∧ s.heap.walk.broken = none ∧
        (∀ k ∈ s.holdings, ∃ size, s.heap.payloadSize k.addr = .ok size) ∧
        Extent.Tile w.start.toNat (s.heap.walk.nodes.map Node.extent ++
            s.holdings.map (FirstFit.terms.lot s.heap))
          (w.start.toNat + w.size.toNat / 4 * 4)) ∧
    ∀ (η : Type) [Allocator η] (heap : η) (n : UInt32) (counts turns turns' : List Nat),
      let threads := counts.map fun c => List.replicate c (Allocator.allocate n : Action η Addr)
      Turns.Suffice threads turns → Turns.Suffice threads turns' →
      ∃ answers answers', ((Turns.serve threads turns).run heap).result = .ok answers ∧
        ((Turns.serve threads turns').run heap).result = .ok answers' ∧
        Turns.addresses answers = Turns.addresses answers' ∧
        (Turns.faults answers).Perm (Turns.faults answers') := by
  refine ⟨?_, ?_, ?_⟩
  · intro w a threads turns hw s
    obtain ⟨hsecure, hsum⟩ := secure_of_fills
      (fills_after (s := fresh a) (Leasing.fills_fresh hw) (Turns.schedule threads turns))
    exact ⟨Turns.state_serve Arena.terms threads turns a, hsecure, hsum⟩
  · intro w h threads turns hw hr s
    obtain ⟨l, hf, ht⟩ := exists_follows hw hr
    exact ⟨Turns.state_serve FirstFit.terms threads turns h, secure_of_follows hf ht⟩
  · intro η _ heap n counts turns turns' threads hs hs'
    have hsame : ∀ order, ∀ turn ∈ Turns.schedule threads order,
        turn.2 = Allocator.allocate n := by
      intro order turn hturn
      obtain ⟨p, hp, hm⟩ := Turns.mem_schedule hturn
      obtain ⟨c, -, rfl⟩ := List.mem_map.1 hp
      exact List.eq_of_mem_replicate hm
    obtain ⟨answers, answers', ha, ha', he⟩ := Turns.answers_inTurn (hsame turns) (hsame turns')
      ((Turns.length_schedule hs).trans (Turns.length_schedule hs').symm) heap
    rw [← Turns.serve_eq_inTurn] at ha ha'
    exact ⟨answers, answers', ha, ha', Turns.addresses_eq he, .of_eq (Turns.faults_eq he)⟩

/-- Two threads on an arena, and two on a heap of blocks, one of which is given back by one thread
and handed out to the other. -/
theorem interleavings_secure_on_two_threads :
    (let threads : List (List Move) := [[.allocate 5, .write 0xFFFFFFF1 [7], .release 0xFFFFFFF0],
        [.allocate 3, .write 0xFFFFFFF8 [1]]]
      let s := (fresh .onFifteenBytes).after Arena.terms (Turns.schedule threads [0, 1, 0, 1, 0])
      s.holdings = [⟨1, 0xFFFFFFF8, 3⟩, ⟨0, 0xFFFFFFF0, 5⟩] ∧
        Secure Arena.terms ⟨0xFFFFFFF0, 15⟩ s) ∧
    (let threads : List (List Move) := [[.allocate 5, .write 0x1009 [7], .release 0x1008],
        [.allocate 0, .allocate 8, .write 0x100A [1]]]
      let s := (fresh .onTenWords).after FirstFit.terms
        (Turns.schedule threads [0, 1, 0, 0, 1, 1])
      s.holdings = [⟨1, 0x1008, 8⟩, ⟨1, 0x1018, 0⟩] ∧ Secure FirstFit.terms ⟨0x1000, 40⟩ s) ∧
    ∃ answers answers' : List (Nat × Except Fault Addr),
      Turns.faults answers = [.outOfMemory 8 0] ∧
        Turns.addresses answers = Turns.addresses answers' ∧
        (Turns.faults answers).Perm (Turns.faults answers') := by
  obtain ⟨harena, hblocks, hsame⟩ := interleavings_secure
  refine ⟨?_, ?_, ?_⟩
  · intro threads s
    exact ⟨by decide +kernel, (harena _ _ threads [0, 1, 0, 1, 0] Arena.opens_onFifteenBytes).2.1⟩
  · intro threads s
    refine ⟨by decide +kernel, ?_⟩
    exact (hblocks _ _ threads [0, 1, 0, 0, 1, 1] FirstFit.opens_onTenWords
      (by decide +kernel)).2.1
  · have hs : ∀ turns : List Nat, turns.count 0 = 2 → turns.count 1 = 1 →
        Turns.Suffice ([2, 1].map fun c =>
          List.replicate c (Allocator.allocate 5 : Action FirstFit Addr)) turns := by
      intro turns h₀ h₁ i p hp
      rcases i with _ | _ | i
      · obtain rfl := Option.some.inj hp
        exact Nat.le_of_eq (List.length_replicate.trans h₀.symm)
      · obtain rfl := Option.some.inj hp
        exact Nat.le_of_eq (List.length_replicate.trans h₁.symm)
      · cases hp
    obtain ⟨answers, answers', ha, -, he, hp⟩ := hsame FirstFit .onTenWords 5 [2, 1] [0, 1, 0]
      [1, 0, 0] (hs _ rfl rfl) (hs _ rfl rfl)
    refine ⟨answers, answers', ?_, he, hp⟩
    have hrun : ((Turns.serve ([2, 1].map fun c => List.replicate c
        (Allocator.allocate 5 : Action FirstFit Addr)) [0, 1, 0]).run .onTenWords).result =
        .ok [(0, .ok 0x1008), (1, .ok 0x1018), (0, .error (.outOfMemory 8 0))] := by
      decide +kernel
    rw [hrun] at ha
    obtain rfl := Except.ok.inj ha
    rfl

end Sharing
end HeapWindow
