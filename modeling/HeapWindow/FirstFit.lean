import HeapWindow.Allocator
import HeapWindow.Spot

/-!
# First-fit heaps

All whole words of the window belong to blocks, and the free ones are linked through their
headers. A request takes the first free block on the way that is large enough, and cuts off what
it does not need if that can be a block of its own. A released block becomes the first one; it is
never joined with its neighbours.

Each operation has one equation that says what it does to a heap, whatever the heap is like. The
equations show that nothing is written before it is certain that the operation succeeds.
-/

namespace HeapWindow

open Rounding

structure FirstFit where
  memory : Memory
  head : Option Addr
  deriving DecidableEq

namespace FirstFit

variable {σ α : Type}

/-- One free block takes up all whole words of the window. -/
def ofWindow (w : Window) : Action σ FirstFit := do
  let m ← Backed.ofWindow w
  let whole := roundDown m.size
  if whole < Header.byteSize then
    Action.fail (.badWindow w .noRoomForHeader)
  else
    let start := m.start
    let size := whole - Header.byteSize
    let m ← Action.within m (Header.write start ⟨size, none⟩)
    Action.record (.chainOpened start size)
    pure ⟨m, some start⟩

theorem run_ofWindow (w : Window) (s : σ) :
    (ofWindow w).run s =
      match Memory.ofWindow w with
      | .error fault => ⟨.error fault, s, []⟩
      | .ok m =>
        if roundDown m.size < Header.byteSize then
          ⟨.error (.badWindow w .noRoomForHeader), s, []⟩
        else
          let size := roundDown m.size - Header.byteSize
          ⟨.ok ⟨m.put m.start (Header.encode ⟨size, none⟩).toList, some m.start⟩, s,
            [.chainOpened m.start size]⟩ := by
  cases hm : Memory.ofWindow w with
  | error fault => simp [ofWindow, Backed.ofWindow, hm, Action.run_bind]
  | ok m =>
    simp only [ofWindow, Backed.ofWindow, Action.run_bind, Action.run_ask, hm, List.nil_append]
    split
    · rfl
    · next hlt =>
      have hs : m.Holds m.start 8 := by
        have := UInt32.le_iff_toNat_le.1 (UInt32.not_lt.1 hlt)
        rw [toNat_roundDown, Memory.toNat_size, Header.toNat_byteSize] at this
        rw [Memory.holds_iff, Memory.toNat_stop]
        omega
      simp [Action.run_bind, Action.run_within_ok (Header.run_write hs)]

def onMemory : Action Memory α → Action FirstFit α :=
  Action.on fun ⟨m, head⟩ => (m, fun m => ⟨m, head⟩)

@[simp] theorem run_onMemory (x : Action Memory α) (h : FirstFit) :
    (onMemory x).run h =
      ⟨(x.run h.memory).result, ⟨(x.run h.memory).state, h.head⟩, (x.run h.memory).events⟩ :=
  rfl

/-- The most blocks that memory has room for. -/
def capacity (h : FirstFit) : Nat := (h.memory.size / Header.byteSize).toNat

theorem capacity_eq (h : FirstFit) : h.capacity = h.memory.bytes.size / 8 := by
  rw [capacity, UInt32.toNat_div, Memory.toNat_size, Header.toNat_byteSize]

def walk (h : FirstFit) : Walk := .follow h.memory h.head h.capacity

/-- Makes the link that led to a block lead to its successor. -/
def link (before next : Option Addr) : Action FirstFit Unit :=
  match before with
  | none => Action.modify fun h => { h with head := next }
  | some a => onMemory (Header.writeNext a next)

def linked (h : FirstFit) (before next : Option Addr) : FirstFit :=
  match before with
  | none => { h with head := next }
  | some a =>
    { h with
      memory :=
        h.memory.put (Header.linkAddr a) (LittleEndian.bytes (Header.linkWord next)).toList }

theorem run_link {h : FirstFit} {before next : Option Addr}
    (hb : ∀ a, before = some a → h.memory.Holds a 8) :
    (link before next).run h = ⟨.ok (), h.linked before next, []⟩ := by
  cases before with
  | none => rfl
  | some a => simp [link, linked, Header.run_writeNext (hb a rfl)]

/-- Cuts off what is behind the first `need` bytes of a block, if that can be a block of its own,
and answers with the link that is to take the place of the one to the block. -/
def cut (n : Node) (need : UInt32) : Action FirstFit (Option Addr) :=
  match n.rest? need with
  | some rest => do
    onMemory (Header.write rest.addr rest.toHeader)
    onMemory (Header.writeSize n.addr need)
    Action.record (.blockSplit n.addr need rest.addr rest.size)
    pure (some rest.addr)
  | none => do
    Action.record (.blockTaken n.addr n.size)
    pure n.next

/-- The heap in which the block at `a` has only `need` bytes, and `rest` is a block behind it. -/
def cutAt (h : FirstFit) (a : Addr) (need : UInt32) (rest : Node) : FirstFit :=
  { h with
    memory := (h.memory.put rest.addr rest.encode.toList).put a (LittleEndian.bytes need).toList }

theorem run_cut_of_none {h : FirstFit} {n : Node} {need : UInt32} (hr : n.rest? need = none) :
    (cut n need).run h = ⟨.ok n.next, h, [.blockTaken n.addr n.size]⟩ := by
  simp [cut, hr, Action.run_bind]

theorem run_cut_of_some {h : FirstFit} {n rest : Node} {need : UInt32} (hn : n.Inside h.memory)
    (hr : n.rest? need = some rest) :
    (cut n need).run h =
      ⟨.ok (some rest.addr), h.cutAt n.addr need rest,
        [.blockSplit n.addr need rest.addr rest.size]⟩ := by
  have h₁ : h.memory.Holds rest.addr 8 := Node.holds_rest hn hr
  have h₂ : (h.memory.put rest.addr rest.encode.toList).Holds n.addr 8 :=
    Memory.holds_put.2 hn.2.1
  simp [cut, hr, cutAt, Action.run_bind, Header.run_write h₁, Header.run_writeSize h₂]

def take (spot : Spot) (need : UInt32) : Action FirstFit Addr := do
  let successor ← cut spot.node need
  link spot.before successor
  pure (Header.payload spot.node.addr)

theorem run_take_of_none {h : FirstFit} {spot : Spot} {need : UInt32}
    (hb : ∀ a, spot.before = some a → h.memory.Holds a 8) (hr : spot.node.rest? need = none) :
    (take spot need).run h =
      ⟨.ok (Header.payload spot.node.addr), h.linked spot.before spot.node.next,
        [.blockTaken spot.node.addr spot.node.size]⟩ := by
  rw [take, Action.run_bind_ok (run_cut_of_none hr), Action.run_bind_ok (run_link hb)]
  rfl

theorem run_take_of_some {h : FirstFit} {spot : Spot} {need : UInt32} {rest : Node}
    (hn : spot.node.Inside h.memory) (hb : ∀ a, spot.before = some a → h.memory.Holds a 8)
    (hr : spot.node.rest? need = some rest) :
    (take spot need).run h =
      ⟨.ok (Header.payload spot.node.addr),
        (h.cutAt spot.node.addr need rest).linked spot.before (some rest.addr),
        [.blockSplit spot.node.addr need rest.addr rest.size]⟩ := by
  have hb' : ∀ a, spot.before = some a → (h.cutAt spot.node.addr need rest).memory.Holds a 8 :=
    fun a ha => Memory.holds_put.2 (Memory.holds_put.2 (hb a ha))
  rw [take, Action.run_bind_ok (run_cut_of_some hn hr), Action.run_bind_ok (run_link hb')]
  rfl

/-- Hands out the first free block that holds `n` bytes. -/
def allocate (n : UInt32) : Action FirstFit Addr := do
  let need ← Action.ofOption .requestTooLarge (roundUp? n)
  let w ← Action.gets walk
  match Spot.find? need none w.nodes, w.broken with
  | some spot, _ => take spot need
  | none, some a => Action.fail (.brokenChain a)
  | none, none => do
    Action.record (.chainFull need w.largest)
    Action.fail (.outOfMemory need w.largest)

theorem run_allocate (n : UInt32) (h : FirstFit) :
    (allocate n).run h =
      match roundUp? n with
      | none => ⟨.error .requestTooLarge, h, []⟩
      | some need =>
        match Spot.find? need none h.walk.nodes, h.walk.broken with
        | some spot, _ => (take spot need).run h
        | none, some a => ⟨.error (.brokenChain a), h, []⟩
        | none, none =>
          ⟨.error (.outOfMemory need h.walk.largest), h, [.chainFull need h.walk.largest]⟩ := by
  cases hn : roundUp? n with
  | none => simp [allocate, hn, Action.run_bind]
  | some need =>
    simp only [allocate, hn, Action.run_bind, Action.run_ofOption_some, Action.run_gets,
      List.nil_append]
    cases hs : Spot.find? need none h.walk.nodes with
    | some spot => rfl
    | none => cases hb : h.walk.broken <;> rfl

/-- What a walk finds can be taken: every write that this needs is inside memory. -/
theorem inside_of_find? {h : FirstFit} {need : UInt32} {spot : Spot}
    (hs : Spot.find? need none h.walk.nodes = some spot) :
    spot.node.Inside h.memory ∧ ∀ a, spot.before = some a → h.memory.Holds a 8 := by
  obtain ⟨front, back, hw, _, _, hb⟩ := Spot.find?_eq_some_iff.1 hs
  have inside : ∀ n ∈ h.walk.nodes, n.Inside h.memory := fun n hn =>
    (Node.at?_eq_some_iff.1 (Walk.at?_of_mem_nodes hn)).2.1
  refine ⟨inside _ (by simp [hw]), fun a ha => ?_⟩
  rw [hb, Option.or_none, Option.map_eq_some_iff] at ha
  obtain ⟨n, hn, rfl⟩ := ha
  exact (inside n (by simp [hw, List.mem_of_getLast? hn])).2.1

/-- The block whose payload begins at `p`, if it is inside. -/
def blockOf (m : Memory) (p : Addr) : Except Fault Node :=
  match Header.ofPayload? p with
  | some a =>
    let n := Node.peek m a
    if n.Inside m then .ok n else .error (.notABlock p)
  | none => .error (.notABlock p)

/-- Puts the block whose payload begins at `p` in front of the free ones, even if it is free. -/
def release (p : Addr) : Action FirstFit Unit := do
  if p = 0 then
    pure ()
  else
    let n ← Action.ask fun h => blockOf h.memory p
    let head ← Action.gets head
    onMemory (Header.writeNext n.addr head)
    Action.modify fun h => { h with head := some n.addr }
    Action.record (.blockReleased n.addr)

def pushed (h : FirstFit) (a : Addr) : FirstFit where
  memory := h.memory.put (Header.linkAddr a) (LittleEndian.bytes (Header.linkWord h.head)).toList
  head := some a

theorem blockOf_eq_ok {m : Memory} {p : Addr} {n : Node} (h : blockOf m p = .ok n) :
    n = Node.peek m n.addr ∧ n.addr.toNat + 8 = p.toNat ∧ n.Inside m := by
  unfold blockOf at h
  cases ha : Header.ofPayload? p with
  | none => simp [ha] at h
  | some a =>
    simp only [ha] at h
    split at h
    · next hi =>
      cases h
      exact ⟨rfl, Header.ofPayload?_eq_some_iff.1 ha, hi⟩
    · contradiction

theorem run_release (p : Addr) (h : FirstFit) :
    (release p).run h =
      if p = 0 then ⟨.ok (), h, []⟩
      else match blockOf h.memory p with
        | .error fault => ⟨.error fault, h, []⟩
        | .ok n => ⟨.ok (), h.pushed n.addr, [.blockReleased n.addr]⟩ := by
  unfold release
  split
  · rfl
  · cases hn : blockOf h.memory p with
    | error fault => simp [hn, Action.run_bind]
    | ok n =>
      have hm : h.memory.Holds n.addr 8 := (blockOf_eq_ok hn).2.2.2.1
      simp [hn, pushed, Action.run_bind, Header.run_writeNext hm]

/-- Refuses a block that is among the free ones, or one that could be behind a broken link. -/
def checkInUse (h : FirstFit) (p a : Addr) : Except Fault Unit :=
  let w := h.walk
  if w.nodes.any fun n => n.addr == a then .error (.alreadyFree p)
  else match w.broken with
    | some b => .error (.brokenChain b)
    | none => .ok ()

/-- Takes back the block whose payload begins at `p`, unless it is free already. -/
def releaseOnce (p : Addr) : Action FirstFit Unit := do
  if p = 0 then
    pure ()
  else
    let n ← Action.ask fun h => blockOf h.memory p
    Action.ask fun h => h.checkInUse p n.addr
    release p

theorem run_releaseOnce (p : Addr) (h : FirstFit) :
    (releaseOnce p).run h =
      if p = 0 then ⟨.ok (), h, []⟩
      else match blockOf h.memory p with
        | .error fault => ⟨.error fault, h, []⟩
        | .ok n =>
          match h.checkInUse p n.addr with
          | .error fault => ⟨.error fault, h, []⟩
          | .ok () => (release p).run h := by
  unfold releaseOnce
  split
  · rfl
  · cases hn : blockOf h.memory p with
    | error fault => simp [hn, Action.run_bind]
    | ok n => cases hc : h.checkInUse p n.addr <;> simp [hn, hc, Action.run_bind]

def payloadSize (h : FirstFit) (p : Addr) : Except Fault UInt32 :=
  (blockOf h.memory p).map fun n => n.size

def totalFree (h : FirstFit) : UInt32 := h.walk.total

def largestFree (h : FirstFit) : UInt32 := h.walk.largest

instance : Allocator FirstFit where
  ofWindow := ofWindow
  memory := memory
  onMemory := onMemory
  allocate := allocate
  release := release
  remaining := totalFree

end FirstFit
end HeapWindow
