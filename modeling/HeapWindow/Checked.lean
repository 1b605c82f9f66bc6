import HeapWindow.Audit

/-!
# Checked arithmetic

Sums and differences of words wrap. Here a machine works on a first-fit heap that stops where the
exact number is no word, and so has no outcome there. The heap's own guards are taken as they are:
it asks beforehand whether a request can be rounded up and whether there is room for a header in
front of a payload, and it counts no link when the budget of a walk is used up.
-/

namespace HeapWindow
namespace Checked

open Rounding

/-- The sum, if it is a word. -/
def add (a b : UInt32) : Option UInt32 :=
  if a.toNat + b.toNat < UInt32.size then some (a + b) else none

def sub (a b : UInt32) : Option UInt32 :=
  if b.toNat ≤ a.toNat then some (a - b) else none

theorem add_of_lt {a b : UInt32} (h : a.toNat + b.toNat < UInt32.size) :
    add a b = some (a + b) := if_pos h

theorem sub_of_le {a b : UInt32} (h : b.toNat ≤ a.toNat) : sub a b = some (a - b) := if_pos h

def stop (m : Memory) : Option Addr := add m.start m.size

@[simp] theorem stop_eq (m : Memory) : stop m = some m.stop :=
  add_of_lt (by simpa using m.stop_lt)

def at? (m : Memory) (a : Addr) : Option (Option Node) := do
  let stop ← stop m
  let n := Node.peek m a
  return if (Aligned n.addr ∧ m.Holds n.addr 8 ∧ n.stop ≤ stop.toNat) ∧ Aligned n.size then some n
    else none

@[simp] theorem at?_eq (m : Memory) (a : Addr) : at? m a = some (Node.at? m a) := by
  simp only [at?, stop_eq]
  rfl

def follow (m : Memory) (link : Option Addr) (left : UInt32) : Option Walk :=
  match link with
  | none => some ⟨[], none⟩
  | some a =>
    if left = 0 then some ⟨[], some a⟩
    else match _h : sub left 1 with
      | none => none
      | some left' => do
        match ← at? m a with
        | none => return ⟨[], some a⟩
        | some n =>
          let w ← follow m n.next left'
          return ⟨n :: w.nodes, w.broken⟩
termination_by left.toNat
decreasing_by
  obtain ⟨hle, rfl⟩ : (1 : UInt32).toNat ≤ left.toNat ∧ left - 1 = left' := by
    simpa [sub] using _h
  rw [UInt32.toNat_sub_of_le _ _ (UInt32.le_iff_toNat_le.2 hle)]
  have h₁ : (1 : UInt32).toNat = 1 := rfl
  omega

/-- The count stands for a budget, which is one less after each block. -/
theorem follow_eq (m : Memory) (link : Option Addr) (left : UInt32) :
    follow m link left = some (Walk.follow m link left.toNat) := by
  generalize hk : left.toNat = k
  induction k generalizing link left with
  | zero =>
    obtain rfl : left = 0 := UInt32.toNat_inj.1 hk
    cases link <;> simp [follow]
  | succ k ih =>
    cases link with
    | none => simp [follow]
    | some a =>
      have h₀ : left ≠ 0 := by
        rintro rfl
        cases hk
      have h₁ : (1 : UInt32).toNat = 1 := rfl
      have hs : (left - 1).toNat = k := by
        rw [UInt32.toNat_sub_of_le _ _ (UInt32.le_iff_toNat_le.2 (by omega))]
        omega
      have hsub : sub left 1 = some (left - 1) := sub_of_le (by omega)
      rw [follow, if_neg h₀, Walk.follow_succ]
      split
      · next h => rw [hsub] at h; cases h
      · next left' h =>
        obtain rfl : left - 1 = left' := Option.some.inj (hsub.symm.trans h)
        rw [at?_eq]
        cases Node.at? m a with
        | none => rfl
        | some n => simp [ih n.next _ hs]

def rest? (n : Node) (need : UInt32) : Option (Option Node) :=
  if need.toNat + (Header.byteSize + Header.leastRest).toNat ≤ n.size.toNat then do
    let payload ← add n.addr Header.byteSize
    let addr ← add payload need
    let room ← sub n.size need
    let size ← sub room Header.byteSize
    return some ⟨⟨size, n.next⟩, addr⟩
  else some none

theorem rest?_eq {m : Memory} {n : Node} {need : UInt32} (hn : n.Inside m) :
    rest? n need = some (n.rest? need) := by
  have h₁₆ : (Header.byteSize + Header.leastRest).toNat = 16 := rfl
  have hstop := hn.stop_lt
  simp only [Node.stop, Header.stop, Header.toNat_byteSize] at hstop
  rw [rest?, Node.rest?, h₁₆]
  split
  · next hle =>
    have hp : (n.addr + Header.byteSize).toNat = n.addr.toNat + 8 := by
      simp only [UInt32.size] at hstop
      rw [UInt32.toNat_add, Header.toNat_byteSize, Nat.mod_eq_of_lt (by omega)]
    have hr : (n.size - need).toNat = n.size.toNat - need.toNat :=
      UInt32.toNat_sub_of_le _ _ (UInt32.le_iff_toNat_le.2 (by omega))
    have h₁ := add_of_lt (a := n.addr) (b := Header.byteSize) (by rw [Header.toNat_byteSize]; omega)
    have h₂ := add_of_lt (a := n.addr + Header.byteSize) (b := need) (by omega)
    have h₃ := sub_of_le (a := n.size) (b := need) (by omega)
    have h₄ := sub_of_le (a := n.size - need) (b := Header.byteSize)
      (by rw [Header.toNat_byteSize]; omega)
    simp [h₁, h₂, h₃, h₄]
  · rfl

def payload (a : Addr) : Option Addr := add a Header.byteSize

theorem payload_eq {m : Memory} {n : Node} (hn : n.Inside m) :
    payload n.addr = some (Header.payload n.addr) := by
  have hstop := hn.stop_lt
  simp only [Node.stop, Header.stop] at hstop
  exact add_of_lt (by omega)

def linkAddr (a : Addr) : Option Addr := add a wordSize

theorem linkAddr_eq {m : Memory} {a : Addr} (h : m.Holds a 8) :
    linkAddr a = some (Header.linkAddr a) := by
  have hle := (Memory.holds_iff.1 h).2
  have hlt : m.stop.toNat < UInt32.size := m.stop.toNat_lt
  exact add_of_lt (by rw [toNat_wordSize]; omega)

section Heap

variable {h : FirstFit} {before : Option Addr}

def walk (h : FirstFit) : Option Walk := follow h.memory h.head (h.memory.size / Header.byteSize)

@[simp] theorem walk_eq (h : FirstFit) : walk h = some h.walk := follow_eq ..

/-- Leaves the place of a block in the chain to the rest of it, if there is one. -/
def replace (n : Node) (need : UInt32) : (rest : Option Node) → Action FirstFit (Option Addr)
  | some rest => do
    FirstFit.onMemory (Header.write rest.addr rest.toHeader)
    FirstFit.onMemory (Header.writeSize n.addr need)
    Action.record (.blockSplit n.addr need rest.addr rest.size)
    pure (some rest.addr)
  | none => do
    Action.record (.blockTaken n.addr n.size)
    pure n.next

/-- Finds the link that led to a block, and makes it lead to the successor once that is known. -/
def link (before : Option Addr) : Option (Option Addr → Action FirstFit Unit) :=
  match before with
  | none => some fun next => Action.modify fun h => { h with head := next }
  | some a => do
    let place ← linkAddr a
    return fun next => FirstFit.onMemory (Memory.writeWord place (Header.linkWord next))

theorem link_eq (hb : ∀ a, before = some a → h.memory.Holds a 8) :
    link before = some (FirstFit.link before) := by
  cases before with
  | none => rfl
  | some a =>
    simp only [link, linkAddr_eq (hb a rfl)]
    rfl

def take (spot : Spot) (need : UInt32) (h : FirstFit) : Option (Outcome FirstFit Addr) := do
  let rest ← rest? spot.node need
  let p ← payload spot.node.addr
  let lead ← link spot.before
  let act : Action FirstFit Addr := do
    let successor ← replace spot.node need rest
    lead successor
    pure p
  return act.run h

theorem take_eq {spot : Spot} {need : UInt32} (hn : spot.node.Inside h.memory)
    (hb : ∀ a, spot.before = some a → h.memory.Holds a 8) :
    take spot need h = some ((FirstFit.take spot need).run h) := by
  have hc : replace spot.node need (spot.node.rest? need) = FirstFit.cut spot.node need := by
    rw [FirstFit.cut]
    cases spot.node.rest? need <;> rfl
  simp [take, rest?_eq hn, payload_eq hn, link_eq hb, hc, FirstFit.take]

def allocate (n : UInt32) (h : FirstFit) : Option (Outcome FirstFit Addr) :=
  match roundUp? n with
  | none => some ⟨.error .requestTooLarge, h, []⟩
  | some need => do
    let w ← walk h
    match Spot.find? need none w.nodes, w.broken with
    | some spot, _ => take spot need h
    | none, some a => return ⟨.error (.brokenChain a), h, []⟩
    | none, none =>
      return ⟨.error (.outOfMemory need w.largest), h, [.chainFull need w.largest]⟩

theorem allocate_eq (n : UInt32) (h : FirstFit) :
    allocate n h = some ((FirstFit.allocate n).run h) := by
  rw [allocate, FirstFit.run_allocate]
  cases roundUp? n with
  | none => rfl
  | some need =>
    simp only [walk_eq, Option.bind_eq_bind, Option.bind_some]
    cases hs : Spot.find? need none h.walk.nodes with
    | some spot =>
      obtain ⟨hn, hb⟩ := FirstFit.inside_of_find? hs
      exact take_eq hn hb
    | none => cases h.walk.broken <;> rfl

def blockOf (m : Memory) (p : Addr) : Option (Except Fault Node) :=
  match Header.ofPayload? p with
  | some a => do
    let stop ← stop m
    let n := Node.peek m a
    return if Aligned n.addr ∧ m.Holds n.addr 8 ∧ n.stop ≤ stop.toNat then .ok n
      else .error (.notABlock p)
  | none => some (.error (.notABlock p))

@[simp] theorem blockOf_eq (m : Memory) (p : Addr) :
    blockOf m p = some (FirstFit.blockOf m p) := by
  rw [blockOf, FirstFit.blockOf]
  cases Header.ofPayload? p with
  | none => rfl
  | some a =>
    simp only [stop_eq]
    rfl

def release (p : Addr) (h : FirstFit) : Option (Outcome FirstFit Unit) :=
  if p = 0 then some ⟨.ok (), h, []⟩
  else do
    match ← blockOf h.memory p with
    | .error fault => return ⟨.error fault, h, []⟩
    | .ok n =>
      let place ← linkAddr n.addr
      let act : Action FirstFit Unit := do
        FirstFit.onMemory (Memory.writeWord place (Header.linkWord h.head))
        Action.modify fun h => { h with head := some n.addr }
        Action.record (.blockReleased n.addr)
      return act.run h

theorem release_eq (p : Addr) (h : FirstFit) :
    release p h = some ((FirstFit.release p).run h) := by
  unfold release FirstFit.release
  split
  · rfl
  · simp only [blockOf_eq, Option.bind_eq_bind, Option.bind_some]
    cases hn : FirstFit.blockOf h.memory p with
    | error fault => simp [hn, Action.run_bind]
    | ok n =>
      have hm : h.memory.Holds n.addr 8 := (FirstFit.blockOf_eq_ok hn).2.2.2.1
      simp [hn, linkAddr_eq hm, Header.writeNext, Action.run_bind]

def releaseOnce (p : Addr) (h : FirstFit) : Option (Outcome FirstFit Unit) :=
  if p = 0 then some ⟨.ok (), h, []⟩
  else do
    match ← blockOf h.memory p with
    | .error fault => return ⟨.error fault, h, []⟩
    | .ok n =>
      let w ← walk h
      if w.nodes.any fun k => k.addr == n.addr then return ⟨.error (.alreadyFree p), h, []⟩
      else match w.broken with
        | some b => return ⟨.error (.brokenChain b), h, []⟩
        | none => release p h

theorem releaseOnce_eq (p : Addr) (h : FirstFit) :
    releaseOnce p h = some ((FirstFit.releaseOnce p).run h) := by
  rw [releaseOnce, FirstFit.run_releaseOnce]
  split
  · rfl
  · simp only [blockOf_eq, walk_eq, release_eq, Option.bind_eq_bind, Option.bind_some]
    cases FirstFit.blockOf h.memory p with
    | error fault => rfl
    | ok n =>
      simp only [FirstFit.checkInUse]
      cases h.walk.nodes.any fun k => k.addr == n.addr with
      | true => rfl
      | false => cases h.walk.broken <;> rfl

def payloadSize (h : FirstFit) (p : Addr) : Option (Except Fault UInt32) := do
  let block ← blockOf h.memory p
  return block.map fun n => n.size

@[simp] theorem payloadSize_eq (h : FirstFit) (p : Addr) :
    payloadSize h p = some (h.payloadSize p) := by
  simp [payloadSize, FirstFit.payloadSize]

def totalFree (h : FirstFit) : Option UInt32 := do return (← walk h).total

def largestFree (h : FirstFit) : Option UInt32 := do return (← walk h).largest

def audit (h : FirstFit) : Option (Except Fault Nat) := do
  let w ← walk h
  match w.broken with
  | some a => return .error (.brokenChain a)
  | none =>
    match FirstFit.firstOverlap? (FirstFit.inAddressOrder w.nodes) with
    | some n => return .error (.brokenChain n.addr)
    | none => return .ok w.nodes.length

theorem audit_eq (h : FirstFit) : audit h = some h.audit := by
  simp only [audit, FirstFit.audit, walk_eq, Option.bind_eq_bind, Option.bind_some]
  cases h.walk.broken with
  | some a => rfl
  | none => cases FirstFit.firstOverlap? (FirstFit.inAddressOrder h.walk.nodes) <;> rfl

/-- Whatever is asked of the heap, no sum and no difference is anything but a word. -/
structure NoWrap (h : FirstFit) : Prop where
  allocate (n : UInt32) : allocate n h = some ((FirstFit.allocate n).run h)
  release (p : Addr) : release p h = some ((FirstFit.release p).run h)
  releaseOnce (p : Addr) : releaseOnce p h = some ((FirstFit.releaseOnce p).run h)
  payloadSize (p : Addr) : payloadSize h p = some (h.payloadSize p)
  totalFree : totalFree h = some h.totalFree
  largestFree : largestFree h = some h.largestFree
  audit : audit h = some h.audit

theorem noWrap (h : FirstFit) : NoWrap h where
  allocate n := allocate_eq n h
  release p := release_eq p h
  releaseOnce p := releaseOnce_eq p h
  payloadSize p := payloadSize_eq h p
  totalFree := by simp [Checked.totalFree, FirstFit.totalFree]
  largestFree := by simp [Checked.largestFree, FirstFit.largestFree]
  audit := audit_eq h

end Heap
end Checked
end HeapWindow
