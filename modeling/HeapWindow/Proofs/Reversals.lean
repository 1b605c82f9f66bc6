import HeapWindow.Proofs.Blindness
import HeapWindow.Proofs.Returns

/-!
# Releases that are undone

The free blocks are a stack as long as every request takes the whole of the first one. So blocks that
were given back are handed out again, the last of them first, by requests that leave too little of
them to be cut off. Taking the first block writes nothing at all, and at the end the heap is as it
was, but for the links in front of these payloads.
-/

namespace HeapWindow

open Rounding

namespace Slot

variable {s : Slot} {n : UInt32}

def FitsWhole (s : Slot) (n : UInt32) : Prop :=
  ∃ need, roundUp? n = some need ∧ need.toNat ≤ s.size ∧ s.size < need.toNat + 16

end Slot

namespace FirstFit

variable {h : FirstFit} {free held : List Slot} {s : Slot} {p : Addr} {n : UInt32}

/-- A request for `n` bytes takes all of the block whose payload begins at `p`. -/
def FitsWhole (h : FirstFit) (p : Addr) (n : UInt32) : Prop :=
  ∃ need size, roundUp? n = some need ∧ h.payloadSize p = .ok size ∧ need ≤ size ∧
    size.toNat < need.toNat + 16

namespace Layout

theorem fitsWhole (hl : h.Layout free held) (hs : s ∈ held) (hp : p.toNat = s.addr + 8)
    (hfit : h.FitsWhole p n) : s.FitsWhole n := by
  obtain ⟨need, size, hneed, hsize, hle, hlt⟩ := hfit
  obtain ⟨z, hz, he⟩ := hl.exists_payloadSize (List.mem_append_right free hs) hp
  obtain rfl := Except.ok.inj (hsize.symm.trans hz)
  rw [UInt32.le_iff_toNat_le] at hle
  exact ⟨need, hneed, by omega, by omega⟩

theorem memory_allocate (hl : h.Layout (s :: free) held) (hfit : s.FitsWhole n) :
    ((allocate n).run h).state.memory = h.memory := by
  obtain ⟨need, hneed, hle, hlt⟩ := hfit
  obtain ⟨nodes, hw, hn⟩ := hl.walk_eq
  obtain ⟨k, rest, rfl, rfl, -⟩ := List.map_eq_cons_iff.1 hn
  have hspot : Spot.find? need none h.walk.nodes = some ⟨none, k⟩ := by
    rw [hw, Spot.find?, if_pos (UInt32.le_iff_toNat_le.2 hle)]
  have hrest : k.rest? need = none := Node.rest?_eq_none_iff.2 hlt
  have hbefore : ∀ a, (none : Option Addr) = some a → h.memory.Holds a 8 := by
    intro a ha
    cases ha
  rw [FirstFit.run_allocate, hneed]
  simp only [hspot]
  rw [@run_take_of_none h ⟨none, k⟩ need hbefore hrest]
  rfl

theorem forall₂_fitsWhole {given : List Slot} {ps : List Addr} {ns : List UInt32}
    (hl : h.Layout free held) (hfit : List.Forall₂ h.FitsWhole ps ns)
    (hheld : ∀ s ∈ given, s ∈ held)
    (hplaces : given.map (fun s => s.addr + 8) = ps.map UInt32.toNat) :
    List.Forall₂ Slot.FitsWhole given ns := by
  induction hfit generalizing given with
  | nil =>
    obtain rfl : given = [] := List.map_eq_nil_iff.1 hplaces
    exact .nil
  | @cons p n ps ns hp _ ih =>
    obtain ⟨s, given, rfl, hs, hplaces⟩ := List.map_eq_cons_iff.1 hplaces
    obtain ⟨hmem, hheld⟩ := List.forall_mem_cons.1 hheld
    exact .cons (hl.fitsWhole hmem hs.symm hp) (ih hheld hplaces)

end Layout
end FirstFit

namespace Tenancy

variable {w : Window} {h : FirstFit} {t : Tenancy} {l : Ledger} {rs back : List Request}
  {ps : List Addr} {n : UInt32} {ns : List UInt32} {s : Slot} {taken given free held : List Slot}

/-- By requests for `ns` bytes the first free blocks `taken` were handed out one after the other, and
nothing was written. -/
structure Takes (t : Tenancy) (taken free held : List Slot) (ns : List UInt32) : Prop where
  follows : Follows (t.after (ns.map .allocate)) ⟨free, taken.reverse ++ held⟩
  answers : t.answers (ns.map .allocate) =
    taken.map fun s => .ok (some (.ofNat (s.addr + 8)))
  memory : (t.after (ns.map .allocate)).heap.memory = t.heap.memory

namespace Follows

theorem takes_one (hf : Follows t ⟨s :: free, held⟩) (hfit : s.FitsWhole n) :
    Takes t [s] free held [n] := by
  have hmemory := hf.layout.memory_allocate hfit
  obtain ⟨need, hneed, hle, hlt⟩ := hfit
  have ha : Pool.allocate need.toNat (s :: free) = some (s, free) :=
    Pool.allocate_cons_of_whole hle hlt
  have hm := hf.allocate_met hneed ha
  refine ⟨?_, ?_, ?_⟩
  · have hstep : Ledger.step ⟨s :: free, held⟩ (.allocate n) = ⟨free, s :: held⟩ := by
      simp only [Ledger.step, hneed, Option.bind_some, ha]
    have hf' := hm.follows
    rwa [hstep] at hf'
  · have hanswer : Ledger.answer ⟨s :: free, held⟩ (.allocate n) =
        .ok (some (.ofNat (s.addr + 8))) := by
      simp only [Ledger.answer, hneed, ha]
    show [_] = [_]
    rw [hm.answer, hanswer]
  · show (t.step (.allocate n)).heap.memory = _
    rw [Tenancy.step, Request.perform, Action.run_map]
    exact hmemory

theorem takes (hf : Follows t ⟨taken ++ free, held⟩) (hfit : List.Forall₂ Slot.FitsWhole taken ns) :
    Takes t taken free held ns := by
  induction hfit generalizing t held with
  | nil => exact ⟨hf, rfl, rfl⟩
  | @cons s n taken ns hs _ ih =>
    have hone := hf.takes_one hs
    have hrest := ih hone.follows
    refine ⟨?_, ?_, hrest.memory.trans hone.memory⟩
    · rw [List.reverse_cons, List.append_assoc]
      exact hrest.follows
    · have hanswer := (List.cons.inj hone.answers).1
      show _ :: _ = _ :: _
      rw [hanswer]
      exact congrArg (List.cons _) hrest.answers

end Follows

namespace Returns

/-- What was given back last is handed out first. -/
theorem takes (hf : Follows t l) (hr : Returns t l ps back given held)
    (hfit : List.Forall₂ t.heap.FitsWhole ps ns) :
    Takes (t.after back) given.reverse l.free held ns.reverse := by
  have hheld : ∀ s ∈ given, s ∈ l.held := fun s hs => hr.kept.mem_iff.2 (List.mem_append_left _ hs)
  have hwhole := hf.layout.forall₂_fitsWhole hfit hheld hr.places
  exact hr.follows.takes (List.forall₂_reverse_iff.2 hwhole)

theorem map_payload (hr : Returns t l ps back given held) :
    given.map (fun s => UInt32.ofNat (s.addr + 8)) = ps := by
  have hnumbers := congrArg (List.map UInt32.ofNat) hr.places
  rw [List.map_map, List.map_map] at hnumbers
  have hid : UInt32.ofNat ∘ UInt32.toNat = id := funext fun _ => UInt32.ofNat_toNat
  rw [hid, List.map_id] at hnumbers
  exact hnumbers

end Returns

/-- Blocks that the client holds are given back, and requests that take all of each are made in the
opposite order. They are answered with these blocks, the last of them first, and then the heap has
the same free blocks in the same order and the client holds the same blocks. Only the links in
front of these payloads may be others. -/
theorem releases_undone (hw : FirstFit.Opens w h) (hrs : Run.Along step Allows (fresh h) rs)
    (hlive : ∀ p ∈ ps, p ∈ ((fresh h).after rs).live) (hnodup : ps.Nodup)
    (hback : List.Forall₂ Request.GivesBack ps back)
    (hfit : List.Forall₂ ((fresh h).after rs).heap.FitsWhole ps ns) :
    let t := (fresh h).after rs
    let u := t.after back
    let v := u.after (ns.reverse.map .allocate)
    t.answers back = ps.map (fun _ => .ok none) ∧
      u.answers (ns.reverse.map .allocate) = ps.reverse.map (fun p => .ok (some p)) ∧
      v.heap.head = t.heap.head ∧ v.heap.walk = t.heap.walk ∧ v.live.Perm t.live ∧
      (∀ p ∈ t.live, v.heap.payloadSize p = t.heap.payloadSize p) ∧
      Memory.SameBut (InLinks ps) t.heap.memory v.heap.memory := by
  obtain ⟨l, hf, -⟩ := exists_follows hw (hrs.mono fun _ _ => Or.inl)
  obtain ⟨given, held, hr⟩ := hf.returns hback hlive hnodup
  have ht := hr.takes hf hfit
  have hv := ht.follows
  rw [List.reverse_reverse] at hv
  obtain ⟨hhead, hwalk⟩ := hv.layout.chain_eq hf.layout
  intro t u v
  refine ⟨hr.answers, ?_, hhead, hwalk, hv.perm_live hf hr.kept.symm, fun p hp => ?_, ?_⟩
  · rw [ht.answers, ← hr.map_payload, ← List.map_reverse, List.map_map]
    rfl
  · exact (hf.payloadSize_eq hv hr.kept hp).symm
  · show Memory.SameBut (InLinks ps) t.heap.memory v.heap.memory
    rw [ht.memory]
    exact hr.frame

/-- A block of eight bytes and one of none are given back and asked for again. -/
theorem releases_undone_on_ten_words :
    let t := (fresh .onTenWords).after [.allocate 5, .allocate 0]
    let u := t.after [.release 0x1008, .release 0x1018]
    u.answers [.allocate 0, .allocate 7] = [.ok (some 0x1018), .ok (some 0x1008)] ∧
      (u.after [.allocate 0, .allocate 7]).heap.walk = t.heap.walk := by
  have hlive : ((fresh .onTenWords).after [.allocate 5, .allocate 0]).live = [0x1018, 0x1008] := by
    decide +kernel
  have hmem : ∀ p ∈ [0x1008, 0x1018],
      p ∈ ((fresh .onTenWords).after [.allocate 5, .allocate 0]).live := by
    rw [hlive]
    simp
  have hback : List.Forall₂ Request.GivesBack [0x1008, 0x1018]
      [.release 0x1008, .release 0x1018] := .cons (Or.inl rfl) (.cons (Or.inl rfl) .nil)
  have hfit : List.Forall₂ ((fresh .onTenWords).after [.allocate 5, .allocate 0]).heap.FitsWhole
      [0x1008, 0x1018] [7, 0] :=
    .cons ⟨8, 8, by decide, by decide +kernel, by decide, by decide⟩
      (.cons ⟨0, 0, by decide, by decide +kernel, by decide, by decide⟩ .nil)
  obtain ⟨-, hanswers, -, hwalk, -⟩ := releases_undone FirstFit.opens_onTenWords
    (by decide +kernel) hmem (by decide) hback hfit
  exact ⟨hanswers, hwalk⟩

end Tenancy
end HeapWindow
