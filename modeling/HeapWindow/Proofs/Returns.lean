import HeapWindow.Proofs.Accounting
import HeapWindow.Proofs.Partitions
import Mathlib.Data.List.Forall2
import Mathlib.Data.List.Perm.Basic

/-!
# Giving back many blocks

Blocks that are given back one after the other come to stand in front of the free ones, the last of
them first. Nothing is written but the links in front of their payloads. Which blocks these are is
settled by the addresses that are named, in whatever order and in whatever way each is given back.
-/

namespace HeapWindow

theorem Slot.nodup_of_apart {slots : List Slot} (h : slots.Pairwise Apart) : slots.Nodup := by
  refine h.imp fun {s u} ha he => ?_
  have hs := s.header_lt_stop
  subst he
  rw [apart_iff] at ha
  omega

namespace Tenancy

variable {t u : Tenancy} {l k : Ledger} {r : Request} {p : Addr} {s v : Slot} {ps qs : List Addr}
  {back back' : List Request} {given given' held held' : List Slot}

/-- A byte of the link in front of one of these payloads is at `x`. -/
def InLinks (ps : List Addr) (x : Nat) : Prop := ∃ p ∈ ps, p.toNat ≤ x + 4 ∧ x < p.toNat

theorem InLinks.perm (h : ps.Perm qs) {x : Nat} (hx : InLinks ps x) : InLinks qs x := by
  obtain ⟨p, hp, hx⟩ := hx
  exact ⟨p, h.mem_iff.1 hp, hx⟩

/-- By the requests `back` the blocks in the slots `given` were given back, whose payloads begin at
`ps`, and those in the slots `held` are held still. -/
structure Returns (t : Tenancy) (l : Ledger) (ps : List Addr) (back : List Request)
    (given held : List Slot) : Prop where
  places : given.map (fun s => s.addr + 8) = ps.map UInt32.toNat
  kept : l.held.Perm (given ++ held)
  follows : Follows (t.after back) ⟨given.reverse ++ l.free, held⟩
  live : t.live.Perm (ps ++ (t.after back).live)
  answers : t.answers back = ps.map fun _ => .ok none
  frame : Memory.SameBut (InLinks ps) t.heap.memory (t.after back).heap.memory

namespace Follows

theorem eq_of_isAt (hf : Follows t l) (hs : s ∈ l.blocks) (hv : v ∈ l.blocks) (hsp : s.isAt p)
    (hvp : v.isAt p) : s = v := by
  by_contra hne
  have ha := hf.layout.apart_of_ne hs hv hne
  have hsa := Slot.toNat_of_isAt hsp
  have hva := Slot.toNat_of_isAt hvp
  have hs := s.header_lt_stop
  have hv := v.header_lt_stop
  rw [Slot.apart_iff] at ha
  omega

theorem returns_one (hf : Follows t l) (hp : p ∈ t.live) (hr : r.GivesBack p) :
    ∃ s held, Returns t l [p] [r] [s] held := by
  obtain ⟨s, hs⟩ := hf.find?_of_mem_live hp
  obtain ⟨size, htakes⟩ := hf.takesBack hp hr
  have hm := hf.give_back hp hr
  have hl : l.step r = ⟨s :: l.free, l.held.eraseP (Slot.isAt p)⟩ := by
    rcases hr with rfl | rfl <;> rw [Ledger.step, hs]
  have hlive : (t.step r).live = t.live.erase p := by
    rw [Tenancy.step, htakes.answer]
    rcases hr with rfl | rfl <;> rfl
  refine ⟨s, l.held.eraseP (Slot.isAt p), ?_, perm_of_find? hs, ?_, ?_, ?_, ?_⟩
  · rw [List.map_singleton, List.map_singleton, Slot.toNat_of_isAt (List.find?_some hs)]
  · have hf' := hm.follows
    rwa [hl] at hf'
  · show t.live.Perm (p :: (t.step r).live)
    rw [hlive]
    exact List.perm_cons_erase hp
  · rw [Tenancy.answers, htakes.answer]
    rfl
  · refine hm.frame.mono fun x hx => ⟨p, List.mem_singleton_self p, ?_⟩
    rcases hr with rfl | rfl <;> exact hx

end Follows

namespace Returns

theorem nil (hf : Follows t l) : Returns t l [] [] [] l.held where
  places := rfl
  kept := .refl _
  follows := hf
  live := .refl _
  answers := rfl
  frame := .refl _ _

theorem cons {held₁ : List Slot} (h : Returns t l [p] [r] [s] held₁)
    (hrest : Returns (t.step r) ⟨s :: l.free, held₁⟩ ps back given held) :
    Returns t l (p :: ps) (r :: back) (s :: given) held where
  places := by
    have hs : s.addr + 8 = p.toNat := (List.cons.inj h.places).1
    rw [List.map_cons, List.map_cons, hs, hrest.places]
  kept := h.kept.trans (hrest.kept.cons s)
  follows := by
    rw [List.reverse_cons, List.append_assoc]
    exact hrest.follows
  live := h.live.trans (hrest.live.cons p)
  answers := by
    have hr := (List.cons.inj h.answers).1
    rw [Tenancy.answers, hr, hrest.answers, List.map_cons]
  frame := by
    have hfront : Memory.SameBut (InLinks [p]) t.heap.memory (t.step r).heap.memory := h.frame
    refine (hfront.mono ?_).trans (hrest.frame.mono ?_)
    · rintro x ⟨q, hq, hx⟩
      exact ⟨q, by simp [List.mem_singleton.1 hq], hx⟩
    · rintro x ⟨q, hq, hx⟩
      exact ⟨q, List.mem_cons_of_mem p hq, hx⟩

end Returns

/-- Whatever is held can be given back, each block in one of the two ways. -/
theorem Follows.returns (hf : Follows t l) (hback : List.Forall₂ Request.GivesBack ps back)
    (hlive : ∀ p ∈ ps, p ∈ t.live) (hnodup : ps.Nodup) :
    ∃ given held, Returns t l ps back given held := by
  induction hback generalizing t l with
  | nil => exact ⟨[], l.held, .nil hf⟩
  | @cons p r ps back hr _ ih =>
    obtain ⟨hpn, hnodup⟩ := List.nodup_cons.1 hnodup
    obtain ⟨hp, hlive⟩ := List.forall_mem_cons.1 hlive
    obtain ⟨s, held₁, hone⟩ := hf.returns_one hp hr
    have hrest : ∀ q ∈ ps, q ∈ (t.step r).live := by
      intro q hq
      refine (List.mem_cons.1 (hone.live.mem_iff.1 (hlive q hq))).resolve_left ?_
      rintro rfl
      exact hpn hq
    obtain ⟨given, held, h⟩ := ih hone.follows hrest hnodup
    exact ⟨s :: given, held, hone.cons h⟩

namespace Returns

theorem mem_given_iff (hf : Follows t l) (h : Returns t l ps back given held) :
    s ∈ given ↔ s ∈ l.held ∧ ∃ p ∈ ps, s.isAt p := by
  have hblocks : ∀ v ∈ l.held, v ∈ l.blocks := fun v => List.mem_append_right l.free
  have hheld : ∀ v ∈ given, v ∈ l.held := fun v hv => h.kept.mem_iff.2 (List.mem_append_left _ hv)
  constructor
  · intro hs
    have hmem := List.mem_map_of_mem (f := fun s => s.addr + 8) hs
    rw [h.places] at hmem
    obtain ⟨p, hp, he⟩ := List.mem_map.1 hmem
    exact ⟨hheld s hs, p, hp, Slot.isAt_iff.2 he⟩
  · rintro ⟨hs, p, hp, hat⟩
    have hmem := List.mem_map_of_mem (f := UInt32.toNat) hp
    rw [← h.places] at hmem
    obtain ⟨v, hv, he⟩ := List.mem_map.1 hmem
    rwa [hf.eq_of_isAt (hblocks s hs) (hblocks v (hheld v hv)) hat (Slot.isAt_iff.2 he.symm)]

theorem perm (hf : Follows t l) (h : Returns t l ps back given held)
    (h' : Returns t l qs back' given' held') (hperm : ps.Perm qs) :
    given.Perm given' ∧ held.Perm held' := by
  have hnodup : l.held.Nodup := Slot.nodup_of_apart (List.pairwise_append.1 hf.layout.apart).2.1
  have hn := (List.nodup_append.1 (h.kept.nodup_iff.1 hnodup)).1
  have hn' := (List.nodup_append.1 (h'.kept.nodup_iff.1 hnodup)).1
  have hgiven : given.Perm given' := by
    refine (List.perm_ext_iff_of_nodup hn hn').2 fun s => ?_
    rw [h.mem_given_iff hf, h'.mem_given_iff hf]
    simp only [hperm.mem_iff]
  refine ⟨hgiven, (List.perm_append_left_iff given).1 ?_⟩
  exact (h.kept.symm.trans h'.kept).trans (hgiven.symm.append_right held')

theorem mem_live_iff (hf : Follows t l) (h : Returns t l ps back given held) :
    p ∈ (t.after back).live ↔ p ∈ t.live ∧ p ∉ ps := by
  obtain ⟨-, -, hne⟩ := List.nodup_append.1 (h.live.nodup_iff.1 hf.nodup_live)
  rw [h.live.mem_iff, List.mem_append]
  constructor
  · exact fun hp => ⟨Or.inr hp, fun hps => hne p hps p hp rfl⟩
  · exact fun ⟨hp, hps⟩ => hp.resolve_left hps

end Returns

namespace Follows

theorem perm_live (hf : Follows t l) (hk : Follows u k) (hperm : l.held.Perm k.held) :
    t.live.Perm u.live := by
  have hinj : Function.Injective UInt32.toNat := fun _ _ => UInt32.toNat_inj.1
  rw [← List.map_perm_map_iff hinj, hf.live, hk.live]
  exact hperm.map _

theorem payloadSize_eq (hf : Follows t l) (hk : Follows u k) (hperm : l.held.Perm k.held)
    (hp : p ∈ t.live) : t.heap.payloadSize p = u.heap.payloadSize p := by
  obtain ⟨s, hs, hat⟩ := hf.mem_live_iff.1 hp
  have hs' := List.mem_append_right k.free (hperm.mem_iff.1 hs)
  exact hf.layout.payloadSize_eq hk.layout (List.mem_append_right l.free hs) hs'
    (Slot.toNat_of_isAt hat)

end Follows
end Tenancy
end HeapWindow
