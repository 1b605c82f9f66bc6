import HeapWindow.Proofs.Containment
import HeapWindow.Proofs.Following

/-!
# Chains that never end

A ring is a set of blocks each of which is linked to one in it. A walk that has come into a ring
goes on until its budget is used up, whatever else becomes of the heap: a block that is taken out is
led past, a block that is cut leaves its rest in the ring, and a block that is put in front is linked
to the block that was first.
-/

namespace HeapWindow

namespace Chain

variable {m m' : Memory} {link last : Option Addr} {slots : List Slot} {z : Addr}

theorem Leads.linkAfter_length (h : Leads m link slots last) :
    linkAfter m link slots.length = last := by
  induction h with
  | here => rfl
  | past found _ ih =>
    rw [List.length_cons, linkAfter_succ, Option.bind_some, ← Node.toHeader_of_at? found, ih]

def LinksInto (m : Memory) (ring : Addr → Prop) (a : Addr) : Prop :=
  ∃ b, (Header.peek m a).next = some b ∧ ring b

theorem LinksInto.mono {ring ring' : Addr → Prop} {a : Addr} (h : LinksInto m ring a)
    (hr : ∀ b, ring b → ring' b) : LinksInto m ring' a := by
  obtain ⟨b, hb, hring⟩ := h
  exact ⟨b, hb, hr b hring⟩

theorem linksInto_iff {ring : Addr → Prop} {a : Addr} {n : Node} (hn : Node.at? m a = some n) :
    LinksInto m ring a ↔ ∃ b, n.next = some b ∧ ring b := by
  rw [LinksInto, ← Node.toHeader_of_at? hn]

theorem LinksInto.frame {ring : Addr → Prop} {a : Addr} {S : Nat → Prop} (h : LinksInto m ring a)
    (hf : Memory.SameBut S m m') (hs : ∀ x, a.toNat ≤ x → x < a.toNat + 8 → ¬ S x) :
    LinksInto m' ring a := by
  obtain ⟨b, hb, hring⟩ := h
  exact ⟨b, by rw [hf.header hs, hb], hring⟩

def Met (slots : List Slot) (z a : Addr) : Prop := a = z ∨ ∃ s ∈ slots, s.addr = a.toNat

theorem Met.cons {a : Addr} (s : Slot) (h : Met slots z a) : Met (s :: slots) z a :=
  h.imp_right fun ⟨t, ht, he⟩ => ⟨t, List.mem_cons_of_mem _ ht, he⟩

theorem Leads.met (h : Leads m link slots (some z)) :
    (∃ a, link = some a ∧ Met slots z a) ∧
      ∀ s ∈ slots, ∀ a : Addr, s.addr = a.toNat → LinksInto m (Met slots z) a := by
  generalize hl : some z = last at h
  induction h with
  | here => exact ⟨⟨z, hl.symm, Or.inl rfl⟩, fun s hs => absurd hs List.not_mem_nil⟩
  | @past n slots last found _ ih =>
    obtain ⟨⟨b, hb, hmet⟩, hrest⟩ := ih hl
    refine ⟨⟨n.addr, rfl, Or.inr ⟨n.slot, List.mem_cons_self .., rfl⟩⟩, fun s hs a ha => ?_⟩
    rcases List.mem_cons.1 hs with rfl | hs
    · obtain rfl : n.addr = a := UInt32.toNat_inj.1 ha
      exact (linksInto_iff found).2 ⟨b, hb, hmet.cons _⟩
    · exact (hrest s hs a ha).mono fun c => Met.cons _

end Chain

namespace FirstFit

open Rounding Chain

variable {h : FirstFit} {m : Memory} {blocks : List Slot} {ring : Addr → Prop} {s : Slot}
  {a b p : Addr} {n r : Node} {need : UInt32} {before : Option Addr} {spot : Spot}

/-- These are addresses of some of the blocks, no two of which overlap. -/
structure Marks (m : Memory) (blocks : List Slot) (ring : Addr → Prop) : Prop where
  present : ∀ s ∈ blocks, s.In m
  apart : blocks.Pairwise Slot.Apart
  block : ∀ a, ring a → ∃ s ∈ blocks, s.addr = a.toNat

namespace Marks

theorem at? (hm : Marks m blocks ring) (ha : ring a) :
    ∃ n, Node.at? m n.addr = some n ∧ n.addr = a ∧ n.slot ∈ blocks := by
  obtain ⟨s, hs, he⟩ := hm.block a ha
  obtain ⟨n, hn, rfl⟩ := hm.present s hs
  exact ⟨n, hn, UInt32.toNat_inj.1 he, hs⟩

theorem ne_zero (hm : Marks m blocks ring) (ha : ring a) : a ≠ 0 := by
  rintro rfl
  obtain ⟨s, hs, he⟩ := hm.block 0 ha
  have hpos := (hm.present s hs).addr_pos
  rw [he] at hpos
  exact Nat.lt_irrefl _ hpos

theorem insert (hm : Marks m blocks ring) (hs : s ∈ blocks) (ha : s.addr = a.toNat) :
    Marks m blocks fun c => ring c ∨ c = a where
  present := hm.present
  apart := hm.apart
  block c hc := by
    rcases hc with hc | rfl
    · exact hm.block c hc
    · exact ⟨s, hs, ha⟩

/-- A block may be led elsewhere in the ring, since that changes no other link. -/
theorem lead (hm : Marks m blocks ring) (ha : ring a) (hb : ring b) :
    let m' := m.put (Header.linkAddr a) (LittleEndian.bytes (Header.linkWord (some b))).toList
    Marks m' blocks ring ∧
      ∀ c, ring c → (c ≠ a → LinksInto m ring c) → LinksInto m' ring c := by
  intro m'
  obtain ⟨n, hn, rfl, hs⟩ := hm.at? ha
  have hholds := (Node.at?_eq_some_iff.1 hn).2.1.2.1
  have hb₀ : some b ≠ some 0 := fun e => hm.ne_zero hb (Option.some.inj e)
  have hn' := Node.at?_putNext hn hb₀
  have hf := Memory.sameBut_putNext (some b) hholds
  have hout : ∀ t ∈ blocks, t.addr ≠ n.addr.toNat → ∀ x, t.addr ≤ x → x < t.addr + 8 →
      ¬ (n.addr.toNat + 4 ≤ x ∧ x < n.addr.toNat + 8) := by
    intro t ht hne x hlo hhi
    have hapart := Slot.apart_of_ne hm.apart hs ht fun e => hne (congrArg Slot.addr e).symm
    exact hapart.not_link hlo hhi
  refine ⟨⟨fun t ht => ?_, hm.apart, hm.block⟩, fun c hc hnext => ?_⟩
  · by_cases he : t.addr = n.addr.toNat
    · obtain ⟨k, hk, rfl⟩ := hm.present t ht
      obtain rfl : n = k := by
        rw [UInt32.toNat_inj.1 he, hn] at hk
        exact Option.some.inj hk
      exact ⟨⟨⟨n.size, some b⟩, n.addr⟩, hn', rfl⟩
    · exact (hm.present t ht).frame hf (hout t ht he)
  · by_cases hne : c = n.addr
    · rw [hne]
      exact (linksInto_iff hn').2 ⟨b, rfl, hb⟩
    · obtain ⟨t, ht, hct⟩ := hm.block c hc
      refine (hnext hne).frame hf ?_
      rw [← hct]
      exact hout t ht fun e => hne (UInt32.toNat_inj.1 (hct.symm.trans e))

def parts (blocks : List Slot) (s : Slot) (need : UInt32) (r : Node) : List Slot :=
  ⟨s.addr, need.toNat⟩ :: r.slot :: blocks.erase s

theorem exists_addr_parts (need : UInt32) (r : Node) (hs : s ∈ blocks) (u : Slot) :
    ∃ t ∈ parts blocks u need r, t.addr = s.addr := by
  by_cases he : s = u
  · exact ⟨⟨u.addr, need.toNat⟩, List.mem_cons_self .., by rw [he]⟩
  · have hrest : s ∈ blocks.erase u := (List.mem_erase_of_ne he).2 hs
    exact ⟨s, List.mem_cons_of_mem _ (List.mem_cons_of_mem _ hrest), rfl⟩

theorem outside_of_mem_erase (hm : Marks m blocks ring) (hs : n.slot ∈ blocks) {t : Slot}
    (ht : t ∈ blocks.erase n.slot) {x : Nat} (hlo : t.addr ≤ x) (hhi : x < t.addr + 8) :
    ¬ (n.addr.toNat ≤ x ∧ x < n.stop) := by
  have hapart := ((List.perm_cons_erase hs).pairwise_iff Slot.Apart.symm).1 hm.apart
  have hstop := t.header_lt_stop
  exact ((List.pairwise_cons.1 hapart).1 t ht).outside hlo (by omega)

theorem cutAt (hm : Marks h.memory blocks ring) (hs : n.slot ∈ blocks)
    (hn : Node.at? h.memory n.addr = some n) (hr : n.rest? need = some r) (hneed : Aligned need) :
    Marks (h.cutAt n.addr need r).memory (parts blocks n.slot need r)
      fun c => ring c ∨ c = r.addr where
  present t ht := by
    obtain ⟨hn', hr', hf⟩ := cutAt_spec hn hr hneed
    rcases List.mem_cons.1 ht with rfl | ht
    · exact Slot.in_of_at? hn'
    · rcases List.mem_cons.1 ht with rfl | ht
      · exact Slot.in_of_at? hr'
      · exact (hm.present t (List.mem_of_mem_erase ht)).frame hf fun x =>
          hm.outside_of_mem_erase hs ht
  apart := by
    obtain ⟨haddr, hstop, -, -⟩ := Node.rest?_eq_some (Node.at?_eq_some_iff.1 hn).2.1 hr
    have hapart := ((List.perm_cons_erase hs).pairwise_iff Slot.Apart.symm).1 hm.apart
    exact Slot.apart_cut hapart (Nat.le_refl _) (Nat.le_of_eq haddr.symm) (Nat.le_of_eq hstop)
  block c hc := by
    rcases hc with hc | rfl
    · obtain ⟨s, hs, he⟩ := hm.block c hc
      obtain ⟨t, ht, he'⟩ := exists_addr_parts need r hs n.slot
      exact ⟨t, ht, he'.trans he⟩
    · exact ⟨r.slot, List.mem_cons_of_mem _ (List.mem_cons_self ..), rfl⟩

end Marks

/-- A walk goes on for as long as it may, so that the heap fails its audit. -/
structure NeverEnds (h : FirstFit) : Prop where
  items : ∃ (nodes : List Node) (a : Addr),
    h.walk.items = nodes.map .ok ++ [.error (.brokenChain a)] ∧
      nodes.length = h.memory.bytes.size / 8
  audit : ∃ a, h.audit = .error (.brokenChain a)

structure Tangled (h : FirstFit) (blocks : List Slot) (ring : Addr → Prop) : Prop
    extends Marks h.memory blocks ring where
  next : ∀ a, ring a → LinksInto h.memory ring a
  head : ∃ a, h.head = some a ∧ ring a

namespace Tangled

theorem follow (ht : h.Tangled blocks ring) (ha : ring a) (budget : Nat) :
    ∃ nodes b, Walk.follow h.memory (some a) budget = ⟨nodes, some b⟩ ∧ nodes.length = budget ∧
      ∀ n ∈ nodes, ring n.addr := by
  induction budget generalizing a with
  | zero => exact ⟨[], a, rfl, rfl, by simp⟩
  | succ budget ih =>
    obtain ⟨n, hn, rfl, -⟩ := ht.at? ha
    obtain ⟨b, hb, hring⟩ := (linksInto_iff hn).1 (ht.next n.addr ha)
    obtain ⟨nodes, c, hw, hlen, hmem⟩ := ih hring
    rw [← hb] at hw
    refine ⟨n :: nodes, c, ?_, ?_, ?_⟩
    · rw [Walk.follow_succ, hn]
      simp only [hw]
    · rw [List.length_cons, hlen]
    · exact List.forall_mem_cons.2 ⟨ha, hmem⟩

theorem walk (ht : h.Tangled blocks ring) :
    ∃ nodes b, h.walk = ⟨nodes, some b⟩ ∧ nodes.length = h.capacity ∧ ∀ n ∈ nodes, ring n.addr := by
  obtain ⟨a, ha, hring⟩ := ht.head
  rw [FirstFit.walk, ha]
  exact ht.follow hring h.capacity

theorem neverEnds (ht : h.Tangled blocks ring) : h.NeverEnds := by
  obtain ⟨nodes, b, hw, hlen, -⟩ := ht.walk
  rw [capacity_eq] at hlen
  refine ⟨⟨nodes, b, ?_, hlen⟩, b, ?_⟩
  · rw [hw]
    rfl
  · rw [FirstFit.audit, hw]

theorem linked (ht : h.Tangled blocks ring) (hb : ring b)
    (hbefore : ∀ a, before = some a → ring a) :
    (h.linked before (some b)).Tangled blocks ring := by
  cases before with
  | none => exact { toMarks := ht.toMarks, next := ht.next, head := ⟨b, rfl, hb⟩ }
  | some a =>
    obtain ⟨hm, hnext⟩ := ht.lead (hbefore a rfl) hb
    exact { toMarks := hm, next := fun c hc => hnext c hc fun _ => ht.next c hc, head := ht.head }

theorem pushed (ht : h.Tangled blocks ring) (hs : s ∈ blocks) (ha : s.addr = a.toNat) :
    (h.pushed a).Tangled blocks fun c => ring c ∨ c = a := by
  obtain ⟨b, hb, hring⟩ := ht.head
  obtain ⟨hm, hnext⟩ := (ht.insert hs ha).lead (Or.inr rfl) (Or.inl hring)
  rw [FirstFit.pushed, hb]
  refine { toMarks := hm, next := fun c hc => hnext c hc fun he => ?_, head := ⟨a, rfl, Or.inr rfl⟩ }
  exact (ht.next c (hc.resolve_right he)).mono fun _ => Or.inl

/-- A block of a ring may be cut: it keeps its link, and its rest has the same. -/
theorem cutAt (ht : h.Tangled blocks ring) (hs : n.slot ∈ blocks)
    (hn : Node.at? h.memory n.addr = some n) (hring : ring n.addr) (hr : n.rest? need = some r)
    (hneed : Aligned need) :
    (h.cutAt n.addr need r).Tangled (Marks.parts blocks n.slot need r)
      fun c => ring c ∨ c = r.addr := by
  obtain ⟨hn', hr', hf⟩ := cutAt_spec hn hr hneed
  have hnext := (Node.rest?_eq_some (Node.at?_eq_some_iff.1 hn).2.1 hr).2.2.1
  obtain ⟨b, hb, hbring⟩ := (linksInto_iff hn).1 (ht.next n.addr hring)
  refine { toMarks := ht.toMarks.cutAt hs hn hr hneed, next := fun c hc => ?_, head := ?_ }
  · by_cases hcr : c = r.addr
    · rw [hcr]
      exact (linksInto_iff hr').2 ⟨b, hnext.trans hb, Or.inl hbring⟩
    · by_cases hcn : c = n.addr
      · rw [hcn]
        exact (linksInto_iff hn').2 ⟨b, hb, Or.inl hbring⟩
      · obtain ⟨t, htb, hct⟩ := ht.block c (hc.resolve_right hcr)
        have hne : t ≠ n.slot := by
          rintro rfl
          exact hcn (UInt32.toNat_inj.1 hct.symm)
        have hte : t ∈ blocks.erase n.slot := (List.mem_erase_of_ne hne).2 htb
        have hkept := ht.next c (hc.resolve_right hcr)
        refine (hkept.frame hf ?_).mono fun _ => Or.inl
        rw [← hct]
        exact fun x => ht.outside_of_mem_erase hs hte
  · obtain ⟨a, ha, hring⟩ := ht.head
    exact ⟨a, by rw [head_cutAt, ha], Or.inl hring⟩

/-- Taking a block leaves the first link leading into a ring, and a block at every address at which
there was one. -/
theorem without (ht : h.Tangled blocks ring)
    (hspot : Spot.find? need none h.walk.nodes = some spot) (hneed : Aligned need) :
    ∃ blocks' ring', (h.without spot need).Tangled blocks' ring' ∧
      (∀ s ∈ blocks, ∃ t ∈ blocks', t.addr = s.addr) ∧
      ∃ s ∈ blocks, s.addr = spot.node.addr.toNat := by
  obtain ⟨front, back, hw, -, -, hb⟩ := Spot.find?_eq_some_iff.1 hspot
  obtain ⟨nodes, c, hwalk, -, hmem⟩ := ht.walk
  obtain ⟨before, n⟩ := spot
  rw [hwalk] at hw
  dsimp only at hw hb
  have hring : ring n.addr := hmem n (by simp [hw])
  have hbefore : ∀ a, before = some a → ring a := by
    intro a ha
    rw [ha] at hb
    obtain ⟨k, hk, rfl⟩ : ∃ k, front.getLast? = some k ∧ k.addr = a := by simpa using hb.symm
    exact hmem k (by simp [hw, List.mem_of_getLast? hk])
  have hn : Node.at? h.memory n.addr = some n := Walk.at?_of_mem_nodes (by
    rw [← FirstFit.walk, hwalk, hw]
    simp)
  obtain ⟨k, hk, he, hs⟩ := ht.at? hring
  rw [he, hn] at hk
  obtain rfl := Option.some.inj hk
  unfold FirstFit.without
  cases hr : n.rest? need with
  | none =>
    obtain ⟨b, hb, hbring⟩ := (linksInto_iff hn).1 (ht.next n.addr hring)
    refine ⟨blocks, ring, ?_, fun s hs => ⟨s, hs, rfl⟩, n.slot, hs, rfl⟩
    dsimp only
    rw [hb]
    exact ht.linked hbring hbefore
  | some r =>
    have hcut := ht.cutAt hs hn hring hr hneed
    refine ⟨_, _, hcut.linked (Or.inr rfl) fun a ha => Or.inl (hbefore a ha), fun s hs => ?_,
      n.slot, hs, rfl⟩
    exact Marks.exists_addr_parts need r hs n.slot

theorem run_release (ht : h.Tangled blocks ring) (hs : s ∈ blocks) (hp : p.toNat = s.addr + 8) :
    ∃ h' ring' e, (release p).run h = ⟨.ok (), h', [e]⟩ ∧ h'.Tangled blocks ring' := by
  obtain ⟨n, hblock, hn, rfl⟩ := (ht.present s hs).blockOf hp
  refine ⟨h.pushed n.addr, _, .blockReleased n.addr, ?_, ht.pushed hs rfl⟩
  rw [FirstFit.run_release, if_neg (ne_zero_of_payload hp), hblock]

theorem run_releaseOnce (ht : h.Tangled blocks ring) (hs : s ∈ blocks)
    (hp : p.toNat = s.addr + 8) : ∃ fault, (releaseOnce p).run h = ⟨.error fault, h, []⟩ := by
  obtain ⟨n, hblock, -, -⟩ := (ht.present s hs).blockOf hp
  obtain ⟨nodes, b, hw, -⟩ := ht.walk
  have hcheck : ∃ fault, h.checkInUse p n.addr = .error fault := by
    simp only [checkInUse, hw]
    split
    · exact ⟨_, rfl⟩
    · exact ⟨_, rfl⟩
  obtain ⟨fault, hfault⟩ := hcheck
  refine ⟨fault, ?_⟩
  rw [FirstFit.run_releaseOnce, if_neg (ne_zero_of_payload hp), hblock]
  simp only [hfault]

end Tangled

/-- A free block that is given back again is linked to the block that was first, so that the blocks
in front of it lead round. -/
theorem Layout.tangled {free held : List Slot} (hl : h.Layout free held) (hs : s ∈ free)
    (hp : p.toNat = s.addr + 8) :
    ∃ a ring e, a.toNat = s.addr ∧ (release p).run h = ⟨.ok (), h.pushed a, [e]⟩ ∧
      (h.pushed a).Tangled (free ++ held) ring ∧
      ∃ k, linkAfter (h.pushed a).memory (some a) (k + 1) = some a := by
  obtain ⟨n, hblock, hn, rfl⟩ := (hl.stored s (List.mem_append_left _ hs)).blockOf hp
  obtain ⟨front, back, rfl⟩ := List.append_of_mem hs
  obtain ⟨mid, hfront, hrest⟩ := leads_append.1 hl.leads
  obtain ⟨rfl, -⟩ := hrest.uncons hn
  -- The ring is the block itself and those in front of it.
  obtain ⟨⟨b, hb, hmet⟩, hinto⟩ := hfront.met
  have hm : Marks h.memory (front ++ n.slot :: back ++ held) (Met front n.addr) := by
    refine ⟨hl.stored, hl.apart, fun c hc => ?_⟩
    rcases hc with rfl | ⟨t, ht, he⟩
    · exact ⟨n.slot, by simp, rfl⟩
    · exact ⟨t, by simp [ht], he⟩
  obtain ⟨hm', hnext⟩ := hm.lead (Or.inl rfl) hmet
  have hrun : (release p).run h = ⟨.ok (), h.pushed n.addr, [.blockReleased n.addr]⟩ := by
    rw [FirstFit.run_release, if_neg (ne_zero_of_payload hp), hblock]
  refine ⟨n.addr, Met front n.addr, _, rfl, hrun,
    { toMarks := ?_, next := ?_, head := ⟨n.addr, rfl, Or.inl rfl⟩ }, front.length, ?_⟩
  · rw [FirstFit.pushed, hb]
    exact hm'
  · rw [FirstFit.pushed, hb]
    refine fun c hc => hnext c hc fun he => ?_
    obtain ⟨t, ht, hct⟩ := hc.resolve_left he
    exact hinto t ht c hct
  · have hhead : h.head ≠ some 0 := hl.leads.link_ne_zero
    have hn' := Node.at?_putNext hn hhead
    have hi := (Node.at?_eq_some_iff.1 hn).2.1.2.1
    have hfront' : Leads (h.pushed n.addr).memory h.head front (some n.addr) := by
      have hfree := (List.pairwise_append.1 hl.apart).1
      refine hfront.frame (Memory.sameBut_putNext h.head hi) fun t ht x hlo hhi => ?_
      have hapart := (List.pairwise_append.1 hfree).2.2 t ht n.slot (List.mem_cons_self ..)
      exact hapart.symm.not_link hlo hhi
    have hself : (Header.peek (h.pushed n.addr).memory n.addr).next = h.head := by
      rw [FirstFit.pushed, ← Node.toHeader_of_at? hn']
    rw [linkAfter_succ, Option.bind_some, hself]
    exact hfront'.linkAfter_length

end FirstFit
end HeapWindow
