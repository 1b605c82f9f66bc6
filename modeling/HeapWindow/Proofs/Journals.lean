import HeapWindow.Proofs.Faults
import HeapWindow.Proofs.Openings
import HeapWindow.Replay

/-!
# Events tell the chain

A block that changes hands is recorded by one event, before the links are written. A replay that is
told nothing else knows the free blocks in their order all the same: from the sizes of the blocks
that were handed out it also knows what a release puts in front of the chain. A request that is
refused records nothing but a lack of room.
-/

namespace HeapWindow

open Rounding

namespace Spot

def record (spot : Spot) (need : UInt32) : Event :=
  match spot.node.rest? need with
  | some r => .blockSplit spot.node.addr need r.addr r.size
  | none => .blockTaken spot.node.addr spot.node.size

theorem level_record (spot : Spot) (need : UInt32) : (spot.record need).level = .trace := by
  unfold record
  split <;> rfl

end Spot

namespace FirstFit

variable {h h' : FirstFit} {need size : UInt32} {spot : Spot} {p : Addr} {es : List Event}

theorem events_take (hs : Spot.find? need none h.walk.nodes = some spot) :
    ((take spot need).run h).events = [spot.record need] := by
  obtain ⟨hn, hb⟩ := inside_of_find? hs
  unfold Spot.record
  cases hr : spot.node.rest? need with
  | none => rw [run_take_of_none hb hr]
  | some r => rw [run_take_of_some hn hb hr]

theorem events_allocate (hn : roundUp? size = some need)
    (hs : Spot.find? need none h.walk.nodes = some spot) :
    ((allocate size).run h).events = [spot.record need] := by
  rw [run_allocate, hn]
  simp only [hs]
  exact events_take hs

theorem events_release (hp : p ≠ 0) (hr : (release p).run h = ⟨.ok (), h', es⟩) :
    ∃ a, a.toNat + 8 = p.toNat ∧ es = [.blockReleased a] := by
  rw [run_release, if_neg hp] at hr
  split at hr
  · cases hr
  · next n hn =>
    cases hr
    exact ⟨n.addr, (blockOf_eq_ok hn).2.1, rfl⟩

end FirstFit

namespace Request

def Moves : Request → Prop
  | allocate _ => True
  | release p | releaseOnce p => p ≠ 0
  | write .. => False

/-- The events are those of a request that is answered so. A block that changes hands is recorded
by one event, and a lack of room by one that names what the fault names. -/
def Reported (r : Request) (es : List Event) : Except Fault (Option Addr) → Prop
  | .ok _ => (r.Moves → ∃ e, es = [e] ∧ e.level = .trace) ∧ (¬ r.Moves → es = [])
  | .error (.outOfMemory requested available) =>
    ∃ e, es = [e] ∧ e.level = .debug ∧
      e.fields = [("requested", requested), ("available", available)]
  | .error _ => es = []

theorem reported_allocate (n : UInt32) (h : FirstFit) :
    (allocate n).Reported ((allocate n).perform.run h).events
      ((allocate n).perform.run h).result := by
  have hs := FirstFit.served_allocate n h
  have he : ∀ need spot, roundUp? n = some need → Spot.find? need none h.walk.nodes = some spot →
      ((FirstFit.allocate n).run h).events = [spot.record need] :=
    fun _ _ => FirstFit.events_allocate
  rw [perform, Action.run_map]
  generalize (FirstFit.allocate n).run h = o at hs he ⊢
  cases hs with
  | tooLarge | broken => rfl
  | met rounded found =>
    refine ⟨fun _ => ⟨_, he _ _ rounded found, Spot.level_record ..⟩, fun hm => ?_⟩
    exact absurd trivial hm
  | full => exact ⟨_, rfl, rfl, rfl⟩

theorem reported_release (p : Addr) (h : FirstFit) :
    (release p).Reported ((release p).perform.run h).events
      ((release p).perform.run h).result := by
  rw [perform, Action.run_map, FirstFit.run_release]
  by_cases hp : p = 0
  · rw [if_pos hp]
    exact ⟨fun hm => absurd hp hm, fun _ => rfl⟩
  · rw [if_neg hp]
    cases hn : FirstFit.blockOf h.memory p with
    | error fault =>
      obtain rfl := FirstFit.error_of_blockOf hn
      rfl
    | ok n => exact ⟨fun _ => ⟨_, rfl, rfl⟩, fun hm => absurd hp hm⟩

theorem reported_releaseOnce (p : Addr) (h : FirstFit) :
    (releaseOnce p).Reported ((releaseOnce p).perform.run h).events
      ((releaseOnce p).perform.run h).result := by
  rw [perform, Action.run_map, FirstFit.run_releaseOnce]
  by_cases hp : p = 0
  · rw [if_pos hp]
    exact ⟨fun hm => absurd hp hm, fun _ => rfl⟩
  · rw [if_neg hp]
    cases hn : FirstFit.blockOf h.memory p with
    | error fault =>
      obtain rfl := FirstFit.error_of_blockOf hn
      rfl
    | ok n =>
      cases hc : h.checkInUse p n.addr with
      | error fault =>
        simp only [hc]
        rcases FirstFit.error_of_checkInUse hc with rfl | ⟨a, rfl⟩ <;> rfl
      | ok u =>
        simp only [hc]
        exact reported_release p h

theorem reported (r : Request) (h : FirstFit) :
    r.Reported (r.perform.run h).events (r.perform.run h).result := by
  cases r with
  | allocate n => exact reported_allocate n h
  | release p => exact reported_release p h
  | releaseOnce p => exact reported_releaseOnce p h
  | write a bytes =>
    rw [run_write]
    split
    · exact ⟨False.elim, fun _ => rfl⟩
    · rfl

def RefusedBy (r : Request) (h : FirstFit) : Prop :=
  ∃ fault, (r.perform.run h).result = .error fault

instance (r : Request) (h : FirstFit) : Decidable (r.RefusedBy h) :=
  match hr : (r.perform.run h).result with
  | .error fault => isTrue ⟨fault, hr⟩
  | .ok _ => isFalse fun ⟨_, he⟩ => nomatch hr.symm.trans he

theorem allOrNothing_perform (r : Request) (h : FirstFit) : r.perform.AllOrNothing h := by
  cases r with
  | allocate n => exact (h.allOrNothing_allocate n).map
  | release p => exact (h.allOrNothing_release p).map
  | releaseOnce p => exact (h.allOrNothing_releaseOnce p).map
  | write a bytes => exact (FirstFit.allOrNothing_onMemory (Memory.allOrNothing_store _)).map

end Request

namespace Replay

variable {rp : Replay} {l : Ledger} {entries front back sizes : List (Addr × UInt32)}
  {a b : Addr} {size need : UInt32} {s : Slot} {slots : List Slot} {m : Memory} {n : Node}
  {before : Option Addr}

def slotOf (e : Addr × UInt32) : Slot := ⟨e.1.toNat, e.2.toNat⟩

theorem slotOf_injective : Function.Injective slotOf := by
  rintro ⟨a, size⟩ ⟨b, size'⟩ he
  obtain ⟨ha, hs⟩ := Slot.mk.inj he
  exact Prod.ext (UInt32.toNat_inj.1 ha) (UInt32.toNat_inj.1 hs)

/-- For each of the blocks the size that was noted last is its own. -/
def Notes (sizes : List (Addr × UInt32)) (slots : List Slot) : Prop :=
  ∀ s ∈ slots, ∃ e, sizes.lookup e.1 = some e.2 ∧ slotOf e = s

/-- The replay knows where the free blocks are and in which order, and how large each block is
that is held. -/
structure Knows (rp : Replay) (l : Ledger) : Prop where
  free : rp.free.map slotOf = l.free
  held : Notes rp.sizes l.held

theorem run_refused {r : Request} {h : FirstFit} (rp : Replay) (hr : r.RefusedBy h) :
    rp.run (r.perform.run h).events = rp := by
  obtain ⟨fault, hf⟩ := hr
  have hrep := r.reported h
  rw [hf] at hrep
  generalize (r.perform.run h).events = es at hrep
  cases fault with
  | outOfMemory requested available =>
    obtain ⟨e, rfl, hlevel, hfields⟩ := hrep
    refine apply_debug hlevel fun start size he => ?_
    rw [he] at hfields
    simp [Event.fields] at hfields
  | badWindow | outOfBounds | notABlock | alreadyFree | brokenChain | requestTooLarge =>
    obtain rfl : es = [] := hrep
    rfl

theorem filter_ne (h : ∀ e ∈ entries, e.1 ≠ a) : entries.filter (fun e => e.1 ≠ a) = entries :=
  List.filter_eq_self.2 fun e he => by simpa using h e he

theorem map_replace (h : ∀ e ∈ entries, e.1 ≠ a) :
    (entries.map fun e => if e.1 = a then (b, size) else e) = entries := by
  refine (List.map_congr_left fun e he => ?_).trans (List.map_id _)
  rw [if_neg (h e he), id]

theorem Notes.cons (h : Notes sizes slots) (size : UInt32) (hne : ∀ s ∈ slots, s.addr ≠ a.toNat) :
    Notes ((a, size) :: sizes) (slotOf (a, size) :: slots) := by
  intro s hs
  rcases List.mem_cons.1 hs with rfl | hs
  · exact ⟨(a, size), List.lookup_cons_self, rfl⟩
  · obtain ⟨e, hlook, rfl⟩ := h s hs
    have ha : (e.1 == a) = false :=
      beq_eq_false_iff_ne.2 fun ha => hne _ hs (congrArg UInt32.toNat ha)
    refine ⟨e, ?_, rfl⟩
    rw [List.lookup_cons, ha]
    exact hlook

theorem free_apply_record (hn : n.Inside m) (hrp : rp.free = front ++ (n.addr, n.size) :: back)
    (hf : ∀ e ∈ front, e.1 ≠ n.addr) (hb : ∀ e ∈ back, e.1 ≠ n.addr) :
    (rp.apply (Spot.record ⟨before, n⟩ need)).free.map slotOf =
      front.map slotOf ++ (Pool.cut n.slot need.toNat).2.toList ++ back.map slotOf := by
  unfold Spot.record
  cases hr : n.rest? need with
  | none =>
    have hdel : (rp.apply (.blockTaken n.addr n.size)).free = front ++ back := by
      rw [apply, hrp, List.filter_append, List.filter_cons_of_neg (by simp), filter_ne hf,
        filter_ne hb]
    rw [Node.cut_slot_of_none hr, hdel, List.map_append, Option.toList_none, List.append_nil]
  | some r =>
    have hrepl : (rp.apply (.blockSplit n.addr need r.addr r.size)).free =
        front ++ (r.addr, r.size) :: back := by
      rw [apply, hrp, List.map_append, List.map_cons, if_pos rfl, map_replace hf, map_replace hb]
    rw [Node.cut_slot_of_some hn hr, hrepl, List.map_append, List.map_cons, Option.toList_some,
      List.append_assoc]
    rfl

theorem sizes_apply_record (rp : Replay) (before : Option Addr) (need : UInt32)
    (hn : n.Inside m) :
    ∃ size, (rp.apply (Spot.record ⟨before, n⟩ need)).sizes = (n.addr, size) :: rp.sizes ∧
      slotOf (n.addr, size) = (Pool.cut n.slot need.toNat).1 := by
  unfold Spot.record
  cases hr : n.rest? need with
  | none => exact ⟨n.size, rfl, by rw [Node.cut_slot_of_none hr]; rfl⟩
  | some r => exact ⟨need, rfl, by rw [Node.cut_slot_of_some hn hr]; rfl⟩

theorem Knows.take {front back : List Slot} (hk : rp.Knows l)
    (hfree : l.free = front ++ n.slot :: back) (hn : n.Inside m)
    (hne : ∀ s ∈ front ++ back ++ l.held, s.addr ≠ n.addr.toNat) :
    (rp.apply (Spot.record ⟨before, n⟩ need)).Knows
      ⟨front ++ (Pool.cut n.slot need.toNat).2.toList ++ back,
        (Pool.cut n.slot need.toNat).1 :: l.held⟩ := by
  have hmap := hk.free
  rw [hfree] at hmap
  obtain ⟨f, rest, hrp, rfl, hrest⟩ := List.map_eq_append_iff.1 hmap
  obtain ⟨e, b, rfl, he, rfl⟩ := List.map_eq_cons_iff.1 hrest
  obtain rfl : e = (n.addr, n.size) := slotOf_injective he
  have hother : ∀ e, slotOf e ∈ f.map slotOf ++ b.map slotOf ++ l.held → e.1 ≠ n.addr :=
    fun e hs ha => hne (slotOf e) hs (congrArg UInt32.toNat ha)
  obtain ⟨size, hsizes, hslot⟩ := sizes_apply_record rp before need hn
  refine ⟨free_apply_record hn hrp ?_ ?_, ?_⟩
  · exact fun e hm => hother e (by simp [List.mem_map_of_mem hm])
  · exact fun e hm => hother e (by simp [List.mem_map_of_mem hm])
  · show Notes (rp.apply _).sizes ((Pool.cut n.slot need.toNat).1 :: l.held)
    rw [hsizes, ← hslot]
    exact hk.held.cons size fun s hs => hne s (List.mem_append_right _ hs)

theorem Knows.give (hk : rp.Knows l) (hs : s ∈ l.held) (ha : a.toNat = s.addr)
    (hsub : slots ⊆ l.held) : (rp.apply (.blockReleased a)).Knows ⟨s :: l.free, slots⟩ where
  free := by
    obtain ⟨⟨b, size⟩, hlook, rfl⟩ := hk.held s hs
    obtain rfl : a = b := UInt32.toNat_inj.1 ha
    simp only [apply, List.map_cons, hk.free, hlook, Option.getD_some]
  held u hu := hk.held u (hsub hu)

end Replay

namespace Tenancy

variable {w : Window} {h : FirstFit} {t : Tenancy} {l : Ledger} {r : Request} {rs : List Request}
  {rp : Replay}

def Tolerates (t : Tenancy) (r : Request) : Prop := t.Allows r ∨ r.RefusedBy t.heap

instance (t : Tenancy) (r : Request) : Decidable (t.Tolerates r) :=
  inferInstanceAs (Decidable (_ ∨ _))

theorem step_of_refused (hr : r.RefusedBy t.heap) : t.step r = t := by
  obtain ⟨fault, hf⟩ := hr
  have hs := r.allOrNothing_perform t.heap fault hf
  generalize ho : r.perform.run t.heap = o at hf hs
  obtain ⟨result, state, es⟩ := o
  obtain rfl : result = .error fault := hf
  obtain rfl : state = t.heap := hs
  exact step_of_error ho

namespace Follows

theorem knows_allocate {n need : UInt32} {found : Slot × List Slot} (hf : Follows t l)
    (hk : rp.Knows l) (hn : roundUp? n = some need)
    (ha : Pool.allocate need.toNat l.free = some found) :
    (rp.run ((Request.allocate n).perform.run t.heap).events).Knows (l.step (.allocate n)) := by
  obtain ⟨taken, free⟩ := found
  obtain ⟨front, k, back, before, hfree, hat, -, hspot, htaken, hfree'⟩ :=
    hf.layout.exists_spot ha
  have hev : ((Request.allocate n).perform.run t.heap).events = [Spot.record ⟨before, k⟩ need] :=
    FirstFit.events_allocate hn hspot
  have hl : l.step (.allocate n) = ⟨free, taken :: l.held⟩ := by
    rw [Ledger.step, hn, Option.bind_some, ha]
  have happart := hf.layout.apart
  rw [hfree] at happart
  have hcons := ((FirstFit.perm_take front back l.held k.slot).pairwise_iff Slot.Apart.symm).1
    happart
  rw [hev, hl, htaken, hfree']
  refine hk.take hfree (Node.at?_eq_some_iff.1 hat).2.1 fun s hs he => ?_
  have hap := Slot.apart_iff.1 ((List.pairwise_cons.1 hcons).1 s hs)
  have hs' := s.header_lt_stop
  have hk' := k.slot.header_lt_stop
  rw [Node.addr_slot] at hap hk'
  omega

theorem knows_give {p : Addr} (hf : Follows t l) (hk : rp.Knows l) (hp : p = 0 ∨ p ∈ t.live)
    (hr : r = .release p ∨ r = .releaseOnce p) :
    (rp.run (r.perform.run t.heap).events).Knows (l.step r) := by
  rcases hp with rfl | hp
  · have hev : (r.perform.run t.heap).events = [] := by rcases hr with rfl | rfl <;> rfl
    have hfind : l.held.find? (Slot.isAt 0) = none :=
      List.find?_eq_none.2 fun s _ => not_isAt_zero s
    have hl : l.step r = l := by rcases hr with rfl | rfl <;> rw [Ledger.step, hfind]
    rwa [hev, hl]
  · obtain ⟨s, hs⟩ := hf.find?_of_mem_live hp
    obtain ⟨h', e, hany, honce, -, -⟩ := hf.run_give hs
    have hsp := Slot.toNat_of_isAt (List.find?_some hs)
    obtain ⟨a, ha, he⟩ := FirstFit.events_release (FirstFit.ne_zero_of_payload hsp) hany
    have hev : (r.perform.run t.heap).events = [.blockReleased a] := by
      rcases hr with rfl | rfl
      · rw [Request.perform, Action.run_map, hany, he]
      · rw [Request.perform, Action.run_map, honce, he]
    have hl : l.step r = ⟨s :: l.free, l.held.eraseP (Slot.isAt p)⟩ := by
      rcases hr with rfl | rfl <;> rw [Ledger.step, hs]
    rw [hev, hl]
    exact hk.give (List.mem_of_find?_eq_some hs) (by omega) List.eraseP_subset

theorem knows_step (hf : Follows t l) (hk : rp.Knows l) (hr : t.Tolerates r) :
    ∃ l', Follows (t.step r) l' ∧ (rp.run (r.perform.run t.heap).events).Knows l' := by
  by_cases hx : r.RefusedBy t.heap
  · rw [step_of_refused hx, Replay.run_refused rp hx]
    exact ⟨l, hf, hk⟩
  · have hallow := hr.resolve_right hx
    have hm := hf.step (Or.inl hallow)
    refine ⟨l.step r, hm.follows, ?_⟩
    cases r with
    | allocate n =>
      have hans := hm.answer
      rw [Ledger.answer] at hans
      cases hn : roundUp? n with
      | none =>
        rw [hn] at hans
        exact absurd ⟨_, hans⟩ hx
      | some need =>
        cases ha : Pool.allocate need.toNat l.free with
        | none =>
          simp only [hn, ha] at hans
          exact absurd ⟨_, hans⟩ hx
        | some found => exact hf.knows_allocate hk hn ha
    | release p => exact hf.knows_give hk hallow (Or.inl rfl)
    | releaseOnce p => exact hf.knows_give hk hallow (Or.inr rfl)
    | write a bytes =>
      have hev : ((Request.write a bytes).perform.run t.heap).events = [] := by
        rw [Request.run_write]
        split <;> rfl
      rwa [hev]

theorem knows_after (hf : Follows t l) (hk : rp.Knows l)
    (hrs : Run.Along Tenancy.step Tolerates t rs) :
    ∃ l', Follows (t.after rs) l' ∧ (rp.run (t.journal rs)).Knows l' := by
  induction rs generalizing t l rp with
  | nil => exact ⟨l, hf, hk⟩
  | cons r rs ih =>
    obtain ⟨l', hf', hk'⟩ := hf.knows_step hk hrs.1
    rw [journal, Replay.run_append]
    exact ih hf' hk' hrs.2

theorem walk_of_knows (hf : Follows t l) (hk : rp.Knows l) :
    t.heap.walk = ⟨t.heap.walk.nodes, none⟩ ∧
      rp.free = t.heap.walk.nodes.map fun n => (n.addr, n.size) := by
  obtain ⟨nodes, hw, hn⟩ := hf.layout.walk_eq
  rw [hw]
  refine ⟨rfl, List.map_injective_iff.2 Replay.slotOf_injective ?_⟩
  rw [hk.free, ← hn, List.map_map]
  rfl

end Follows

theorem knows_opening (hw : FirstFit.Opens w h) :
    (Replay.empty.run ((FirstFit.ofWindow w : Action Unit FirstFit).run ()).events).Knows
      (Ledger.ofWindow w) := by
  obtain ⟨m, size, hrun, -, hstart, -, h₈⟩ := hw.exists_run
  rw [hrun]
  refine ⟨?_, fun s hs => absurd hs List.not_mem_nil⟩
  rw [Ledger.ofWindow, ← hstart, ← h₈, Nat.add_sub_cancel_left]
  rfl

/-- After every run of requests that the client may make, and of others that are turned down, a
replay of all events since the heap was opened has in its list just the blocks that a walk meets, in
this order and with these sizes. And on every heap each request records what its answer says. -/
theorem journal_tells_chain (rs : List Request) (hw : FirstFit.Opens w h)
    (hrs : Run.Along step Tolerates (fresh h) rs) :
    let opening := ((FirstFit.ofWindow w : Action Unit FirstFit).run ()).events
    let walk := ((fresh h).after rs).heap.walk
    walk.broken = none ∧
      (Replay.empty.run (opening ++ (fresh h).journal rs)).free =
        walk.nodes.map (fun n => (n.addr, n.size)) ∧
      ∀ (r : Request) (g : FirstFit),
        r.Reported (r.perform.run g).events (r.perform.run g).result := by
  obtain ⟨l, hf, hk⟩ := (follows_fresh hw).knows_after (knows_opening hw) hrs
  rw [← Replay.run_append] at hk
  obtain ⟨hwalk, hfree⟩ := hf.walk_of_knows hk
  exact ⟨congrArg Walk.broken hwalk, hfree, Request.reported⟩

/-- There is no room for thirty bytes, and no block outside the window. -/
theorem journal_tells_chain_on_ten_words :
    let opening := ((FirstFit.ofWindow ⟨0x1000, 40⟩ : Action Unit FirstFit).run ()).events
    let rs := [.allocate 5, .allocate 0, .allocate 30, .release 0x2008, .release 0x1008]
    (Replay.empty.run (opening ++ (fresh .onTenWords).journal rs)).free =
        [(0x1000, 8), (0x1018, 8)] ∧
      ∃ e, ((Request.allocate 34).perform.run .onTenWords).events = [e] ∧ e.level = .debug ∧
        e.fields = [("requested", 36), ("available", 32)] := by
  intro opening rs
  obtain ⟨-, hfree, hreported⟩ := journal_tells_chain (w := ⟨0x1000, 40⟩) rs
    FirstFit.opens_onTenWords (by decide +kernel)
  refine ⟨hfree.trans (by decide +kernel), ?_⟩
  have hrep := hreported (.allocate 34) .onTenWords
  have hfull : ((Request.allocate 34).perform.run .onTenWords).result =
      .error (.outOfMemory 36 32) := by decide +kernel
  rwa [hfull] at hrep

end Tenancy
end HeapWindow
