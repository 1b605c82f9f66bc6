import HeapWindow.Proofs.Auditing
import HeapWindow.Proofs.Openings

/-!
# Payloads decide nothing

The heap decides by what it reads in the memory that its clients write to. Yet of two clients that
make the same calls and write what they like into what they hold, both are given the same answers,
and see the same heap after each call. For a write leaves a ledger as it is, so that both clients
follow one and the same ledger; and a ledger fixes the links between the free blocks too.
-/

namespace HeapWindow

namespace Chain

variable {m m' : Memory} {link link' : Option Addr} {nodes nodes' : List Node}

theorem Linked.eq_of_slots (h : Linked m link nodes) (h' : Linked m' link' nodes')
    (hs : nodes.map Node.slot = nodes'.map Node.slot) : link = link' ∧ nodes = nodes' := by
  induction h generalizing link' nodes' with
  | nil =>
    obtain rfl : nodes' = [] := List.map_eq_nil_iff.1 hs.symm
    cases h'
    exact ⟨rfl, rfl⟩
  | @cons n nodes stored inside aligned later ih =>
    cases h' with
    | nil => cases hs
    | @cons k nodes' stored' inside' aligned' later' =>
      obtain ⟨hslot, hrest⟩ := List.cons.inj hs
      obtain ⟨hnext, rfl⟩ := ih later' hrest
      have haddr : n.addr = k.addr := UInt32.toNat_inj.1 (congrArg Slot.addr hslot)
      have hsize : n.size = k.size := UInt32.toNat_inj.1 (congrArg Slot.size hslot)
      obtain ⟨⟨size, next⟩, addr⟩ := n
      obtain ⟨⟨size', next'⟩, addr'⟩ := k
      dsimp only at haddr hsize hnext
      subst haddr hsize hnext
      exact ⟨rfl, rfl⟩

end Chain

namespace FirstFit.Layout

variable {h h' : FirstFit} {free held held' : List Slot}

theorem chain_eq (hl : h.Layout free held) (hl' : h'.Layout free held') :
    h.head = h'.head ∧ h.walk = h'.walk := by
  obtain ⟨nodes, hw, hn⟩ := hl.walk_eq
  obtain ⟨nodes', hw', hn'⟩ := hl'.walk_eq
  have hlinked := (Chain.follow_eq_iff_linked.1 hw).1
  have hlinked' := (Chain.follow_eq_iff_linked.1 hw').1
  obtain ⟨hhead, rfl⟩ := hlinked.eq_of_slots hlinked' (hn.trans hn'.symm)
  exact ⟨hhead, hw.trans hw'.symm⟩

end FirstFit.Layout

namespace Ledger

def answers : Ledger → List Request → List (Except Fault (Option Addr))
  | _, [] => []
  | l, r :: rs => l.answer r :: answers (l.step r) rs

theorem step_of_not_isCall (l : Ledger) {r : Request} (hr : ¬ r.IsCall) : l.step r = l := by
  cases r with
  | write a bytes => rfl
  | allocate | release | releaseOnce => exact absurd trivial hr

theorem after_filter_isCall (l : Ledger) (rs : List Request) :
    l.after (rs.filter Request.IsCall) = l.after rs := by
  induction rs generalizing l with
  | nil => rfl
  | cons r rs ih =>
    by_cases hr : r.IsCall
    · rw [List.filter_cons_of_pos (by simpa using hr)]
      exact ih (l.step r)
    · rw [List.filter_cons_of_neg (by simpa using hr), ih l]
      show _ = (l.step r).after rs
      rw [l.step_of_not_isCall hr]

end Ledger

namespace Tenancy

variable {w : Window} {h : FirstFit} {t u : Tenancy} {l : Ledger} {rs qs : List Request}

/-- The answers to those requests of a run that are calls. -/
def callAnswers (t : Tenancy) (rs : List Request) : List (Except Fault (Option Addr)) :=
  ((rs.zip (t.answers rs)).filter fun e => e.1.IsCall).map Prod.snd

/-- Whatever can be asked of the heap without touching a payload is answered alike. -/
structure Alike (t u : Tenancy) : Prop where
  head : t.heap.head = u.heap.head
  walk : t.heap.walk = u.heap.walk
  totalFree : t.heap.totalFree = u.heap.totalFree
  largestFree : t.heap.largestFree = u.heap.largestFree
  audit : t.heap.audit = u.heap.audit
  live : t.live = u.live
  payloadSize : ∀ p ∈ t.live, t.heap.payloadSize p = u.heap.payloadSize p

namespace Follows

theorem answers (hf : Follows t l) (hrs : Run.Along Tenancy.step Keeps t rs) :
    t.answers rs = l.answers rs := by
  induction rs generalizing t l with
  | nil => rfl
  | cons r rs ih =>
    have hs := hf.step hrs.1
    rw [Tenancy.answers, Ledger.answers, hs.answer, ih hs.follows hrs.2]

theorem callAnswers (hf : Follows t l) (hrs : Run.Along Tenancy.step Keeps t rs) :
    t.callAnswers rs = l.answers (rs.filter Request.IsCall) := by
  rw [Tenancy.callAnswers, hf.answers hrs]
  clear hf hrs
  induction rs generalizing l with
  | nil => rfl
  | cons r rs ih =>
    rw [Ledger.answers, List.zip_cons_cons]
    by_cases hr : r.IsCall
    · rw [List.filter_cons_of_pos (by simpa using hr), List.filter_cons_of_pos (by simpa using hr),
        List.map_cons, ih]
      rfl
    · rw [List.filter_cons_of_neg (by simpa using hr), List.filter_cons_of_neg (by simpa using hr),
        ih, l.step_of_not_isCall hr]

theorem alike (hf : Follows t l) (hf' : Follows u l) : Alike t u where
  head := (hf.layout.chain_eq hf'.layout).1
  walk := (hf.layout.chain_eq hf'.layout).2
  totalFree := congrArg Walk.total (hf.layout.chain_eq hf'.layout).2
  largestFree := congrArg Walk.largest (hf.layout.chain_eq hf'.layout).2
  audit := hf.layout.audit_eq.trans hf'.layout.audit_eq.symm
  live := by
    have hinj : Function.Injective UInt32.toNat := fun _ _ => UInt32.toNat_inj.1
    exact List.map_injective_iff.2 hinj (hf.live.trans hf'.live.symm)
  payloadSize p hp := by
    obtain ⟨s, hs, hat⟩ := hf.mem_live_iff.1 hp
    have hs' := List.mem_append_right l.free hs
    exact hf.layout.payloadSize_eq hf'.layout hs' hs' (Slot.toNat_of_isAt hat)

end Follows

/-- Two runs that make the same calls are given the same answers, and after the same calls they have
heaps that are alike, whatever was written into the payloads in between. -/
theorem calls_blind_to_payloads (hw : FirstFit.Opens w h)
    (hrs : Run.Along step Allows (fresh h) rs) (hqs : Run.Along step Allows (fresh h) qs)
    (hc : rs.filter Request.IsCall = qs.filter Request.IsCall) :
    (fresh h).callAnswers rs = (fresh h).callAnswers qs ∧
      ∀ rs' qs', rs' <+: rs → qs' <+: qs →
        rs'.filter Request.IsCall = qs'.filter Request.IsCall →
          Alike ((fresh h).after rs') ((fresh h).after qs') := by
  have hkeeps : ∀ t r, Allows t r → Keeps t r := fun t r => Or.inl
  have hf := follows_fresh hw
  refine ⟨?_, fun rs' qs' hr hq hc' => ?_⟩
  · rw [hf.callAnswers (hrs.mono hkeeps), hf.callAnswers (hqs.mono hkeeps), hc]
  · obtain ⟨rs'', rfl⟩ := hr
    obtain ⟨qs'', rfl⟩ := hq
    have hrs' := hf.after ((Run.along_append.1 hrs).1.mono hkeeps)
    have hqs' := hf.after ((Run.along_append.1 hqs).1.mono hkeeps)
    rw [← Ledger.after_filter_isCall, ← hc', Ledger.after_filter_isCall] at hqs'
    exact hrs'.alike hqs'

/-- One client writes what could be headers into both of its blocks, and the other writes nothing. -/
theorem calls_blind_to_payloads_on_ten_words :
    let rs : List Request := [.allocate 5, .write 0x1008 [255, 255, 255, 255, 0, 16, 0, 0],
      .allocate 4, .write 0x1018 [8, 0, 0, 0], .release 0x1008, .allocate 0]
    let qs : List Request := [.allocate 5, .allocate 4, .release 0x1008, .allocate 0]
    (fresh .onTenWords).callAnswers rs = (fresh .onTenWords).callAnswers qs ∧
      Alike ((fresh .onTenWords).after rs) ((fresh .onTenWords).after qs) := by
  intro rs qs
  have hrs : Run.Along step Allows (fresh .onTenWords) rs := by decide +kernel
  have hqs : Run.Along step Allows (fresh .onTenWords) qs := by decide +kernel
  obtain ⟨hanswers, halike⟩ := calls_blind_to_payloads FirstFit.opens_onTenWords hrs hqs rfl
  exact ⟨hanswers, halike rs qs (List.prefix_refl rs) (List.prefix_refl qs) rfl⟩

end Tenancy
end HeapWindow
