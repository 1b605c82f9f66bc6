import HeapWindow.Proofs.Openings

/-!
# Payloads are the client's

The heap writes headers into the memory that its clients use. It writes them into free blocks, and
into the link in front of a payload, so that from the time a block is handed out until it is given
back the bytes of its payload are what the client itself last wrote there.
-/

namespace HeapWindow

namespace Request

def GivesBack (p : Addr) (r : Request) : Prop := r = release p ∨ r = releaseOnce p

instance (p : Addr) (r : Request) : Decidable (r.GivesBack p) := inferInstanceAs (Decidable (_ ∨ _))

def WritesWithin (lo hi : Nat) : Request → Prop
  | write a bytes => lo ≤ a.toNat ∧ a.toNat + bytes.length ≤ hi
  | _ => False

instance (lo hi : Nat) : DecidablePred (WritesWithin lo hi)
  | write a bytes => inferInstanceAs (Decidable (lo ≤ a.toNat ∧ a.toNat + bytes.length ≤ hi))
  | allocate _ | release _ | releaseOnce _ => isFalse id

/-- The byte at `x` after the client's own write, where `b` was before it. -/
def overwrite (x : Nat) (b : UInt8) : Request → UInt8
  | write a bytes =>
    if a.toNat ≤ x ∧ x < a.toNat + bytes.length then bytes.getD (x - a.toNat) 0 else b
  | _ => b

end Request

namespace Ledger

variable {l : Ledger} {r : Request} {s : Slot} {p : Addr}

theorem held_step (hs : s ∈ l.held) (hp : s.isAt p) (hr : ¬ r.GivesBack p) :
    s ∈ (l.step r).held := by
  have hgive : ∀ q, ¬ q = p → ∀ u, l.held.find? (Slot.isAt q) = some u →
      s ∈ l.held.eraseP (Slot.isAt q) := by
    intro q hq u hu
    refine (List.mem_eraseP_of_neg fun hat => hq ?_).2 hs
    have hat' := Slot.toNat_of_isAt hat
    exact UInt32.toNat_inj.1 (hat'.trans (Slot.toNat_of_isAt hp).symm)
  cases r with
  | allocate n =>
    rw [step]
    split
    · exact List.mem_cons_of_mem _ hs
    · exact hs
  | release q | releaseOnce q =>
    have hq : ¬ q = p := by
      rintro rfl
      exact hr (by simp [Request.GivesBack])
    rw [step]
    split
    · next u hu => exact hgive q hq u hu
    · exact hs
  | write a bytes => exact hs

end Ledger

namespace Tenancy

variable {w : Window} {h : FirstFit} {t : Tenancy} {l : Ledger} {r : Request} {s : Slot} {p : Addr}

namespace Follows

/-- A request reaches a held block only at its link, unless the client writes into its payload. -/
theorem not_reaches (hf : Follows t l) (hr : t.Keeps r) (hs : s ∈ l.held) {x : Nat}
    (hlo : s.addr ≤ x) (hhi : x < s.stop) (hlink : ¬ (s.addr + 4 ≤ x ∧ x < s.addr + 8))
    (hown : r.WritesWithin (s.addr + 8) s.stop → x < s.addr + 8) : ¬ l.Reaches r x := by
  have hs' : s ∈ l.free ++ l.held := List.mem_append_right _ hs
  have hgive : ∀ p, (r = .release p ∨ r = .releaseOnce p) → ¬ (p.toNat ≤ x + 4 ∧ x < p.toNat) := by
    intro p hp hx
    rcases hf.exists_of_keeps hr hp with rfl | ⟨u, hu, hat⟩
    · exact absurd hx.2 (Nat.not_lt_zero x)
    · have hup := Slot.toNat_of_isAt hat
      exact hf.layout.link_outside hs' hu hlo hhi hlink ⟨by omega, by omega⟩
  cases r with
  | allocate n =>
    have ha := (List.pairwise_append.1 hf.layout.apart).2.2
    exact Slot.not_within_of_apart (fun u hu => (ha u hu s hs).symm) hlo hhi
  | release p => exact hgive p (Or.inl rfl)
  | releaseOnce p => exact hgive p (Or.inr rfl)
  | write a bytes =>
    intro hx
    obtain ⟨p, hp, hc⟩ : ∃ p ∈ t.live, Covers t.heap p a bytes.length := hr.elim id id
    obtain ⟨u, hu, hulo, huhi⟩ := hf.within_of_covers hp hc
    simp only [Ledger.Reaches] at hx
    by_cases he : u = s
    · subst he
      have := hown ⟨hulo, huhi⟩
      omega
    · have ha := hf.layout.apart_of_ne (List.mem_append_right _ hu) hs' he
      exact ha.outside hlo hhi ⟨by omega, by omega⟩

theorem byte_size_step (hf : Follows t l) (hr : t.Keeps r) (hs : s ∈ l.held) {x : Nat}
    (hlo : s.addr ≤ x) (hhi : x < s.addr + 4) :
    (t.step r).heap.memory.byte x = t.heap.memory.byte x := by
  have hstop := s.header_lt_stop
  exact (hf.step hr).frame.byte x
    (hf.not_reaches hr hs hlo (by omega) (by omega) fun _ => by omega)

theorem byte_payload_step (hf : Follows t l) (hr : t.Keeps r) (hs : s ∈ l.held) {x : Nat}
    (hlo : s.addr + 8 ≤ x) (hhi : x < s.stop) :
    (t.step r).heap.memory.byte x =
      if r.WritesWithin (s.addr + 8) s.stop then Request.overwrite x (t.heap.memory.byte x) r
      else t.heap.memory.byte x := by
  by_cases hown : r.WritesWithin (s.addr + 8) s.stop
  · rw [if_pos hown]
    cases r with
    | allocate n | release p | releaseOnce p => exact hown.elim
    | write a bytes =>
      obtain ⟨hm, hrun⟩ := hf.run_write hs hown.1 hown.2
      rw [step_of_none hrun, Request.overwrite]
      exact Memory.byte_put hm x
  · rw [if_neg hown]
    exact (hf.step hr).frame.byte x
      (hf.not_reaches hr hs (by omega) hhi (by omega) fun h => absurd h hown)

theorem kept_after {qs : List Request} (hf : Follows t l) (hqs : Run.Along Tenancy.step Keeps t qs)
    (hs : s ∈ l.held) (hp : s.isAt p) (hno : ∀ r ∈ qs, ¬ r.GivesBack p) :
    ∃ k, Follows (t.after qs) k ∧ s ∈ k.held ∧
      (∀ x, s.addr ≤ x → x < s.addr + 4 →
        (t.after qs).heap.memory.byte x = t.heap.memory.byte x) ∧
      ∀ x, s.addr + 8 ≤ x → x < s.stop → (t.after qs).heap.memory.byte x =
        (qs.filter (Request.WritesWithin (s.addr + 8) s.stop)).foldl (Request.overwrite x)
          (t.heap.memory.byte x) := by
  induction qs generalizing t l with
  | nil => exact ⟨l, hf, hs, fun _ _ _ => rfl, fun _ _ _ => rfl⟩
  | cons r qs ih =>
    have hheld := Ledger.held_step hs hp (hno r (by simp))
    obtain ⟨k, hk, hsk, hsize, hpay⟩ :=
      ih (hf.step hqs.1).follows hqs.2 hheld fun q hq => hno q (by simp [hq])
    refine ⟨k, hk, hsk, fun x hlo hhi => ?_, fun x hlo hhi => ?_⟩
    · exact (hsize x hlo hhi).trans (hf.byte_size_step hqs.1 hs hlo hhi)
    · have hbyte := hpay x hlo hhi
      rw [hf.byte_payload_step hqs.1 hs hlo hhi] at hbyte
      by_cases hown : r.WritesWithin (s.addr + 8) s.stop
      · rw [if_pos hown] at hbyte
        rw [List.filter_cons_of_pos (by simpa using hown)]
        exact hbyte
      · rw [if_neg hown] at hbyte
        rw [List.filter_cons_of_neg (by simpa using hown)]
        exact hbyte

end Follows

/-- From the time a block is handed out until it is given back it keeps its size, and the bytes of
its payload are what the client has written into this payload. -/
theorem payload_kept (rs qs : List Request) (hw : FirstFit.Opens w h)
    (hrs : Run.Along step Keeps (fresh h) (rs ++ qs)) (hp : p ∈ ((fresh h).after rs).live)
    (hno : ∀ r ∈ qs, ¬ r.GivesBack p) :
    let t := (fresh h).after rs
    let t' := (fresh h).after (rs ++ qs)
    p ∈ t'.live ∧ ∃ size, t.heap.payloadSize p = .ok size ∧
      t'.heap.payloadSize p = .ok size ∧
      (∀ x, p.toNat ≤ x + 8 → x + 4 < p.toNat →
        t'.heap.memory.byte x = t.heap.memory.byte x) ∧
      ∀ x, p.toNat ≤ x → x < p.toNat + size.toNat → t'.heap.memory.byte x =
        (qs.filter (Request.WritesWithin p.toNat (p.toNat + size.toNat))).foldl
          (Request.overwrite x) (t.heap.memory.byte x) := by
  obtain ⟨hrs, hqs⟩ := Run.along_append.1 hrs
  obtain ⟨l, hf, -⟩ := exists_follows hw hrs
  obtain ⟨s, hs, hat⟩ := hf.mem_live_iff.1 hp
  obtain ⟨k, hk, hsk, hsize, hpay⟩ := hf.kept_after hqs hs hat hno
  have hsp := Slot.toNat_of_isAt hat
  obtain ⟨z, hz, hzs⟩ := hf.layout.exists_payloadSize (List.mem_append_right _ hs) hsp
  obtain ⟨z', hz', hzs'⟩ := hk.layout.exists_payloadSize (List.mem_append_right _ hsk) hsp
  obtain rfl : z' = z := UInt32.toNat_inj.1 (hzs'.trans hzs.symm)
  have hstop : s.stop = p.toNat + z'.toNat := by
    rw [Slot.stop]
    omega
  have hafter : (fresh h).after (rs ++ qs) = ((fresh h).after rs).after qs := List.foldl_append ..
  intro t t'
  refine ⟨?_, z', hz, ?_, fun x hlo hhi => ?_, fun x hlo hhi => ?_⟩
  all_goals simp only [t', hafter]
  · exact hk.mem_live_iff.2 ⟨s, hsk, hat⟩
  · exact hz'
  · exact hsize x (by omega) (by omega)
  · have hbyte := hpay x (by omega) (by omega)
    rw [← hsp, hstop] at hbyte
    exact hbyte

/-- The block behind the payload is given back and handed out again in the meantime. -/
theorem payload_kept_on_ten_words :
    let t := (fresh .onTenWords).after ([.allocate 5, .allocate 0] ++ [.write 0x1009 [1, 2],
      .release 0x1018, .allocate 30, .allocate 8, .write 0x1021 [3], .write 0x100A [4]])
    0x1008 ∈ t.live ∧ t.heap.memory.byte 0x1009 = 1 ∧ t.heap.memory.byte 0x100A = 4 := by
  obtain ⟨hlive, size, hsize, -, -, hbyte⟩ := payload_kept (p := 0x1008)
    [.allocate 5, .allocate 0] [.write 0x1009 [1, 2], .release 0x1018, .allocate 30, .allocate 8,
      .write 0x1021 [3], .write 0x100A [4]]
    FirstFit.opens_onTenWords
    (Run.Along.mono (fun _ _ => Or.inl) (by decide +kernel)) (by decide +kernel) (by decide +kernel)
  have h₈ : ((fresh .onTenWords).after [.allocate 5, .allocate 0]).heap.payloadSize 0x1008 =
      .ok 8 := by decide +kernel
  rw [h₈] at hsize
  obtain rfl := Except.ok.inj hsize
  refine ⟨hlive, ?_, ?_⟩
  · rw [hbyte 0x1009 (by decide) (by decide)]
    decide +kernel
  · rw [hbyte 0x100A (by decide) (by decide)]
    decide +kernel

end Tenancy
end HeapWindow
