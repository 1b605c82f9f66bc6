import HeapWindow.Sharing
import HeapWindow.Turns
import Mathlib.Algebra.GroupWithZero.Nat
import Mathlib.Data.List.Basic

/-!
# Interleavings

What threads that take turns do to a heap is settled by the list of what is done in turn. If all of
them ask for the same, it makes no difference who is first: the answers come in one and the same
order, and only the threads they go to are others.
-/

namespace HeapWindow
namespace Turns

variable {η α β : Type}

def inTurn : List (Nat × Action η α) → Action η (List (Nat × Except Fault α))
  | [] => pure []
  | (i, x) :: later => do
    let answer ← x.attempt
    ((i, answer) :: ·) <$> inTurn later

theorem serve_eq_inTurn (threads : List (List (Action η α))) (turns : List Nat) :
    serve threads turns = inTurn (schedule threads turns) := by
  induction turns generalizing threads with
  | nil => rfl
  | cons i turns ih =>
    rw [serve, schedule]
    cases threads[i]? with
    | none => exact ih threads
    | some p =>
      cases p with
      | nil => exact ih threads
      | cons x later =>
        dsimp only
        rw [ih]
        rfl

/-- No turn ends in a fault, since a fault is an answer as well. -/
theorem run_inTurn_cons (i : Nat) (x : Action η α) (later : List (Nat × Action η α)) (s : η) :
    (inTurn ((i, x) :: later)).run s =
      ⟨((inTurn later).run (x.run s).state).result.map ((i, (x.run s).result) :: ·),
        ((inTurn later).run (x.run s).state).state,
        (x.run s).events ++ ((inTurn later).run (x.run s).state).events⟩ := by
  rw [inTurn, Action.run_bind_ok (Action.run_attempt x s), Action.run_map]

theorem schedule_map (f : α → β) (threads : List (List α)) (turns : List Nat) :
    schedule (threads.map (List.map f)) turns =
      (schedule threads turns).map fun turn => (turn.1, f turn.2) := by
  induction turns generalizing threads with
  | nil => rfl
  | cons i turns ih =>
    rw [schedule, schedule, List.getElem?_map]
    cases h : threads[i]? with
    | none => exact ih threads
    | some p =>
      cases p with
      | nil => exact ih threads
      | cons x later =>
        simp only [Option.map_some, List.map_cons]
        rw [← ih, List.map_set]

theorem mem_schedule {threads : List (List α)} {turns : List Nat} {turn : Nat × α}
    (h : turn ∈ schedule threads turns) : ∃ p ∈ threads, turn.2 ∈ p := by
  induction turns generalizing threads with
  | nil => cases h
  | cons i turns ih =>
    rw [schedule] at h
    split at h
    · next x later hi =>
      have hp := List.mem_of_getElem? hi
      rcases List.mem_cons.1 h with rfl | h
      · exact ⟨_, hp, List.mem_cons_self ..⟩
      · obtain ⟨p, hm, hturn⟩ := ih h
        rcases List.mem_or_eq_of_mem_set hm with hm | rfl
        · exact ⟨p, hm, hturn⟩
        · exact ⟨_, hp, List.mem_cons_of_mem _ hturn⟩
    · exact ih h

theorem sum_length_set {threads : List (List α)} {i : Nat} {x : α} {later : List α}
    (h : threads[i]? = some (x :: later)) :
    (threads.map List.length).sum = ((threads.set i later).map List.length).sum + 1 := by
  obtain ⟨hi, hx⟩ := List.getElem?_eq_some_iff.1 h
  obtain ⟨front, back, hthreads, -, hset⟩ := @List.exists_of_set _ i later threads hi
  rw [hx] at hthreads
  rw [hset, hthreads]
  simp only [List.map_append, List.map_cons, List.sum_append, List.sum_cons, List.length_cons]
  omega

theorem Suffice.tail {threads : List (List α)} {i : Nat} {turns : List Nat}
    (h : Suffice threads (i :: turns)) :
    match threads[i]? with
    | some (_ :: later) => Suffice (threads.set i later) turns
    | _ => Suffice threads turns := by
  have hother : ∀ j p, threads[j]? = some p → i ≠ j → p.length ≤ turns.count j := by
    intro j p hj hij
    have hcount := h j p hj
    rwa [List.count_cons_of_ne hij] at hcount
  cases hi : threads[i]? with
  | none =>
    intro j p hj
    refine hother j p hj ?_
    rintro rfl
    rw [hi] at hj
    cases hj
  | some p =>
    cases p with
    | nil =>
      intro j p hj
      by_cases hij : i = j
      · subst hij
        obtain rfl : [] = p := Option.some.inj (hi.symm.trans hj)
        exact Nat.zero_le _
      · exact hother j p hj hij
    | cons x later =>
      intro j p hj
      by_cases hij : i = j
      · subst hij
        rw [List.getElem?_set_self (List.getElem?_eq_some_iff.1 hi).1] at hj
        obtain rfl := Option.some.inj hj
        have hcount := h i _ hi
        rw [List.count_cons_self, List.length_cons] at hcount
        exact Nat.le_of_succ_le_succ hcount
      · rw [List.getElem?_set_ne hij] at hj
        exact hother j p hj hij

theorem length_schedule {threads : List (List α)} {turns : List Nat} (h : Suffice threads turns) :
    (schedule threads turns).length = (threads.map List.length).sum := by
  induction turns generalizing threads with
  | nil =>
    refine (List.sum_eq_zero_iff_forall_eq_nat.2 fun n hn => ?_).symm
    obtain ⟨p, hp, rfl⟩ := List.mem_map.1 hn
    obtain ⟨i, hi⟩ := List.mem_iff_getElem?.1 hp
    exact Nat.le_zero.1 (h i p hi)
  | cons i turns ih =>
    have htail := h.tail
    rw [schedule]
    cases hi : threads[i]? with
    | none =>
      rw [hi] at htail
      exact ih htail
    | some p =>
      rw [hi] at htail
      cases p with
      | nil => exact ih htail
      | cons x later => rw [List.length_cons, ih htail, sum_length_set hi]

theorem answers_inTurn {x : Action η α} {ts us : List (Nat × Action η α)}
    (ht : ∀ turn ∈ ts, turn.2 = x) (hu : ∀ turn ∈ us, turn.2 = x) (hlen : ts.length = us.length)
    (s : η) : ∃ answers answers', ((inTurn ts).run s).result = .ok answers ∧
      ((inTurn us).run s).result = .ok answers' ∧
      answers.map Prod.snd = answers'.map Prod.snd := by
  induction ts generalizing us s with
  | nil =>
    obtain rfl := List.eq_nil_of_length_eq_zero hlen.symm
    exact ⟨[], [], rfl, rfl, rfl⟩
  | cons t ts ih =>
    cases us with
    | nil => cases hlen
    | cons u us =>
      obtain ⟨i, y⟩ := t
      obtain ⟨j, z⟩ := u
      obtain rfl : y = x := ht _ (List.mem_cons_self ..)
      obtain rfl : z = y := hu _ (List.mem_cons_self ..)
      obtain ⟨answers, answers', ha, ha', he⟩ :=
        ih (fun t hm => ht t (List.mem_cons_of_mem _ hm))
          (fun u hm => hu u (List.mem_cons_of_mem _ hm)) (Nat.succ.inj hlen) (z.run s).state
      rw [run_inTurn_cons, run_inTurn_cons, ha, ha']
      exact ⟨_, _, rfl, rfl, by rw [List.map_cons, List.map_cons, he]⟩

theorem addresses_eq {answers answers' : List (Nat × Except Fault Addr)}
    (h : answers.map Prod.snd = answers'.map Prod.snd) : addresses answers = addresses answers' := by
  have hmap : ∀ as : List (Nat × Except Fault Addr),
      (as.filterMap fun a => a.2.toOption) = (as.map Prod.snd).filterMap Except.toOption := by
    intro as
    rw [List.filterMap_map]
    rfl
  rw [addresses, addresses, hmap, hmap, h]

theorem faults_eq {answers answers' : List (Nat × Except Fault Addr)}
    (h : answers.map Prod.snd = answers'.map Prod.snd) : faults answers = faults answers' := by
  have hmap : ∀ as : List (Nat × Except Fault Addr),
      faults as = (as.map Prod.snd).filterMap fault? := by
    intro as
    rw [List.filterMap_map]
    rfl
  rw [hmap, hmap, h]

theorem state_serve [Allocator η] (T : Terms η) (threads : List (List Move)) (turns : List Nat)
    (heap : η) : ((serve (threads.map (List.map Move.perform)) turns).run heap).state =
      ((Sharing.fresh heap).after T (schedule threads turns)).heap := by
  have hafter : ∀ (ts : List (Nat × Move)) (s : Sharing η),
      ((inTurn (ts.map fun turn => (turn.1, turn.2.perform))).run s.heap).state =
        (s.after T ts).heap := by
    intro ts
    induction ts with
    | nil => exact fun _ => rfl
    | cons t ts ih =>
      intro s
      rw [List.map_cons, run_inTurn_cons]
      exact ih (s.step T t)
  rw [serve_eq_inTurn, schedule_map]
  exact hafter _ (Sharing.fresh heap)

end Turns
end HeapWindow
