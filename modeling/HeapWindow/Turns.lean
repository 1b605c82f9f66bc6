import HeapWindow.Allocator

/-!
# Taking turns

Threads that share a heap take turns at it: while one of them acts, the others wait. A run is
fixed by what each thread has yet to do and by the order of the turns.
-/

namespace HeapWindow
namespace Turns

variable {η α : Type}

/-- Lets the threads act in the given order and collects their answers with the thread's number.
The turn of a thread that has nothing left to do passes. -/
def serve (threads : List (List (Action η α))) :
    (turns : List Nat) → Action η (List (Nat × Except Fault α))
  | [] => pure []
  | i :: turns =>
    match threads[i]? with
    | some (x :: later) => do
      let answer ← x.attempt
      ((i, answer) :: ·) <$> serve (threads.set i later) turns
    | _ => serve threads turns

/-- What is done in the order of the turns, and by whom. -/
def schedule (threads : List (List α)) : (turns : List Nat) → List (Nat × α)
  | [] => []
  | i :: turns =>
    match threads[i]? with
    | some (x :: later) => (i, x) :: schedule (threads.set i later) turns
    | _ => schedule threads turns

/-- There are as many turns as each thread needs. -/
def Suffice (threads : List (List α)) (turns : List Nat) : Prop :=
  ∀ i p, threads[i]? = some p → p.length ≤ turns.count i

def roundRobin (threads rounds : Nat) : List Nat :=
  (List.replicate rounds (List.range threads)).flatten

def addresses (answers : List (Nat × Except Fault Addr)) : List Addr :=
  (answers.filterMap fun answer => answer.2.toOption).mergeSort fun a b => decide (a ≤ b)

def fault? : Except Fault α → Option Fault
  | .error fault => some fault
  | .ok _ => none

def faults (answers : List (Nat × Except Fault Addr)) : List Fault :=
  answers.filterMap fun answer => fault? answer.2

def complaints (answers : List (Nat × Except Fault Addr)) : List String :=
  (answers.filterMap fun answer =>
    match answer.2 with
    | .error fault => some fault.message
    | .ok _ => none).mergeSort fun s t => decide (s ≤ t)

def allocateAll [Allocator η] (threads count : Nat) (size : UInt32) :
    Action η (List (Nat × Except Fault Addr)) :=
  serve (.replicate threads (.replicate count (Allocator.allocate size)))
    (roundRobin threads count)

end Turns
end HeapWindow
