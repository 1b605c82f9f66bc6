import HeapWindow.Fault
import HeapWindow.Journal

/-!
# Actions

An action reads and changes a state, records events, and answers or stops at a fault. A fault
undoes nothing: the state and the events of an outcome are those reached when it arose. So that
an operation changes nothing when it fails is a fact about the operation, not about actions.
-/

namespace HeapWindow

instance decidableEqAnswer {α : Type} [DecidableEq α] : DecidableEq (Except Fault α)
  | .ok a, .ok b => decidable_of_iff (a = b) (by simp)
  | .error f, .error g => decidable_of_iff (f = g) (by simp)
  | .ok _, .error _ | .error _, .ok _ => isFalse (by simp)

structure Outcome (σ α : Type) where
  result : Except Fault α
  state : σ
  /-- The oldest first. -/
  events : List Event
  deriving DecidableEq

/-- A step that may change a state of type `σ`. -/
structure Action (σ α : Type) where
  run : σ → Outcome σ α

namespace Action

variable {σ τ α β : Type}

protected def pure (a : α) : Action σ α := ⟨fun s => ⟨.ok a, s, []⟩⟩

/-- The second action starts where the first one ended, and only if that one answered. -/
protected def bind (x : Action σ α) (f : α → Action σ β) : Action σ β := ⟨fun s =>
  match x.run s with
  | ⟨.ok a, s, before⟩ =>
    match (f a).run s with
    | ⟨result, s, after⟩ => ⟨result, s, before ++ after⟩
  | ⟨.error fault, s, before⟩ => ⟨.error fault, s, before⟩⟩

protected def map (f : α → β) (x : Action σ α) : Action σ β := ⟨fun s =>
  match x.run s with
  | ⟨result, s, events⟩ => ⟨result.map f, s, events⟩⟩

instance : Monad (Action σ) where
  pure := Action.pure
  bind := Action.bind
  map := Action.map

def fail (fault : Fault) : Action σ α := ⟨fun s => ⟨.error fault, s, []⟩⟩

def record (event : Event) : Action σ Unit := ⟨fun s => ⟨.ok (), s, [event]⟩⟩

def gets (f : σ → α) : Action σ α := ⟨fun s => ⟨.ok (f s), s, []⟩⟩

def ask (f : σ → Except Fault α) : Action σ α := ⟨fun s => ⟨f s, s, []⟩⟩

def modify (f : σ → σ) : Action σ Unit := ⟨fun s => ⟨.ok (), f s, []⟩⟩

/-- Answers with the value, or stops where there is none. -/
def ofOption (fault : Fault) : Option α → Action σ α
  | some a => pure a
  | none => fail fault

/-- Acts on a part of the state. `part` takes it out, and answers also with how to put it back. -/
def on (part : σ → τ × (τ → σ)) (x : Action τ α) : Action σ α := ⟨fun s =>
  match part s with
  | (t, back) =>
    match x.run t with
    | ⟨result, t, events⟩ => ⟨result, back t, events⟩⟩

/-- Acts on a value outside the state and answers with what became of it. -/
def within (t : τ) (x : Action τ Unit) : Action σ τ := ⟨fun s =>
  match x.run t with
  | ⟨.ok (), t, events⟩ => ⟨.ok t, s, events⟩
  | ⟨.error fault, _, events⟩ => ⟨.error fault, s, events⟩⟩

/-- Answers with the fault where the action would stop. -/
def attempt (x : Action σ α) : Action σ (Except Fault α) := ⟨fun s =>
  match x.run s with
  | ⟨result, s, events⟩ => ⟨.ok result, s, events⟩⟩

def replicate (x : Action σ α) : Nat → Action σ (List α)
  | 0 => pure []
  | n + 1 => do
    let a ← x
    (a :: ·) <$> replicate x n

@[simp] theorem run_pure (a : α) (s : σ) : (pure a : Action σ α).run s = ⟨.ok a, s, []⟩ := rfl

@[simp] theorem run_fail (fault : Fault) (s : σ) :
    (fail fault : Action σ α).run s = ⟨.error fault, s, []⟩ := rfl

@[simp] theorem run_record (event : Event) (s : σ) :
    (record event).run s = ⟨.ok (), s, [event]⟩ := rfl

@[simp] theorem run_gets (f : σ → α) (s : σ) : (gets f).run s = ⟨.ok (f s), s, []⟩ := rfl

@[simp] theorem run_ask (f : σ → Except Fault α) (s : σ) : (ask f).run s = ⟨f s, s, []⟩ := rfl

@[simp] theorem run_modify (f : σ → σ) (s : σ) : (modify f).run s = ⟨.ok (), f s, []⟩ := rfl

@[simp] theorem run_ofOption_some (fault : Fault) (a : α) (s : σ) :
    (ofOption fault (some a)).run s = ⟨.ok a, s, []⟩ := rfl

@[simp] theorem run_ofOption_none (fault : Fault) (s : σ) :
    (ofOption fault none : Action σ α).run s = ⟨.error fault, s, []⟩ := rfl

@[simp] theorem run_map (f : α → β) (x : Action σ α) (s : σ) :
    (f <$> x).run s = ⟨(x.run s).result.map f, (x.run s).state, (x.run s).events⟩ := rfl

theorem run_bind (x : Action σ α) (f : α → Action σ β) (s : σ) :
    (x >>= f).run s =
      match (x.run s).result with
      | .ok a =>
        let next := (f a).run (x.run s).state
        ⟨next.result, next.state, (x.run s).events ++ next.events⟩
      | .error fault => ⟨.error fault, (x.run s).state, (x.run s).events⟩ := by
  show (Action.bind x f).run s = _
  unfold Action.bind
  dsimp only
  split <;> simp [*]

theorem run_bind_ok {x : Action σ α} {f : α → Action σ β} {s t : σ} {a : α} {es : List Event}
    (h : x.run s = ⟨.ok a, t, es⟩) :
    (x >>= f).run s = ⟨((f a).run t).result, ((f a).run t).state, es ++ ((f a).run t).events⟩ := by
  rw [run_bind, h]

theorem run_bind_error {x : Action σ α} {f : α → Action σ β} {s t : σ} {fault : Fault}
    {es : List Event} (h : x.run s = ⟨.error fault, t, es⟩) :
    (x >>= f).run s = ⟨.error fault, t, es⟩ := by
  rw [run_bind, h]

@[simp] theorem run_on (part : σ → τ × (τ → σ)) (x : Action τ α) (s : σ) :
    (on part x).run s =
      ⟨(x.run (part s).1).result, (part s).2 (x.run (part s).1).state,
        (x.run (part s).1).events⟩ := rfl

@[simp] theorem run_attempt (x : Action σ α) (s : σ) :
    (attempt x).run s = ⟨.ok (x.run s).result, (x.run s).state, (x.run s).events⟩ := rfl

theorem run_within_ok {x : Action τ Unit} {t t' : τ} {events : List Event}
    (h : x.run t = ⟨.ok (), t', events⟩) (s : σ) :
    (within t x).run s = ⟨.ok t', s, events⟩ := by
  simp [within, h]

end Action
end HeapWindow
