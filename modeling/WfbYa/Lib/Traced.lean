/-
  WfbYa.Lib.Traced — computations that report events as they go and may fail.

  What was reported before a failure is kept, so that a property of the events covers
  failing computations as well.

  - `all_bind`: what is reported is good all along, if and only if it is in the first half
    and, when that returns, in the second.
-/

import Mathlib.Tactic.Common

namespace WfbYa.Lib

/-- What was reported, and the result. -/
structure Traced (ε φ α : Type) where
  evs : List ε
  out : Except φ α

namespace Traced

variable {ε ε' φ α β : Type}

instance : Monad (Traced ε φ) where
  pure a := ⟨[], .ok a⟩
  bind m f :=
    match m.out with
    | .ok a => ⟨m.evs ++ (f a).evs, (f a).out⟩
    | .error e => ⟨m.evs, .error e⟩

def emit (e : ε) : Traced ε φ Unit := ⟨[e], .ok ()⟩

def emitAll (es : List ε) : Traced ε φ Unit := ⟨es, .ok ()⟩

def fail (e : φ) : Traced ε φ α := ⟨[], .error e⟩

/-- The same computation, its events renamed. -/
def lift (f : ε → ε') (m : Traced ε φ α) : Traced ε' φ α := ⟨m.evs.map f, m.out⟩

@[simp] theorem pure_evs (a : α) : (pure a : Traced ε φ α).evs = [] := rfl
@[simp] theorem pure_out (a : α) : (pure a : Traced ε φ α).out = .ok a := rfl
@[simp] theorem emit_evs (e : ε) : (emit e : Traced ε φ Unit).evs = [e] := rfl
@[simp] theorem emit_out (e : ε) : (emit e : Traced ε φ Unit).out = .ok () := rfl
@[simp] theorem emitAll_evs (es : List ε) : (emitAll es : Traced ε φ Unit).evs = es := rfl
@[simp] theorem emitAll_out (es : List ε) : (emitAll es : Traced ε φ Unit).out = .ok () := rfl
@[simp] theorem fail_evs (e : φ) : (fail e : Traced ε φ α).evs = [] := rfl
@[simp] theorem fail_out (e : φ) : (fail e : Traced ε φ α).out = .error e := rfl
@[simp] theorem lift_evs (f : ε → ε') (m : Traced ε φ α) : (lift f m).evs = m.evs.map f := rfl
@[simp] theorem lift_out (f : ε → ε') (m : Traced ε φ α) : (lift f m).out = m.out := rfl

/-- A computation whose first half returned goes on with the second. -/
theorem bind_ok {m : Traced ε φ α} {f : α → Traced ε φ β} {a : α} (h : m.out = .ok a) :
    (m >>= f).evs = m.evs ++ (f a).evs ∧ (m >>= f).out = (f a).out := by
  simp [bind, h]

theorem bind_error {m : Traced ε φ α} {f : α → Traced ε φ β} {e : φ} (h : m.out = .error e) :
    (m >>= f).evs = m.evs ∧ (m >>= f).out = .error e := by
  simp [bind, h]

@[simp] theorem emitAll_bind_evs (es : List ε) (f : Unit → Traced ε φ β) : (emitAll es >>= f).evs = es ++ (f ()).evs := rfl
@[simp] theorem emitAll_bind_out (es : List ε) (f : Unit → Traced ε φ β) : (emitAll es >>= f).out = (f ()).out := rfl
@[simp] theorem emit_bind_evs (e : ε) (f : Unit → Traced ε φ β) : (emit e >>= f).evs = e :: (f ()).evs := rfl
@[simp] theorem emit_bind_out (e : ε) (f : Unit → Traced ε φ β) : (emit e >>= f).out = (f ()).out := rfl

theorem mem_bind {m : Traced ε φ α} {f : α → Traced ε φ β} {e : ε} :
    e ∈ (m >>= f).evs ↔ e ∈ m.evs ∨ ∃ a, m.out = .ok a ∧ e ∈ (f a).evs := by
  cases h : m.out with
  | ok a =>
    rw [(bind_ok h).1, List.mem_append]
    simp
  | error e' =>
    rw [(bind_error h).1]
    simp

theorem out_bind {m : Traced ε φ α} {f : α → Traced ε φ β} {b : β} :
    (m >>= f).out = .ok b ↔ ∃ a, m.out = .ok a ∧ (f a).out = .ok b := by
  cases h : m.out with
  | ok a =>
    rw [(bind_ok h).2]
    simp
  | error e' =>
    rw [(bind_error h).2]
    simp

/-! ## Good all along -/

/-- All that is reported is good. -/
def All (P : ε → Prop) (m : Traced ε φ α) : Prop := ∀ e ∈ m.evs, P e

variable {P : ε → Prop}

@[simp] theorem all_pure (a : α) : All P (pure a : Traced ε φ α) := fun _ h => (nomatch h)

@[simp] theorem all_fail (e : φ) : All P (fail e : Traced ε φ α) := fun _ h => (nomatch h)

@[simp] theorem all_emit {e : ε} : All P (emit e : Traced ε φ Unit) ↔ P e := by simp [All]

@[simp] theorem all_lift {f : ε → ε'} {Q : ε' → Prop} {m : Traced ε φ α} : All Q (lift f m) ↔ All (fun e => Q (f e)) m := by
  simp [All]

theorem all_bind {m : Traced ε φ α} {f : α → Traced ε φ β} :
    All P (m >>= f) ↔ All P m ∧ ∀ a, m.out = .ok a → All P (f a) := by
  unfold All
  simp only [mem_bind]
  constructor
  · intro h
    exact ⟨fun e he => h e (.inl he), fun a ha e he => h e (.inr ⟨a, ha, he⟩)⟩
  · rintro ⟨h1, h2⟩ e (he | ⟨a, ha, he⟩)
    · exact h1 e he
    · exact h2 a ha e he

theorem all_bind_ok {m : Traced ε φ α} {f : α → Traced ε φ β} {a : α} (h : m.out = .ok a) :
    All P (m >>= f) ↔ All P m ∧ All P (f a) := by
  rw [all_bind, h]
  simp

theorem all_bind_error {m : Traced ε φ α} {f : α → Traced ε φ β} {e : φ} (h : m.out = .error e) :
    All P (m >>= f) ↔ All P m := by
  rw [all_bind, h]
  simp

@[simp] theorem all_emit_bind {e : ε} {f : Unit → Traced ε φ β} : All P (emit e >>= f) ↔ P e ∧ All P (f ()) := by
  rw [all_bind_ok (emit_out e), all_emit]

end Traced

end WfbYa.Lib
