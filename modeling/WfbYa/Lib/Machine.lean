/-
  WfbYa.Lib.Machine — state machines whose steps emit events and may fault.

  A machine is a step function `σ → ι → Except φ (σ × List ε)`: a fault (undefined
  behaviour, a failed assertion, a loop that does not end) has no successor. A guard
  `G s i` says which inputs a run may take in which state. `Run` is the set of runs
  whose every step met the guard and did not fault; `exec` computes one.

  - `Run.inv`: what holds at the start and is kept by every guarded step holds of
    every run (of its inputs, its last state and its trace).
  - `Run.events`: what every step's events satisfy, every event of the trace satisfies.
  - `exec_run`: a computed run is a run.
  - `Settles.fold`: where every step needs only so much fuel, so does the loop.
-/

import Mathlib.Data.List.Induction

namespace WfbYa.Lib.Machine

variable {σ ι ε φ : Type*}

/-- A computation that returned also returned from its first half. -/
theorem bind_ok_iff {φ α β : Type} {m : Except φ α} {f : α → Except φ β} {b : β} :
    (m >>= f) = .ok b ↔ ∃ a, m = .ok a ∧ f a = .ok b := by
  cases m with
  | error e => simp [bind, Except.bind]
  | ok a => simp [bind, Except.bind]

/-- A computation that failed, failed in its first half or in its second. -/
theorem bind_error_iff {φ α β : Type} {m : Except φ α} {f : α → Except φ β} {e : φ} :
    (m >>= f) = .error e ↔ m = .error e ∨ ∃ a, m = .ok a ∧ f a = .error e := by
  cases m with
  | error e => simp [bind, Except.bind]
  | ok a => simp [bind, Except.bind]

theorem map_error_iff {φ α β : Type*} {m : Except φ α} {f : α → β} {e : φ} : m.map f = .error e ↔ m = .error e := by
  cases m with
  | error e' => simp [Except.map]
  | ok a => simp [Except.map]

/-- A fault under another name is that fault. -/
theorem mapError_error_iff {φ ψ α : Type*} {m : Except φ α} {g : φ → ψ} {e : ψ} :
    m.mapError g = .error e ↔ ∃ f, m = .error f ∧ e = g f := by
  cases m with
  | error f => simp [Except.mapError, eq_comm]
  | ok a => simp [Except.mapError]

theorem mapError_ok_iff {φ ψ α : Type*} {m : Except φ α} {g : φ → ψ} {a : α} : m.mapError g = .ok a ↔ m = .ok a := by
  cases m with
  | error f => simp [Except.mapError]
  | ok a' => simp [Except.mapError]

/-- A fold that failed, failed at one of the elements. -/
theorem fold_error {φ α β : Type} {f : β → α → Except φ β} {l : List α} {b : β} {e : φ} (h : l.foldlM f b = .error e) :
    ∃ a ∈ l, ∃ b', f b' a = .error e := by
  induction l generalizing b with
  | nil => cases h
  | cons a l ih =>
    rw [List.foldlM_cons] at h
    rcases bind_error_iff.mp h with ha | ⟨b1, -, hl⟩
    · exact ⟨a, List.mem_cons_self, b, ha⟩
    · obtain ⟨a', ha', he⟩ := ih hl
      exact ⟨a', List.mem_cons_of_mem a ha', he⟩

variable (step : σ → ι → Except φ (σ × List ε)) (G : σ → ι → Prop)

inductive Run (s0 : σ) : List ι → σ → List ε → Prop
  | nil : Run s0 [] s0 []
  | snoc {is : List ι} {s s' : σ} {tr e : List ε} {i : ι} :
      Run s0 is s tr → G s i → step s i = .ok (s', e) → Run s0 (is ++ [i]) s' (tr ++ e)

variable {step G}

theorem Run.inv {s0 : σ} (I : List ι → σ → List ε → Prop) (h0 : I [] s0 [])
    (hs : ∀ is s tr i s' e, I is s tr → G s i → step s i = .ok (s', e) → I (is ++ [i]) s' (tr ++ e))
    {is : List ι} {s : σ} {tr : List ε} (h : Run step G s0 is s tr) : I is s tr := by
  induction h with
  | nil => exact h0
  | snoc _ hg hst ih => exact hs _ _ _ _ _ _ ih hg hst

theorem Run.mono {G' : σ → ι → Prop} (hG : ∀ s i, G s i → G' s i) {s0 s : σ} {is : List ι} {tr : List ε}
    (h : Run step G s0 is s tr) : Run step G' s0 is s tr := by
  induction h with
  | nil => exact .nil
  | snoc _ hg hst ih => exact .snoc ih (hG _ _ hg) hst

theorem Run.append {s0 s t : σ} {is js : List ι} {tr tr' : List ε} (h : Run step G s0 is s tr)
    (h' : Run step G s js t tr') : Run step G s0 (is ++ js) t (tr ++ tr') := by
  induction h' with
  | nil => simpa using h
  | snoc _ hg hst ih =>
    rw [← List.append_assoc, ← List.append_assoc]
    exact .snoc ih hg hst

theorem Run.single {s s' : σ} {i : ι} {e : List ε} (hg : G s i) (hst : step s i = .ok (s', e)) :
    Run step G s [i] s' e := by
  have h := Run.snoc .nil hg hst
  simpa using h

theorem Run.nil_inv {s t : σ} {tr : List ε} (h : Run step G s [] t tr) : t = s ∧ tr = [] := by
  generalize hl : ([] : List ι) = l at h
  cases h with
  | nil => exact ⟨rfl, rfl⟩
  | snoc _ _ _ => simp at hl

/-- The last step of a run. -/
theorem Run.snoc_inv {s t : σ} {i : ι} {is : List ι} {tr : List ε} (h : Run step G s (is ++ [i]) t tr) :
    ∃ u tr' e, Run step G s is u tr' ∧ G u i ∧ step u i = .ok (t, e) ∧ tr = tr' ++ e := by
  generalize hl : is ++ [i] = l at h
  cases h with
  | nil => simp at hl
  | snoc hr hg hst =>
    obtain ⟨rfl, hi⟩ := List.append_inj' hl rfl
    cases hi
    exact ⟨_, _, _, hr, hg, hst, rfl⟩

/-- A machine has one run over its inputs. -/
theorem Run.unique {s t t' : σ} {is : List ι} {tr tr' : List ε} (h : Run step G s is t tr) (h' : Run step G s is t' tr') :
    t = t' ∧ tr = tr' := by
  induction h generalizing t' tr' with
  | nil =>
    obtain ⟨rfl, rfl⟩ := h'.nil_inv
    exact ⟨rfl, rfl⟩
  | snoc _ _ hst ih =>
    obtain ⟨u, tr1, e, hr, -, hst', rfl⟩ := h'.snoc_inv
    obtain ⟨rfl, rfl⟩ := ih hr
    rw [hst] at hst'
    cases hst'
    exact ⟨rfl, rfl⟩

/-- The first step of a run was taken. -/
theorem Run.head {s t : σ} {i : ι} {is : List ι} {tr : List ε} (h : Run step G s (i :: is) t tr) : ∃ p, step s i = .ok p := by
  induction is using List.reverseRecOn generalizing t tr with
  | nil =>
    obtain ⟨u, tr', e, hr, -, hst, -⟩ := Run.snoc_inv (show Run step G s ([] ++ [i]) t tr from h)
    obtain ⟨rfl, -⟩ := hr.nil_inv
    exact ⟨_, hst⟩
  | append_singleton is j ih =>
    obtain ⟨u, tr', e, hr, -, -, -⟩ := Run.snoc_inv (show Run step G s ((i :: is) ++ [j]) t tr from h)
    exact ih hr

/-- An invariant `I` of the state, and events that are good when emitted from a state
    with `I`: every event of a run is good. -/
theorem Run.events {s0 : σ} (I : σ → Prop) (P : ε → Prop) (h0 : I s0)
    (hs : ∀ s i s' e, I s → G s i → step s i = .ok (s', e) → I s' ∧ ∀ x ∈ e, P x)
    {is : List ι} {s : σ} {tr : List ε} (h : Run step G s0 is s tr) : I s ∧ ∀ x ∈ tr, P x := by
  refine h.inv (fun _ s tr => I s ∧ ∀ x ∈ tr, P x) ⟨h0, by simp⟩ ?_
  rintro is s tr i s' e ⟨hi, htr⟩ hg hst
  obtain ⟨hi', he⟩ := hs s i s' e hi hg hst
  refine ⟨hi', fun x hx => ?_⟩
  rcases List.mem_append.mp hx with hx | hx
  · exact htr x hx
  · exact he x hx

/-! ## Fuel -/

/-- With enough fuel, the computation comes to `b`. -/
def Settles {φ β : Type*} (f : Nat → Except φ β) (b : β) : Prop := ∃ T, ∀ n, T ≤ n → f n = .ok b

theorem Settles.bind {φ α β : Type} {f : Nat → Except φ α} {g : Nat → α → Except φ β} {a : α} {b : β} (hf : Settles f a)
    (hg : Settles (fun n => g n a) b) : Settles (fun n => f n >>= g n) b := by
  obtain ⟨T1, h1⟩ := hf
  obtain ⟨T2, h2⟩ := hg
  refine ⟨max T1 T2, fun n hn => ?_⟩
  exact bind_ok_iff.mpr ⟨a, h1 n (Nat.le_trans (Nat.le_max_left _ _) hn), h2 n (Nat.le_trans (Nat.le_max_right _ _) hn)⟩

theorem settles_const {φ β : Type*} (b : β) : Settles (fun _ => (Except.ok b : Except φ β)) b := ⟨0, fun _ _ => rfl⟩

theorem Settles.fold {φ α β : Type} {f : Nat → β → α → Except φ β} {l : List α}
    (h : ∀ b, ∀ a ∈ l, ∃ b', Settles (fun n => f n b a) b')
    (b : β) : ∃ b', Settles (fun n => l.foldlM (f n) b) b' := by
  induction l generalizing b with
  | nil => exact ⟨b, settles_const b⟩
  | cons a l ih =>
    obtain ⟨b1, h1⟩ := h b a List.mem_cons_self
    obtain ⟨b2, h2⟩ := ih (fun b x hx => h b x (List.mem_cons_of_mem _ hx)) b1
    exact ⟨b2, h1.bind h2⟩

/-! ## Computing a run -/

/-- The computation returns something that passes the test. -/
def returns {φ α : Type*} (m : Except φ α) (Q : α → Bool) : Bool :=
  match m with
  | .ok a => Q a
  | .error _ => false

theorem returns_iff {φ α : Type*} {m : Except φ α} {Q : α → Bool} : returns m Q = true ↔ ∃ a, m = .ok a ∧ Q a = true := by
  cases m with
  | error e => simp [returns]
  | ok a => simp [returns]

/-- The computation fails with `e`. -/
def fails {φ α : Type*} [DecidableEq φ] (m : Except φ α) (e : φ) : Bool :=
  match m with
  | .ok _ => false
  | .error e' => decide (e' = e)

theorem fails_iff {φ α : Type*} [DecidableEq φ] {m : Except φ α} {e : φ} : fails m e = true ↔ m = .error e := by
  cases m with
  | error e' => simp [fails]
  | ok a => simp [fails]

variable (step G) in
/-- The run over `is`, if every step meets the guard and none faults. -/
def exec [∀ s i, Decidable (G s i)] : List ι → σ → Option (σ × List ε)
  | [], s => some (s, [])
  | i :: is, s =>
    if G s i then
      match step s i with
      | .ok (s1, e1) =>
        match exec is s1 with
        | some (s2, e2) => some (s2, e1 ++ e2)
        | none => none
      | .error _ => none
    else none

theorem exec_run [∀ s i, Decidable (G s i)] {is : List ι} {s t : σ} {tr : List ε}
    (h : exec step G is s = some (t, tr)) : Run step G s is t tr := by
  induction is generalizing s tr with
  | nil =>
    simp only [exec, Option.some.injEq, Prod.mk.injEq] at h
    obtain ⟨rfl, rfl⟩ := h
    exact .nil
  | cons i is ih =>
    simp only [exec] at h
    split at h
    · rename_i hg
      split at h
      · rename_i s1 e1 hst
        split at h
        · rename_i s2 e2 he
          simp only [Option.some.injEq, Prod.mk.injEq] at h
          obtain ⟨rfl, rfl⟩ := h
          exact (Run.single hg hst).append (ih he)
        · cases h
      · cases h
    · cases h

/-- A computed run whose end passes the test `Q` is a run with that end. -/
theorem exists_run (step : σ → ι → Except φ (σ × List ε)) (G : σ → ι → Prop) [∀ s i, Decidable (G s i)] (s : σ)
    (is : List ι) (Q : σ × List ε → Bool) (h : (exec step G is s).any Q = true) :
    ∃ t tr, Run step G s is t tr ∧ Q (t, tr) = true := by
  cases hx : exec step G is s with
  | none => rw [hx] at h; cases h
  | some p => exact ⟨p.1, p.2, exec_run hx, by rw [hx] at h; exact h⟩

end WfbYa.Lib.Machine
