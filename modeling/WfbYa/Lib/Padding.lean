/-
  WfbYa.Lib.Padding — runs with extra inputs.

  `Padded E is js`: the list `js` is `is` with further inputs put in, each of them one that
  `E` allows after what was taken before it.

  - `Padded.run`: if two related states stay related when both take an input, and when one
    takes an extra one, then a run over `is` has a run over `js` beside it that ends in a
    related state and shows the same.
  - `Padded.unrun`: the other way round, a run over `js` has one over `is` beside it.
-/

import WfbYa.Lib.Machine

namespace WfbYa.Lib.Padding

variable {σ ι ε φ ω : Type*}

inductive Padded (E : List ι → ι → Prop) : List ι → List ι → Prop
  | nil : Padded E [] []
  | keep {is js : List ι} {i : ι} : Padded E is js → Padded E (is ++ [i]) (js ++ [i])
  | extra {is js : List ι} {i : ι} : Padded E is js → E js i → Padded E is (js ++ [i])

variable {step : σ → ι → Except φ (σ × List ε)} {G : σ → ι → Prop}

theorem Padded.run {E : List ι → ι → Prop} {R : σ → σ → Prop} {obs : List ε → List ω}
    (happ : ∀ a b, obs (a ++ b) = obs a ++ obs b) {s0 t0 : σ} (h0 : R s0 t0)
    (hkeep : ∀ js s t tr i s' e, Machine.Run step G t0 js t tr → R s t → G s i → step s i = .ok (s', e) →
      ∃ t' e', G t i ∧ step t i = .ok (t', e') ∧ R s' t' ∧ obs e' = obs e)
    (hextra : ∀ js s t tr i, Machine.Run step G t0 js t tr → R s t → E js i →
      ∃ t' e', G t i ∧ step t i = .ok (t', e') ∧ R s t' ∧ obs e' = [])
    {is js : List ι} (hp : Padded E is js) {s : σ} {tr : List ε} (h : Machine.Run step G s0 is s tr) :
    ∃ t tr', Machine.Run step G t0 js t tr' ∧ R s t ∧ obs tr' = obs tr := by
  induction hp generalizing s tr with
  | nil =>
    obtain ⟨rfl, rfl⟩ := h.nil_inv
    exact ⟨t0, [], .nil, h0, rfl⟩
  | keep _ ih =>
    obtain ⟨s1, tr1, e, h1, hg, hst, rfl⟩ := h.snoc_inv
    obtain ⟨t1, tr2, hr, hR, ho⟩ := ih h1
    obtain ⟨t', e', hg', hst', hR', ho'⟩ := hkeep _ _ _ _ _ _ _ hr hR hg hst
    exact ⟨t', tr2 ++ e', hr.snoc hg' hst', hR', by rw [happ, happ, ho, ho']⟩
  | extra _ hE ih =>
    obtain ⟨t1, tr2, hr, hR, ho⟩ := ih h
    obtain ⟨t', e', hg', hst', hR', ho'⟩ := hextra _ _ _ _ _ hr hR hE
    exact ⟨t', tr2 ++ e', hr.snoc hg' hst', hR', by rw [happ, ho', List.append_nil, ho]⟩

theorem Padded.unrun {E : List ι → ι → Prop} {R : σ → σ → Prop} {obs : List ε → List ω}
    (happ : ∀ a b, obs (a ++ b) = obs a ++ obs b) {s0 t0 : σ} (h0 : R s0 t0)
    (hkeep : ∀ s t i t' e', R s t → G t i → step t i = .ok (t', e') →
      ∃ s' e, G s i ∧ step s i = .ok (s', e) ∧ R s' t' ∧ obs e = obs e')
    (hextra : ∀ js s t tr i t' e', Machine.Run step G t0 js t tr → R s t → E js i → step t i = .ok (t', e') →
      R s t' ∧ obs e' = [])
    {is js : List ι} (hp : Padded E is js) {t : σ} {tr : List ε} (h : Machine.Run step G t0 js t tr) :
    ∃ s tr', Machine.Run step G s0 is s tr' ∧ R s t ∧ obs tr' = obs tr := by
  induction hp generalizing t tr with
  | nil =>
    obtain ⟨rfl, rfl⟩ := h.nil_inv
    exact ⟨s0, [], .nil, h0, rfl⟩
  | keep _ ih =>
    obtain ⟨t1, tr1, e, h1, hg, hst, rfl⟩ := h.snoc_inv
    obtain ⟨s1, tr2, hr, hR, ho⟩ := ih h1
    obtain ⟨s', e', hg', hst', hR', ho'⟩ := hkeep _ _ _ _ _ hR hg hst
    exact ⟨s', tr2 ++ e', hr.snoc hg' hst', hR', by rw [happ, happ, ho, ho']⟩
  | extra _ hE ih =>
    obtain ⟨t1, tr1, e, h1, -, hst, rfl⟩ := h.snoc_inv
    obtain ⟨s1, tr2, hr, hR, ho⟩ := ih h1
    obtain ⟨hR', ho'⟩ := hextra _ _ _ _ _ _ _ h1 hR hE hst
    exact ⟨s1, tr2, hr, hR', by rw [happ, ho', List.append_nil, ho]⟩

end WfbYa.Lib.Padding
