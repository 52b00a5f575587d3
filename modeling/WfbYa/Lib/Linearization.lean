/-
  WfbYa.Lib.Linearization — concurrent operations that amount to sequential ones.

  An object is what an operation may answer in a state, and the state that leaves. A
  history is calls and returns of operations in the order they were seen. It linearizes
  to a list of operations that the object can carry out one after the other, each at most
  once, each one called for, each answered one with its answer, and none before one that
  had been answered before it was called.

  - `Marked`: a trace of calls, of the points at which operations take effect, and of returns.
  - `Marked.linearizes`: such a trace linearizes to its points, if the object can carry
    these out in their order.
-/

import Mathlib.Data.List.Nodup
import Mathlib.Data.List.Infix

namespace WfbYa.Lib.Linearization

variable {σ ι ω ρ : Type*}

/-! ## Sequential histories -/

/-- An operation that took effect. -/
structure Done (ι ω ρ : Type*) where
  id : ι
  op : ω
  res : ρ

/-- The object goes from one state to another by these operations. -/
inductive Legal (obj : σ → ω → ρ → σ → Prop) (s : σ) : List (Done ι ω ρ) → σ → Prop
  | nil : Legal obj s [] s
  | snoc {l : List (Done ι ω ρ)} {t u : σ} {d : Done ι ω ρ} : Legal obj s l t → obj t d.op d.res u → Legal obj s (l ++ [d]) u

/-! ## Concurrent histories -/

inductive Act (ι ω ρ : Type*) where
  /-- The operations that would answer the call. -/
  | call (i : ι) (asks : ω → Prop)
  | ret (i : ι) (r : ρ)

structure Linearizes (obj : σ → ω → ρ → σ → Prop) (s t : σ) (h : List (Act ι ω ρ)) (lin : List (Done ι ω ρ)) : Prop where
  once : (lin.map Done.id).Nodup
  legal : Legal obj s lin t
  asked : ∀ d ∈ lin, ∃ asks, Act.call d.id asks ∈ h ∧ asks d.op
  answered : ∀ i r, Act.ret i r ∈ h → ∃ d ∈ lin, d.id = i ∧ d.res = r
  order : ∀ d ∈ lin, ∀ e ∈ lin, ∀ r asks, [Act.ret d.id r, Act.call e.id asks].Sublist h → [d, e].Sublist lin

/-! ## Points -/

inductive Mark (ι ω ρ : Type*) where
  | call (i : ι) (asks : ω → Prop)
  /-- The operation takes effect. -/
  | point (d : Done ι ω ρ)
  | ret (i : ι) (r : ρ)

def Mark.act : Mark ι ω ρ → Option (Act ι ω ρ)
  | .call i asks => some (.call i asks)
  | .point _ => none
  | .ret i r => some (.ret i r)

def Mark.done : Mark ι ω ρ → Option (Done ι ω ρ)
  | .point d => some d
  | _ => none

def history (tr : List (Mark ι ω ρ)) : List (Act ι ω ρ) := tr.filterMap Mark.act

def points (tr : List (Mark ι ω ρ)) : List (Done ι ω ρ) := tr.filterMap Mark.done

@[simp] theorem history_append (t t' : List (Mark ι ω ρ)) : history (t ++ t') = history t ++ history t' :=
  List.filterMap_append ..

@[simp] theorem points_append (t t' : List (Mark ι ω ρ)) : points (t ++ t') = points t ++ points t' := List.filterMap_append ..

section Snoc

variable {tr : List (Mark ι ω ρ)} {i : ι} {asks : ω → Prop} {r : ρ} {d : Done ι ω ρ}

@[simp] theorem history_call : history (tr ++ [.call i asks]) = history tr ++ [.call i asks] := by simp [history, Mark.act]

@[simp] theorem history_point : history (tr ++ [.point d]) = history tr := by simp [history, Mark.act]

@[simp] theorem history_ret : history (tr ++ [.ret i r]) = history tr ++ [.ret i r] := by simp [history, Mark.act]

@[simp] theorem points_call : points (tr ++ [.call i asks]) = points tr := by simp [points, Mark.done]

@[simp] theorem points_point : points (tr ++ [.point d]) = points tr ++ [d] := by simp [points, Mark.done]

@[simp] theorem points_ret : points (tr ++ [.ret i r]) = points tr := by simp [points, Mark.done]

end Snoc

/-- Each operation is called once, then takes effect once, then returns what it came to. -/
inductive Marked : List (Mark ι ω ρ) → Prop
  | nil : Marked []
  | call {tr : List (Mark ι ω ρ)} {i : ι} {asks : ω → Prop} : Marked tr → (∀ a, Act.call i a ∉ history tr) →
      Marked (tr ++ [.call i asks])
  | point {tr : List (Mark ι ω ρ)} {d : Done ι ω ρ} {asks : ω → Prop} : Marked tr → Act.call d.id asks ∈ history tr → asks d.op →
      (∀ e ∈ points tr, e.id ≠ d.id) → Marked (tr ++ [.point d])
  | ret {tr : List (Mark ι ω ρ)} {d : Done ι ω ρ} : Marked tr → d ∈ points tr → Marked (tr ++ [.ret d.id d.res])

variable {obj : σ → ω → ρ → σ → Prop} {s t : σ} {tr : List (Mark ι ω ρ)}

theorem Marked.asked (h : Marked tr) : ∀ d ∈ points tr, ∃ asks, Act.call d.id asks ∈ history tr ∧ asks d.op := by
  induction h with
  | nil => intro d hd; cases hd
  | call _ _ ih =>
    intro d hd
    rw [points_call] at hd
    obtain ⟨asks, hmem, hop⟩ := ih d hd
    exact ⟨asks, by rw [history_call]; exact List.mem_append_left _ hmem, hop⟩
  | @point tr p asks _ hmem hop _ ih =>
    intro d hd
    rw [points_point] at hd
    rw [history_point]
    rcases List.mem_append.mp hd with hd | hd
    · exact ih d hd
    · rw [List.mem_singleton.mp hd]
      exact ⟨asks, hmem, hop⟩
  | ret _ _ ih =>
    intro d hd
    rw [points_ret] at hd
    obtain ⟨asks, hmem, hop⟩ := ih d hd
    exact ⟨asks, by rw [history_ret]; exact List.mem_append_left _ hmem, hop⟩

theorem Marked.once (h : Marked tr) : ((points tr).map Done.id).Nodup := by
  induction h with
  | nil => exact List.nodup_nil
  | call _ _ ih =>
    rw [points_call]
    exact ih
  | @point tr p asks _ _ _ hnew ih =>
    rw [points_point, List.map_append]
    refine List.Nodup.append ih (List.nodup_singleton _) fun a ha hp => ?_
    obtain ⟨e, he, rfl⟩ := List.mem_map.mp ha
    exact hnew e he (List.mem_singleton.mp hp)
  | ret _ _ ih =>
    rw [points_ret]
    exact ih

theorem Marked.answered (h : Marked tr) : ∀ i r, Act.ret i r ∈ history tr → ∃ d ∈ points tr, d.id = i ∧ d.res = r := by
  induction h with
  | nil => intro i r hm; cases hm
  | call _ _ ih =>
    intro i r hm
    rw [history_call] at hm
    rcases List.mem_append.mp hm with hm | hm
    · rw [points_call]
      exact ih i r hm
    · cases List.mem_singleton.mp hm
  | @point tr p asks _ _ _ _ ih =>
    intro i r hm
    rw [history_point] at hm
    obtain ⟨d, hd, hres⟩ := ih i r hm
    exact ⟨d, by rw [points_point]; exact List.mem_append_left _ hd, hres⟩
  | @ret tr p _ hp ih =>
    intro i r hm
    rw [points_ret]
    rw [history_ret] at hm
    rcases List.mem_append.mp hm with hm | hm
    · exact ih i r hm
    · cases List.mem_singleton.mp hm
      exact ⟨p, hp, rfl, rfl⟩

/-- A pair of elements in a list that has grown at its end. -/
theorem pair_sublist_snoc {α : Type*} {a b c : α} {l : List α} (h : [a, b].Sublist (l ++ [c])) :
    [a, b].Sublist l ∨ (a ∈ l ∧ b = c) := by
  obtain ⟨l1, l2, he, h1, h2⟩ := List.sublist_append_iff.mp h
  cases l2 with
  | nil =>
    rw [List.append_nil] at he
    exact .inl (he ▸ h1)
  | cons x l2 =>
    have hx : x = c ∧ l2 = [] := by
      cases h2 with
      | cons _ h2 => exact absurd (List.sublist_nil.mp h2) (List.cons_ne_nil _ _)
      | cons_cons _ h2 => exact ⟨rfl, List.sublist_nil.mp h2⟩
    obtain ⟨rfl, rfl⟩ := hx
    obtain ⟨hl, hb⟩ := List.append_inj' (show [a] ++ [b] = l1 ++ [x] from he) rfl
    subst hl
    exact .inr ⟨List.singleton_sublist.mp h1, (List.cons.inj hb).1⟩

theorem Marked.order (h : Marked tr) : ∀ d ∈ points tr, ∀ e ∈ points tr, ∀ r asks,
    [Act.ret d.id r, Act.call e.id asks].Sublist (history tr) → [d, e].Sublist (points tr) := by
  induction h with
  | nil => intro d hd; cases hd
  | @call tr i asks hm hnew ih =>
    intro d hd e he r a hs
    rw [points_call] at hd he ⊢
    rw [history_call] at hs
    rcases pair_sublist_snoc hs with hs | ⟨-, hlast⟩
    · exact ih d hd e he r a hs
    · -- what took effect was called before
      obtain ⟨asks', hcall, -⟩ := hm.asked e he
      cases hlast
      exact absurd hcall (hnew _)
  | @point tr p asks hm _ _ hnew ih =>
    intro d hd e he r a hs
    rw [history_point] at hs
    rw [points_point] at hd he ⊢
    rcases List.mem_append.mp hd with hd | hd
    · rcases List.mem_append.mp he with he | he
      · exact (ih d hd e he r a hs).trans (List.sublist_append_left _ _)
      · rw [List.mem_singleton.mp he]
        exact (List.singleton_sublist.mpr hd).append (List.Sublist.refl [p])
    · -- what returns took effect before
      obtain ⟨d', hd', hid, -⟩ := hm.answered d.id r (hs.subset List.mem_cons_self)
      rw [List.mem_singleton.mp hd] at hid
      exact absurd hid (hnew d' hd')
  | @ret tr p _ _ ih =>
    intro d hd e he r a hs
    rw [points_ret] at hd he ⊢
    rw [history_ret] at hs
    rcases pair_sublist_snoc hs with hs | ⟨-, hlast⟩
    · exact ih d hd e he r a hs
    · cases hlast

theorem Marked.linearizes (h : Marked tr) (hl : Legal obj s (points tr) t) : Linearizes obj s t (history tr) (points tr) :=
  ⟨h.once, hl, h.asked, h.answered, h.order⟩

end WfbYa.Lib.Linearization
