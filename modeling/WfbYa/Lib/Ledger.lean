/-
  WfbYa.Lib.Ledger — no account is closed before its debts are settled.

  A trace is read as entries: a debt `k` is incurred on an account, or settled, or an
  account is closed (it may be used again later). `Balanced` traces settle every debt of
  an account before they close it.

  - `Books`: a balanced trace, and what may still be owed after it.
  - `Books.incur` / `Books.settle` / `Books.close`: the books after one more entry.
-/

import Mathlib.Data.List.Basic

namespace WfbYa.Lib.Ledger

variable {α κ : Type*}

inductive Entry (α κ : Type*) where
  | incur (a : α) (k : κ)
  | settle (k : κ)
  | close (a : α)
  deriving DecidableEq

def Balanced (l : List (Entry α κ)) : Prop :=
  ∀ pre a post, l = pre ++ .close a :: post → ∀ k, .incur a k ∈ pre → .settle k ∈ pre

structure Books (l : List (Entry α κ)) (owed : α → κ → Prop) : Prop where
  balanced : Balanced l
  owed : ∀ a k, .incur a k ∈ l → .settle k ∈ l ∨ owed a k

variable {l : List (Entry α κ)} {owed owed' : α → κ → Prop}

theorem Balanced.snoc {e : Entry α κ} (h : Balanced l)
    (he : ∀ a, e = .close a → ∀ k, .incur a k ∈ l → .settle k ∈ l) : Balanced (l ++ [e]) := by
  intro pre a post hl k hk
  rcases List.eq_nil_or_concat post with rfl | ⟨post, z, rfl⟩
  · obtain ⟨rfl, h1⟩ := List.append_inj' hl rfl
    cases h1
    exact he a rfl k hk
  · rw [List.concat_eq_append, ← List.cons_append, ← List.append_assoc] at hl
    exact h pre a post (List.append_inj' hl rfl).1 k hk

theorem Balanced.take {n : Nat} {a : α} {k : κ} (h : Balanced l) (hn : l[n]? = some (.close a)) (hk : .incur a k ∈ l.take n) :
    .settle k ∈ l.take n := by
  obtain ⟨hlt, he⟩ := List.getElem?_eq_some_iff.mp hn
  refine h (l.take n) a (l.drop (n + 1)) ?_ k hk
  rw [← he, List.getElem_cons_drop, List.take_append_drop]

theorem Books.empty : Books ([] : List (Entry α κ)) owed := by
  refine ⟨fun pre a post hl => ?_, fun _ _ h => (nomatch h)⟩
  cases pre <;> cases hl

theorem Books.mono (h : Books l owed) (ho : ∀ a k, owed a k → owed' a k) : Books l owed' :=
  ⟨h.balanced, fun a k hk => (h.owed a k hk).imp_right (ho a k)⟩

theorem Books.incur {a : α} {k : κ} (h : Books l owed) (ho : owed a k) : Books (l ++ [.incur a k]) owed := by
  refine ⟨h.balanced.snoc fun _ e => (nomatch e), fun b j hj => ?_⟩
  rcases List.mem_append.mp hj with hj | hj
  · exact (h.owed b j hj).imp_left fun hs => List.mem_append_left _ hs
  · rw [List.mem_singleton] at hj
    cases hj
    exact .inr ho

theorem Books.settle_one {k : κ} (h : Books l owed) : Books (l ++ [.settle k]) (fun a j => owed a j ∧ j ≠ k) := by
  refine ⟨h.balanced.snoc fun _ e => (nomatch e), fun a j hj => ?_⟩
  rcases List.mem_append.mp hj with hj | hj
  · by_cases e : j = k
    · subst e
      exact .inl (List.mem_append_right _ List.mem_cons_self)
    · rcases h.owed a j hj with h1 | h1
      · exact .inl (List.mem_append_left _ h1)
      · exact .inr ⟨h1, e⟩
  · rw [List.mem_singleton] at hj
    cases hj

/-- What is owed after some debts were settled is what was owed besides them. -/
theorem Books.settle {ks : List κ} (h : Books l owed) (ho : ∀ a k, owed a k → k ∉ ks → owed' a k) :
    Books (l ++ ks.map .settle) owed' := by
  induction ks generalizing l owed with
  | nil =>
    rw [List.map_nil, List.append_nil]
    exact h.mono fun a k hk => ho a k hk List.not_mem_nil
  | cons k ks ih =>
    rw [List.map_cons, List.append_cons]
    exact ih h.settle_one fun a j hj hn => ho a j hj.1 fun hm => (List.mem_cons.mp hm).elim hj.2 hn

theorem Books.close {a : α} (h : Books l owed) (ha : ∀ k, ¬ owed a k) : Books (l ++ [.close a]) owed := by
  refine ⟨h.balanced.snoc fun b e k hk => ?_, fun b k hk => ?_⟩
  · cases e
    exact (h.owed a k hk).resolve_right (ha k)
  · rcases List.mem_append.mp hk with hk | hk
    · exact (h.owed b k hk).imp_left fun hs => List.mem_append_left _ hs
    · rw [List.mem_singleton] at hk
      cases hk

end WfbYa.Lib.Ledger
