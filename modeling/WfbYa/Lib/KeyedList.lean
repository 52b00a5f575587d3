/-
  WfbYa.Lib.KeyedList — a list of entries in the order of their keys, one for each.

  An entry is made, at its place in the list, if it is not there, and changed in place. The
  list is searched from its tail.

  - `Holds`: the list is the graph of a function over a set of keys, in their order.
  - `Holds.put`: making an entry and changing it is changing the function at its key.
  - `Holds.unique`: there is one such list.
-/

import Mathlib.Data.Set.Insert
import Mathlib.Logic.Function.Basic
import Mathlib.Data.List.Sort
import Mathlib.Order.Defs.LinearOrder
import Mathlib.Tactic.Common

namespace WfbYa.Lib.KeyedList

variable {κ β : Type} [LinearOrder κ] (key : β → κ)

/-- In a list in reverse: `new` behind every collection with a greater key, unless one with
    its key is there. -/
def allocRev (new : β) : List β → List β
  | [] => [new]
  | b :: l => if key new < key b then b :: allocRev new l else if key b = key new then b :: l else new :: b :: l

def alloc (new : β) (l : List β) : List β := (allocRev key new l.reverse).reverse

/-- Change the entry under `k`. -/
def modify (k : κ) (f : β → β) (l : List β) : List β := l.map fun b => if key b = k then f b else b

def Sorted (l : List β) : Prop := l.Pairwise fun a b => key a < key b

/-- The list holds `g k` for each key `k` of `S`, in the order of the keys. -/
structure Holds (g : κ → β) (S : Set κ) (l : List β) : Prop where
  sorted : Sorted key l
  mem : ∀ b, b ∈ l ↔ ∃ k ∈ S, g k = b

variable {key} {l : List β} {new b : β} {k : κ} {f : β → β}

/-! ## Making an entry -/

theorem mem_allocRev (h : b ∈ allocRev key new l) : b ∈ l ∨ b = new := by
  induction l with
  | nil => exact .inr (List.mem_singleton.mp h)
  | cons c l ih =>
    unfold allocRev at h
    split at h
    · rcases List.mem_cons.mp h with rfl | h
      · exact .inl List.mem_cons_self
      · exact (ih h).imp_left (List.mem_cons_of_mem c)
    · split at h
      · exact .inl h
      · exact (List.mem_cons.mp h).symm

theorem allocRev_sorted (h : l.Pairwise fun a b => key b < key a) : (allocRev key new l).Pairwise fun a b => key b < key a := by
  induction l with
  | nil => exact List.pairwise_singleton _ _
  | cons c l ih =>
    rw [List.pairwise_cons] at h
    unfold allocRev
    split
    · rename_i hlt
      refine List.pairwise_cons.mpr ⟨fun b hb => ?_, ih h.2⟩
      rcases mem_allocRev hb with hb | rfl
      · exact h.1 b hb
      · exact hlt
    · rename_i hlt
      split
      · exact List.pairwise_cons.mpr h
      · rename_i hne
        have hc : key c < key new := lt_of_le_of_ne (not_lt.mp hlt) hne
        refine List.pairwise_cons.mpr ⟨fun b hb => ?_, List.pairwise_cons.mpr h⟩
        rcases List.mem_cons.mp hb with rfl | hb
        · exact hc
        · exact lt_trans (h.1 b hb) hc

theorem Sorted.allocated (h : Sorted key l) : Sorted key (alloc key new l) := by
  unfold Sorted alloc at *
  rw [List.pairwise_reverse]
  apply allocRev_sorted
  rw [List.pairwise_reverse]
  exact h

theorem mem_of_allocRev (h : b ∈ l) : b ∈ allocRev key new l := by
  induction l with
  | nil => cases h
  | cons c l ih =>
    unfold allocRev
    split
    · rcases List.mem_cons.mp h with rfl | h
      · exact List.mem_cons_self
      · exact List.mem_cons_of_mem c (ih h)
    · split
      · exact h
      · exact List.mem_cons_of_mem new h

/-- A new entry is made if there is none with its key. -/
theorem new_mem_allocRev (hl : l.Pairwise fun a b => key b < key a) (h : new ∈ allocRev key new l) :
    new ∈ l ∨ ∀ b ∈ l, key b ≠ key new := by
  induction l with
  | nil => exact .inr fun b hb => nomatch hb
  | cons c l ih =>
    rw [List.pairwise_cons] at hl
    unfold allocRev at h
    split at h
    · rename_i hlt
      rcases List.mem_cons.mp h with rfl | h
      · exact absurd hlt (lt_irrefl _)
      · refine (ih hl.2 h).imp (List.mem_cons_of_mem c) fun hall b hb => ?_
        rcases List.mem_cons.mp hb with rfl | hb
        · exact ne_of_gt hlt
        · exact hall b hb
    · rename_i hlt
      split at h
      · exact .inl h
      · rename_i hne
        have hc : key c < key new := lt_of_le_of_ne (not_lt.mp hlt) hne
        refine .inr fun b hb => ?_
        rcases List.mem_cons.mp hb with rfl | hb
        · exact hne
        · exact ne_of_lt (lt_trans (hl.1 b hb) hc)

theorem new_mem_of_allocRev (h : ∀ b ∈ l, key b ≠ key new) : new ∈ allocRev key new l := by
  induction l with
  | nil => exact List.mem_singleton.mpr rfl
  | cons c l ih =>
    unfold allocRev
    split
    · exact List.mem_cons_of_mem c (ih fun b hb => h b (List.mem_cons_of_mem c hb))
    · rw [if_neg (h c List.mem_cons_self)]
      exact List.mem_cons_self

theorem Sorted.mem_alloc (h : Sorted key l) : b ∈ alloc key new l ↔ b ∈ l ∨ b = new ∧ ∀ c ∈ l, key c ≠ key new := by
  have hrev : l.reverse.Pairwise fun a b => key b < key a := List.pairwise_reverse.mpr h
  unfold alloc
  rw [List.mem_reverse]
  constructor
  · intro hb
    rcases mem_allocRev hb with hb | rfl
    · exact .inl (List.mem_reverse.mp hb)
    · refine (new_mem_allocRev hrev hb).imp List.mem_reverse.mp fun hall => ⟨rfl, fun c hc => ?_⟩
      exact hall c (List.mem_reverse.mpr hc)
  · rintro (hb | ⟨rfl, hall⟩)
    · exact mem_of_allocRev (List.mem_reverse.mpr hb)
    · exact new_mem_of_allocRev fun c hc => hall c (List.mem_reverse.mp hc)

/-! ## Changing one -/

theorem modify_modify {f f' : β → β} (hf : ∀ b, key b = k → key (f b) = k) (l : List β) :
    modify key k f' (modify key k f l) = modify key k (fun b => f' (f b)) l := by
  unfold modify
  rw [List.map_map]
  apply List.map_congr_left
  intro b _
  dsimp only [Function.comp_apply]
  by_cases hb : key b = k
  · rw [if_pos hb, if_pos hb, if_pos (hf b hb)]
  · rw [if_neg hb, if_neg hb, if_neg hb]

theorem modify_same (hf : ∀ b, f b = b) (l : List β) : modify key k f l = l := by
  unfold modify
  conv_rhs => rw [← List.map_id l]
  apply List.map_congr_left
  intro b _
  rw [hf, ite_self]
  rfl

theorem Sorted.modified (h : Sorted key l) (hf : ∀ b, key b = k → key (f b) = k) : Sorted key (modify key k f l) := by
  have hkey : ∀ b, key (if key b = k then f b else b) = key b := by
    intro b
    by_cases hb : key b = k
    · rw [if_pos hb, hf b hb, hb]
    · rw [if_neg hb]
  unfold Sorted modify at *
  rw [List.pairwise_map]
  refine h.imp fun {a b} hab => ?_
  rwa [hkey, hkey]

theorem mem_modify {b' : β} : b' ∈ modify key k f l ↔ (∃ b ∈ l, key b = k ∧ f b = b') ∨ b' ∈ l ∧ key b' ≠ k := by
  unfold modify
  rw [List.mem_map]
  constructor
  · rintro ⟨b, hb, he⟩
    split at he
    · rename_i hk
      exact .inl ⟨b, hb, hk, he⟩
    · rename_i hk
      exact .inr (he ▸ ⟨hb, hk⟩)
  · rintro (⟨b, hb, hk, he⟩ | ⟨hb, hk⟩)
    · exact ⟨b, hb, by rw [if_pos hk, he]⟩
    · exact ⟨b', hb, if_neg hk⟩

/-! ## The function a list holds -/

variable {g g' : κ → β} {S : Set κ}

theorem holds_nil (key : β → κ) (g : κ → β) : Holds key g ∅ [] := ⟨List.Pairwise.nil, by simp⟩

/-- An entry is changed where it is. -/
theorem Holds.modified (h : Holds key g S l) (hg : ∀ k, key (g k) = k) (hf : ∀ b, key b = k → key (f b) = k)
    (hk : k ∈ S → f (g k) = g' k) (hkeep : ∀ k' ∈ S, k' ≠ k → g' k' = g k') : Holds key g' S (modify key k f l) := by
  refine ⟨h.sorted.modified hf, fun b => ?_⟩
  rw [mem_modify]
  constructor
  · rintro (⟨b, hb, hkey, rfl⟩ | ⟨hb, hkey⟩)
    · obtain ⟨k', hk', rfl⟩ := (h.mem b).mp hb
      obtain rfl : k' = k := (hg k').symm.trans hkey
      exact ⟨k', hk', (hk hk').symm⟩
    · obtain ⟨k', hk', rfl⟩ := (h.mem b).mp hb
      rw [hg] at hkey
      exact ⟨k', hk', hkeep k' hk' hkey⟩
  · rintro ⟨k', hk', rfl⟩
    by_cases he : k' = k
    · subst he
      exact .inl ⟨g k', (h.mem _).mpr ⟨k', hk', rfl⟩, hg k', hk hk'⟩
    · rw [hkeep k' hk' he]
      exact .inr ⟨(h.mem _).mpr ⟨k', hk', rfl⟩, by rwa [hg]⟩

theorem Holds.allocated (h : Holds key g S l) (hg : ∀ k, key (g k) = k) (hnew : key new = k)
    (hk : k ∉ S → g' k = new) (hold : k ∈ S → g' k = g k) (hkeep : ∀ k', k' ≠ k → g' k' = g k') :
    Holds key g' (insert k S) (alloc key new l) := by
  have hkeep' : ∀ k' ∈ S, g' k' = g k' := by
    intro k' hk'
    by_cases he : k' = k
    · subst he
      exact hold hk'
    · exact hkeep k' he
  have hnone : (∀ c ∈ l, key c ≠ key new) ↔ k ∉ S := by
    rw [hnew]
    constructor
    · intro hall hS
      exact hall (g k) ((h.mem _).mpr ⟨k, hS, rfl⟩) (hg k)
    · intro hS c hc he
      obtain ⟨k', hk', rfl⟩ := (h.mem c).mp hc
      rw [hg] at he
      exact hS (he ▸ hk')
  refine ⟨h.sorted.allocated, fun b => ?_⟩
  rw [h.sorted.mem_alloc, hnone, h.mem]
  constructor
  · rintro (⟨k', hk', rfl⟩ | ⟨rfl, hS⟩)
    · exact ⟨k', Set.mem_insert_of_mem k hk', hkeep' k' hk'⟩
    · exact ⟨k, Set.mem_insert k S, hk hS⟩
  · rintro ⟨k', hk', rfl⟩
    rcases Set.mem_insert_iff.mp hk' with rfl | hk'
    · by_cases hS : k' ∈ S
      · exact .inl ⟨k', hS, (hold hS).symm⟩
      · exact .inr ⟨hk hS, hS⟩
    · exact .inl ⟨k', hk', (hkeep' k' hk').symm⟩

/-- Making an entry if there is none, and changing it. -/
theorem Holds.put (h : Holds key g S l) (hg : ∀ k, key (g k) = k) (hnew : key new = k)
    (hf : ∀ b, key (f b) = key b) (hfresh : k ∉ S → f new = g' k) (hold : k ∈ S → f (g k) = g' k)
    (hkeep : ∀ k', k' ≠ k → g' k' = g k') : Holds key g' (insert k S) (modify key k f (alloc key new l)) := by
  classical
  have halloc : Holds key (fun k' => if k' = k then (if k ∈ S then g k else new) else g k') (insert k S)
      (alloc key new l) := by
    refine h.allocated hg hnew ?_ ?_ ?_
    · intro hS
      rw [if_pos rfl, if_neg hS]
    · intro hS
      rw [if_pos rfl, if_pos hS]
    · intro k' hk'
      rw [if_neg hk']
  refine halloc.modified ?_ (fun b hb => (hf b).trans hb) ?_ ?_
  · intro k'
    split
    · rename_i he
      split
      · exact (hg k).trans he.symm
      · exact hnew.trans he.symm
    · exact hg k'
  · intro _
    rw [if_pos rfl]
    split
    · rename_i hS
      exact hold hS
    · rename_i hS
      exact hfresh hS
  · intro k' _ hne
    rw [if_neg hne]
    exact hkeep k' hne

theorem Holds.map (h : Holds key g S l) (hg' : ∀ k ∈ S, f (g k) = g' k) (hkey : ∀ k ∈ S, key (g' k) = key (g k)) :
    Holds key g' S (l.map f) := by
  refine ⟨?_, fun b => ?_⟩
  · have hf : ∀ b ∈ l, key (f b) = key b := by
      intro b hb
      obtain ⟨k, hk, rfl⟩ := (h.mem b).mp hb
      rw [hg' k hk, hkey k hk]
    unfold Sorted
    rw [List.pairwise_map]
    refine h.sorted.imp_of_mem fun {a b} ha hb hab => ?_
    rwa [hf a ha, hf b hb]
  · rw [List.mem_map]
    constructor
    · rintro ⟨c, hc, rfl⟩
      obtain ⟨k, hk, rfl⟩ := (h.mem c).mp hc
      exact ⟨k, hk, (hg' k hk).symm⟩
    · rintro ⟨k, hk, rfl⟩
      exact ⟨g k, (h.mem _).mpr ⟨k, hk, rfl⟩, hg' k hk⟩

theorem Holds.congr (h : Holds key g S l) (hg' : ∀ k ∈ S, g k = g' k) : Holds key g' S l := by
  refine ⟨h.sorted, fun b => ?_⟩
  rw [h.mem]
  constructor
  · rintro ⟨k, hk, rfl⟩
    exact ⟨k, hk, (hg' k hk).symm⟩
  · rintro ⟨k, hk, rfl⟩
    exact ⟨k, hk, hg' k hk⟩

/-- What the list is searched for is found. -/
theorem Holds.find (h : Holds key g S l) (hg : ∀ k, key (g k) = k) (hk : k ∈ S) : l.find? (fun b => key b = k) = some (g k) := by
  cases hfind : l.find? fun b => key b = k with
  | none =>
    have := List.find?_eq_none.mp hfind (g k) ((h.mem _).mpr ⟨k, hk, rfl⟩)
    simp [hg] at this
  | some b =>
    have hb := List.mem_of_find?_eq_some hfind
    have hkey : key b = k := by simpa using List.find?_some hfind
    obtain ⟨k', -, rfl⟩ := (h.mem b).mp hb
    rw [hg] at hkey
    rw [hkey]

/-- What was made or changed is found as it is now. -/
theorem Holds.find_put (h : Holds key g S l) (hg : ∀ k, key (g k) = k) (hnew : key new = k) (hfresh : k ∉ S → g k = new)
    (hf : ∀ b, key (f b) = key b) : (modify key k f (alloc key new l)).find? (fun b => key b = k) = some (f (g k)) := by
  classical
  have hput : Holds key (Function.update g k (f (g k))) (insert k S) (modify key k f (alloc key new l)) := by
    refine h.put hg hnew hf ?_ ?_ ?_
    · intro hS
      rw [Function.update_self, hfresh hS]
    · intro _
      rw [Function.update_self]
    · intro k' hk'
      exact Function.update_of_ne hk' _ _
  have hkeys : ∀ k', key (Function.update g k (f (g k)) k') = k' := by
    intro k'
    by_cases he : k' = k
    · subst he
      rw [Function.update_self, hf, hg]
    · rw [Function.update_of_ne he, hg]
  rw [hput.find hkeys (Set.mem_insert k S), Function.update_self]

theorem Sorted.keys_sorted (h : Sorted key l) : (l.map key).Pairwise (· < ·) := List.pairwise_map.mpr h

theorem Holds.keys_nodup (h : Holds key g S l) : (l.map key).Nodup := h.sorted.keys_sorted.imp ne_of_lt

theorem Holds.mem_keys (h : Holds key g S l) (hg : ∀ k, key (g k) = k) : k ∈ l.map key ↔ k ∈ S := by
  rw [List.mem_map]
  constructor
  · rintro ⟨b, hb, rfl⟩
    obtain ⟨k', hk', rfl⟩ := (h.mem b).mp hb
    rwa [hg]
  · intro hk
    exact ⟨g k, (h.mem _).mpr ⟨k, hk, rfl⟩, hg k⟩

theorem Holds.eq_map (h : Holds key g S l) (hg : ∀ k, key (g k) = k) : l = (l.map key).map g := by
  rw [List.map_map]
  conv_lhs => rw [← List.map_id l]
  apply List.map_congr_left
  intro b hb
  obtain ⟨k, -, rfl⟩ := (h.mem b).mp hb
  dsimp only [id, Function.comp_apply]
  rw [hg]

/-- One set of keys, one list of keys. -/
theorem Holds.keys_eq {g' : κ → β} {l' : List β} (h : Holds key g S l) (h' : Holds key g' S l') (hg : ∀ k, key (g k) = k)
    (hg' : ∀ k, key (g' k) = k) : l.map key = l'.map key := by
  refine List.Pairwise.eq_of_mem_iff h.sorted.keys_sorted h'.sorted.keys_sorted fun k => ?_
  rw [h.mem_keys hg, h'.mem_keys hg']

/-- There is one list that holds a function over a set of keys. -/
theorem Holds.unique {l' : List β} (h : Holds key g S l) (h' : Holds key g S l') (hg : ∀ k, key (g k) = k) : l = l' := by
  rw [h.eq_map hg, h'.eq_map hg, h.keys_eq h' hg hg]

/-- Two lists over the same keys read the same exactly if they do at every key. -/
theorem Holds.map_eq_iff {γ : Type*} {g' : κ → β} {l' : List β} (h : Holds key g S l) (h' : Holds key g' S l')
    (hg : ∀ k, key (g k) = k) (hg' : ∀ k, key (g' k) = k) (f : β → γ) :
    l.map f = l'.map f ↔ ∀ k ∈ S, f (g k) = f (g' k) := by
  have hmem : ∀ k, k ∈ l.map key ↔ k ∈ S := fun k => h.mem_keys hg
  rw [h.eq_map hg, h'.eq_map hg', ← h.keys_eq h' hg hg']
  generalize l.map key = keys at hmem ⊢
  rw [List.map_map, List.map_map, List.map_inj_left]
  exact forall_congr' fun k => imp_congr_left (hmem k)

end WfbYa.Lib.KeyedList
