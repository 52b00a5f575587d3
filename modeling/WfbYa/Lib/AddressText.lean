/-
  WfbYa.Lib.AddressText — reading an IPv6 address: eight groups of hexadecimal digits with
  colons between them, of which a double colon stands for zeros, and the last two of which may
  be an IPv4 address.

  - `readAddr_join`: all groups.
  - `readAddr_double`: some left out.
-/

import WfbYa.Lib.Numerals

namespace WfbYa.Lib.AddressText

open WfbYa.Lib.Numerals

/-! ## The reader -/

def readQuad (cs : List Char) : Option (List Nat) :=
  match (cs.splitOn '.').mapM readNat with
  | some [p, q, r, s] => some [p * 256 + q, r * 256 + s]
  | _ => none

def readGroup (cs : List Char) : Option (List Nat) := if '.' ∈ cs then readQuad cs else (readHex cs).map fun w => [w]

def readGroups (cs : List Char) : Option (List Nat) :=
  if cs = [] then some [] else ((cs.splitOn ':').mapM readGroup).map List.flatten

/-- What is around the first double colon. -/
def cutDouble : List Char → Option (List Char × List Char)
  | [] => none
  | c :: cs => if c = ':' ∧ cs.head? = some ':' then some ([], cs.tail) else (cutDouble cs).map fun p => (c :: p.1, p.2)

def readAddr (cs : List Char) : Option (List Nat) :=
  match cutDouble cs with
  | none => readGroups cs
  | some (l, r) =>
    match readGroups l, readGroups r with
    | some l, some r => some (l ++ List.replicate (8 - l.length - r.length) 0 ++ r)
    | _, _ => none

/-! ## What it reads -/

variable {sep c : Char} {gs : List (List Char)} {g rest : List Char} {ws ws' : List Nat}

theorem mem_join (h : c ∈ [sep].intercalate gs) : c = sep ∨ ∃ g ∈ gs, c ∈ g := by
  induction gs with
  | nil => simp at h
  | cons g gs ih =>
    cases gs with
    | nil => exact .inr ⟨g, by simp, by simpa using h⟩
    | cons g' gs =>
      simp only [List.intercalate_cons_cons, List.mem_append, List.mem_singleton] at h
      rcases h with (hg | hsep) | hrest
      · exact .inr ⟨g, List.mem_cons_self, hg⟩
      · exact .inl hsep
      · rcases ih hrest with hsep | ⟨g'', hg'', hc⟩
        · exact .inl hsep
        · exact .inr ⟨g'', List.mem_cons_of_mem g hg'', hc⟩

/-- The characters of addresses. -/
def InAddress (c : Char) : Prop := hexValue c ≠ none ∨ c = ':' ∨ c = '.'

instance (c : Char) : Decidable (InAddress c) := inferInstanceAs (Decidable (_ ∨ _ ∨ _))

def hexJoin (ws : List Nat) : List Char := [':'].intercalate (ws.map (Nat.toDigits 16))

theorem hexJoin_chars (h : c ∈ hexJoin ws) : InAddress c := by
  rcases mem_join h with hcolon | ⟨g, hg, hc⟩
  · exact .inr (.inl hcolon)
  · obtain ⟨w, -, rfl⟩ := List.mem_map.mp hg
    exact .inl fun hnone => not_mem_hexDigits hnone hc

theorem colon_not_hex (n : Nat) : ':' ∉ Nat.toDigits 16 n := not_mem_hexDigits (by decide)

theorem dot_not_hex (n : Nat) : '.' ∉ Nat.toDigits 16 n := not_mem_hexDigits (by decide)

theorem readGroup_hex (w : Nat) : readGroup (Nat.toDigits 16 w) = some [w] := by
  simp [readGroup, dot_not_hex]

theorem readGroups_joined (hne : gs ≠ []) (hcolon : ∀ g ∈ gs, g ≠ [] ∧ ':' ∉ g) :
    readGroups ([':'].intercalate gs) = (gs.mapM readGroup).map List.flatten := by
  have htext : [':'].intercalate gs ≠ [] := by
    obtain ⟨g, gs, rfl⟩ := List.exists_cons_of_ne_nil hne
    have hg := (hcolon g List.mem_cons_self).1
    cases gs <;> simp [hg]
  unfold readGroups
  rw [if_neg htext, List.splitOn_intercalate ':' (fun g hg => (hcolon g hg).2) hne]

theorem mapM_hex (ws : List Nat) : (ws.map (Nat.toDigits 16)).mapM readGroup = some (ws.map fun w => [w]) := by
  induction ws with
  | nil => rfl
  | cons w ws ih => simp [List.mapM_cons, readGroup_hex, ih]

theorem flatten_singles (ws : List Nat) : (ws.map fun w => [w]).flatten = ws := by
  induction ws with
  | nil => rfl
  | cons w ws ih => simp [ih]

theorem readGroups_hex (ws : List Nat) : readGroups (hexJoin ws) = some ws := by
  by_cases hne : ws = []
  · subst hne
    rfl
  · have hgroups : ∀ g ∈ ws.map (Nat.toDigits 16), g ≠ [] ∧ ':' ∉ g := by
      intro g hg
      obtain ⟨w, -, rfl⟩ := List.mem_map.mp hg
      exact ⟨Nat.toDigits_ne_nil, colon_not_hex w⟩
    unfold hexJoin
    rw [readGroups_joined (by simpa using hne) hgroups, mapM_hex, Option.map_some, flatten_singles]

/-! ## The double colon -/

theorem cutDouble_word (hg : ':' ∉ g) : cutDouble (g ++ rest) = (cutDouble rest).map fun p => (g ++ p.1, p.2) := by
  induction g with
  | nil => simp
  | cons c g ih =>
    have hc : c ≠ ':' := fun h => hg (h ▸ List.mem_cons_self)
    have hrest := ih fun h => hg (List.mem_cons_of_mem c h)
    simp [cutDouble, hc, hrest, Function.comp_def]

theorem hexJoin_cons (w w' : Nat) (ws : List Nat) :
    hexJoin (w :: w' :: ws) = Nat.toDigits 16 w ++ ':' :: hexJoin (w' :: ws) := by
  simp [hexJoin]

/-- No group is empty. -/
theorem hexJoin_head (w : Nat) (ws : List Nat) : (hexJoin (w :: ws) ++ rest).head? ≠ some ':' := by
  obtain ⟨c, cs, hcs⟩ := List.exists_cons_of_ne_nil (@Nat.toDigits_ne_nil w 16)
  have hc : c ≠ ':' := fun h => colon_not_hex w (by simp [hcs, h])
  cases ws with
  | nil => simp [hexJoin, hcs, hc]
  | cons w' ws => simp [hexJoin_cons, hcs, hc]

theorem cutDouble_hex (ws : List Nat) :
    cutDouble (hexJoin ws ++ rest) = (cutDouble rest).map fun p => (hexJoin ws ++ p.1, p.2) := by
  induction ws with
  | nil => simp [hexJoin]
  | cons w ws ih =>
    cases ws with
    | nil => simpa [hexJoin] using cutDouble_word (colon_not_hex w)
    | cons w' ws =>
      rw [hexJoin_cons, List.append_assoc, cutDouble_word (colon_not_hex w), List.cons_append, cutDouble,
        if_neg fun h => hexJoin_head w' ws h.2, ih]
      simp [Function.comp_def]

theorem readAddr_join (ws : List Nat) : readAddr (hexJoin ws) = some ws := by
  have hcut : cutDouble (hexJoin ws) = none := by simpa [cutDouble] using @cutDouble_hex [] ws
  unfold readAddr
  rw [hcut]
  exact readGroups_hex ws

theorem readAddr_double (h : readGroups rest = some ws') :
    readAddr (hexJoin ws ++ ':' :: ':' :: rest) = some (ws ++ List.replicate (8 - ws.length - ws'.length) 0 ++ ws') := by
  have hcut : cutDouble (hexJoin ws ++ ':' :: ':' :: rest) = some (hexJoin ws, rest) := by
    rw [cutDouble_hex]
    simp [cutDouble]
  unfold readAddr
  rw [hcut]
  simp only [readGroups_hex, h]

end WfbYa.Lib.AddressText
