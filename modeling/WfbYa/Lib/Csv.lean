/-
  WfbYa.Lib.Csv — tables as text: fields between marks, or nothing, with a separator between
  them and the end of a line behind each row.

  - `readTable`: a reader. Two marks in a row stand for one that belongs to the field.
  - `readTable_text`: a table is read back, if no field has a mark in it.
-/

import Mathlib.Data.List.Basic

namespace WfbYa.Lib.Csv

structure Marks (α : Type) where
  quote : α
  sep : α
  nl : α
  quote_ne_sep : quote ≠ sep
  quote_ne_nl : quote ≠ nl
  nl_ne_sep : nl ≠ sep

abbrev Row (α : Type) := List (Option (List α))

variable {α : Type} (m : Marks α)

/-! ## Writing -/

def fieldText : Option (List α) → List α
  | none => []
  | some w => m.quote :: (w ++ [m.quote])

def rowText : Row α → List α
  | [] => [m.nl]
  | [f] => fieldText m f ++ [m.nl]
  | f :: g :: fs => fieldText m f ++ m.sep :: rowText (g :: fs)

def tableText (rows : List (Row α)) : List α := rows.flatMap (rowText m)

/-! ## Reading -/

/-- The field a reader is at. -/
inductive Cell (α : Type) where
  | empty
  | inside (w : List α)
  /-- Behind a mark, which ends the field unless another one follows. -/
  | quoted (w : List α)

structure Reading (α : Type) where
  rows : List (Row α)
  row : Row α
  cell : Cell α

variable [DecidableEq α]

/-- A field ends, and perhaps its row. -/
def Reading.close (s : Reading α) (f : Option (List α)) (c : α) : Option (Reading α) :=
  if c = m.sep then some ⟨s.rows, s.row ++ [f], .empty⟩
  else if c = m.nl then some ⟨s.rows ++ [s.row ++ [f]], [], .empty⟩
  else none

def Reading.next (s : Reading α) (c : α) : Option (Reading α) :=
  match s.cell with
  | .empty => if c = m.quote then some { s with cell := .inside [] } else s.close m none c
  | .inside w => some { s with cell := if c = m.quote then .quoted w else .inside (w ++ [c]) }
  | .quoted w => if c = m.quote then some { s with cell := .inside (w ++ [m.quote]) } else s.close m (some w) c

/-- The rows, once the last one has ended. -/
def Reading.done (s : Reading α) : Option (List (Row α)) :=
  match s.row, s.cell with
  | [], .empty => some s.rows
  | _, _ => none

def readTable (text : List α) : Option (List (Row α)) := (text.foldlM (Reading.next m) ⟨[], [], .empty⟩).bind Reading.done

/-! ## The round trip -/

/-- Where a reader is behind a field. -/
def Cell.ofField : Option (List α) → Cell α
  | none => .empty
  | some w => .quoted w

variable {m} {rows : List (Row α)} {row : Row α} {f : Option (List α)} {w : List α} {c : α}

/-- A row that can be read back. -/
def Plain (m : Marks α) (row : Row α) : Prop := row ≠ [] ∧ ∀ w, some w ∈ row → m.quote ∉ w

theorem read_word (h : m.quote ∉ w) (v : List α) :
    w.foldlM (Reading.next m) ⟨rows, row, .inside v⟩ = some ⟨rows, row, .inside (v ++ w)⟩ := by
  induction w generalizing v with
  | nil => simp
  | cons c w ih =>
    have hc : c ≠ m.quote := fun hq => h (hq ▸ List.mem_cons_self)
    have hw : m.quote ∉ w := fun hq => h (List.mem_cons_of_mem c hq)
    simp [Reading.next, hc, ih hw]

theorem read_field (h : ∀ w, f = some w → m.quote ∉ w) :
    (fieldText m f).foldlM (Reading.next m) ⟨rows, row, .empty⟩ = some ⟨rows, row, .ofField f⟩ := by
  cases f with
  | none => rfl
  | some w => simp [fieldText, Reading.next, Cell.ofField, List.foldlM_append, read_word (h w rfl)]

theorem next_ofField (h : c ≠ m.quote) :
    Reading.next m ⟨rows, row, .ofField f⟩ c = Reading.close m ⟨rows, row, .ofField f⟩ f c := by
  cases f <;> simp [Reading.next, Cell.ofField, h]

theorem read_row (h : Plain m row) (done : Row α) :
    (rowText m row).foldlM (Reading.next m) ⟨rows, done, .empty⟩ = some ⟨rows ++ [done ++ row], [], .empty⟩ := by
  induction row generalizing done with
  | nil => exact absurd rfl h.1
  | cons f row ih =>
    have hf : ∀ w, f = some w → m.quote ∉ w := fun w hw => h.2 w (by simp [hw])
    cases row with
    | nil => simp [rowText, List.foldlM_append, read_field hf, next_ofField m.quote_ne_nl.symm, Reading.close, m.nl_ne_sep]
    | cons g row =>
      have hrow : Plain m (g :: row) := ⟨by simp, fun w hw => h.2 w (List.mem_cons_of_mem f hw)⟩
      simp [rowText, List.foldlM_append, read_field hf, next_ofField m.quote_ne_sep.symm, Reading.close, ih hrow]

theorem read_rows {table : List (Row α)} (h : ∀ row ∈ table, Plain m row) :
    (tableText m table).foldlM (Reading.next m) ⟨rows, [], .empty⟩ = some ⟨rows ++ table, [], .empty⟩ := by
  induction table generalizing rows with
  | nil => simp [tableText]
  | cons row table ih =>
    have hrow := h row List.mem_cons_self
    have htable : ∀ row ∈ table, Plain m row := fun r hr => h r (List.mem_cons_of_mem row hr)
    unfold tableText at ih ⊢
    rw [List.flatMap_cons, List.foldlM_append, read_row hrow []]
    simp [ih htable]

theorem readTable_text {table : List (Row α)} (h : ∀ row ∈ table, Plain m row) :
    readTable m (tableText m table) = some table := by
  unfold readTable
  rw [read_rows h]
  rfl

end WfbYa.Lib.Csv
