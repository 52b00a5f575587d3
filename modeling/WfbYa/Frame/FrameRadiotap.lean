/-
  WfbYa.Frame.FrameRadiotap — the radiotap header of a captured frame (`frame_radiotap.c`).

  The iterator over the header's fields is radiotap-library's, which the repository only
  links: it is a parameter, and `RadiotapOk` says what the receiver relies on. Pointers
  into the header are offsets in it.

  - `radiotapFrameParse_cases`: everything a call can do.
  - `radiotapRaw_eq`: the field pointers are those reported last.
-/

import WfbYa.Params
import WfbYa.Lib.LittleEndian
import WfbYa.Lib.Traced
import Mathlib.Logic.Function.Basic

namespace WfbYa.Frame

open WfbYa.Lib WfbYa.Lib.BigEndian WfbYa.Lib.LittleEndian

/-! ## radiotap-library -/

/-- `this_arg` as `ieee80211_radiotap_iterator_next` leaves it. -/
structure RadiotapArg where
  isRadiotapNs : Bool
  thisArgIndex : Nat
  thisArg : Nat
  deriving DecidableEq

/-- An accepted header: what the iterator goes through, whether it gets to the end
    (`-ENOENT`), and `_max_length`. -/
structure RadiotapIterator where
  args : List RadiotapArg
  noent : Bool
  maxLength : Nat
  deriving DecidableEq

/-- `ieee80211_radiotap_iterator_init` on a buffer and its size: an iterator, unless it
    fails. -/
abbrev RadiotapLib := Bytes → Nat → Option RadiotapIterator

/-- `it_len`. -/
def itLen (data : Bytes) : Nat := ofLe (slice data 2 2)

/-- A word of the present bitmap. -/
def itPresent (data : Bytes) (j : Nat) : Nat := ofLe (slice data (4 + 4 * j) 4)

/-- The field's bit is set in one of the present words; bit 31 of a word announces another. -/
def Marked (data : Bytes) (index : Nat) : Prop :=
  ∃ j, (∀ i < j, (itPresent data i).testBit 31 = true) ∧ (itPresent data j).testBit (index % 32) = true

structure RadiotapOk (lib : RadiotapLib) : Prop where
  itLen : ∀ data size it, lib data size = some it → itLen data ≤ size
  maxLength : ∀ data size it, lib data size = some it → it.maxLength = WfbYa.Frame.itLen data
  marked : ∀ data size it, lib data size = some it → ∀ a ∈ it.args, a.isRadiotapNs = true → Marked data a.thisArgIndex

/-- `sizeof(struct ieee80211_radiotap_header)`. -/
def radiotapHdrlen : Nat := 8

def ieee80211RadiotapFlags : Nat := 1
def ieee80211RadiotapChannel : Nat := 3
def ieee80211RadiotapDbmAntsignal : Nat := 5
def ieee80211RadiotapFFcs : Nat := 0x10
def ieee80211RadiotapFBadfcs : Nat := 0x40

/-! ## radiotap_frame_parse -/

/-- What a parser reports: a `p_err`, or a radiotap field read through its pointer. -/
inductive ParseEv where
  | err (fmt : String)
  | deref (index : Nat) (arg : Option Nat)
  deriving DecidableEq, Repr

structure RadiotapContext where
  hasFcs : Bool
  badFcs : Bool
  freq : Nat
  flags : Nat
  dbm : Int
  /-- The field pointers, by their bits. -/
  raw : Nat → Option Nat

def RadiotapContext.zero : RadiotapContext := ⟨false, false, 0, 0, 0, fun _ => none⟩

/-- The fields there is a `case` for. -/
def radiotapCase (index : Nat) : Bool := decide (index ≤ 22 ∧ index ≠ 18)

/-- The loop over the iterator. -/
def radiotapRaw (args : List RadiotapArg) : Nat → Option Nat :=
  args.foldl (fun raw a =>
    if a.isRadiotapNs && radiotapCase a.thisArgIndex then Function.update raw a.thisArgIndex (some a.thisArg) else raw)
    fun _ => none

def radiotapDeref (raw : Nat → Option Nat) (index : Nat) : Traced ParseEv Fault Nat := do
  Traced.emit (.deref index (raw index))
  match raw index with
  | some p => return p
  | none => Traced.fail .nullPointer

/-- An `int8_t` in memory. -/
def int8At (data : Bytes) (off : Nat) : Int := ((data.getD off 0).toNat : Int).bmod (2 ^ 8)

def flagSet (data : Bytes) (off mask : Nat) : Bool := decide ((data.getD off 0).toNat &&& mask ≠ 0)

/-- `ctx->freq` and `ctx->flags`. -/
def radiotapChannel (data : Bytes) (raw : Nat → Option Nat) : Traced ParseEv Fault (Nat × Nat) := do
  match raw ieee80211RadiotapChannel with
  | none => return (0, 0)
  | some _ => do
    let freq ← radiotapDeref raw ieee80211RadiotapChannel
    let flags ← radiotapDeref raw ieee80211RadiotapChannel
    return (ofLe (slice data freq 2), ofLe (slice data (flags + 2) 2))

/-- `ctx->dbm`. -/
def radiotapDbm (data : Bytes) (raw : Nat → Option Nat) : Traced ParseEv Fault Int := do
  match raw ieee80211RadiotapDbmAntsignal with
  | none => return dbmInval
  | some _ => do
    let p ← radiotapDeref raw ieee80211RadiotapDbmAntsignal
    return int8At data p

def radiotapFrameParse (lib : RadiotapLib) (data : Bytes) (size : Nat) : Traced ParseEv Fault (RadiotapContext × Int) :=
  if size < radiotapHdrlen then do
    Traced.emit (.err "Frame too short\n")
    return (.zero, 0)
  else match lib data size with
    | none => do
      Traced.emit (.err "malformed radiotap header\n")
      return (.zero, -1)
    | some iter =>
      let raw := radiotapRaw iter.args
      if iter.noent = false then do
        Traced.emit (.err "malformed radiotap header\n")
        return ({ RadiotapContext.zero with raw := raw }, -1)
      else do
        let fcs ← radiotapDeref raw ieee80211RadiotapFlags
        let bad ← radiotapDeref raw ieee80211RadiotapFlags
        let chan ← radiotapChannel data raw
        let dbm ← radiotapDbm data raw
        return (⟨flagSet data fcs ieee80211RadiotapFFcs, flagSet data bad ieee80211RadiotapFBadfcs, chan.1, chan.2, dbm, raw⟩,
          iter.maxLength)

/-! ## What a call does -/

/-- Where a field lies: the last argument reported for it. -/
def RadiotapIterator.field (iter : RadiotapIterator) (index : Nat) : Option Nat :=
  ((iter.args.filter fun a => a.isRadiotapNs && decide (a.thisArgIndex = index)).getLast?).map RadiotapArg.thisArg

theorem radiotapRaw_eq (iter : RadiotapIterator) {index : Nat} (h : radiotapCase index = true) :
    radiotapRaw iter.args index = iter.field index := by
  unfold radiotapRaw RadiotapIterator.field
  induction iter.args using List.reverseRecOn with
  | nil => rfl
  | append_singleton args a ih =>
    rw [List.foldl_append, List.filter_append, List.foldl_cons, List.foldl_nil]
    by_cases hi : a.isRadiotapNs = true ∧ a.thisArgIndex = index
    · obtain ⟨hns, rfl⟩ := hi
      simp [hns, h]
    · have hone : [a].filter (fun a => a.isRadiotapNs && decide (a.thisArgIndex = index)) = [] := by simpa using hi
      rw [hone, List.append_nil, ← ih]
      split
      · rename_i hc
        rw [Bool.and_eq_true] at hc
        exact Function.update_of_ne (fun e => hi ⟨hc.1, e.symm⟩) ..
      · rfl

/-- A field that is reported is marked present. -/
theorem RadiotapOk.field {lib : RadiotapLib} (h : RadiotapOk lib) {data : Bytes} {size index p : Nat} {it : RadiotapIterator}
    (hl : lib data size = some it) (hf : it.field index = some p) : Marked data index := by
  unfold RadiotapIterator.field at hf
  obtain ⟨a, ha, -⟩ := Option.map_eq_some_iff.mp hf
  have hm := List.mem_of_getLast? ha
  rw [List.mem_filter, Bool.and_eq_true, decide_eq_true_eq] at hm
  rw [← hm.2.2]
  exact h.marked data size it hl a hm.1 hm.2.1

/-- What an accepted header says, by the fields reported. -/
def RadiotapIterator.context (iter : RadiotapIterator) (data : Bytes) (p : Nat) : RadiotapContext where
  hasFcs := flagSet data p ieee80211RadiotapFFcs
  badFcs := flagSet data p ieee80211RadiotapFBadfcs
  freq := match iter.field ieee80211RadiotapChannel with
    | some p => ofLe (slice data p 2)
    | none => 0
  flags := match iter.field ieee80211RadiotapChannel with
    | some p => ofLe (slice data (p + 2) 2)
    | none => 0
  dbm := match iter.field ieee80211RadiotapDbmAntsignal with
    | some p => int8At data p
    | none => dbmInval
  raw := radiotapRaw iter.args

/-- Everything a call can do: what it reports, and its result. -/
inductive RadiotapCall (lib : RadiotapLib) (data : Bytes) (size : Nat) :
    List ParseEv → Except Fault (RadiotapContext × Int) → Prop
  | short {evs : List ParseEv} : size < radiotapHdrlen → (∀ i a, ParseEv.deref i a ∉ evs) →
      RadiotapCall lib data size evs (.ok (.zero, 0))
  | refused {ctx : RadiotapContext} {evs : List ParseEv} : radiotapHdrlen ≤ size →
      (∀ it, lib data size = some it → it.noent = false) → (∀ i a, ParseEv.deref i a ∉ evs) →
      RadiotapCall lib data size evs (.ok (ctx, -1))
  | noFlags {it : RadiotapIterator} : radiotapHdrlen ≤ size → lib data size = some it → it.noent = true →
      it.field ieee80211RadiotapFlags = none →
      RadiotapCall lib data size [.deref ieee80211RadiotapFlags none] (.error .nullPointer)
  | parsed {it : RadiotapIterator} {p : Nat} {evs : List ParseEv} : radiotapHdrlen ≤ size → lib data size = some it →
      it.noent = true → it.field ieee80211RadiotapFlags = some p →
      (∀ e ∈ evs, ∃ i q, e = .deref i (some q) ∧ it.field i = some q) →
      RadiotapCall lib data size evs (.ok (it.context data p, it.maxLength))

theorem radiotapDeref_some {raw : Nat → Option Nat} {index p : Nat} (h : raw index = some p) :
    radiotapDeref raw index = ⟨[.deref index (some p)], .ok p⟩ := by
  simp [radiotapDeref, Traced.emit, bind, pure, h]

theorem radiotapDeref_none {raw : Nat → Option Nat} {index : Nat} (h : raw index = none) :
    radiotapDeref raw index = ⟨[.deref index none], .error .nullPointer⟩ := by
  simp [radiotapDeref, Traced.emit, Traced.fail, bind, h]

theorem radiotapChannel_eq (it : RadiotapIterator) (data : Bytes) (p : Nat) :
    (radiotapChannel data (radiotapRaw it.args)).out = .ok ((it.context data p).freq, (it.context data p).flags) ∧
      ∀ e ∈ (radiotapChannel data (radiotapRaw it.args)).evs, ∃ i q, e = .deref i (some q) ∧ it.field i = some q := by
  have hraw := @radiotapRaw_eq it ieee80211RadiotapChannel rfl
  unfold radiotapChannel
  cases hf : it.field ieee80211RadiotapChannel with
  | none =>
    rw [hf] at hraw
    simp [hraw, RadiotapIterator.context, hf]
  | some q =>
    rw [hf] at hraw
    simp [hraw, radiotapDeref_some hraw, bind, pure, RadiotapIterator.context, hf]

theorem radiotapDbm_eq (it : RadiotapIterator) (data : Bytes) (p : Nat) :
    (radiotapDbm data (radiotapRaw it.args)).out = .ok (it.context data p).dbm ∧
      ∀ e ∈ (radiotapDbm data (radiotapRaw it.args)).evs, ∃ i q, e = .deref i (some q) ∧ it.field i = some q := by
  have hraw := @radiotapRaw_eq it ieee80211RadiotapDbmAntsignal rfl
  unfold radiotapDbm
  cases hf : it.field ieee80211RadiotapDbmAntsignal with
  | none =>
    rw [hf] at hraw
    simp [hraw, RadiotapIterator.context, hf]
  | some q =>
    rw [hf] at hraw
    simp [hraw, radiotapDeref_some hraw, bind, pure, RadiotapIterator.context, hf]

theorem radiotapFrameParse_cases (lib : RadiotapLib) (data : Bytes) (size : Nat) :
    RadiotapCall lib data size (radiotapFrameParse lib data size).evs (radiotapFrameParse lib data size).out := by
  unfold radiotapFrameParse
  split
  · rename_i h
    exact .short h (by simp)
  · rename_i h
    have h8 : radiotapHdrlen ≤ size := Nat.not_lt.mp h
    split
    · rename_i hl
      exact .refused h8 (fun it hit => by rw [hl] at hit; cases hit) (by simp)
    · rename_i it hl
      dsimp only
      split
      · rename_i hn
        refine .refused h8 (fun it' hit => ?_) (by simp)
        cases hl.symm.trans hit
        exact hn
      · rename_i hn
        rw [Bool.not_eq_false] at hn
        have hraw := @radiotapRaw_eq it ieee80211RadiotapFlags rfl
        cases hf : it.field ieee80211RadiotapFlags with
        | none =>
          rw [hf] at hraw
          rw [radiotapDeref_none hraw]
          exact .noFlags h8 hl hn hf
        | some p =>
          rw [hf] at hraw
          rw [radiotapDeref_some hraw]
          obtain ⟨hchan, hcev⟩ := radiotapChannel_eq it data p
          obtain ⟨hdbm, hdev⟩ := radiotapDbm_eq it data p
          simp only [bind, pure, hchan, hdbm]
          refine .parsed h8 hl hn hf ?_
          intro e he
          simp only [List.mem_append, List.mem_singleton, List.append_nil] at he
          rcases he with rfl | rfl | he | he
          · exact ⟨_, _, rfl, hf⟩
          · exact ⟨_, _, rfl, hf⟩
          · exact hcev e he
          · exact hdev e he

/-! ## A concrete iterator -/

/-- Alignment and size of the fields 0 to 5. -/
def fieldLayout : List (Nat × Nat) := [(8, 8), (1, 1), (1, 1), (2, 4), (2, 2), (1, 1)]

/-- The fields of a present word, from field `i` on, the next one at `off` or behind; and
    where they end. -/
def walkFields (present : Nat) : List (Nat × Nat) → Nat → Nat → List RadiotapArg × Nat
  | [], _, off => ([], off)
  | (align, size) :: layout, i, off =>
    if present.testBit i then
      let start := (off + align - 1) / align * align
      let rest := walkFields present layout (i + 1) (start + size)
      (⟨true, i, start⟩ :: rest.1, rest.2)
    else walkFields present layout (i + 1) off

/-- The iterator over headers that have none but these fields. -/
def basicIterator : RadiotapLib := fun data size =>
  if size < itLen data ∨ itLen data < radiotapHdrlen ∨ 2 ^ 6 ≤ itPresent data 0 then none
  else
    let fields := walkFields (itPresent data 0) fieldLayout 0 radiotapHdrlen
    some ⟨fields.1, decide (fields.2 ≤ itLen data), itLen data⟩

theorem walkFields_marked {present : Nat} (layout : List (Nat × Nat)) (i off : Nat) :
    ∀ a ∈ (walkFields present layout i off).1, a.thisArgIndex < i + layout.length ∧ present.testBit a.thisArgIndex = true := by
  induction layout generalizing i off with
  | nil => exact fun a ha => nomatch ha
  | cons l layout ih =>
    intro a ha
    unfold walkFields at ha
    rw [List.length_cons]
    split at ha
    · rename_i hbit
      rcases List.mem_cons.mp ha with rfl | ha
      · exact ⟨by show i < _; omega, hbit⟩
      · obtain ⟨h1, h2⟩ := ih (i + 1) _ a ha
        exact ⟨by omega, h2⟩
    · obtain ⟨h1, h2⟩ := ih (i + 1) _ a ha
      exact ⟨by omega, h2⟩

theorem basicIterator_ok : RadiotapOk basicIterator where
  itLen := fun data size it h => by
    unfold basicIterator at h
    split at h
    · cases h
    · omega
  maxLength := fun data size it h => by
    unfold basicIterator at h
    split at h
    · cases h
    · cases h
      rfl
  marked := fun data size it h a ha _ => by
    unfold basicIterator at h
    split at h
    · cases h
    · cases h
      obtain ⟨hlt, hbit⟩ := walkFields_marked fieldLayout 0 radiotapHdrlen a ha
      have hlen : fieldLayout.length = 6 := rfl
      refine ⟨0, fun i hi => absurd hi (Nat.not_lt_zero i), ?_⟩
      rw [Nat.mod_eq_of_lt (by omega)]
      exact hbit

end WfbYa.Frame
