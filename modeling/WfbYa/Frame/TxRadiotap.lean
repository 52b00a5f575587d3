/-
  WfbYa.Frame.TxRadiotap — the radiotap header a sender builds, and what the receiver makes
  of it (`radiotap_tx_context_initialize` against `radiotap_frame_parse`).

  `EMBED_ARG` puts each field where the last one ends; the iterator looks for it at the next
  multiple of its alignment. `it_len` leaves no room for the difference: one field out of
  place and the whole header is refused.

  - `StandardLayout`: what is assumed of radiotap-library.
  - `txContext_ok`: what the sender builds.
  - `parse_aligned`, `parse_tight`: what the receiver makes of it.
  - `radiotap_roundTrip_iff`: when the fields come back.
-/

import WfbYa.Frame.FrameRadiotap
import WfbYa.Lib.Alignment
import Mathlib.Data.List.Nodup

namespace WfbYa.Frame

open WfbYa.Lib WfbYa.Lib.BigEndian WfbYa.Lib.LittleEndian WfbYa.Lib.Alignment

/-! ## The standard layout -/

structure RadiotapField where
  index : Nat
  align : Nat
  size : Nat
  deriving DecidableEq

/-- The fields that the library and the repository both know, with the library's alignments and
    sizes; 18 is missing. -/
def radiotapFields : List RadiotapField :=
  [⟨0, 8, 8⟩, ⟨1, 1, 1⟩, ⟨2, 1, 1⟩, ⟨3, 2, 4⟩, ⟨4, 2, 2⟩, ⟨5, 1, 1⟩, ⟨6, 1, 1⟩, ⟨7, 2, 2⟩, ⟨8, 2, 2⟩, ⟨9, 2, 2⟩, ⟨10, 1, 1⟩,
    ⟨11, 1, 1⟩, ⟨12, 1, 1⟩, ⟨13, 1, 1⟩, ⟨14, 2, 2⟩, ⟨15, 2, 2⟩, ⟨16, 1, 1⟩, ⟨17, 1, 1⟩, ⟨19, 1, 3⟩, ⟨20, 4, 8⟩, ⟨21, 2, 12⟩,
    ⟨22, 8, 12⟩]

def presentFields (present : Nat) : List RadiotapField := radiotapFields.filter fun f => present.testBit f.index

/-- What the iterator goes through: each present field at the next multiple of its alignment,
    up to the first that ends behind `it_len`. -/
def standardArgs (data : Bytes) : RadiotapIterator :=
  let fields := place RadiotapField.align RadiotapField.size (itLen data) (presentFields (itPresent data 0)) radiotapHdrlen
  ⟨fields.1.map fun p => ⟨true, p.1.index, p.2⟩, fields.2, itLen data⟩

/-- A header with one present word and no other fields. -/
def PlainHeader (data : Bytes) (size : Nat) : Prop :=
  data.getD 0 0 = 0 ∧ radiotapHdrlen ≤ itLen data ∧ itLen data ≤ size ∧
    ∀ j < 32, (itPresent data 0).testBit j = true → j ∈ radiotapFields.map RadiotapField.index

instance (data : Bytes) (size : Nat) : Decidable (PlainHeader data size) := inferInstanceAs (Decidable (_ ∧ _ ∧ _ ∧ _))

/-- radiotap-library goes through such headers so. -/
def StandardLayout (lib : RadiotapLib) : Prop := ∀ data size, PlainHeader data size → lib data size = some (standardArgs data)

/-! ## radiotap_tx_context_initialize -/

/-- What a pointer of `struct radiotap_params` points to, as it lies in memory. -/
structure Pointee (size : Nat) where
  bytes : Bytes
  length : bytes.length = size

/-- `struct radiotap_params`, the fields that are embedded. -/
structure RadiotapParams where
  tsft : Option (Pointee 8)
  flags : Option (Pointee 1)
  rate : Option (Pointee 1)
  channel : Option (Pointee 4)
  fhss : Option (Pointee 2)
  dbmAntennaSignal : Option (Pointee 1)
  dbmAntennaNoise : Option (Pointee 1)
  lockQuality : Option (Pointee 2)
  txAtt : Option (Pointee 2)
  dbTxAtt : Option (Pointee 2)
  txPower : Option (Pointee 1)
  antenna : Option (Pointee 1)
  dbAntennaSignal : Option (Pointee 1)
  dbAntennaNoise : Option (Pointee 1)
  rxFlags : Option (Pointee 2)
  txFlags : Option (Pointee 2)
  rtsRetries : Option (Pointee 1)
  dataRetries : Option (Pointee 1)
  mcs : Option (Pointee 3)
  ampdu : Option (Pointee 8)
  vht : Option (Pointee 12)
  timestamp : Option (Pointee 12)

/-- The bits and arguments of the `EMBED_ARG` lines, in their order. -/
def RadiotapParams.args (param : RadiotapParams) : List (Nat × Option Bytes) :=
  [(0, param.tsft.map Pointee.bytes), (1, param.flags.map Pointee.bytes), (2, param.rate.map Pointee.bytes),
    (3, param.channel.map Pointee.bytes), (4, param.fhss.map Pointee.bytes), (5, param.dbmAntennaSignal.map Pointee.bytes),
    (6, param.dbmAntennaNoise.map Pointee.bytes), (7, param.lockQuality.map Pointee.bytes), (8, param.txAtt.map Pointee.bytes),
    (9, param.dbTxAtt.map Pointee.bytes), (10, param.txPower.map Pointee.bytes), (11, param.antenna.map Pointee.bytes),
    (12, param.dbAntennaSignal.map Pointee.bytes), (13, param.dbAntennaNoise.map Pointee.bytes),
    (14, param.rxFlags.map Pointee.bytes), (15, param.txFlags.map Pointee.bytes), (16, param.rtsRetries.map Pointee.bytes),
    (17, param.dataRetries.map Pointee.bytes), (19, param.mcs.map Pointee.bytes), (20, param.ampdu.map Pointee.bytes),
    (21, param.vht.map Pointee.bytes), (22, param.timestamp.map Pointee.bytes)]

/-- `sizeof(ctx->tx_data)`: the header, and a pointer for each of the 34 fields. -/
def txDataSize : Nat := radiotapHdrlen + 34 * 8

/-- `tx_data` while it is filled; `it_len` and `it_present` in host byte order. -/
structure RadiotapTx where
  itLen : Nat
  itPresent : Nat
  payload : Bytes

/-- `EMBED_ARG`. -/
def embedArg (tx : RadiotapTx) (a : Nat × Option Bytes) : Except Fault RadiotapTx :=
  match a.2 with
  | none => .ok tx
  | some arg =>
    if tx.itLen + arg.length < txDataSize then
      .ok ⟨tx.itLen + arg.length, tx.itPresent ||| 1 <<< a.1, tx.payload ++ arg⟩
    else .error .assertFailed

/-- The bytes `tx_iov` covers. -/
def RadiotapTx.iov (tx : RadiotapTx) : Bytes :=
  ([0, 0] ++ le 2 tx.itLen ++ le 4 tx.itPresent ++ tx.payload).take tx.itLen

def radiotapTxContextInitialize (param : RadiotapParams) : Except Fault Bytes :=
  (param.args.foldlM embedArg ⟨radiotapHdrlen, 0, []⟩).map RadiotapTx.iov

/-! ## What the sender builds -/

/-- The fields with what is given for them. -/
def RadiotapParams.rows (param : RadiotapParams) : List (RadiotapField × Option Bytes) :=
  radiotapFields.zip (param.args.map Prod.snd)

def given (rows : List (RadiotapField × Option Bytes)) : List (RadiotapField × Bytes) :=
  rows.filterMap fun r => r.2.map fun v => (r.1, v)

def RadiotapParams.supplied (param : RadiotapParams) : List (RadiotapField × Bytes) := given param.rows

variable {param : RadiotapParams} {rows : List (RadiotapField × Option Bytes)} {r : RadiotapField × Option Bytes}
  {l : List (RadiotapField × Bytes)} {tx : RadiotapTx}

theorem rows_args (param : RadiotapParams) : param.rows.map (fun r => (r.1.index, r.2)) = param.args := rfl

theorem rows_fields (param : RadiotapParams) : param.rows.map Prod.fst = radiotapFields := rfl

theorem mem_given {s : RadiotapField × Bytes} : s ∈ given rows ↔ (s.1, some s.2) ∈ rows := by
  unfold given
  rw [List.mem_filterMap]
  constructor
  · intro ⟨r, hr, hs⟩
    obtain ⟨v, hv, rfl⟩ := Option.map_eq_some_iff.mp hs
    rw [← hv]
    exact hr
  · intro hr
    exact ⟨_, hr, rfl⟩

theorem given_cons : given (r :: rows) = (r.2.map fun v => (r.1, v)).toList ++ given rows := by
  unfold given
  rw [List.filterMap_cons]
  cases r.2 <;> rfl

theorem pointee_length {n : Nat} {o : Option (Pointee n)} {v : Bytes} (h : v ∈ o.map Pointee.bytes) : v.length = n := by
  obtain ⟨p, -, rfl⟩ := Option.map_eq_some_iff.mp h
  exact p.length

/-- Each argument has the size of its field. -/
theorem rows_sizes (param : RadiotapParams) : ∀ r ∈ param.rows, ∀ v ∈ r.2, v.length = r.1.size := by
  unfold RadiotapParams.rows radiotapFields RadiotapParams.args
  simp only [List.map_cons, List.map_nil, List.zip_cons_cons, List.zip_nil_right]
  repeat
    refine List.forall_mem_cons.mpr ⟨fun v hv => pointee_length hv, ?_⟩
  exact List.forall_mem_nil _

theorem supplied_size {s : RadiotapField × Bytes} (h : s ∈ param.supplied) : s.2.length = s.1.size :=
  rows_sizes param _ (mem_given.mp h) s.2 rfl

theorem supplied_field {s : RadiotapField × Bytes} (h : s ∈ param.supplied) : s.1 ∈ radiotapFields := by
  rw [← rows_fields param]
  exact List.mem_map_of_mem (mem_given.mp h)

theorem given_sum (hsize : ∀ r ∈ rows, ∀ v ∈ r.2, v.length = r.1.size) :
    ((given rows).map fun s => s.2.length).sum ≤ ((rows.map Prod.fst).map RadiotapField.size).sum := by
  induction rows with
  | nil => exact le_rfl
  | cons r rows ih =>
    have hrest := ih fun r' hr' => hsize r' (List.mem_cons_of_mem r hr')
    have hr := hsize r List.mem_cons_self
    rw [given_cons, List.map_append, List.sum_append, List.map_cons, List.map_cons, List.sum_cons]
    cases hv : r.2 with
    | none =>
      show 0 + _ ≤ _
      omega
    | some v =>
      have hlen := hr v hv
      show (v.length + 0) + _ ≤ _
      omega

/-- `tx_data` with these fields in it. -/
structure RadiotapTx.Holds (tx : RadiotapTx) (l : List (RadiotapField × Bytes)) : Prop where
  itLen : tx.itLen = radiotapHdrlen + (l.map fun s => s.2.length).sum
  itPresent : ∀ j, tx.itPresent.testBit j = l.any fun s => decide (s.1.index = j)
  payload : tx.payload = (l.map Prod.snd).flatten

theorem embedArg_holds (h : tx.Holds l) (hroom : tx.itLen + ((given [r]).map fun s => s.2.length).sum < txDataSize) :
    ∃ tx', embedArg tx (r.1.index, r.2) = .ok tx' ∧ tx'.Holds (l ++ given [r]) := by
  unfold embedArg
  rw [given_cons] at hroom ⊢
  cases hv : r.2 with
  | none => exact ⟨tx, rfl, by simpa [given, hv] using h⟩
  | some v =>
    rw [hv] at hroom
    have hlen : tx.itLen + v.length < txDataSize := hroom
    refine ⟨⟨tx.itLen + v.length, tx.itPresent ||| 1 <<< r.1.index, tx.payload ++ v⟩, if_pos hlen, ?_, ?_, ?_⟩
    · simp [given, h.itLen, Nat.add_assoc]
    · intro j
      simp [given, h.itPresent, Nat.one_shiftLeft, Nat.testBit_two_pow]
    · simp [given, h.payload]

theorem embed_holds (h : tx.Holds l) (hroom : tx.itLen + ((given rows).map fun s => s.2.length).sum < txDataSize) :
    ∃ tx', (rows.map fun r => (r.1.index, r.2)).foldlM embedArg tx = .ok tx' ∧ tx'.Holds (l ++ given rows) := by
  induction rows generalizing tx l with
  | nil => exact ⟨tx, rfl, by simpa [given] using h⟩
  | cons r rows ih =>
    have hsplit : given (r :: rows) = given [r] ++ given rows := by
      rw [given_cons, given_cons]
      simp [given]
    rw [hsplit, List.map_append, List.sum_append, ← Nat.add_assoc] at hroom
    obtain ⟨tx', htx', hh⟩ := @embedArg_holds r l tx h (by omega)
    have hlen : tx'.itLen = tx.itLen + ((given [r]).map fun s => s.2.length).sum := by
      rw [hh.itLen, h.itLen, List.map_append, List.sum_append, Nat.add_assoc]
    obtain ⟨tx'', htx'', hh'⟩ := ih hh (by omega)
    refine ⟨tx'', ?_, ?_⟩
    · rw [List.map_cons, List.foldlM_cons, htx']
      exact htx''
    · rwa [hsplit, ← List.append_assoc]

/-- The assertion holds for every field, and `tx_data` is filled. -/
theorem txContext_ok (param : RadiotapParams) :
    ∃ tx : RadiotapTx, radiotapTxContextInitialize param = .ok tx.iov ∧ tx.Holds param.supplied := by
  have hsum := given_sum (rows_sizes param)
  rw [rows_fields, show (radiotapFields.map RadiotapField.size).sum = 69 from rfl] at hsum
  have hroom : radiotapHdrlen + ((given param.rows).map fun s => s.2.length).sum < txDataSize := by
    have h1 : radiotapHdrlen = 8 := rfl
    have h2 : txDataSize = 280 := rfl
    omega
  have hstart : RadiotapTx.Holds ⟨radiotapHdrlen, 0, []⟩ [] := ⟨rfl, fun j => by simp, rfl⟩
  obtain ⟨tx, htx, hh⟩ := embed_holds hstart hroom
  rw [rows_args] at htx
  refine ⟨tx, ?_, hh⟩
  unfold radiotapTxContextInitialize
  rw [htx]
  rfl

/-! ## What the receiver reads of it -/

theorem fields_nodup : (radiotapFields.map RadiotapField.index).Nodup := by decide

theorem field_pos {f : RadiotapField} (h : f ∈ radiotapFields) : 0 < f.align := by
  have hall : ∀ f ∈ radiotapFields, 0 < f.align := by decide
  exact hall f h

theorem field_case {f : RadiotapField} (h : f ∈ radiotapFields) : radiotapCase f.index = true := by
  have hall : ∀ f ∈ radiotapFields, radiotapCase f.index = true := by decide
  exact hall f h

theorem given_fields (hnd : (rows.map fun r => r.1.index).Nodup) :
    (rows.map Prod.fst).filter (fun f => (given rows).any fun s => decide (s.1.index = f.index)) = (given rows).map Prod.fst := by
  have hgiven : (given rows).map Prod.fst = (rows.filter fun r => r.2.isSome).map Prod.fst := by
    clear hnd
    induction rows with
    | nil => rfl
    | cons r rows ih =>
      rw [given_cons, List.map_append, ih]
      cases hv : r.2 with
      | none => simp [hv]
      | some v => simp [hv]
  rw [hgiven, List.filter_map]
  congr 1
  apply List.filter_congr
  intro r hr
  rw [Function.comp_apply, Bool.eq_iff_iff, List.any_eq_true]
  constructor
  · intro ⟨s, hs, hidx⟩
    have hmem := mem_given.mp hs
    have heq : (s.1, some s.2) = r := List.inj_on_of_nodup_map hnd hmem hr (of_decide_eq_true hidx)
    rw [← heq]
    rfl
  · intro hsome
    obtain ⟨v, hv⟩ := Option.isSome_iff_exists.mp hsome
    refine ⟨(r.1, v), mem_given.mpr ?_, decide_eq_true rfl⟩
    rw [← hv]
    exact hr

theorem supplied_fields (h : tx.Holds param.supplied) : presentFields tx.itPresent = param.supplied.map Prod.fst := by
  have hnd : (param.rows.map fun r => r.1.index).Nodup := by
    have hmap : (param.rows.map fun r => r.1.index) = radiotapFields.map RadiotapField.index := rfl
    rw [hmap]
    exact fields_nodup
  rw [RadiotapParams.supplied, ← given_fields hnd, rows_fields]
  unfold presentFields
  apply List.filter_congr
  intro f _
  exact h.itPresent f.index

theorem supplied_lengths (param : RadiotapParams) :
    (param.supplied.map fun s => s.2.length) = (param.supplied.map Prod.fst).map RadiotapField.size := by
  rw [List.map_map]
  exact List.map_congr_left fun s hs => supplied_size hs

theorem txIov_parts (h : tx.Holds l) :
    tx.iov = ([0, 0] ++ le 2 tx.itLen ++ le 4 tx.itPresent) ++ (l.map Prod.snd).flatten ∧ tx.iov.length = tx.itLen := by
  have hlen : (([0, 0] ++ le 2 tx.itLen ++ le 4 tx.itPresent) ++ (l.map Prod.snd).flatten : Bytes).length = tx.itLen := by
    rw [h.itLen]
    simp [radiotapHdrlen, List.length_flatten, Function.comp_def]
    omega
  have heq : tx.iov = ([0, 0] ++ le 2 tx.itLen ++ le 4 tx.itPresent) ++ (l.map Prod.snd).flatten := by
    unfold RadiotapTx.iov
    rw [h.payload]
    exact List.take_of_length_le (Nat.le_of_eq hlen)
  exact ⟨heq, by rw [heq, hlen]⟩

theorem txIov_words (h : tx.Holds param.supplied) (rest : Bytes) :
    itLen (tx.iov ++ rest) = tx.itLen ∧ itPresent (tx.iov ++ rest) 0 = tx.itPresent := by
  have hlen : tx.itLen < 256 ^ 2 := by
    have hsum := given_sum (rows_sizes param)
    rw [rows_fields, show (radiotapFields.map RadiotapField.size).sum = 69 from rfl] at hsum
    have hl := h.itLen
    have h1 : radiotapHdrlen = 8 := rfl
    unfold RadiotapParams.supplied at hl
    omega
  have hpresent : tx.itPresent < 256 ^ 4 := by
    apply Nat.lt_pow_two_of_testBit (n := 32)
    intro j hj
    rw [h.itPresent, List.any_eq_false]
    intro s hs
    have hall : ∀ f ∈ radiotapFields, f.index < 32 := by decide
    have := hall s.1 (supplied_field hs)
    simpa using (by omega : s.1.index ≠ j)
  unfold itLen itPresent
  rw [(txIov_parts h).1]
  simp only [List.append_assoc]
  constructor
  · rw [@slice_middle [0, 0] (le 2 tx.itLen) _ 2 2 rfl (le_length ..), ofLe_le hlen]
  · rw [← List.append_assoc [0, 0], slice_middle (by simp) (le_length ..), ofLe_le hpresent]

theorem txIov_plain (h : tx.Holds param.supplied) (rest : Bytes) : PlainHeader (tx.iov ++ rest) (tx.iov ++ rest).length := by
  obtain ⟨h1, h2⟩ := txIov_words h rest
  refine ⟨?_, ?_, ?_, ?_⟩
  · rw [(txIov_parts h).1]
    rfl
  · rw [h1, h.itLen]
    exact Nat.le_add_right ..
  · rw [h1, List.length_append, (txIov_parts h).2]
    exact Nat.le_add_right ..
  · intro j _ hbit
    rw [h2, h.itPresent, List.any_eq_true] at hbit
    obtain ⟨s, hs, hidx⟩ := hbit
    rw [← of_decide_eq_true hidx]
    exact List.mem_map_of_mem (supplied_field hs)

/-- Every supplied field's offset, as the sender packs them, is a multiple of its alignment. -/
def RadiotapParams.Aligned (param : RadiotapParams) : Prop :=
  Fits RadiotapField.align RadiotapField.size (param.supplied.map Prod.fst) radiotapHdrlen

instance : Decidable param.Aligned := decidableFits ..

theorem supplied_pos : ∀ f ∈ param.supplied.map Prod.fst, 0 < f.align := by
  intro f hf
  obtain ⟨s, hs, rfl⟩ := List.mem_map.mp hf
  exact field_pos (supplied_field hs)

theorem supplied_end (h : tx.Holds param.supplied) :
    radiotapHdrlen + ((param.supplied.map Prod.fst).map RadiotapField.size).sum = tx.itLen := by
  rw [h.itLen, supplied_lengths]

/-- What the iterator goes through, if the fields are aligned. -/
theorem args_aligned (h : tx.Holds param.supplied) (ha : param.Aligned) (rest : Bytes) :
    standardArgs (tx.iov ++ rest) =
      ⟨(packed RadiotapField.size (param.supplied.map Prod.fst) radiotapHdrlen).map fun p => ⟨true, p.1.index, p.2⟩, true,
        tx.itLen⟩ := by
  obtain ⟨h1, h2⟩ := txIov_words h rest
  unfold standardArgs
  rw [h1, h2, supplied_fields h, place_packed supplied_pos ha (Nat.le_of_eq (supplied_end h))]

/-- It gets to the end only if they are. -/
theorem args_tight (h : tx.Holds param.supplied) {rest : Bytes} (hn : (standardArgs (tx.iov ++ rest)).noent = true) :
    param.Aligned := by
  obtain ⟨h1, h2⟩ := txIov_words h rest
  unfold standardArgs at hn
  rw [h1, h2, supplied_fields h] at hn
  exact place_tight supplied_pos hn (supplied_end h)

/-! ## The field pointers -/

theorem radiotapRaw_none {args : List RadiotapArg} {i : Nat} (h : ∀ a ∈ args, a.thisArgIndex ≠ i) :
    radiotapRaw args i = none := by
  unfold radiotapRaw
  induction args using List.reverseRecOn with
  | nil => rfl
  | append_singleton args a ih =>
    have hrest := ih fun b hb => h b (List.mem_append_left _ hb)
    rw [List.foldl_append, List.foldl_cons, List.foldl_nil]
    split
    · rwa [Function.update_of_ne (h a (List.mem_append_right _ List.mem_cons_self)).symm]
    · exact hrest

theorem field_of_nodup {it : RadiotapIterator} (hnd : (it.args.map RadiotapArg.thisArgIndex).Nodup) {a : RadiotapArg}
    (ha : a ∈ it.args) (hns : a.isRadiotapNs = true) : it.field a.thisArgIndex = some a.thisArg := by
  have hmem : a ∈ it.args.filter fun b => b.isRadiotapNs && decide (b.thisArgIndex = a.thisArgIndex) := by
    rw [List.mem_filter]
    exact ⟨ha, by simp [hns]⟩
  unfold RadiotapIterator.field
  cases hlast : (it.args.filter fun b => b.isRadiotapNs && decide (b.thisArgIndex = a.thisArgIndex)).getLast? with
  | none =>
    rw [List.getLast?_eq_none_iff.mp hlast] at hmem
    cases hmem
  | some b =>
    have hb := List.mem_filter.mp (List.mem_of_getLast? hlast)
    rw [Bool.and_eq_true, decide_eq_true_eq] at hb
    rw [List.inj_on_of_nodup_map hnd hb.1 ha hb.2.2]
    rfl

theorem supplied_nodup (param : RadiotapParams) : ((param.supplied.map Prod.fst).map RadiotapField.index).Nodup := by
  obtain ⟨tx, -, hh⟩ := txContext_ok param
  rw [← supplied_fields hh]
  exact fields_nodup.sublist (List.filter_sublist.map _)

theorem mem_supplied {a : Nat × Option Bytes} {v : Bytes} (ha : a ∈ param.args) (hv : a.2 = some v) :
    ∃ s ∈ param.supplied, s.1.index = a.1 ∧ s.2 = v := by
  rw [← rows_args] at ha
  obtain ⟨r, hr, rfl⟩ := List.mem_map.mp ha
  refine ⟨(r.1, v), mem_given.mpr ?_, rfl, rfl⟩
  rw [show some v = r.2 from hv.symm]
  exact hr

/-- A supplied field is reported where it lies. -/
theorem field_supplied (h : tx.Holds param.supplied) (ha : param.Aligned) (rest : Bytes) {s : RadiotapField × Bytes}
    (hs : s ∈ param.supplied) :
    ∃ off, (standardArgs (tx.iov ++ rest)).field s.1.index = some off ∧ slice (tx.iov ++ rest) off s.2.length = s.2 := by
  have hfirst := @packed_map_fst _ RadiotapField.size (param.supplied.map Prod.fst) radiotapHdrlen
  have hmem : s.1 ∈ (packed RadiotapField.size (param.supplied.map Prod.fst) radiotapHdrlen).map Prod.fst := by
    rw [hfirst]
    exact List.mem_map_of_mem hs
  obtain ⟨p, hp, hps⟩ := List.mem_map.mp hmem
  refine ⟨p.2, ?_, ?_⟩
  · rw [← hps]
    refine @field_of_nodup (standardArgs (tx.iov ++ rest)) ?_ ⟨true, p.1.index, p.2⟩ ?_ rfl
    · rw [args_aligned h ha, List.map_map]
      have hnd := supplied_nodup param
      rwa [← hfirst, List.map_map] at hnd
    · rw [args_aligned h ha]
      exact List.mem_map_of_mem hp
  · have hfront : ([0, 0] ++ le 2 tx.itLen ++ le 4 tx.itPresent : Bytes).length = radiotapHdrlen := by simp [radiotapHdrlen]
    rw [← hfront] at hp
    obtain ⟨s', hs', hkey, hbytes⟩ := @packed_slice _ _ Prod.fst RadiotapField.size Prod.snd _ _ rest p
      (fun s hs => supplied_size hs) hp
    have heq : s' = s := by
      have hnd := supplied_nodup param
      rw [List.map_map] at hnd
      exact List.inj_on_of_nodup_map hnd hs' hs (congrArg RadiotapField.index (hkey.trans hps))
    rw [(txIov_parts h).1, List.append_assoc, supplied_size hs, ← hps, hbytes, heq]

/-- No other is. -/
theorem field_other (h : tx.Holds param.supplied) (ha : param.Aligned) (rest : Bytes) {i : Nat}
    (hi : ∀ s ∈ param.supplied, s.1.index ≠ i) : ∀ a ∈ (standardArgs (tx.iov ++ rest)).args, a.thisArgIndex ≠ i := by
  rw [args_aligned h ha]
  intro a hmem
  obtain ⟨p, hp, rfl⟩ := List.mem_map.mp hmem
  have hf := List.mem_map_of_mem (f := Prod.fst) hp
  rw [packed_map_fst] at hf
  obtain ⟨s, hs, hsp⟩ := List.mem_map.mp hf
  show p.1.index ≠ i
  rw [← hsp]
  exact hi s hs

/-! ## The round trip -/

/-- What the receiver's context says is what was given. -/
structure Yields (param : RadiotapParams) (data : Bytes) (ctx : RadiotapContext) : Prop where
  supplied : ∀ a ∈ param.args, ∀ v ∈ a.2, ∃ off, ctx.raw a.1 = some off ∧ slice data off v.length = v
  others : ∀ i, (∀ a ∈ param.args, a.1 = i → a.2 = none) → ctx.raw i = none
  flags : ∀ v ∈ param.flags, ctx.hasFcs = flagSet v.bytes 0 ieee80211RadiotapFFcs ∧
    ctx.badFcs = flagSet v.bytes 0 ieee80211RadiotapFBadfcs
  freq : ctx.freq = (param.channel.map fun v => ofLe (slice v.bytes 0 2)).getD 0
  channelFlags : ctx.flags = (param.channel.map fun v => ofLe (slice v.bytes 2 2)).getD 0
  dbm : ctx.dbm = (param.dbmAntennaSignal.map fun v => int8At v.bytes 0).getD dbmInval

/-- The sender's header, in front of any payload, is consumed, and what was given is found. -/
def RadiotapRoundTrip (lib : RadiotapLib) (param : RadiotapParams) (rest : Bytes) : Prop :=
  ∃ iov ctx, radiotapTxContextInitialize param = .ok iov ∧
    (radiotapFrameParse lib (iov ++ rest) (iov ++ rest).length).out = .ok (ctx, (iov.length : Int)) ∧
      Yields param (iov ++ rest) ctx

theorem slice_slice {data : Bytes} {off n i k : Nat} (h : i + k ≤ n) : slice (slice data off n) i k = slice data (off + i) k := by
  apply List.map_congr_left
  intro j hj
  have hlt : i + j < n := by
    have := List.mem_range.mp hj
    omega
  rw [List.getD_eq_getElem?_getD, slice, List.getElem?_map, List.getElem?_range hlt, Nat.add_assoc]
  rfl

theorem slice_getD {data v : Bytes} {off : Nat} (h : slice data off v.length = v) (hv : 0 < v.length) :
    data.getD off 0 = v.getD 0 0 := by
  rw [← h, slice, List.getD_eq_getElem?_getD (l := List.map _ _), List.getElem?_map, List.getElem?_range (by simpa using hv)]
  rfl

theorem field_args (h : tx.Holds param.supplied) (ha : param.Aligned) (rest : Bytes) {a : Nat × Option Bytes}
    (hmem : a ∈ param.args) {v : Bytes} (hv : a.2 = some v) :
    ∃ off, (standardArgs (tx.iov ++ rest)).field a.1 = some off ∧ slice (tx.iov ++ rest) off v.length = v := by
  obtain ⟨s, hs, hidx, hsv⟩ := mem_supplied hmem hv
  rw [← hidx, ← hsv]
  exact field_supplied h ha rest hs

theorem args_other {i : Nat} (hi : ∀ a ∈ param.args, a.1 = i → a.2 = none) : ∀ s ∈ param.supplied, s.1.index ≠ i := by
  intro s hs hidx
  have hrow := List.mem_map_of_mem (f := fun r : RadiotapField × Option Bytes => (r.1.index, r.2)) (mem_given.mp hs)
  rw [rows_args] at hrow
  have hnone := hi _ hrow hidx
  cases hnone

theorem field_none (h : tx.Holds param.supplied) (ha : param.Aligned) (rest : Bytes) {i : Nat}
    (hi : ∀ a ∈ param.args, a.1 = i → a.2 = none) : (standardArgs (tx.iov ++ rest)).field i = none := by
  have hno := field_other h ha rest (args_other hi)
  unfold RadiotapIterator.field
  rw [List.filter_eq_nil_iff.mpr]
  · rfl
  · intro a hmem
    simp [hno a hmem]

theorem context_values (it : RadiotapIterator) (data : Bytes) (p : Nat) :
    (it.context data p).freq = ((it.field ieee80211RadiotapChannel).map fun off => ofLe (slice data off 2)).getD 0 ∧
      (it.context data p).flags = ((it.field ieee80211RadiotapChannel).map fun off => ofLe (slice data (off + 2) 2)).getD 0 ∧
      (it.context data p).dbm = ((it.field ieee80211RadiotapDbmAntsignal).map fun off => int8At data off).getD dbmInval := by
  unfold RadiotapIterator.context
  dsimp only
  refine ⟨?_, ?_, ?_⟩
  · cases it.field ieee80211RadiotapChannel with
    | none => rw [Option.map_none, Option.getD_none]
    | some off => rw [Option.map_some, Option.getD_some]
  · cases it.field ieee80211RadiotapChannel with
    | none => rw [Option.map_none, Option.getD_none]
    | some off => rw [Option.map_some, Option.getD_some]
  · cases it.field ieee80211RadiotapDbmAntsignal with
    | none => rw [Option.map_none, Option.getD_none]
    | some off => rw [Option.map_some, Option.getD_some]

theorem aligned_yields (h : tx.Holds param.supplied) (ha : param.Aligned) (rest : Bytes) {p : Nat}
    (hp : (standardArgs (tx.iov ++ rest)).field ieee80211RadiotapFlags = some p) :
    Yields param (tx.iov ++ rest) ((standardArgs (tx.iov ++ rest)).context (tx.iov ++ rest) p) := by
  have hraw : ∀ i, (∀ a ∈ param.args, a.1 = i → a.2 = none) → radiotapRaw (standardArgs (tx.iov ++ rest)).args i = none :=
    fun i hi => radiotapRaw_none (field_other h ha rest (args_other hi))
  have hfield := fun a (hmem : a ∈ param.args) v (hv : a.2 = some v) => field_args h ha rest hmem hv
  have hnone := fun i (hi : ∀ a ∈ param.args, a.1 = i → a.2 = none) => field_none h ha rest hi
  have hcase : ∀ a ∈ param.args, radiotapCase a.1 = true := by
    intro a hmem
    rw [← rows_args] at hmem
    obtain ⟨r, hr, rfl⟩ := List.mem_map.mp hmem
    exact field_case (rows_fields param ▸ List.mem_map_of_mem hr)
  generalize tx.iov ++ rest = data at hraw hfield hnone hp ⊢
  have hchannel : (3, param.channel.map Pointee.bytes) ∈ param.args := by simp [RadiotapParams.args]
  have hdbm : (5, param.dbmAntennaSignal.map Pointee.bytes) ∈ param.args := by simp [RadiotapParams.args]
  have hflags : (1, param.flags.map Pointee.bytes) ∈ param.args := by simp [RadiotapParams.args]
  have hone : ∀ {i : Nat} {o : Option Bytes}, (i, o) ∈ param.args → o = none → ∀ a ∈ param.args, a.1 = i → a.2 = none := by
    intro i o hmem ho a ha' hai
    have hnd : (param.args.map Prod.fst).Nodup := fields_nodup
    rw [List.inj_on_of_nodup_map hnd ha' hmem hai, ho]
  obtain ⟨hfreq, hchan, hsignal⟩ := context_values (standardArgs data) data p
  refine ⟨?_, hraw, ?_, ?_, ?_, ?_⟩
  · intro a hmem v hv
    obtain ⟨off, hoff, hslice⟩ := hfield a hmem v hv
    refine ⟨off, ?_, hslice⟩
    show radiotapRaw _ a.1 = some off
    rw [radiotapRaw_eq _ (hcase a hmem), hoff]
  · intro v hv
    obtain ⟨off, hoff, hslice⟩ := hfield _ hflags v.bytes (by rw [Option.mem_def.mp hv]; rfl)
    cases hoff.symm.trans hp
    have hget := slice_getD hslice (by rw [v.length]; exact Nat.one_pos)
    unfold RadiotapIterator.context flagSet
    dsimp only
    rw [hget]
    exact ⟨rfl, rfl⟩
  · rw [hfreq]
    cases hv : param.channel with
    | none =>
      rw [show ieee80211RadiotapChannel = 3 from rfl, hnone _ (hone hchannel (by rw [hv]; rfl))]
      rfl
    | some v =>
      obtain ⟨off, hoff, hslice⟩ := hfield _ hchannel v.bytes (by rw [hv]; rfl)
      rw [v.length] at hslice
      rw [show ieee80211RadiotapChannel = 3 from rfl, hoff, Option.map_some, Option.map_some, ← hslice, slice_slice (by decide),
        Nat.add_zero]
  · rw [hchan]
    cases hv : param.channel with
    | none =>
      rw [show ieee80211RadiotapChannel = 3 from rfl, hnone _ (hone hchannel (by rw [hv]; rfl))]
      rfl
    | some v =>
      obtain ⟨off, hoff, hslice⟩ := hfield _ hchannel v.bytes (by rw [hv]; rfl)
      rw [v.length] at hslice
      rw [show ieee80211RadiotapChannel = 3 from rfl, hoff, Option.map_some, Option.map_some, ← hslice, slice_slice (by decide)]
  · rw [hsignal]
    cases hv : param.dbmAntennaSignal with
    | none =>
      rw [show ieee80211RadiotapDbmAntsignal = 5 from rfl, hnone _ (hone hdbm (by rw [hv]; rfl))]
      rfl
    | some v =>
      obtain ⟨off, hoff, hslice⟩ := hfield _ hdbm v.bytes (by rw [hv]; rfl)
      have hget := slice_getD hslice (by rw [v.length]; exact Nat.one_pos)
      rw [show ieee80211RadiotapDbmAntsignal = 5 from rfl, hoff, Option.map_some, Option.map_some]
      unfold int8At
      rw [hget]

variable {lib : RadiotapLib}

theorem radiotap_roundTrip_iff (hlib : StandardLayout lib) (hflags : param.flags.isSome = true) (rest : Bytes) :
    RadiotapRoundTrip lib param rest ↔ param.Aligned := by
  obtain ⟨tx, htx, hh⟩ := txContext_ok param
  have hl := hlib _ _ (txIov_plain hh rest)
  have h8 : radiotapHdrlen ≤ (tx.iov ++ rest).length := by
    rw [List.length_append, (txIov_parts hh).2, hh.itLen, Nat.add_assoc]
    exact Nat.le_add_right ..
  have hcall := radiotapFrameParse_cases lib (tx.iov ++ rest) (tx.iov ++ rest).length
  constructor
  · intro ⟨iov, ctx, hiov, hparse, _⟩
    rw [htx] at hiov
    cases hiov
    rw [hparse] at hcall
    generalize (radiotapFrameParse lib (tx.iov ++ rest) (tx.iov ++ rest).length).evs = evs at hcall
    generalize hn : (tx.iov.length : Int) = n at hcall
    cases hcall with
    | short hs => exact absurd h8 (Nat.not_le.mpr hs)
    | refused => omega
    | parsed _ hl' hnoent =>
      cases hl.symm.trans hl'
      exact args_tight hh hnoent
  · intro ha
    obtain ⟨v, hv⟩ := Option.isSome_iff_exists.mp hflags
    have hmem : (1, param.flags.map Pointee.bytes) ∈ param.args := by simp [RadiotapParams.args]
    obtain ⟨p, hp, -⟩ := field_args hh ha rest hmem (by rw [hv]; rfl)
    have hnoent : (standardArgs (tx.iov ++ rest)).noent = true := by rw [args_aligned hh ha]
    have hmax : (standardArgs (tx.iov ++ rest)).maxLength = tx.iov.length := by
      rw [args_aligned hh ha, (txIov_parts hh).2]
    refine ⟨tx.iov, (standardArgs (tx.iov ++ rest)).context (tx.iov ++ rest) p, htx, ?_, aligned_yields hh ha rest hp⟩
    rw [← hmax]
    generalize hout : (radiotapFrameParse lib (tx.iov ++ rest) (tx.iov ++ rest).length).out = out at hcall ⊢
    generalize (radiotapFrameParse lib (tx.iov ++ rest) (tx.iov ++ rest).length).evs = evs at hcall
    cases hcall with
    | short hs => exact absurd h8 (Nat.not_le.mpr hs)
    | refused _ hno => exact absurd hnoent (by rw [hno _ hl]; exact Bool.false_ne_true)
    | noFlags _ hl' _ hf =>
      cases hl.symm.trans hl'
      cases hf.symm.trans hp
    | parsed _ hl' _ hf =>
      cases hl.symm.trans hl'
      cases hf.symm.trans hp
      rfl

/-! ## A concrete iterator -/

/-- The iterator over plain headers. -/
def standardIterator : RadiotapLib := fun data size => if PlainHeader data size then some (standardArgs data) else none

theorem standardIterator_layout : StandardLayout standardIterator := fun _ _ h => if_pos h

/-- Nothing given. -/
def noParams : RadiotapParams :=
  ⟨none, none, none, none, none, none, none, none, none, none, none, none, none, none, none, none,
    none, none, none, none, none, none⟩

/-- A rate between the flags and the channel: the channel lies at 10. -/
def ratedParams : RadiotapParams :=
  { noParams with flags := some ⟨[0x10], rfl⟩, rate := some ⟨[2], rfl⟩, channel := some ⟨[0x6c, 0x09, 0xa0, 0], rfl⟩ }

/-- None between them: it lies at 9. -/
def oddParams : RadiotapParams := { noParams with flags := some ⟨[0x10], rfl⟩, channel := some ⟨[0x6c, 0x09, 0xa0, 0], rfl⟩ }

theorem radiotap_roundTrip_rated : RadiotapRoundTrip standardIterator ratedParams [1, 2, 3] :=
  (radiotap_roundTrip_iff standardIterator_layout (by decide) [1, 2, 3]).mpr (by decide)

theorem odd_channel_breaks_radiotap : ¬ RadiotapRoundTrip standardIterator oddParams [1, 2, 3] := by
  intro ⟨iov, ctx, hiov, hparse, _⟩
  have hbuilt : radiotapTxContextInitialize oddParams = .ok [0, 0, 13, 0, 10, 0, 0, 0, 0x10, 0x6c, 0x09, 0xa0, 0] := by decide
  rw [hbuilt] at hiov
  cases hiov
  have hrefused : ((radiotapFrameParse standardIterator [0, 0, 13, 0, 10, 0, 0, 0, 0x10, 0x6c, 0x09, 0xa0, 0, 1, 2, 3]
    16).out.toOption.map
      Prod.snd) = some (-1) := by decide +kernel
  have hparsed := congrArg (fun r => r.toOption.map Prod.snd) hparse
  have hlen : (-1 : Int) = 13 := Option.some.inj (hrefused.symm.trans hparsed)
  cases hlen

end WfbYa.Frame
