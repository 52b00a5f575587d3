/-
  WfbYa.Log.Entries — the records that lie in a log file, and the store they make.

  `entries` goes through a file's records without building anything. From the records
  alone, newest first, `Loaded` says what the store is: the values, in file order; each list
  of keys in the order of the keys; each key's values and marks; the summary.

  - `kvOf`: a key's marks and values.
  - `holds_cons`: putting one more record under its key.
-/

import WfbYa.Log.LogRaw

namespace WfbYa.Log

open WfbYa.Lib

/-! ## The records of a file -/

/-- A record: its header and its payload, unless the file ends within it. -/
structure Entry where
  hd : RxLogFrameHeader
  payload : Option Bytes
  deriving DecidableEq

def Entry.isInet6 (e : Entry) : Bool := e.hd.type = frameTypeInet6
def Entry.isDecode (e : Entry) : Bool := e.hd.type = frameTypeDecode
def Entry.isCorrupt (e : Entry) : Bool := e.hd.type = frameTypeCorrupt
/-- A decoded frame that is all there. -/
def Entry.isDecoded (e : Entry) : Bool := e.isDecode && e.payload.isSome
def Entry.isMsg (e : Entry) : Bool := isMsgType e.hd.type
def Entry.isSeq (e : Entry) : Bool := isSeqType e.hd.type
def Entry.seq (e : Entry) : Nat := e.hd.seq.toNat
def Entry.block (e : Entry) : Nat := e.hd.blockIdx.toNat

/-- The record at the front, and what is left behind it. -/
def readEntry (bs : Bytes) : Option (Entry × Bytes) :=
  if bs.length < rxLogFrameHdrlen then none
  else
    let hd := RxLogFrameHeader.ofRaw bs
    let rest := bs.drop rxLogFrameHdrlen
    if carriesPayload hd.type then
      if rest.length < hd.size.toNat then some (⟨hd, none⟩, [])
      else some (⟨hd, some (rest.take hd.size.toNat)⟩, rest.drop hd.size.toNat)
    else if isSeqType hd.type then some (⟨hd, some []⟩, rest)
    else none

/-- The records up to the first of an unknown type or the end; `n` of them at most. -/
def entries : Nat → Bytes → List Entry
  | 0, _ => []
  | n + 1, bs =>
    match readEntry bs with
    | none => []
    | some p => p.1 :: entries n p.2

/-- The records of a file. -/
def fileEntries (file : Bytes) : List Entry := entries file.length (file.drop rxLogFileHdrlen)

theorem isSeq_not_msg {type : UInt8} (h : isSeqType type = true) : isMsgType type = false := by
  unfold isSeqType at h
  simp only [Bool.or_eq_true, decide_eq_true_eq] at h
  rcases h with (rfl | rfl) | rfl <;> rfl

theorem isSeq_cases {type : UInt8} (h : isSeqType type = true) :
    type = frameTypeInet6 ∨ type = frameTypeDecode ∨ type = frameTypeCorrupt := by
  unfold isSeqType at h
  simp only [Bool.or_eq_true, decide_eq_true_eq] at h
  exact or_assoc.mp h

/-! ## The store the records make

  From here on records come newest first. -/

/-- The record is kept under the key. -/
def under : KvType → Nat → Entry → Bool
  | .seq, k, e => e.isSeq && e.seq = k
  | .blk, k, e => e.isSeq && e.block = k
  | .msg, k, e => e.isMsg && e.seq = k

def keysOf (t : KvType) (past : List Entry) : Set Nat := { k | ∃ e ∈ past, under t k e = true }

/-- The indices of the records that meet `p`, in file order. -/
def idxs (p : Entry → Bool) : List Entry → List Nat
  | [] => []
  | e :: past => idxs p past ++ if p e then [past.length] else []

/-- A frame was decoded before any copy of it was received. -/
def fecSeen (p : Entry → Bool) : List Entry → Bool
  | [] => false
  | e :: past => fecSeen p past || (p e && e.isDecoded && !past.any fun e' => e'.isInet6 && e'.seq = e.seq)

def decodedCount (t : KvType) (k : Nat) (past : List Entry) : Nat := past.countP fun e => under t k e && e.isDecoded

def kvOf (fecK : UInt8) (t : KvType) (past : List Entry) (k : Nat) : LogDataKv where
  key := k
  type := t
  hasEthernetFrame := past.any fun e => under t k e && (e.isInet6 || e.isCorrupt)
  hasCorruptedFrame := past.any fun e => under t k e && e.isCorrupt
  hasLostFrame := decide (t = .blk ∧ 0 < decodedCount t k past ∧ decodedCount t k past < fecK.toNat)
  hasFecFrame := fecSeen (under t k) past
  nEthernetFrame := past.countP fun e => under t k e && e.isInet6
  nH265Frame := decodedCount t k past
  vh := idxs (under t k) past

/-- The first time stamp with seconds. -/
def epochOf : List Entry → TimeStamp
  | [] => ⟨0, 0⟩
  | e :: past => if (epochOf past).sec = 0 then ⟨e.hd.tvSec.toInt64, e.hd.tvNsec.toInt64⟩ else epochOf past

def entryV (fecK : UInt8) (epoch : TimeStamp) (e : Entry) : LogDataV where
  ts := TimeStamp.sub ⟨e.hd.tvSec.toInt64, e.hd.tvNsec.toInt64⟩ epoch
  type := e.hd.type
  size := if e.payload = none then 0 else e.hd.size
  blockIdx := e.hd.blockIdx
  fragmentIdx := e.hd.fragmentIdx.toUInt64
  rxSrc := if e.isInet6 || e.isCorrupt then some e.hd.rxSrc else none
  freq := e.hd.freq
  dbm := e.hd.dbm
  corrupt := e.isCorrupt
  isParity := decide (fecK ≤ e.hd.fragmentIdx)
  buf := if e.payload = some [] then none else e.payload
  filtered := false
  kv := if e.isSeq then some ⟨.seq, e.seq⟩ else none
  blockKv := some (if e.isSeq then ⟨.blk, e.block⟩ else ⟨.msg, e.seq⟩)
  msgKv := none

def vsOf (fecK : UInt8) : List Entry → List LogDataV
  | [] => []
  | e :: past => vsOf fecK past ++ [entryV fecK (epochOf (e :: past)) e]

def summaryOf : List Entry → LogSummary
  | [] => .initial
  | e :: past =>
    if e.isInet6 then (summaryOf past).pkt e.hd.dbm
    else if e.isDecoded then (summaryOf past).frame e.hd.size
    else summaryOf past

/-- The store that a file with the records `past` makes. -/
structure Loaded (ls : LogStore) (past : List Entry) : Prop where
  vs : ls.vs = vsOf ls.fecK past
  kvs : ∀ t, KeyedList.Holds LogDataKv.key (kvOf ls.fecK t past) (keysOf t past) (ls.kvs t)
  summary : ls.summary = summaryOf past

@[simp] theorem vsOf_length (fecK : UInt8) (past : List Entry) : (vsOf fecK past).length = past.length := by
  induction past with
  | nil => rfl
  | cons e past ih => simp [vsOf, ih]

/-! ## One more record -/

variable {fecK : UInt8} {t : KvType} {past : List Entry} {e : Entry} {k : Nat}

theorem keysOf_cons_under (h : under t k e = true) (hone : ∀ k', k' ≠ k → under t k' e = false) :
    keysOf t (e :: past) = insert k (keysOf t past) := by
  ext k'
  unfold keysOf
  simp only [Set.mem_ofPred_eq, List.mem_cons, Set.mem_insert_iff]
  constructor
  · rintro ⟨e', rfl | he', hu⟩
    · by_contra hne
      rw [not_or] at hne
      rw [hone k' hne.1] at hu
      cases hu
    · exact .inr ⟨e', he', hu⟩
  · rintro (rfl | ⟨e', he', hu⟩)
    · exact ⟨e, .inl rfl, h⟩
    · exact ⟨e', .inr he', hu⟩

theorem keysOf_cons_other (h : ∀ k, under t k e = false) : keysOf t (e :: past) = keysOf t past := by
  ext k
  unfold keysOf
  simp only [Set.mem_ofPred_eq, List.mem_cons]
  constructor
  · rintro ⟨e', rfl | he', hu⟩
    · rw [h] at hu
      cases hu
    · exact ⟨e', he', hu⟩
  · rintro ⟨e', he', hu⟩
    exact ⟨e', .inr he', hu⟩

/-- Other keys are as they were. -/
theorem kvOf_cons_other (h : under t k e = false) : kvOf fecK t (e :: past) k = kvOf fecK t past k := by
  simp [kvOf, decodedCount, idxs, fecSeen, h]

/-- A key without records is as it is made. -/
theorem kvOf_fresh (h : k ∉ keysOf t past) : kvOf fecK t past k = .new ⟨t, k⟩ := by
  induction past with
  | nil => simp [kvOf, decodedCount, idxs, fecSeen, LogDataKv.new]
  | cons e past ih =>
    have hno : ∀ e' ∈ e :: past, under t k e' = false := by
      intro e' he'
      by_contra hu
      rw [Bool.not_eq_false] at hu
      exact h ⟨e', he', hu⟩
    rw [kvOf_cons_other (hno e List.mem_cons_self)]
    apply ih
    rintro ⟨e', he', hu⟩
    rw [hno e' (List.mem_cons_of_mem e he')] at hu
    cases hu

/-- Putting one more record under its key. -/
theorem holds_cons {l : List LogDataKv} {f : LogDataKv → LogDataKv}
    (h : KeyedList.Holds LogDataKv.key (kvOf fecK t past) (keysOf t past) l) (hu : under t k e = true)
    (hone : ∀ k', k' ≠ k → under t k' e = false) (hkey : ∀ kv, (f kv).key = kv.key)
    (hf : f (kvOf fecK t past k) = kvOf fecK t (e :: past) k) :
    KeyedList.Holds LogDataKv.key (kvOf fecK t (e :: past)) (keysOf t (e :: past))
      (KeyedList.modify LogDataKv.key k f (KeyedList.alloc LogDataKv.key (.new ⟨t, k⟩) l)) := by
  rw [keysOf_cons_under hu hone]
  refine h.put (fun _ => rfl) rfl hkey ?_ ?_ ?_
  · intro hk
    rw [← @kvOf_fresh fecK t past k hk]
    exact hf
  · exact fun _ => hf
  · intro k' hk'
    exact kvOf_cons_other (hone k' hk')

theorem holds_cons_other {l : List LogDataKv} (h : KeyedList.Holds LogDataKv.key (kvOf fecK t past) (keysOf t past) l)
    (hu : ∀ k, under t k e = false) :
    KeyedList.Holds LogDataKv.key (kvOf fecK t (e :: past)) (keysOf t (e :: past)) l := by
  have hfun : kvOf fecK t (e :: past) = kvOf fecK t past := funext fun k => kvOf_cons_other (hu k)
  rw [keysOf_cons_other hu, hfun]
  exact h

end WfbYa.Log
