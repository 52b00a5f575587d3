/-
  WfbYa.Log.RoundTrip — what the listener writes, the analysis program reads.

  `round_trip`: over every run of the log in which every record is one the loader knows,
  short enough for it, and with the sender it came from, every file loads, and its store is
  the records written, in order.

  - `readEntry_whole` / `entries_known`: one record, and many of them.
  - `captured_frame_stops_loader`: a frame that did not come over IPv6 has no type, and the
    loader stops there.
-/

import WfbYa.Log.Grammar
import WfbYa.Log.Representation
import Mathlib.Data.List.GetD

namespace WfbYa.Log

open WfbYa.Lib WfbYa.Lib.BigEndian WfbYa.Lib.LittleEndian

/-! ## Headers -/

theorem ofNat_le64 (x : UInt64) : UInt64.ofNat (ofLe (le 8 x.toNat)) = x := by
  rw [ofLe_le (by have := x.toNat_lt; omega), UInt64.ofNat_toNat]

theorem ofNat_le32 (x : UInt32) : UInt32.ofNat (ofLe (le 4 x.toNat)) = x := by
  rw [ofLe_le (by have := x.toNat_lt; omega), UInt32.ofNat_toNat]

theorem ofNat_le16 (x : UInt16) : UInt16.ofNat (ofLe (le 2 x.toNat)) = x := by
  rw [ofLe_le (by have := x.toNat_lt; omega), UInt16.ofNat_toNat]

theorem frameHeader_ofRaw (hd : RxLogFrameHeader) (rest : Bytes) : RxLogFrameHeader.ofRaw (hd.raw ++ rest) = hd := by
  obtain ⟨tvSec, tvNsec, seq, blockIdx, size, fragmentIdx, type, freq, dbm, rxSrc, hsrc⟩ := hd
  have hback : slice (rxSrc ++ rest) 0 16 = rxSrc := slice_front hsrc
  unfold RxLogFrameHeader.ofRaw RxLogFrameHeader.raw
  dsimp only
  simp (disch := simp) only [List.append_assoc, slice_skip, slice_front, le_length, List.getD_append_right, List.length_cons,
    List.length_nil, Nat.reduceAdd, Nat.reduceSub, ofNat_le64, ofNat_le32, ofNat_le16]
  simp [hback]

theorem fileHeader_ofRaw (hd : RxLogFileHeader) (rest : Bytes) : RxLogFileHeader.ofRaw (hd.raw ++ rest) = hd := by
  unfold RxLogFileHeader.ofRaw RxLogFileHeader.raw
  simp (disch := simp) only [List.append_assoc, slice_skip, slice_front, le_length, List.length_cons, List.length_nil,
    Nat.reduceAdd, Nat.reduceSub, ofNat_le32]
  simp

@[simp] theorem frameHeader_length (hd : RxLogFrameHeader) : hd.raw.length = rxLogFrameHdrlen := by
  have hsrc := hd.rxSrc.property
  simp [RxLogFrameHeader.raw, rxLogFrameHdrlen, hsrc]

@[simp] theorem fileHeader_length (hd : RxLogFileHeader) : hd.raw.length = rxLogFileHdrlen := by
  simp [RxLogFileHeader.raw, rxLogFileHdrlen]

/-! ## Records -/

/-- A record as the loader sees it. -/
def LogRecord.entry (r : LogRecord) : Entry := ⟨r.hd, some r.payload⟩

/-- The loader knows the type, and is not told a size out of range; a sender is in the
    header, and is read from there. -/
structure LogRecord.Readable (r : LogRecord) : Prop where
  whole : r.Whole
  known : isSeqType r.hd.type = true ∨ isMsgType r.hd.type = true
  short : r.payload.length < wifiMtu
  src : ∀ a, r.src = some a → (r.hd.type = frameTypeInet6 ∨ r.hd.type = frameTypeCorrupt) ∧ r.hd.rxSrc = a

variable {r : LogRecord} {rs : List LogRecord}

theorem LogRecord.Whole.size (h : r.Whole) (hc : carriesPayload r.hd.type = true) : r.hd.size.toNat = r.payload.length := by
  rcases h with ⟨hf, -⟩ | ⟨-, hlen⟩
  · unfold isFrameType at hf
    simp only [Bool.or_eq_true, decide_eq_true_eq] at hf
    rcases hf with (ht | ht) | ht <;> rw [ht] at hc <;> cases hc
  · exact hlen.symm

theorem LogRecord.Whole.empty (h : r.Whole) (hc : carriesPayload r.hd.type = false) : r.payload = [] := by
  rcases h with ⟨-, hp⟩ | ⟨ht, -⟩
  · exact hp
  · rw [hc] at ht
    cases ht

theorem isMsg_carries {type : UInt8} (h : isMsgType type = true) : carriesPayload type = true := by
  unfold carriesPayload
  rw [h, Bool.or_true]

/-- The record's header is read back, and what follows it. -/
theorem raw_header (r : LogRecord) (rest : Bytes) : ¬ (r.raw ++ rest).length < rxLogFrameHdrlen ∧
    RxLogFrameHeader.ofRaw (r.raw ++ rest) = r.hd ∧ (r.raw ++ rest).drop rxLogFrameHdrlen = r.payload ++ rest := by
  have hraw : r.raw ++ rest = r.hd.raw ++ (r.payload ++ rest) := List.append_assoc ..
  rw [hraw, List.length_append, frameHeader_length]
  exact ⟨by omega, frameHeader_ofRaw .., List.drop_left' (frameHeader_length r.hd)⟩

/-- One record is read, whatever follows it. -/
theorem readEntry_whole (h : r.Whole) (hk : isSeqType r.hd.type = true ∨ isMsgType r.hd.type = true) (rest : Bytes) :
    readEntry (r.raw ++ rest) = some (r.entry, rest) := by
  obtain ⟨hlen, hhd, hdrop⟩ := raw_header r rest
  unfold readEntry
  rw [if_neg hlen, hhd, hdrop]
  dsimp only
  by_cases hc : carriesPayload r.hd.type = true
  · rw [if_pos hc, h.size hc, if_neg (by simp), List.take_left, List.drop_left]
    rfl
  · rw [if_neg hc]
    rw [Bool.not_eq_true] at hc
    have hs : isSeqType r.hd.type = true := by
      rcases hk with hs | hm
      · exact hs
      · rw [isMsg_carries hm] at hc
        cases hc
    have hp := h.empty hc
    rw [if_pos hs, hp, List.nil_append]
    unfold LogRecord.entry
    rw [hp]

/-- A record of a type the loader does not know ends the reading. -/
theorem readEntry_unknown (hs : isSeqType r.hd.type = false) (hm : isMsgType r.hd.type = false) (rest : Bytes) :
    readEntry (r.raw ++ rest) = none := by
  obtain ⟨hlen, hhd, -⟩ := raw_header r rest
  have hc : carriesPayload r.hd.type = false := by
    by_contra hc
    rcases carriesPayload_cases (Bool.not_eq_false _ ▸ hc) with ht | ht
    · rw [ht] at hs
      cases hs
    · rw [hm] at ht
      cases ht
  unfold readEntry
  rw [if_neg hlen, hhd]
  dsimp only
  rw [hc, hs]
  rfl

/-- What is read of whole records is some of them. -/
theorem entries_whole (h : ∀ r ∈ rs, r.Whole) (n : Nat) : ∀ e ∈ entries n (rs.flatMap LogRecord.raw), ∃ r ∈ rs, r.entry = e := by
  induction n generalizing rs with
  | zero => exact fun _ he => nomatch he
  | succ n ih =>
    intro e he
    cases rs with
    | nil =>
      rw [List.flatMap_nil, entries_none (show readEntry [] = none from rfl)] at he
      cases he
    | cons r rs =>
      rw [List.flatMap_cons] at he
      by_cases hk : isSeqType r.hd.type = true ∨ isMsgType r.hd.type = true
      · have hent : entries (n + 1) (r.raw ++ rs.flatMap LogRecord.raw) = r.entry :: entries n (rs.flatMap LogRecord.raw) := by
          rw [entries, readEntry_whole (h r List.mem_cons_self) hk]
        rw [hent, List.mem_cons] at he
        rcases he with rfl | he
        · exact ⟨r, List.mem_cons_self, rfl⟩
        · obtain ⟨r', hr', he'⟩ := ih (fun r' hr' => h r' (List.mem_cons_of_mem r hr')) e he
          exact ⟨r', List.mem_cons_of_mem r hr', he'⟩
      · rw [not_or, Bool.not_eq_true, Bool.not_eq_true] at hk
        rw [entries_none (readEntry_unknown hk.1 hk.2 _)] at he
        cases he

/-- The loader knows the type. -/
def LogRecord.known (r : LogRecord) : Bool := isSeqType r.hd.type || isMsgType r.hd.type

/-- Whole records are read up to the first one of no known type. -/
theorem entries_known (h : ∀ r ∈ rs, r.Whole) {n : Nat} (hn : (rs.flatMap LogRecord.raw).length ≤ n) :
    entries n (rs.flatMap LogRecord.raw) = (rs.takeWhile LogRecord.known).map LogRecord.entry := by
  induction rs generalizing n with
  | nil =>
    apply entries_none
    rfl
  | cons r rs ih =>
    rw [List.flatMap_cons] at hn ⊢
    by_cases hk : r.known = true
    · have hread := readEntry_whole (h r List.mem_cons_self) ((Bool.or_eq_true _ _).mp hk) (rs.flatMap LogRecord.raw)
      obtain ⟨m, hm, he⟩ := entries_some hread hn
      rw [he, List.takeWhile_cons_of_pos hk, List.map_cons, ih (fun r' hr' => h r' (List.mem_cons_of_mem r hr')) hm]
    · rw [List.takeWhile_cons_of_neg hk]
      unfold LogRecord.known at hk
      rw [Bool.or_eq_true, not_or, Bool.not_eq_true, Bool.not_eq_true] at hk
      exact entries_none (readEntry_unknown hk.1 hk.2 _)

theorem entries_records (h : ∀ r ∈ rs, r.Readable) {n : Nat} (hn : (rs.flatMap LogRecord.raw).length ≤ n) :
    entries n (rs.flatMap LogRecord.raw) = rs.map LogRecord.entry := by
  have hall : rs.takeWhile LogRecord.known = rs := by
    rw [List.takeWhile_eq_self_iff]
    intro r hr
    exact (Bool.or_eq_true _ _).mpr (h r hr).known
  rw [entries_known (fun r hr => (h r hr).whole) hn, hall]

/-- A record's fields, in its value. -/
structure Carries (v : LogDataV) (r : LogRecord) : Prop where
  type : v.type = r.hd.type
  size : v.size = r.hd.size
  blockIdx : v.blockIdx = r.hd.blockIdx
  fragmentIdx : v.fragmentIdx = r.hd.fragmentIdx.toUInt64
  freq : v.freq = r.hd.freq
  dbm : v.dbm = r.hd.dbm
  src : ∀ a, r.src = some a → v.rxSrc = some a
  payload : v.buf.getD [] = r.payload

theorem LogRecord.Readable.carried (h : r.Readable) (fecK : UInt8) (ep : TimeStamp) : Carries (entryV fecK ep r.entry) r where
  type := rfl
  size := rfl
  blockIdx := rfl
  fragmentIdx := rfl
  freq := rfl
  dbm := rfl
  src := by
    intro a ha
    obtain ⟨ht, hsrc⟩ := h.src a ha
    have hflag : (r.entry.isInet6 || r.entry.isCorrupt) = true := by
      unfold Entry.isInet6 Entry.isCorrupt LogRecord.entry
      rcases ht with ht | ht <;> simp [ht]
    unfold entryV
    dsimp only
    rw [if_pos hflag]
    exact congrArg some hsrc
  payload := by
    unfold entryV LogRecord.entry
    dsimp only
    by_cases hp : r.payload = []
    · simp [hp]
    · simp [hp]

/-- The file loads, and its store holds the records written, in order. -/
def LogFile.ReadsBack (f : LogFile) : Prop :=
  ∃ ls, loadLog f.bytes = .ok (some ls) ∧ Represents ls (f.written.map LogRecord.entry) ∧
    ∀ i r, f.written[i]? = some r → Carries (ls.v i) r

/-- It is loaded, with all of its records. -/
theorem LogFile.Kept.loads {f : LogFile} (h : f.Kept) (hr : ∀ r ∈ f.written, r.Readable) :
    ∃ ls, loadLog f.bytes = .ok (some ls) ∧ Loaded ls (f.written.map LogRecord.entry).reverse := by
  obtain ⟨ctx, -, hbytes⟩ := h
  have hfile : fileEntries f.bytes = f.written.map LogRecord.entry := by
    unfold fileEntries
    rw [hbytes, List.drop_left' (fileHeader_length (fileHeader ctx))]
    apply entries_records hr
    rw [List.length_append]
    omega
  have hok : HeaderOk f.bytes := by
    unfold HeaderOk
    rw [hbytes, fileHeader_ofRaw, List.length_append, fileHeader_length]
    exact ⟨Nat.le_add_right _ _, rfl, rfl⟩
  have hsize : ∀ e ∈ fileEntries f.bytes, e.oversize = false := by
    intro e he
    rw [hfile] at he
    obtain ⟨r, hmem, rfl⟩ := List.mem_map.mp he
    unfold Entry.oversize LogRecord.entry
    by_cases hc : carriesPayload r.hd.type = true
    · rw [hc, Bool.true_and, (hr r hmem).whole.size hc]
      exact decide_eq_false (Nat.not_le.mpr (hr r hmem).short)
    · rw [Bool.not_eq_true] at hc
      rw [hc, Bool.false_and]
  obtain ⟨ls, ep, hload, hl⟩ := loadLog_ok hok hsize
  rw [hfile] at hl
  exact ⟨ls, hload, hl.loaded⟩

theorem LogFile.Kept.readsBack {f : LogFile} (h : f.Kept) (hr : ∀ r ∈ f.written, r.Readable) : f.ReadsBack := by
  obtain ⟨ls, hload, hl⟩ := h.loads hr
  refine ⟨ls, hload, ?_, ?_⟩
  · rw [← List.reverse_reverse (f.written.map LogRecord.entry)]
    exact hl.represents
  · intro i r hi
    have hrev : (f.written.map LogRecord.entry).reverse.reverse[i]? = some r.entry := by
      rw [List.reverse_reverse, List.getElem?_map, hi]
      rfl
    obtain ⟨ep, hv⟩ := hl.v hrev
    rw [hv]
    exact (hr r (List.mem_of_getElem? hi)).carried ls.fecK ep

/-! ## Over a run -/

/-- The hook writes the text so that the loader can read it, or not at all. -/
def Fits (text : Bytes) : Prop := text.length < wifiMtu ∨ bufsiz ≤ text.length

/-- What is made of a message at the clock's `n`th reading fits, if it comes to that. -/
def SaysFit (env : LogEnv) (n : Nat) (text : Option Bytes) : Prop :=
  ∀ ts, env.clock n = .ok ts → ∀ t, text = some t → Fits t

/-- So do both parts of a message of the log's own. -/
def TellsFit (env : LogEnv) (n : Nat) (head text : Bytes) : Prop :=
  SaysFit env n (env.reread n head) ∧ SaysFit env (n + 1) (env.reread (n + 1) text)

/-- If the clock fails and can be read again when that is reported, the report fits. -/
def ErrorFits (env : LogEnv) (st : LogState) (func : String) : Prop :=
  ∀ err, env.clock st.ticks = .error err → TellsFit env (st.ticks + 1) (errHead func) (clockFailed err)

/-- What a call prints with debug output on fits. -/
def DebugFits (env : LogEnv) (st : LogState) (func : String) (hd : TimeSpec → RxLogFrameHeader) (size : Nat) : Prop :=
  ∀ ts, env.clock st.ticks = .ok ts → env.debug = true → TellsFit env (st.ticks + 1) (debugHead func) (seqText (hd ts) size)

/-- Where a call writes only what the loader can read: received frames come over IPv6,
    corrupted ones do not, and messages fit. -/
def OpReadable (env : LogEnv) (st : LogState) : LogOp → Prop
  | .frame ctx blockIdx fragmentIdx size => size ≠ 0 → (∀ ts, env.clock st.ticks = .ok ts → ctx.family = .inet6) ∧
      ErrorFits env st "rx_log_frame" ∧
        DebugFits env st "rx_log_frame" (fun ts => (frameRecord ctx ts blockIdx fragmentIdx size).hd) size.toNat
  | .decode ctx blockIdx fragmentIdx data => data.val ≠ [] → ErrorFits env st "rx_log_decode" ∧
      DebugFits env st "rx_log_decode" (fun ts => (decodeRecord ctx ts blockIdx fragmentIdx data.val).hd) data.val.length
  | .corrupt ctx => (∀ ts, env.clock st.ticks = .ok ts → ctx.family = .inet6 → ctx.addr = .zero) ∧
    ErrorFits env st "rx_log_corrupt"
  | .hook type text => type ≠ .none → SaysFit env st.ticks text

/-- Files start with their headers, and with a file open only such calls are made. -/
def WritesReadable (env : LogEnv) (st : LogState) : LogInput → Prop
  | .create ctx o => StartsWell env st (.create ctx o)
  | .op op => st.log.fp ≠ none → OpReadable env st op

theorem WritesReadable.startsWell {env : LogEnv} {st : LogState} {i : LogInput} (h : WritesReadable env st i) :
    StartsWell env st i := by
  cases i with
  | create ctx o => exact h
  | op op => exact trivial

variable {env : LogEnv} {st st' : LogState}

theorem msgRecord_readable (ts : TimeSpec) (seq : Int32) {type : UInt8} {text : Bytes} (ht : isMsgType type = true)
    (hl : text.length < bufsiz) (hfits : Fits text) : (msgRecord ts seq type text).Readable where
  whole := msgRecord_whole ts seq ht hl
  known := .inr ht
  short := hfits.resolve_right (Nat.not_le.mpr hl)
  src := fun _ h => nomatch h

theorem says_readable {n : Nat} {text : Option Bytes} (h : SaysFit env n text) : Says LogRecord.Readable env n text :=
  fun ts seq _ t hts ht hl hm => msgRecord_readable ts seq hm hl (h ts hts t ht)

theorem tells_readable {n : Nat} {head text : Bytes} (h : TellsFit env n head text) : Tells LogRecord.Readable env n head text :=
  ⟨says_readable h.1, says_readable h.2⟩

theorem callTells_readable {func : String} {hd : TimeSpec → RxLogFrameHeader} {size : Nat} (he : ErrorFits env st func)
    (hd' : DebugFits env st func hd size) : CallTells LogRecord.Readable env st.ticks func hd size :=
  ⟨fun err herr => tells_readable (he err herr), fun ts hts hdebug => tells_readable (hd' ts hts hdebug)⟩

theorem corruptRecord_readable {ctx : LogContext} (ts : TimeSpec) (h : ctx.family = .inet6 → ctx.addr = .zero) :
    (corruptRecord ctx ts).Readable where
  whole := corruptRecord_whole ctx ts
  known := .inl rfl
  short := by
    show ([] : Bytes).length < wifiMtu
    decide
  src := by
    intro a ha
    refine ⟨.inr rfl, ?_⟩
    have hsrc : (if ctx.family = .inet6 then some ctx.addr else none) = some a := ha
    by_cases hf : ctx.family = .inet6
    · rw [if_pos hf] at hsrc
      rw [← Option.some.inj hsrc, h hf]
      unfold corruptRecord
      rw [hf]
      rfl
    · rw [if_neg hf] at hsrc
      cases hsrc

theorem frameRecord_readable {ctx : LogContext} (ts : TimeSpec) (blockIdx : UInt64) (fragmentIdx : UInt8) (size : UInt64)
    (h : ctx.family = .inet6) : (frameRecord ctx ts blockIdx fragmentIdx size).Readable where
  whole := frameRecord_whole ctx ts blockIdx fragmentIdx size
  known := by
    left
    unfold frameRecord
    rw [h]
    rfl
  short := by
    show ([] : Bytes).length < wifiMtu
    decide
  src := by
    intro a ha
    have hsrc : (if ctx.family = .inet6 then some ctx.addr else none) = some a := ha
    rw [if_pos h] at hsrc
    unfold frameRecord
    rw [h]
    exact ⟨.inl rfl, Option.some.inj hsrc⟩

theorem decodeRecord_readable (ctx : LogContext) (ts : TimeSpec) (blockIdx : UInt64) (fragmentIdx : UInt8) (data : Payload) :
    (decodeRecord ctx ts blockIdx fragmentIdx data.val).Readable where
  whole := decodeRecord_whole ctx ts blockIdx fragmentIdx data
  known := .inl rfl
  short := Nat.lt_of_le_of_lt data.property (by decide)
  src := fun _ h => nomatch h

/-- With no file open nothing is written. -/
theorem logOp_closed (h : st.log.fp = none) (op : LogOp) : logOp env st op = st := by
  cases op with
  | frame ctx blockIdx fragmentIdx size =>
    unfold logOp rxLogFrame
    rw [h]
  | decode ctx blockIdx fragmentIdx data =>
    unfold logOp rxLogDecode
    rw [h]
  | corrupt ctx =>
    unfold logOp rxLogCorrupt
    rw [h]
  | hook type text => exact rxLogHook_closed h type text

theorem logOp_grows_readable {op : LogOp} (h : OpReadable env st op) : Grows LogRecord.Readable st (logOp env st op) := by
  cases op with
  | frame ctx blockIdx fragmentIdx size =>
    apply rxLogFrame_grows
    · intro ts hsize hts
      exact frameRecord_readable ts blockIdx fragmentIdx size ((h hsize).1 ts hts)
    · exact fun hsize => callTells_readable (h hsize).2.1 (h hsize).2.2
  | decode ctx blockIdx fragmentIdx data =>
    apply rxLogDecode_grows
    · exact fun ts _ _ => decodeRecord_readable ctx ts blockIdx fragmentIdx data
    · exact fun hne => callTells_readable (h hne).1 (h hne).2
  | corrupt ctx =>
    apply rxLogCorrupt_grows
    · intro ts hts
      exact corruptRecord_readable ts (h.1 ts hts)
    · exact fun err herr => tells_readable (h.2 err herr)
  | hook type text =>
    by_cases ht : type = .none
    · subst ht
      -- the type is checked after the time is read
      have hsame : (rxLogHook env .none text st).2.log = st.log ∧ (rxLogHook env .none text st).2.left = st.left := by
        unfold rxLogHook
        split
        · exact ⟨rfl, rfl⟩
        · dsimp only [clockGettime]
          split <;> exact ⟨rfl, rfl⟩
      exact Grows.same hsame.2 (congrArg RxLogHandler.fp hsame.1)
    · exact rxLogHook_grows (says_readable (h ht))

/-- What is written to files that grow. -/
theorem Grows.written {P : LogRecord → Prop} (h : Grows P st st') (hk : ∀ f ∈ st.files, ∀ r ∈ f.written, P r) :
    ∀ f ∈ st'.files, ∀ r ∈ f.written, P r := by
  refine h.files (K := fun f => ∀ r ∈ f.written, P r) ?_ hk
  intro f rs hrs hf r hr
  rw [foldl_put] at hr
  exact (List.mem_append.mp hr).elim (hf r) (hrs r)

theorem logStep_readable {i : LogInput} {e : List Empty} (hk : ∀ f ∈ st.files, ∀ r ∈ f.written, r.Readable)
    (hi : WritesReadable env st i) (hs : logStep env st i = .ok (st', e)) : ∀ f ∈ st'.files, ∀ r ∈ f.written, r.Readable := by
  obtain ⟨hlive, rfl⟩ := logStep_ok hs
  cases i with
  | create ctx o => exact rxLogCreate_files hlive hi (fun r hr => nomatch hr) hk
  | op op =>
    show ∀ f ∈ (logOp env st op).files, _
    by_cases hopen : st.log.fp = none
    · rwa [logOp_closed hopen]
    · exact (logOp_grows_readable (hi hopen)).written hk

theorem round_trip (env : LogEnv) {is : List LogInput} {st : LogState} {tr : List Empty}
    (h : Machine.Run (logStep env) (WritesReadable env) .initial is st tr) : ∀ f ∈ st.files, f.ReadsBack := by
  have hinv : (∀ f ∈ st.files, f.Kept) ∧ ∀ f ∈ st.files, ∀ r ∈ f.written, r.Readable := by
    refine h.inv (fun _ st _ => (∀ f ∈ st.files, f.Kept) ∧ ∀ f ∈ st.files, ∀ r ∈ f.written, r.Readable)
      ⟨fun f hf => absurd hf List.not_mem_nil, fun f hf => absurd hf List.not_mem_nil⟩ ?_
    rintro is st tr i st' e ⟨hkept, hread⟩ hi hs
    exact ⟨logStep_kept hkept hi.startsWell hs, logStep_readable hread hi hs⟩
  intro f hf
  exact (hinv.1 f hf).readsBack (hinv.2 f hf)

/-- The same session, its frames over IPv6. -/
def relayedContext : LogContext := { captureContext with family := .inet6, addr := ⟨List.replicate 16 1, rfl⟩ }

/-- A frame over IPv6, its payload, a corrupt frame from the node's own capture, and a message. -/
def readableOps : List LogOp :=
  [.frame relayedContext 0 0 8, .decode relayedContext 0 0 ⟨[1, 2], by decide⟩, .corrupt captureContext,
    .hook .err (some (ascii "Frame too short\n"))]

theorem steady_errorFits (debug : Bool) (st : LogState) (func : String) : ErrorFits (steadyEnv debug) st func :=
  fun _ h => nomatch h

theorem quiet_debugFits (st : LogState) (func : String) (hd : TimeSpec → RxLogFrameHeader) (size : Nat) :
    DebugFits (steadyEnv false) st func hd size := fun _ _ h => nomatch h

theorem readable_run : ∃ st, Machine.Run (logStep (steadyEnv false)) (WritesReadable (steadyEnv false)) .initial
    (.create captureContext ⟨0, none, none, none⟩ :: readableOps.map .op) st [] ∧
      (st.files.map fun f => f.written.length) = [4] ∧ ∀ f ∈ st.files, f.ReadsBack := by
  have hcreate : WritesReadable (steadyEnv false) .initial (.create captureContext ⟨0, none, none, none⟩) :=
    fun _ _ => ⟨fun h => (nomatch h), rfl, rfl⟩
  have h0 := (@Machine.Run.nil _ _ _ _ (logStep (steadyEnv false)) (WritesReadable (steadyEnv false)) .initial).snoc hcreate rfl
  have hframe : ∀ st, WritesReadable (steadyEnv false) st (.op (.frame relayedContext 0 0 8)) :=
    fun st _ _ => ⟨fun _ _ => rfl, steady_errorFits _ _ _, quiet_debugFits _ _ _ _⟩
  have hdecode : ∀ st, WritesReadable (steadyEnv false) st (.op (.decode relayedContext 0 0 ⟨[1, 2], by decide⟩)) :=
    fun st _ _ => ⟨steady_errorFits _ _ _, quiet_debugFits _ _ _ _⟩
  have hcorrupt : ∀ st, WritesReadable (steadyEnv false) st (.op (.corrupt captureContext)) :=
    fun st _ => ⟨fun _ _ h => (nomatch h), steady_errorFits _ _ _⟩
  have hhook : ∀ st, WritesReadable (steadyEnv false) st (.op (.hook .err (some (ascii "Frame too short\n")))) :=
    fun _ _ _ _ _ t ht => .inl (by cases ht; decide)
  have h4 := (((h0.snoc (hframe _) rfl).snoc (hdecode _) rfl).snoc (hcorrupt _) rfl).snoc (hhook _) rfl
  exact ⟨_, h4, by decide +kernel, round_trip _ h4⟩

/-- A record without a type ends the reading. -/
example : entries 128 ((testHeader frameTypeUnspec 0 0 8).raw ++ (testHeader frameTypeInet6 0 0 8).raw) = [] := by decide +kernel

theorem captured_frame_stops_loader : ¬ ∀ (env : LogEnv) (is : List LogInput) (st : LogState) (tr : List Empty),
    Machine.Run (logStep env) (StartsWell env) .initial is st tr → ∀ f ∈ st.files, f.ReadsBack := by
  intro hclaim
  have hcreate : StartsWell (steadyEnv false) .initial (.create captureContext ⟨0, none, none, none⟩) :=
    fun _ _ => ⟨fun h => (nomatch h), rfl, rfl⟩
  have h0 := (@Machine.Run.nil _ _ _ _ (logStep (steadyEnv false)) (StartsWell (steadyEnv false)) .initial).snoc hcreate rfl
  have h1 := h0.snoc (show StartsWell (steadyEnv false) _ (.op (.frame captureContext 0 0 8)) from trivial) rfl
  have hout : ((logOp (steadyEnv false) (rxLogCreate (steadyEnv false) captureContext ⟨0, none, none, none⟩ .initial)
      (.frame captureContext 0 0 8)).files.map fun f =>
        (f.written.length, ((loadLog f.bytes).toOption.bind id).map fun ls => ls.vs.length)) = [(1, some 0)] := by decide +kernel
  obtain ⟨f, hf, hcount⟩ := List.mem_map.mp (hout ▸ List.mem_singleton.mpr rfl)
  obtain ⟨ls, hload, hrep, -⟩ := hclaim _ _ _ _ h1 f hf
  rw [hload] at hcount
  have h1 := congrArg Prod.fst hcount
  have h2 := Option.some.inj (congrArg Prod.snd hcount)
  have h3 := hrep.count
  rw [List.length_map] at h3
  exact absurd (h2.symm.trans (h3.trans h1)) (by decide)

end WfbYa.Log
