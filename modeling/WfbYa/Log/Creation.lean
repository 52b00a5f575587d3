/-
  WfbYa.Log.Creation — what is in a file that `rx_log_create` opens, however its file
  operations go and whatever is printed meanwhile.

  A file that does not start with its header, or with a part of it only, gives the analysis
  program no records: `Barren` and `Bare`. Otherwise it is its header and the records.

  - `Fit.append`: records put into an open file.
  - `rxLogCreate_shape`: the file that is opened, and those closed on the way.
-/

import WfbYa.Log.RoundTrip

namespace WfbYa.Log

open WfbYa.Lib WfbYa.Lib.BigEndian WfbYa.Lib.LittleEndian

/-! ## Files without records -/

/-- No records are read of the file. -/
def Bare (bs : Bytes) : Prop := HeaderOk bs → fileEntries bs = []

/-- Nor are they of what it may grow to. -/
def Barren (bs : Bytes) : Prop := ∀ more, Bare (bs ++ more)

variable {bs : Bytes} {f : LogFile} {r : LogRecord} {rs : List LogRecord}

theorem bare_nil : Bare [] := fun h => absurd h.1 (by decide)

theorem Barren.append (h : Barren bs) (more : Bytes) : Barren (bs ++ more) := by
  intro more'
  rw [List.append_assoc]
  exact h (more ++ more')

theorem Barren.bare (h : Barren bs) : Bare bs := by
  have hbare := h []
  rwa [List.append_nil] at hbare

/-- The first record has the type 0. -/
theorem bare_of_type (h : bs.getD 49 0 = 0) : Bare bs := by
  intro _
  apply entries_none
  have htype : (RxLogFrameHeader.ofRaw (bs.drop rxLogFileHdrlen)).type = 0 := by
    show (bs.drop 12).getD 37 0 = 0
    rw [List.getD_eq_getElem?_getD, List.getElem?_drop, ← List.getD_eq_getElem?_getD]
    exact h
  unfold readEntry
  by_cases hlen : (bs.drop rxLogFileHdrlen).length < rxLogFrameHdrlen
  · rw [if_pos hlen]
  · rw [if_neg hlen]
    dsimp only
    rw [htype]
    rfl

/-! ## Records in place of the header -/

/-- The nanoseconds are less than a second. -/
def Timed (r : LogRecord) : Prop := r.hd.tvNsec.toNat < 1000000000

/-- `clock_gettime` tells a time, or fails. -/
def ClockOk (env : LogEnv) : Prop := ∀ n ts, env.clock n = .ok ts → ts.nsec.toNat < 1000000000

/-- What is read as the signature are nanoseconds. -/
theorem raw_signature (r : LogRecord) (rest : Bytes) :
    (RxLogFileHeader.ofRaw (r.raw ++ rest)).signature = UInt32.ofNat (ofLe (le 4 r.hd.tvNsec.toNat)) := by
  have hraw : ∃ tail, r.raw ++ rest = le 8 r.hd.tvSec.toNat ++ (le 8 r.hd.tvNsec.toNat ++ tail) := by
    unfold LogRecord.raw RxLogFrameHeader.raw
    simp only [List.append_assoc]
    exact ⟨_, rfl⟩
  obtain ⟨tail, hraw⟩ := hraw
  show UInt32.ofNat (ofLe (slice (r.raw ++ rest) 8 4)) = _
  rw [hraw, slice_skip (by simp), le_length, ← List.take_append_drop 4 (le 8 r.hd.tvNsec.toNat), List.append_assoc,
    slice_front (by simp), le_take (by decide)]

theorem barren_of_record (h : Timed r) (rest : Bytes) : Barren (r.raw ++ rest) := by
  intro more hok
  exfalso
  have hsig := hok.2.1
  unfold Timed at h
  rw [List.append_assoc, raw_signature, ofLe_le (by omega)] at hsig
  have hnat := congrArg UInt32.toNat hsig
  rw [UInt32.toNat_ofNat', Nat.mod_eq_of_lt (by omega)] at hnat
  have hbig : rxLogSignature.toNat = 3735928559 := by decide
  omega

/-! ## The files of one `fec_n` -/

/-- A frame's sequence number says which block it is of; there may be no block. -/
def Placed (fecN : UInt8) (r : LogRecord) : Prop :=
  isSeqType r.hd.type = true →
    r.hd.blockIdx.toNat = if r.hd.seq.toNat < 2 ^ 63 then r.hd.seq.toNat / fecN.toNat else 2 ^ 64 - 1

structure Proper (fecN : UInt8) (r : LogRecord) : Prop where
  whole : r.Whole
  placed : Placed fecN r
  timed : Timed r

/-- A file header, and proper records behind it. -/
def Sound (fecN : UInt8) (f : LogFile) : Prop :=
  (∃ hd : RxLogFileHeader, f.bytes = hd.raw ++ f.written.flatMap LogRecord.raw) ∧ ∀ r ∈ f.written, Proper fecN r

/-- A file that is closed. -/
def Done (fecN : UInt8) (f : LogFile) : Prop := Bare f.bytes ∨ Sound fecN f

/-- A file that is open. -/
def Fit (fecN : UInt8) (f : LogFile) : Prop := f.bytes = [] ∨ Barren f.bytes ∨ Sound fecN f

variable {fecN : UInt8}

theorem Fit.done (h : Fit fecN f) : Done fecN f := by
  rcases h with h | h | h
  · left
    rw [h]
    exact bare_nil
  · exact .inl h.bare
  · exact .inr h

theorem Sound.append (h : Sound fecN f) (hrs : ∀ r ∈ rs, Proper fecN r) : Sound fecN (rs.foldl .put f) := by
  obtain ⟨⟨hd, hbytes⟩, hproper⟩ := h
  rw [foldl_put]
  refine ⟨⟨hd, ?_⟩, ?_⟩
  · dsimp only
    rw [hbytes, List.flatMap_append, List.append_assoc]
  · intro r hr
    exact (List.mem_append.mp hr).elim (hproper r) (hrs r)

/-- Records in an empty file. -/
theorem blank_records (hrs : ∀ r ∈ rs, Timed r) : rs = [] ∨ Barren (rs.flatMap LogRecord.raw) := by
  cases rs with
  | nil => exact .inl rfl
  | cons r rs =>
    right
    rw [List.flatMap_cons]
    exact barren_of_record (hrs r List.mem_cons_self) _

theorem Fit.append (h : Fit fecN f) (hrs : ∀ r ∈ rs, Proper fecN r) : Fit fecN (rs.foldl .put f) := by
  rcases h with h | h | h
  · rcases blank_records fun r hr => (hrs r hr).timed with rfl | hb
    · exact .inl h
    · right; left
      rw [foldl_put]
      dsimp only
      rwa [h, List.nil_append]
  · right; left
    rw [foldl_put]
    exact h.append _
  · exact .inr (.inr (h.append hrs))

/-! ## Messages -/

/-- A message's record. -/
def Note (r : LogRecord) : Prop :=
  ∃ ts seq type text, r = msgRecord ts seq type text ∧ ts.nsec.toNat < 1000000000 ∧ text.length < bufsiz ∧ isMsgType type = true

variable {env : LogEnv}

theorem says_note (hclock : ClockOk env) (n : Nat) (text : Option Bytes) : Says Note env n text :=
  fun ts seq type t hts _ hlen hm => ⟨ts, seq, type, t, rfl, hclock n ts hts, hlen, hm⟩

theorem tells_note (hclock : ClockOk env) (n : Nat) (head text : Bytes) : Tells Note env n head text :=
  tells_of (says_note hclock) n head text

theorem Note.proper (h : Note r) : Proper fecN r := by
  obtain ⟨ts, seq, type, text, rfl, hnsec, hlen, ht⟩ := h
  refine ⟨msgRecord_whole ts seq ht hlen, ?_, hnsec⟩
  intro hs
  rw [show isMsgType type = false from isSeq_not_msg hs] at ht
  cases ht

theorem Note.timed (h : Note r) : Timed r := (@Note.proper r 0 h).timed

/-- A message's header ends with zeros. -/
theorem Note.zeros (h : Note r) : ∃ front tail, r.raw = front ++ (List.replicate 26 0 ++ tail) ∧ front.length = 38 := by
  obtain ⟨ts, seq, type, text, rfl, -⟩ := h
  refine ⟨le 8 ts.sec.toNat ++ le 8 ts.nsec.toNat ++ le 8 seq.toInt64.toUInt64.toNat ++ le 8 0 ++
    le 4 (UInt32.ofNat text.length).toNat ++ [0, type], text, ?_, by simp⟩
  have hzeros : ([0, 0] : Bytes) ++ (le 2 0 ++ (le 2 0 ++ ([0, 0, 0, 0] ++ In6Addr.zero.val))) = List.replicate 26 0 := by decide
  have hdbm : (Int16.toUInt16 0).toNat = 0 := by decide
  rw [← hzeros]
  simp [LogRecord.raw, RxLogFrameHeader.raw, msgRecord, hdbm]

/-- Behind a part of the file header. -/
theorem bare_of_note {part : Bytes} (hpart : part.length < 12) (h : Note r) (rest : Bytes) : Bare (part ++ (r.raw ++ rest)) := by
  obtain ⟨front, tail, hraw, hfront⟩ := h.zeros
  apply bare_of_type
  rw [hraw, List.getD_append_right _ _ _ _ (by omega), List.append_assoc, List.getD_append_right _ _ _ _ (by omega), hfront,
    List.append_assoc, List.getD_append _ _ _ _ (by rw [List.length_replicate]; omega), List.getD_replicate _ (by omega)]

theorem bare_of_notes {part : Bytes} (hpart : part.length < 12) (hrs : ∀ r ∈ rs, Note r) :
    Bare (part ++ rs.flatMap LogRecord.raw) := by
  cases rs with
  | nil =>
    intro hok
    have hlen := hok.1
    rw [List.flatMap_nil, List.append_nil] at hlen
    unfold rxLogFileHdrlen at hlen
    omega
  | cons r rs => exact bare_of_note hpart (hrs r List.mem_cons_self) _

/-! ## rx_log_create -/

/-- What `rx_log_create` has left, from `files` on. -/
structure Created (fecN : UInt8) (files : List LogFile) (st : LogState) : Prop where
  left : ∃ gone, st.left = files ++ gone ∧ ∀ f ∈ gone, Bare f.bytes
  fp : st.dead = false → ∀ f, st.log.fp = some f → Fit fecN f

variable {st st' : LogState}

theorem created_closed {files : List LogFile} (hleft : st.left = files) (hfp : st.log.fp = none) : Created fecN files st :=
  ⟨⟨[], by rw [List.append_nil, hleft], fun _ hf => nomatch hf⟩, fun _ f hf => nomatch hfp.symm.trans hf⟩

/-- Only messages get into the new file. -/
theorem created_noted (h : Grows Note st st') (hfp : st.log.fp = some ⟨[], []⟩) : Created fecN st.left st' := by
  refine ⟨⟨[], by rw [List.append_nil, h.left], fun _ hf => nomatch hf⟩, fun _ => ?_⟩
  refine h.current (K := Fit fecN) (fun f rs hrs hf => hf.append fun r hr => (hrs r hr).proper) ?_
  intro f hf
  cases hfp.symm.trans hf
  exact .inl rfl

/-- The header, or what is written of it, behind messages in an empty file. -/
theorem written_header (hlive : st'.dead = false) {rs : List LogRecord} (bs : Bytes)
    (hgrows : st'.log.fp = some (rs.foldl .put ⟨[], []⟩)) :
    ∃ f, (st'.write bs).log.fp = some f ∧ f.bytes = rs.flatMap LogRecord.raw ++ bs ∧ f.written = rs := by
  refine ⟨_, by rw [(write_live hlive bs).2, hgrows, Option.map_some], ?_, ?_⟩
  · rw [foldl_put]
    rfl
  · rw [foldl_put]
    rfl

/-- `fwrite` writes the header. -/
theorem header_written (hlive : st'.dead = false) (hgrows : Grows Note st st') (hfp : st.log.fp = some ⟨[], []⟩)
    (hd : RxLogFileHeader) :
    Created fecN st.left (st'.write hd.raw) := by
  obtain ⟨rs, hrs, hopen⟩ := hgrows.fp
  rw [hfp, Option.map_some] at hopen
  obtain ⟨raw, hraw⟩ : ∃ raw, hd.raw = raw := ⟨_, rfl⟩
  rw [hraw]
  obtain ⟨f, hf, hbytes, hwritten⟩ := written_header hlive raw hopen
  refine ⟨⟨[], ?_, fun _ hf => nomatch hf⟩, ?_⟩
  · rw [List.append_nil]
    exact (write_live hlive raw).1.trans hgrows.left
  intro _ f' hf'
  obtain rfl := Option.some.inj (hf.symm.trans hf')
  rcases blank_records fun r hr => (hrs r hr).timed with rfl | hb
  · right; right
    refine ⟨⟨hd, ?_⟩, ?_⟩
    · rw [hbytes, hwritten, hraw, List.flatMap_nil, List.nil_append, List.append_nil]
    · rw [hwritten]
      exact fun _ hr => nomatch hr
  · right; left
    rw [hbytes]
    exact hb.append _

/-- `fwrite` writes a part of the header, says so, and the file is closed. -/
theorem header_failed (hclock : ClockOk env) (hlive : st'.dead = false) (hgrows : Grows Note st st')
    (hfp : st.log.fp = some ⟨[], []⟩)
    {part : Bytes} (hshort : part.length < 12) (func : String) (text : Bytes) :
    Created fecN st.left (pErr env func text (st'.write part)).close := by
  obtain ⟨rs, hrs, hopen⟩ := hgrows.fp
  rw [hfp, Option.map_some] at hopen
  obtain ⟨f, hf, hbytes, -⟩ := written_header hlive part hopen
  have hleft := (write_live hlive part).1.trans hgrows.left
  generalize st'.write part = st2 at hf hleft ⊢
  have herr : Grows Note st2 (pErr env func text st2) := pErr_grows (tells_note hclock _ _ _)
  generalize pErr env func text st2 = st3 at herr ⊢
  obtain ⟨rs', hrs', hopen'⟩ := herr.fp
  rw [hf, Option.map_some] at hopen'
  have hbare : Bare (rs'.foldl LogFile.put f).bytes := by
    rw [foldl_put]
    dsimp only
    rw [hbytes]
    rcases blank_records fun r hr => (hrs r hr).timed with rfl | hb
    · rw [List.flatMap_nil, List.nil_append]
      exact bare_of_notes hshort hrs'
    · exact ((hb.append _).append _).bare
  by_cases hdead : st3.dead = true
  · -- the process dies of the message, and the file stays open
    rw [close_killed hdead]
    refine ⟨⟨[], by rw [List.append_nil, herr.left, hleft], fun _ hf => nomatch hf⟩, fun hlive => ?_⟩
    cases hdead.symm.trans hlive
  · have hclose := close_closed (Bool.not_eq_true _ ▸ hdead)
    refine ⟨⟨[rs'.foldl .put f], ?_, ?_⟩, fun _ f' hf' => (nomatch hclose.fp.symm.trans hf')⟩
    · rw [hclose.left]
      show st3.left ++ st3.log.fp.toList = _
      rw [herr.left, hleft, hopen']
      rfl
    · intro f' hf'
      rw [List.mem_singleton.mp hf']
      exact hbare

theorem rxLogHeader_created (hclock : ClockOk env) (ctx : LogContext) (o : CreateOutcome) (hfp : st.log.fp = some ⟨[], []⟩) :
    Created fecN st.left (rxLogHeader env ctx o st) := by
  unfold rxLogHeader
  dsimp only
  have hdebug : Grows Note st (pDebug env "rx_log_create" (ascii "New LOG File: " ++ st.log.fileName ++ ascii "\n") st) :=
    pDebug_grows fun _ => tells_note hclock _ _ _
  generalize pDebug env "rx_log_create" _ st = st1 at hdebug ⊢
  have herr : ∀ text, Grows Note st (pErr env "rx_log_create" text st1) := fun text =>
    hdebug.trans (pErr_grows (tells_note hclock _ _ _))
  cases o.fcntl with
  | some err => exact created_noted (herr _) hfp
  | none =>
    dsimp only
    by_cases hdead : st1.dead = true
    · -- nothing is written any more
      cases o.fwrite with
      | none =>
        dsimp only
        rw [write_killed hdead]
        exact created_noted hdebug hfp
      | some failed =>
        dsimp only
        rw [write_killed hdead, close_killed (pErr_dead _ _ hdead)]
        exact created_noted (herr _) hfp
    · rw [Bool.not_eq_true] at hdead
      cases o.fwrite with
      | none => exact header_written hdead hdebug hfp (fileHeader ctx)
      | some failed =>
        obtain ⟨n, err⟩ := failed
        apply header_failed hclock hdead hdebug hfp
        rw [List.length_take]
        have hn := n.isLt
        omega

/-- However the file operations go and whatever is printed meanwhile. -/
theorem rxLogCreate_shape (hclock : ClockOk env) (fecN : UInt8) (ctx : LogContext) (o : CreateOutcome) (hlive : st.dead = false) :
    Created fecN st.files (rxLogCreate env ctx o st) := by
  have hclosed := close_closed hlive
  unfold rxLogCreate
  dsimp only
  cases hlog : env.logFile with
  | none => exact created_closed hclosed.left hclosed.fp
  | some base =>
    have hfix := @fixupFilename_closed env _ _ _ hclosed base o.taken
    dsimp only
    generalize fixupFilename env base o.taken st.close = st1 at hfix ⊢
    cases hopen : o.fopen with
    | some err =>
      dsimp only
      rw [pErr_closed hfix.fp]
      exact created_closed hfix.left hfix.fp
    | none =>
      dsimp only
      rw [← hfix.left]
      exact @rxLogHeader_created fecN env { st1 with log := { st1.log with fp := some ⟨[], []⟩ } } hclock ctx o rfl

end WfbYa.Log
