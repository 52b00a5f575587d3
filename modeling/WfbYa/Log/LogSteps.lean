/-
  WfbYa.Log.LogSteps — what a call of the log does to the files (see `WfbYa.Log.RxLog`).

  Whatever goes on in a call, the hook's calls within it and the death of the process
  included, it puts whole records at the end of the open file (`Grows`); which ones, a
  predicate on records says.

  - `logOp_grows`: the calls that write records.
  - `rxLogCreate_spec`: `rx_log_create`, if nothing is written before the file header.
-/

import WfbYa.Log.RxLog

namespace WfbYa.Log

open WfbYa.Lib.LittleEndian

/-! ## A file that grows -/

@[simp] theorem put_ticks (st : LogState) (r : LogRecord) : (st.put r).ticks = st.ticks := by
  unfold LogState.put
  split <;> rfl

@[simp] theorem put_dead (st : LogState) (r : LogRecord) : (st.put r).dead = st.dead := by
  unfold LogState.put
  split <;> rfl

theorem put_live {st : LogState} (h : st.dead = false) (r : LogRecord) :
    (st.put r).log.fp = st.log.fp.map fun f => f.put r := by simp [LogState.put, h]

theorem foldl_put (f : LogFile) (rs : List LogRecord) :
    rs.foldl LogFile.put f = ⟨f.bytes ++ rs.flatMap LogRecord.raw, f.written ++ rs⟩ := by
  induction rs generalizing f with
  | nil => simp
  | cons r rs ih => simp [ih, LogFile.put]

/-- Good records are put at the end of the open file, if there is one. -/
structure Grows (P : LogRecord → Prop) (st st' : LogState) : Prop where
  left : st'.left = st.left
  fp : ∃ rs : List LogRecord, (∀ r ∈ rs, P r) ∧ st'.log.fp = st.log.fp.map fun f => rs.foldl LogFile.put f

variable {P : LogRecord → Prop} {env : LogEnv} {st st' st'' : LogState}

theorem Grows.same (hl : st'.left = st.left) (hf : st'.log.fp = st.log.fp) : Grows P st st' :=
  ⟨hl, [], fun _ h => (nomatch h), by rw [hf]; cases st.log.fp <;> rfl⟩

/-- The counters are no part of the files. -/
theorem Grows.counters {seq : Int32} {ticks : Nat} (h : Grows P { st with seq := seq, ticks := ticks } st') : Grows P st st' :=
  ⟨h.left, h.fp⟩

theorem Grows.trans (h : Grows P st st') (h' : Grows P st' st'') : Grows P st st'' := by
  obtain ⟨rs, hrs, hf⟩ := h.fp
  obtain ⟨rs', hrs', hf'⟩ := h'.fp
  refine ⟨h'.left.trans h.left, rs ++ rs', ?_, ?_⟩
  · intro r hr
    exact (List.mem_append.mp hr).elim (hrs r) (hrs' r)
  · rw [hf', hf, Option.map_map]
    congr 1
    funext f
    exact List.foldl_append.symm

theorem Grows.put {r : LogRecord} (h : P r) : Grows P st (st.put r) := by
  unfold LogState.put
  split
  · exact .same rfl rfl
  · exact ⟨rfl, [r], fun _ hr => List.mem_singleton.mp hr ▸ h, rfl⟩

@[simp] theorem mem_files {f : LogFile} : f ∈ st.files ↔ f ∈ st.left ∨ st.log.fp = some f := by
  simp [LogState.files]

/-- What good records leave true of the open file. -/
theorem Grows.current {K : LogFile → Prop} (h : Grows P st st')
    (hput : ∀ f (rs : List LogRecord), (∀ r ∈ rs, P r) → K f → K (rs.foldl .put f))
    (hk : ∀ f, st.log.fp = some f → K f) : ∀ f, st'.log.fp = some f → K f := by
  obtain ⟨rs, hrs, hfp⟩ := h.fp
  intro f hf
  rw [hfp] at hf
  obtain ⟨f0, hopen, rfl⟩ := Option.map_eq_some_iff.mp hf
  exact hput f0 rs hrs (hk f0 hopen)

/-- What good records leave true of a file, of all files. -/
theorem Grows.files {K : LogFile → Prop} (h : Grows P st st')
    (hput : ∀ f (rs : List LogRecord), (∀ r ∈ rs, P r) → K f → K (rs.foldl .put f))
    (hk : ∀ f ∈ st.files, K f) : ∀ f ∈ st'.files, K f := by
  intro f hf
  rcases mem_files.mp hf with hleft | hopen
  · rw [h.left] at hleft
    exact hk f (mem_files.mpr (.inl hleft))
  · exact h.current hput (fun f0 h0 => hk f0 (mem_files.mpr (.inr h0))) f hopen

/-! ## Messages -/

theorem frameType_isMsg {type : MsgHookType} {ty : UInt8} (h : type.frameType = some ty) : isMsgType ty = true := by
  cases type <;> cases h <;> rfl

/-- What the hook writes of `text` at the clock's `n`th reading, if it does, is a good record. -/
def Says (P : LogRecord → Prop) (env : LogEnv) (n : Nat) (text : Option Bytes) : Prop :=
  ∀ ts seq type t, env.clock n = .ok ts → text = some t → t.length < bufsiz → isMsgType type = true → P (msgRecord ts seq type t)

/-- So are the two parts of a message of the log's own, whatever becomes of them. -/
structure Tells (P : LogRecord → Prop) (env : LogEnv) (n : Nat) (head text : Bytes) : Prop where
  head : Says P env n (env.reread n head)
  text : Says P env (n + 1) (env.reread (n + 1) text)

theorem tells_of (h : ∀ n text, Says P env n text) (n : Nat) (head text : Bytes) : Tells P env n head text := ⟨h _ _, h _ _⟩

theorem rxLogHook_closed (h : st.log.fp = none) (type : MsgHookType) (text : Option Bytes) :
    (rxLogHook env type text st).2 = st := by
  unfold rxLogHook
  rw [h]

/-- How a call of the hook goes with a file open: nothing is written, or the process dies, or
    there is a record of the text. -/
inductive Hooked (env : LogEnv) (type : MsgHookType) (text : Option Bytes) (st st' : LogState) : Prop
  | silent : st' = { st with ticks := st.ticks + 1 } → Hooked env type text st st'
  | killed {ts : TimeSpec} : env.clock st.ticks = .ok ts → text = none →
      st' = { st with ticks := st.ticks + 1, dead := true } → Hooked env type text st st'
  | spoken {ts : TimeSpec} {ty : UInt8} {t : Bytes} : env.clock st.ticks = .ok ts → type.frameType = some ty → text = some t →
      t.length < bufsiz → st' = { st with ticks := st.ticks + 1, seq := st.seq + 1 }.put (msgRecord ts st.seq ty t) →
      Hooked env type text st st'

theorem rxLogHook_cases {f : LogFile} (h : st.log.fp = some f) (type : MsgHookType) (text : Option Bytes) :
    Hooked env type text st (rxLogHook env type text st).2 := by
  unfold rxLogHook
  rw [h]
  dsimp only [clockGettime]
  cases hts : env.clock st.ticks with
  | error err => exact .silent rfl
  | ok ts =>
    cases hty : type.frameType with
    | none => exact .silent rfl
    | some ty =>
      cases text with
      | none => exact .killed hts rfl rfl
      | some t =>
        dsimp only
        split
        · exact .silent rfl
        · rename_i hlen
          exact .spoken hts hty rfl (Nat.not_le.mp hlen) rfl

theorem rxLogHook_ticks {f : LogFile} (h : st.log.fp = some f) (type : MsgHookType) (text : Option Bytes) :
    (rxLogHook env type text st).2.ticks = st.ticks + 1 := by
  cases @rxLogHook_cases env st f h type text with
  | silent he => rw [he]
  | killed _ _ he => rw [he]
  | spoken _ _ _ _ he => rw [he, put_ticks]

theorem rxLogHook_dead (type : MsgHookType) (text : Option Bytes) (h : st.dead = true) :
    (rxLogHook env type text st).2.dead = true := by
  cases hfp : st.log.fp with
  | none => rwa [rxLogHook_closed hfp]
  | some f =>
    cases @rxLogHook_cases env st f hfp type text with
    | silent he => rwa [he]
    | killed _ _ he => rw [he]
    | spoken _ _ _ _ he => rwa [he, put_dead]

/-- The hook kills nobody who asks it in vain for the time. -/
theorem rxLogHook_mute {err : Bytes} (h : env.clock st.ticks = .error err) (type : MsgHookType) (text : Option Bytes) :
    (rxLogHook env type text st).2.dead = st.dead := by
  cases hfp : st.log.fp with
  | none => rw [rxLogHook_closed hfp]
  | some f =>
    cases @rxLogHook_cases env st f hfp type text with
    | silent he => rw [he]
    | killed hts _ _ => cases h.symm.trans hts
    | spoken hts _ _ _ _ => cases h.symm.trans hts

theorem rxLogHook_grows {type : MsgHookType} {text : Option Bytes} (h : Says P env st.ticks text) :
    Grows P st (rxLogHook env type text st).2 := by
  cases hfp : st.log.fp with
  | none =>
    rw [rxLogHook_closed hfp]
    exact .same rfl rfl
  | some f =>
    cases @rxLogHook_cases env st f hfp type text with
    | silent he => exact .same (by rw [he]) (by rw [he])
    | killed _ _ he => exact .same (by rw [he]) (by rw [he])
    | spoken hts hty ht hlen he =>
      rw [he]
      exact Grows.counters (.put (h _ _ _ _ hts ht hlen (frameType_isMsg hty)))

theorem pErr_closed (h : st.log.fp = none) (func : String) (text : Bytes) : pErr env func text st = st := by
  unfold pErr pErrRaw
  rw [rxLogHook_closed h, rxLogHook_closed h]

theorem pDebug_closed (h : st.log.fp = none) (func : String) (text : Bytes) : pDebug env func text st = st := by
  unfold pDebug pDebugRaw
  split
  · rw [rxLogHook_closed h, rxLogHook_closed h]
  · rfl

theorem pDebug_off (h : env.debug = false) (func : String) (text : Bytes) : pDebug env func text st = st := by
  simp [pDebug, pDebugRaw, h]

theorem pErr_dead (func : String) (text : Bytes) (h : st.dead = true) : (pErr env func text st).dead = true := by
  unfold pErr pErrRaw
  exact rxLogHook_dead _ _ (rxLogHook_dead _ _ h)

theorem pDebug_dead (func : String) (text : Bytes) (h : st.dead = true) : (pDebug env func text st).dead = true := by
  unfold pDebug pDebugRaw
  split
  · exact rxLogHook_dead _ _ (rxLogHook_dead _ _ h)
  · exact h

/-- Two calls of the hook, one after the other. -/
theorem twice_grows {type : MsgHookType} {head text : Bytes} (h : Tells P env st.ticks head text) {st' : LogState}
    (hst : (rxLogHook env type (env.reread st.ticks head) st).2 = st') :
    Grows P st (rxLogHook env type (env.reread st'.ticks text) st').2 := by
  have hfirst : Grows P st st' := hst ▸ rxLogHook_grows h.head
  cases hf : st.log.fp with
  | none =>
    rw [rxLogHook_closed hf] at hst
    rw [← hst, rxLogHook_closed hf]
    exact .same rfl rfl
  | some f =>
    have hticks : st'.ticks = st.ticks + 1 := hst ▸ rxLogHook_ticks hf _ _
    apply hfirst.trans
    apply rxLogHook_grows
    rw [hticks]
    exact h.text

theorem pErr_grows {func : String} {text : Bytes} (h : Tells P env st.ticks (errHead func) text) :
    Grows P st (pErr env func text st) := twice_grows h rfl

theorem pDebug_grows {func : String} {text : Bytes} (h : env.debug = true → Tells P env st.ticks (debugHead func) text) :
    Grows P st (pDebug env func text st) := by
  unfold pDebug pDebugRaw
  by_cases hd : env.debug = true
  · rw [if_pos hd, if_pos hd]
    exact twice_grows (h hd) rfl
  · rw [if_neg hd, if_neg hd]
    exact .same rfl rfl

/-! ## Records of frames -/

/-- What is said of a call is good: that the clock failed, and with debug output what is
    written of `size` bytes. -/
structure CallTells (P : LogRecord → Prop) (env : LogEnv) (n : Nat) (func : String)
    (hd : TimeSpec → RxLogFrameHeader) (size : Nat) :
    Prop where
  failed : ∀ err, env.clock n = .error err → Tells P env (n + 1) (errHead func) (clockFailed err)
  debug : ∀ ts, env.clock n = .ok ts → env.debug = true → Tells P env (n + 1) (debugHead func) (seqText (hd ts) size)

theorem callTells_of (h : ∀ n text, Says P env n text) (n : Nat) (func : String) (hd : TimeSpec → RxLogFrameHeader) (size : Nat) :
    CallTells P env n func hd size := ⟨fun _ _ => tells_of h _ _ _, fun _ _ _ => tells_of h _ _ _⟩

theorem rxLogCorrupt_grows {ctx : LogContext} (hrec : ∀ ts, env.clock st.ticks = .ok ts → P (corruptRecord ctx ts))
    (herr : ∀ err, env.clock st.ticks = .error err → Tells P env (st.ticks + 1) (errHead "rx_log_corrupt") (clockFailed err)) :
    Grows P st (rxLogCorrupt env ctx st) := by
  unfold rxLogCorrupt
  split
  · exact .same rfl rfl
  · dsimp only [clockGettime]
    split
    · rename_i err he
      exact Grows.counters (pErr_grows (herr err he))
    · rename_i ts hts
      exact Grows.counters (.put (hrec ts hts))

theorem rxLogFrame_grows {ctx : LogContext} {blockIdx : UInt64} {fragmentIdx : UInt8} {size : UInt64}
    (hrec : ∀ ts, size ≠ 0 → env.clock st.ticks = .ok ts → P (frameRecord ctx ts blockIdx fragmentIdx size))
    (htell : size ≠ 0 → CallTells P env st.ticks "rx_log_frame" (fun ts => (frameRecord ctx ts blockIdx fragmentIdx size).hd)
    size.toNat) :
    Grows P st (rxLogFrame env ctx blockIdx fragmentIdx size st) := by
  unfold rxLogFrame
  split
  · exact .same rfl rfl
  · split
    · exact .same rfl rfl
    · rename_i hsize
      dsimp only [clockGettime]
      split
      · rename_i err he
        exact Grows.counters (pErr_grows ((htell hsize).failed err he))
      · rename_i ts hts
        have hdebug : Grows P { st with ticks := st.ticks + 1 } (pDebug env "rx_log_frame"
            (seqText (frameRecord ctx ts blockIdx fragmentIdx size).hd size.toNat) { st with ticks := st.ticks + 1 }) :=
          pDebug_grows ((htell hsize).debug ts hts)
        exact Grows.counters (hdebug.trans (.put (hrec ts hsize hts)))

theorem rxLogDecode_grows {ctx : LogContext} {blockIdx : UInt64} {fragmentIdx : UInt8} {data : Bytes}
    (hrec : ∀ ts, data ≠ [] → env.clock st.ticks = .ok ts → P (decodeRecord ctx ts blockIdx fragmentIdx data))
    (htell : data ≠ [] →
      CallTells P env st.ticks "rx_log_decode" (fun ts => (decodeRecord ctx ts blockIdx fragmentIdx data).hd) data.length) :
    Grows P st (rxLogDecode env ctx blockIdx fragmentIdx (some data) st) := by
  unfold rxLogDecode
  split
  · exact .same rfl rfl
  · exact .same rfl rfl
  · rename_i d _ heq
    cases heq
    split
    · exact .same rfl rfl
    · rename_i hne
      dsimp only [clockGettime]
      split
      · rename_i err he
        exact Grows.counters (pErr_grows ((htell hne).failed err he))
      · rename_i ts hts
        have hdebug : Grows P { st with ticks := st.ticks + 1 } (pDebug env "rx_log_decode"
            (seqText (decodeRecord ctx ts blockIdx fragmentIdx data).hd data.length) { st with ticks := st.ticks + 1 }) :=
          pDebug_grows ((htell hne).debug ts hts)
        exact Grows.counters (hdebug.trans (.put (hrec ts hne hts)))

/-- Nobody comes back from the dead. -/
theorem rxLogCorrupt_dead (ctx : LogContext) (h : st.dead = true) : (rxLogCorrupt env ctx st).dead = true := by
  unfold rxLogCorrupt
  split
  · exact h
  · dsimp only [clockGettime]
    split
    · exact pErr_dead _ _ h
    · rwa [put_dead]

theorem rxLogFrame_dead (ctx : LogContext) (blockIdx : UInt64) (fragmentIdx : UInt8) (size : UInt64) (h : st.dead = true) :
    (rxLogFrame env ctx blockIdx fragmentIdx size st).dead = true := by
  unfold rxLogFrame
  split
  · exact h
  · split
    · exact h
    · dsimp only [clockGettime]
      split
      · exact pErr_dead _ _ h
      · rw [put_dead]
        exact pDebug_dead _ _ h

theorem rxLogDecode_dead (ctx : LogContext) (blockIdx : UInt64) (fragmentIdx : UInt8) (data : Option Bytes) (h : st.dead = true) :
    (rxLogDecode env ctx blockIdx fragmentIdx data st).dead = true := by
  unfold rxLogDecode
  split
  · exact h
  · exact h
  · split
    · exact h
    · dsimp only [clockGettime]
      split
      · exact pErr_dead _ _ h
      · rw [put_dead]
        exact pDebug_dead _ _ h

/-! ## rx_log_create -/

/-- The process lives, and no file is open. -/
structure Closed (st : LogState) (left : List LogFile) (ticks : Nat) : Prop where
  live : st.dead = false
  fp : st.log.fp = none
  left : st.left = left
  ticks : st.ticks = ticks

theorem close_closed (h : st.dead = false) : Closed st.close st.files st.ticks := by
  unfold LogState.close
  rw [if_neg (Bool.not_eq_true _ ▸ h)]
  exact ⟨h, rfl, rfl, rfl⟩

theorem tryNames_closed {left : List LogFile} {ticks : Nat} (h : Closed st left ticks) (base : Bytes) (taken : Nat) :
    Closed (tryNames env base taken st) left ticks := by
  induction taken generalizing st with
  | zero => exact h
  | succ taken ih =>
    unfold tryNames
    rw [pDebug_closed h.fp]
    apply ih
    exact ⟨h.live, h.fp, h.left, h.ticks⟩

theorem fixupFilename_closed {left : List LogFile} {ticks : Nat} (h : Closed st left ticks) (base : Bytes) (taken : Nat) :
    Closed (fixupFilename env base taken st) left ticks := by
  unfold fixupFilename
  dsimp only
  generalize (if st.log.seq = 0 then base.take (pathMax - 1) else st.log.fileName) = fileName
  have hnamed : Closed { st with log := { st.log with fileName := fileName } } left ticks := ⟨h.live, h.fp, h.left, h.ticks⟩
  rw [pDebug_closed hnamed.fp]
  have htried := @tryNames_closed env _ _ _ hnamed base taken
  rw [pDebug_closed htried.fp]
  exact htried

/-- Nothing gets into a file that is opened before its header, and the process lives to write
    it: there are no debug messages, or the hook cannot tell the time; and the header is
    written. -/
structure HeaderFirst (env : LogEnv) (st : LogState) (o : CreateOutcome) : Prop where
  silent : env.debug = true → ∃ err err', env.clock st.ticks = .error err ∧ env.clock (st.ticks + 1) = .error err'
  fcntl : o.fcntl = none
  fwrite : o.fwrite = none

/-- Then `p_debug` does nothing to the files, nor to the process. -/
theorem pDebug_silent (h : env.debug = true → ∃ err err', env.clock st.ticks = .error err ∧
    env.clock (st.ticks + 1) = .error err')
    (func : String) (text : Bytes) :
    Grows (fun _ => False) st (pDebug env func text st) ∧ (pDebug env func text st).dead = st.dead := by
  refine ⟨pDebug_grows fun hd => ?_, ?_⟩
  · obtain ⟨err, err', he, he'⟩ := h hd
    exact ⟨fun _ _ _ _ hts => (nomatch he.symm.trans hts), fun _ _ _ _ hts => (nomatch he'.symm.trans hts)⟩
  · unfold pDebug pDebugRaw
    by_cases hd : env.debug = true
    · rw [if_pos hd, if_pos hd]
      obtain ⟨err, err', he, he'⟩ := h hd
      cases hf : st.log.fp with
      | none => rw [rxLogHook_closed hf, rxLogHook_closed hf]
      | some f =>
        have hticks := @rxLogHook_ticks env st f hf .debug (env.reread st.ticks (debugHead func))
        rw [← hticks] at he'
        rw [rxLogHook_mute he', rxLogHook_mute he]
    · rw [if_neg hd, if_neg hd]

theorem write_killed (h : st.dead = true) (bs : Bytes) : st.write bs = st := by simp [LogState.write, h]

theorem close_killed (h : st.dead = true) : st.close = st := by simp [LogState.close, h]

theorem write_live (h : st.dead = false) (bs : Bytes) :
    (st.write bs).left = st.left ∧ (st.write bs).log.fp = st.log.fp.map fun f => { f with bytes := f.bytes ++ bs } := by
  simp [LogState.write, h]

theorem rxLogCreate_spec (ctx : LogContext) (o : CreateOutcome) (hlive : st.dead = false)
    (h : env.logFile ≠ none → o.fopen = none → HeaderFirst env st o) :
    (rxLogCreate env ctx o st).left = st.files ∧
      ((env.logFile = none ∨ o.fopen ≠ none) ∧ (rxLogCreate env ctx o st).log.fp = none ∨
        (rxLogCreate env ctx o st).log.fp = some ⟨(fileHeader ctx).raw, []⟩) := by
  have hclosed := close_closed hlive
  unfold rxLogCreate
  dsimp only
  cases hlog : env.logFile with
  | none => exact ⟨hclosed.left, .inl ⟨.inl rfl, hclosed.fp⟩⟩
  | some base =>
    have hfix := @fixupFilename_closed env _ _ _ hclosed base o.taken
    dsimp only
    generalize fixupFilename env base o.taken st.close = st1 at hfix ⊢
    cases hopen : o.fopen with
    | some err =>
      dsimp only
      rw [pErr_closed hfix.fp]
      exact ⟨hfix.left, .inl ⟨.inr (Option.some_ne_none err), hfix.fp⟩⟩
    | none =>
      have hfirst := h (by rw [hlog]; exact Option.some_ne_none base) hopen
      have hsilent := hfirst.silent
      rw [← hfix.ticks] at hsilent
      dsimp only
      unfold rxLogHeader
      dsimp only
      rw [hfirst.fcntl, hfirst.fwrite]
      obtain ⟨hgrows, halive⟩ := @pDebug_silent env { st1 with log := { st1.log with fp := some ⟨[], []⟩ } }
        hsilent "rx_log_create"
        (ascii "New LOG File: " ++ st1.log.fileName ++ ascii "\n")
      obtain ⟨rs, hrs, hfp⟩ := hgrows.fp
      obtain rfl : rs = [] := List.eq_nil_iff_forall_not_mem.mpr hrs
      generalize (fileHeader ctx).raw = raw
      obtain ⟨hleft, hwritten⟩ := write_live (halive.trans hfix.live) raw
      refine ⟨hleft.trans (hgrows.left.trans hfix.left), .inr ?_⟩
      rw [hwritten, hfp, Option.map_some, Option.map_some, List.foldl_nil, List.nil_append]

/-- What is true of a file that is only a header, and was of the others. -/
theorem rxLogCreate_files {K : LogFile → Prop} {ctx : LogContext} {o : CreateOutcome} (hlive : st.dead = false)
    (h : env.logFile ≠ none → o.fopen = none → HeaderFirst env st o) (hnew : K ⟨(fileHeader ctx).raw, []⟩)
    (hk : ∀ f ∈ st.files, K f) : ∀ f ∈ (rxLogCreate env ctx o st).files, K f := by
  obtain ⟨hleft, hfp⟩ := rxLogCreate_spec ctx o hlive h
  intro f hf
  rcases mem_files.mp hf with hgone | hopen
  · rw [hleft] at hgone
    exact hk f hgone
  · rcases hfp with ⟨-, hfp⟩ | hfp <;> rw [hfp] at hopen
    · cases hopen
    · cases hopen
      exact hnew

/-! ## The dead -/

@[simp] theorem close_dead (st : LogState) : st.close.dead = st.dead := by
  unfold LogState.close
  split <;> rfl

@[simp] theorem write_dead (st : LogState) (bs : Bytes) : (st.write bs).dead = st.dead := by
  unfold LogState.write
  split <;> rfl

theorem tryNames_dead (base : Bytes) (taken : Nat) (h : st.dead = true) : (tryNames env base taken st).dead = true := by
  induction taken generalizing st with
  | zero => exact h
  | succ taken ih => exact ih (pDebug_dead _ _ h)

theorem fixupFilename_dead (base : Bytes) (taken : Nat) (h : st.dead = true) : (fixupFilename env base taken st).dead = true := by
  unfold fixupFilename
  exact pDebug_dead _ _ (tryNames_dead _ _ (pDebug_dead _ _ h))

theorem rxLogHeader_dead (ctx : LogContext) (o : CreateOutcome) (h : st.dead = true) :
    (rxLogHeader env ctx o st).dead = true := by
  unfold rxLogHeader
  dsimp only
  have hsaid := @pDebug_dead env st "rx_log_create" (ascii "New LOG File: " ++ st.log.fileName ++ ascii "\n") h
  split
  · exact pErr_dead _ _ hsaid
  · split
    · rwa [write_dead]
    · rw [close_dead]
      apply pErr_dead
      rwa [write_dead]

theorem rxLogCreate_dead (ctx : LogContext) (o : CreateOutcome) (h : st.dead = true) :
    (rxLogCreate env ctx o st).dead = true := by
  have hclosed : st.close.dead = true := by rwa [close_dead]
  unfold rxLogCreate
  dsimp only
  split
  · exact hclosed
  · split
    · exact pErr_dead _ _ (fixupFilename_dead _ _ hclosed)
    · exact rxLogHeader_dead _ _ (fixupFilename_dead _ _ hclosed)

/-! ## Steps -/

/-- Only the living take a step. -/
theorem logStep_ok {i : LogInput} {e : List Empty} (h : logStep env st i = .ok (st', e)) :
    st.dead = false ∧ st' = logCall env st i := by
  unfold logStep at h
  split at h
  · cases h
  · rename_i hlive
    cases h
    exact ⟨Bool.not_eq_true _ ▸ hlive, rfl⟩

end WfbYa.Log
