/-
  WfbYa.Log.SeqKeys — sequence numbers and fragments.

  - `keys_identify_fragments`: in every file of a session the sequence number of a frame is
    computed without overflow; and if the loader can read every record, frames are under one
    key exactly if they are of one fragment, the keys in the order of blocks and, in a block,
    of fragments. So a delivered payload is listed with the receptions of its own fragment.
  - `captured_frame_hides_fragments`: a frame from the node's own capture, and the payload
    behind it is under no key.
  - `logOp_identified`: what the log's calls write.
  - `Loaded.keysFragments`: what the loader makes of such records.
-/

import WfbYa.Log.SessionLogs

namespace WfbYa.Log

open WfbYa.Lib WfbYa.Rx

/-! ## Numbers -/

section Numbers

variable {n b b' f f' : Nat}

theorem number_le (h : b < b') (hf : f < n) : b * n + f < b' * n := by
  have hmul : (b + 1) * n ≤ b' * n := Nat.mul_le_mul_right n h
  rw [Nat.succ_mul] at hmul
  omega

theorem number_lt_iff (hf : f < n) (hf' : f' < n) : b * n + f < b' * n + f' ↔ b < b' ∨ b = b' ∧ f < f' := by
  constructor
  · intro h
    by_cases heq : b = b'
    · subst heq
      exact .inr ⟨rfl, by omega⟩
    · left
      by_contra hnot
      have hgt := number_le (show b' < b by omega) hf'
      omega
  · rintro (h | ⟨rfl, h⟩)
    · have hlt := number_le h hf
      omega
    · omega

theorem number_inj (hf : f < n) (hf' : f' < n) : b * n + f = b' * n + f' ↔ b = b' ∧ f = f' := by
  have hlt := @number_lt_iff n b b' f f' hf hf'
  have hgt := @number_lt_iff n b' b f' f hf' hf
  omega

end Numbers

/-! ## Records -/

/-- A frame's sequence number is that of its fragment, as numbers. -/
def Identified (fecN : UInt8) (r : LogRecord) : Prop :=
  isMsgType r.hd.type = false → r.hd.blockIdx.toNat ≤ maxBlockIdx ∧ r.hd.fragmentIdx < fecN ∧
    r.hd.seq.toNat = r.hd.blockIdx.toNat * fecN.toNat + r.hd.fragmentIdx.toNat

def SameFragment (r r' : LogRecord) : Prop := r.hd.blockIdx = r'.hd.blockIdx ∧ r.hd.fragmentIdx = r'.hd.fragmentIdx

/-- The lexicographic order of fragments. -/
def Precedes (r r' : LogRecord) : Prop :=
  r.hd.blockIdx < r'.hd.blockIdx ∨ r.hd.blockIdx = r'.hd.blockIdx ∧ r.hd.fragmentIdx < r'.hd.fragmentIdx

variable {fecN : UInt8} {r r' : LogRecord} {rs : List LogRecord}

theorem Identified.seq_eq_iff (h : Identified fecN r) (h' : Identified fecN r') (hm : isMsgType r.hd.type = false)
    (hm' : isMsgType r'.hd.type = false) : r.hd.seq.toNat = r'.hd.seq.toNat ↔ SameFragment r r' := by
  obtain ⟨-, hf, hseq⟩ := h hm
  obtain ⟨-, hf', hseq'⟩ := h' hm'
  unfold SameFragment
  rw [hseq, hseq', number_inj (UInt8.lt_iff_toNat_lt.mp hf) (UInt8.lt_iff_toNat_lt.mp hf'), UInt64.toNat_inj, UInt8.toNat_inj]

theorem Identified.seq_lt_iff (h : Identified fecN r) (h' : Identified fecN r') (hm : isMsgType r.hd.type = false)
    (hm' : isMsgType r'.hd.type = false) : r.hd.seq.toNat < r'.hd.seq.toNat ↔ Precedes r r' := by
  obtain ⟨-, hf, hseq⟩ := h hm
  obtain ⟨-, hf', hseq'⟩ := h' hm'
  unfold Precedes
  rw [hseq, hseq', number_lt_iff (UInt8.lt_iff_toNat_lt.mp hf) (UInt8.lt_iff_toNat_lt.mp hf'), UInt64.toNat_inj,
    ← UInt64.lt_iff_toNat_lt, ← UInt8.lt_iff_toNat_lt]

theorem identified_of_seq (hb : r.hd.blockIdx.toNat ≤ maxBlockIdx) (hf : r.hd.fragmentIdx < fecN)
    (hseq : r.hd.seq = r.hd.blockIdx * fecN.toUInt64 + r.hd.fragmentIdx.toUInt64) : Identified fecN r := by
  intro _
  have hnum := seq_toNat hb (UInt8.lt_iff_toNat_lt.mp hf) (Nat.le_of_lt_succ fecN.toNat_lt)
  rw [UInt64.ofNat_toNat, UInt8.ofNat_toNat, UInt8.ofNat_toNat] at hnum
  exact ⟨hb, hf, by rw [hseq, hnum]⟩

theorem says_identified (env : LogEnv) (n : Nat) (text : Option Bytes) : Says (Identified fecN) env n text :=
  fun _ _ _ _ _ _ _ hm hno => nomatch hm.symm.trans hno

/-! ## The calls -/

/-- A call of a session with `fec_n` fragments in a block. -/
def InSession (fecN : UInt8) : LogOp → Prop
  | .frame ctx blockIdx fragmentIdx _ => ctx.fecN = fecN ∧ blockIdx.toNat ≤ maxBlockIdx ∧ fragmentIdx < fecN
  | .decode ctx blockIdx fragmentIdx _ => ctx.fecN = fecN ∧ blockIdx.toNat ≤ maxBlockIdx ∧ fragmentIdx < fecN
  | .corrupt _ => True
  | .hook _ _ => True

variable {env : LogEnv} {st st' : LogState} {ctx : LogContext} {o : CreateOutcome} {f : LogFile}

theorem logOp_identified (hn : 0 < fecN) {op : LogOp} (hop : InSession fecN op) :
    Grows (Identified fecN) st (logOp env st op) := by
  cases op with
  | frame ctx blockIdx fragmentIdx size =>
    obtain ⟨rfl, hb, hf⟩ := hop
    apply rxLogFrame_grows
    · exact fun ts _ _ => @identified_of_seq _ (frameRecord ctx ts blockIdx fragmentIdx size) hb hf rfl
    · exact fun _ => callTells_of (says_identified env) _ _ _ _
  | decode ctx blockIdx fragmentIdx data =>
    obtain ⟨rfl, hb, hf⟩ := hop
    apply rxLogDecode_grows
    · exact fun ts _ _ => @identified_of_seq _ (decodeRecord ctx ts blockIdx fragmentIdx data.val) hb hf rfl
    · exact fun _ => callTells_of (says_identified env) _ _ _ _
  | corrupt ctx =>
    apply rxLogCorrupt_grows
    · intro ts _ _
      refine ⟨Nat.zero_le _, hn, ?_⟩
      show (0 : UInt64).toNat = (0 : UInt64).toNat * fecN.toNat + (0 : UInt8).toNat
      simp
    · exact fun _ _ => tells_of (says_identified env) _ _ _
  | hook type text => exact rxLogHook_grows (says_identified env _ _)

/-! ## The file -/

section Said

variable {P : LogRecord → Prop} (hsay : ∀ n text, Says P env n text)
include hsay

/-- However the file operations go, in the file that `rx_log_create` opens there are only
    messages. -/
theorem rxLogHeader_said (ctx : LogContext) (o : CreateOutcome) (hfp : ∀ f, st.log.fp = some f → ∀ r ∈ f.written, P r) :
    ∀ f, (rxLogHeader env ctx o st).log.fp = some f → ∀ r ∈ f.written, P r := by
  have hput : ∀ f (rs : List LogRecord), (∀ r ∈ rs, P r) → (∀ r ∈ f.written, P r) →
    ∀ r ∈ (rs.foldl LogFile.put f).written, P r := by
    intro f rs hrs hf r hr
    rw [foldl_put] at hr
    exact (List.mem_append.mp hr).elim (hf r) (hrs r)
  have hdebug : Grows P st (pDebug env "rx_log_create" (ascii "New LOG File: " ++ st.log.fileName ++ ascii "\n") st) :=
    pDebug_grows fun _ => tells_of hsay _ _ _
  have hfp' := hdebug.current (K := fun f => ∀ r ∈ f.written, P r) hput hfp
  unfold rxLogHeader
  dsimp only
  generalize pDebug env "rx_log_create" _ st = st1 at hfp' ⊢
  have hwrite : ∀ bs, ∀ f, (st1.write bs).log.fp = some f → ∀ r ∈ f.written, P r := by
    intro bs f hf
    by_cases hdead : st1.dead = true
    · rw [write_killed hdead] at hf
      exact hfp' f hf
    · rw [(write_live (Bool.not_eq_true _ ▸ hdead) bs).2] at hf
      obtain ⟨f0, hopen, rfl⟩ := Option.map_eq_some_iff.mp hf
      exact hfp' f0 hopen
  have herr : ∀ {st : LogState}, (∀ f, st.log.fp = some f → ∀ r ∈ f.written, P r) → ∀ text f,
      (pErr env "rx_log_create" text st).log.fp = some f → ∀ r ∈ f.written, P r := fun hst text =>
    Grows.current (K := fun f => ∀ r ∈ f.written, P r) (pErr_grows (tells_of hsay _ _ _)) hput hst
  cases o.fcntl with
  | some err => exact herr hfp' _
  | none =>
    dsimp only
    cases o.fwrite with
    | none => exact hwrite _
    | some failed =>
      intro f hf
      obtain ⟨n, err⟩ := failed
      dsimp only at hf
      unfold LogState.close at hf
      split at hf
      · exact herr (hwrite _) _ f hf
      · cases hf

theorem rxLogCreate_said (hlive : st.dead = false) (ctx : LogContext) (o : CreateOutcome) :
    ∀ f, (rxLogCreate env ctx o st).log.fp = some f → ∀ r ∈ f.written, P r := by
  have hclosed := close_closed hlive
  unfold rxLogCreate
  dsimp only
  cases env.logFile with
  | none =>
    intro f hf
    cases hclosed.fp.symm.trans hf
  | some base =>
    have hfix := @fixupFilename_closed env _ _ _ hclosed base o.taken
    dsimp only
    generalize fixupFilename env base o.taken st.close = st1 at hfix ⊢
    cases o.fopen with
    | some err =>
      dsimp only
      rw [pErr_closed hfix.fp]
      intro f hf
      cases hfix.fp.symm.trans hf
    | none =>
      apply rxLogHeader_said hsay
      intro f hf
      cases hf
      exact fun _ hr => nomatch hr

end Said

/-- Calls of a session. -/
def SessionInput (fecN : UInt8) : LogInput → Prop
  | .create _ _ => False
  | .op op => InSession fecN op

/-- Calls of a session, of which the loader can read all that is written. -/
def ReadableInput (fecN : UInt8) (env : LogEnv) (st : LogState) (i : LogInput) : Prop :=
  SessionInput fecN i ∧ WritesReadable env st i

/-- What a session's calls write, each call of some kind. -/
theorem session_grows {P : LogRecord → Prop} {G : LogState → LogInput → Prop}
    (hop : ∀ st op, G st (.op op) → Grows P st (logOp env st op))
    (hno : ∀ st ctx o, ¬ G st (.create ctx o)) {is : List LogInput} {tr : List Empty}
    (h : Machine.Run (logStep env) G st is st' tr) :
    Grows P st st' := by
  refine h.inv (fun _ st' _ => Grows P st st') (.same rfl rfl) ?_
  rintro is st1 tr i st2 e hgrows hg hs
  obtain ⟨-, rfl⟩ := logStep_ok hs
  cases i with
  | create ctx o => exact absurd hg (hno st1 ctx o)
  | op op => exact hgrows.trans (hop st1 op hg)

/-- The sequence numbers of a session's file. -/
theorem session_identified (hn : 0 < ctx.fecN) (hlive : st.dead = false) {is : List LogInput} {tr : List Empty}
    (h : Machine.Run (logStep env) (fun _ => SessionInput ctx.fecN) (rxLogCreate env ctx o st) is st' tr)
    (hf : st'.log.fp = some f) :
    ∀ r ∈ f.written, Identified ctx.fecN r := by
  have hgrows : Grows (Identified ctx.fecN) (rxLogCreate env ctx o st) st' :=
    session_grows (fun _ _ hop => logOp_identified hn hop) (fun _ _ _ hno => hno) h
  refine hgrows.current (K := fun f => ∀ r ∈ f.written, Identified ctx.fecN r) ?_ ?_ f hf
  · intro f rs hrs h r hr
    rw [foldl_put] at hr
    exact (List.mem_append.mp hr).elim (h r) (hrs r)
  · exact rxLogCreate_said (says_identified env) hlive ctx o

/-- The loader reads the whole file. -/
theorem session_readable (hlive : st.dead = false) (hfirst : HeaderFirst env st o) {is : List LogInput} {tr : List Empty}
    (h : Machine.Run (logStep env) (ReadableInput fecN env) (rxLogCreate env ctx o st) is st' tr) (hf : st'.log.fp = some f) :
    f.Kept ∧ ∀ r ∈ f.written, r.Readable := by
  have hop : ∀ st op, ReadableInput fecN env st (.op op) → Grows LogRecord.Readable st (logOp env st op) := by
    intro st op hop
    by_cases hopen : st.log.fp = none
    · rw [logOp_closed hopen]
      exact .same rfl rfl
    · exact logOp_grows_readable (hop.2 hopen)
  have hgrows := session_grows hop (fun _ _ _ hno => hno.1) h
  refine hgrows.current (K := fun f => f.Kept ∧ ∀ r ∈ f.written, r.Readable) ?_ ?_ f hf
  · intro f rs hrs ⟨hkept, hread⟩
    refine ⟨hkept.append fun r hr => (hrs r hr).whole, fun r hr => ?_⟩
    rw [foldl_put] at hr
    exact (List.mem_append.mp hr).elim (hread r) (hrs r)
  · intro f hf
    rcases (rxLogCreate_spec ctx o hlive fun _ _ => hfirst).2 with ⟨-, hnone⟩ | hopen
    · cases hnone.symm.trans hf
    · cases hopen.symm.trans hf
      exact ⟨⟨ctx, fun _ hr => (nomatch hr), (List.append_nil _).symm⟩, fun _ hr => nomatch hr⟩

/-! ## The store -/

/-- What the store has under its sequence numbers, in terms of the records it was made of. -/
structure KeysFragments (ls : LogStore) (rs : List LogRecord) : Prop where
  represents : Represents ls (rs.map LogRecord.entry)
  /-- Under one key are the records of one fragment. -/
  together : ∀ i j r r', rs[i]? = some r → rs[j]? = some r' → isMsgType r.hd.type = false → isMsgType r'.hd.type = false →
    ((∃ kv ∈ ls.kvh, i ∈ kv.vh ∧ j ∈ kv.vh) ↔ SameFragment r r')
  /-- The keys are in the order of the fragments. -/
  visited : ls.kvh.Pairwise fun kv kv' => ∀ i ∈ kv.vh, ∀ j ∈ kv'.vh, ∃ r r', rs[i]? = some r ∧ rs[j]? = some r' ∧ Precedes r r'
  /-- A delivered payload is listed with what was received of its fragment. -/
  listed : ∀ i r, rs[i]? = some r → r.hd.type = frameTypeDecode → ∃ kv ∈ ls.kvh, i ∈ kv.vh ∧
    ∀ j, j ∈ kv.vh ∧ (ls.v j).isInet6 = true ↔ ∃ r', rs[j]? = some r' ∧ r'.hd.type = frameTypeInet6 ∧ SameFragment r r'

variable {ls : LogStore} {past : List Entry}

theorem Loaded.mem_vh (h : Loaded ls past) {t : KvType} {kv : LogDataKv} (hkv : kv ∈ ls.kvs t) (i : Nat) :
    i ∈ kv.vh ↔ ∃ e, past.reverse[i]? = some e ∧ under t kv.key e = true := by
  rw [h.kv hkv]
  exact mem_idxs

theorem known_seq (h : r.known = true) (hm : isMsgType r.hd.type = false) : isSeqType r.hd.type = true := by
  unfold LogRecord.known at h
  rwa [hm, Bool.or_false] at h

/-- The records under a key. -/
theorem Loaded.mem_key (h : Loaded ls past) (hpast : past.reverse = rs.map LogRecord.entry) {kv : LogDataKv} (hkv : kv ∈ ls.kvh)
    (i : Nat) : i ∈ kv.vh ↔ ∃ r, rs[i]? = some r ∧ isSeqType r.hd.type = true ∧ r.hd.seq.toNat = kv.key := by
  rw [h.mem_vh (t := .seq) hkv, hpast]
  simp only [List.getElem?_map, Option.map_eq_some_iff, under_seq]
  constructor
  · intro ⟨e, ⟨r, hr, he⟩, hu⟩
    subst he
    exact ⟨r, hr, hu⟩
  · intro ⟨r, hr, hu⟩
    exact ⟨r.entry, ⟨r, hr, rfl⟩, hu⟩

theorem Loaded.keysFragments (h : Loaded ls past) (hpast : past.reverse = rs.map LogRecord.entry)
    (hknown : ∀ r ∈ rs, r.known = true) (hid : ∀ r ∈ rs, Identified fecN r) : KeysFragments ls rs := by
  have hrep : Represents ls (rs.map LogRecord.entry) := hpast ▸ h.represents
  have hsame : ∀ i j r r', rs[i]? = some r → rs[j]? = some r' → isMsgType r.hd.type = false → isMsgType r'.hd.type = false →
      ((∃ kv ∈ ls.kvh, i ∈ kv.vh ∧ j ∈ kv.vh) ↔ SameFragment r r') := by
    intro i j r r' hi hj hm hm'
    have hr := List.mem_of_getElem? hi
    have hr' := List.mem_of_getElem? hj
    rw [← (hid r hr).seq_eq_iff (hid r' hr') hm hm']
    constructor
    · intro ⟨kv, hkv, hvi, hvj⟩
      obtain ⟨r1, hi1, -, hs1⟩ := (h.mem_key hpast hkv i).mp hvi
      obtain ⟨r2, hj2, -, hs2⟩ := (h.mem_key hpast hkv j).mp hvj
      cases hi.symm.trans hi1
      cases hj.symm.trans hj2
      exact hs1.trans hs2.symm
    · intro hseq
      have hs := known_seq (hknown r hr) hm
      have hentry : (rs.map LogRecord.entry)[i]? = some r.entry := by rw [List.getElem?_map, hi, Option.map_some]
      obtain ⟨⟨⟨kv, hkv, hkey, hvi⟩, -⟩, -⟩ := hrep.frames i r.entry hentry hs
      refine ⟨kv, hkv, hvi, (h.mem_key hpast hkv j).mpr ⟨r', hj, known_seq (hknown r' hr') hm', ?_⟩⟩
      rw [← hseq, hkey]
      rfl
  refine ⟨hrep, hsame, ?_, ?_⟩
  · refine List.Pairwise.imp_of_mem ?_ (hrep.increasing .seq)
    intro kv kv' hkv hkv' hlt i hi j hj
    obtain ⟨r, hri, hs, hseq⟩ := (h.mem_key hpast hkv i).mp hi
    obtain ⟨r', hrj, hs', hseq'⟩ := (h.mem_key hpast hkv' j).mp hj
    refine ⟨r, r', hri, hrj, ?_⟩
    rw [← (hid r (List.mem_of_getElem? hri)).seq_lt_iff (hid r' (List.mem_of_getElem? hrj))
      (isSeq_not_msg hs) (isSeq_not_msg hs'),
      hseq, hseq']
    exact hlt
  · intro i r hi ht
    have hm : isMsgType r.hd.type = false := by
      rw [ht]
      rfl
    obtain ⟨kv, hkv, hvi, -⟩ := (hsame i i r r hi hi hm hm).mpr ⟨rfl, rfl⟩
    refine ⟨kv, hkv, hvi, fun j => ?_⟩
    constructor
    · intro ⟨hvj, hinet⟩
      obtain ⟨r', hj, hs', -⟩ := (h.mem_key hpast hkv j).mp hvj
      have hentry : (rs.map LogRecord.entry)[j]? = some r'.entry := by rw [List.getElem?_map, hj, Option.map_some]
      have htype : (ls.v j).type = r'.hd.type := hrep.values j r'.entry hentry
      unfold LogDataV.isInet6 at hinet
      rw [decide_eq_true_iff, htype] at hinet
      exact ⟨r', hj, hinet, (hsame i j r r' hi hj hm (isSeq_not_msg hs')).mp ⟨kv, hkv, hvi, hvj⟩⟩
    · intro ⟨r', hj, ht', hfrag⟩
      have hm' : isMsgType r'.hd.type = false := by
        rw [ht']
        rfl
      obtain ⟨kv', hkv', hvi', hvj⟩ := (hsame i j r r' hi hj hm hm').mpr hfrag
      -- the record of index `i` has one key
      have hkeys : kv'.key = kv.key := by
        obtain ⟨r1, hi1, -, hs1⟩ := (h.mem_key hpast hkv i).mp hvi
        obtain ⟨r2, hi2, -, hs2⟩ := (h.mem_key hpast hkv' i).mp hvi'
        cases hi1.symm.trans hi2
        exact hs2.symm.trans hs1
      have hone : kv' = kv := by rw [h.kv (t := .seq) hkv', h.kv (t := .seq) hkv, hkeys]
      have hentry : (rs.map LogRecord.entry)[j]? = some r'.entry := by rw [List.getElem?_map, hj, Option.map_some]
      have htype : (ls.v j).type = r'.hd.type := hrep.values j r'.entry hentry
      refine ⟨hone ▸ hvj, ?_⟩
      unfold LogDataV.isInet6
      rw [decide_eq_true_iff, htype, ht']

/-- In every file of a session the sequence numbers are those of the fragments, without
    overflow. If the file gets its header first and the loader can read what each call
    writes, the store has all records, those of a fragment, and no others, under one key, in
    the order of the fragments. -/
theorem keys_identify_fragments (hk : 1 ≤ ctx.fecK) (hkn : ctx.fecK ≤ ctx.fecN) (hlive : st.dead = false) {is : List LogInput}
    {tr : List Empty} (h : Machine.Run (logStep env) (fun _ => SessionInput ctx.fecN) (rxLogCreate env ctx o st) is st' tr)
    (hf : st'.log.fp = some f) : (∀ r ∈ f.written, Identified ctx.fecN r) ∧
      (HeaderFirst env st o → Machine.Run (logStep env) (ReadableInput ctx.fecN env) (rxLogCreate env ctx o st) is st' tr →
        ∃ ls, loadLog f.bytes = .ok (some ls) ∧ KeysFragments ls f.written) := by
  have hn : 0 < ctx.fecN := by
    rw [UInt8.lt_iff_toNat_lt]
    rw [UInt8.le_iff_toNat_le] at hk hkn
    exact Nat.lt_of_lt_of_le hk hkn
  have hid := session_identified hn hlive h hf
  refine ⟨hid, fun hfirst hread => ?_⟩
  obtain ⟨hkept, hall⟩ := session_readable hlive hfirst hread hf
  obtain ⟨ls, hload, hl⟩ := hkept.loads hall
  refine ⟨ls, hload, hl.keysFragments (List.reverse_reverse _) ?_ hid⟩
  exact fun r hr => (Bool.or_eq_true _ _).mpr (hall r hr).known

/-- Sessions with `k = 1` and `n = 2`. -/
def pairContext : LogContext := { relayedContext with fecN := 2 }

/-- Calls of the log, after `rx_log_create`, with a steady clock and no debug output. -/
def steadyLog (ctx : LogContext) (ops : List LogOp) : LogState :=
  ops.foldl (logOp (steadyEnv false)) (rxLogCreate (steadyEnv false) ctx ⟨0, none, none, none⟩ .initial)

/-- A frame of a later block, then both copies and the payload of one fragment. -/
def pairOps : List LogOp :=
  [.frame pairContext 3 1 8, .frame pairContext 1 0 8, .decode pairContext 1 0 ⟨[7], by decide⟩, .frame pairContext 1 0 8]

theorem pairOps_readable (op : LogOp) (hop : op ∈ pairOps) (st : LogState) : ReadableInput 2 (steadyEnv false) st (.op op) := by
  simp only [pairOps, List.mem_cons, List.not_mem_nil, or_false] at hop
  rcases hop with rfl | rfl | rfl | rfl
  · exact ⟨⟨rfl, by decide, by decide⟩, fun _ _ => ⟨fun _ _ => rfl, steady_errorFits _ _ _, quiet_debugFits _ _ _ _⟩⟩
  · exact ⟨⟨rfl, by decide, by decide⟩, fun _ _ => ⟨fun _ _ => rfl, steady_errorFits _ _ _, quiet_debugFits _ _ _ _⟩⟩
  · exact ⟨⟨rfl, by decide, by decide⟩, fun _ _ => ⟨steady_errorFits _ _ _, quiet_debugFits _ _ _ _⟩⟩
  · exact ⟨⟨rfl, by decide, by decide⟩, fun _ _ => ⟨fun _ _ => rfl, steady_errorFits _ _ _, quiet_debugFits _ _ _ _⟩⟩

theorem pairOps_run : Machine.Run (logStep (steadyEnv false)) (ReadableInput 2 (steadyEnv false)) (steadyLog pairContext [])
    (pairOps.map .op) (steadyLog pairContext pairOps) [] := by
  have h0 := (@Machine.Run.nil _ _ _ _ (logStep (steadyEnv false)) (ReadableInput 2 (steadyEnv false)) (steadyLog pairContext []))
  have h1 := h0.snoc (pairOps_readable (.frame pairContext 3 1 8) (by simp [pairOps]) _) rfl
  have h2 := h1.snoc (pairOps_readable (.frame pairContext 1 0 8) (by simp [pairOps]) _) rfl
  have h3 := h2.snoc (pairOps_readable (.decode pairContext 1 0 ⟨[7], by decide⟩) (by simp [pairOps]) _) rfl
  exact h3.snoc (pairOps_readable (.frame pairContext 1 0 8) (by simp [pairOps]) _) rfl

/-- What a file is, and how its store lists it. -/
theorem steadyLog_listed {ctx : LogContext} {ops : List LogOp} {keys : List (Nat × List Nat)}
    (h : ((steadyLog ctx ops).log.fp.any fun f => ((loadLog f.bytes).toOption.bind id).any fun ls =>
      decide (ls.kvh.map (fun kv => (kv.key, kv.vh)) = keys)) = true) :
    ∃ f ls, (steadyLog ctx ops).log.fp = some f ∧ loadLog f.bytes = .ok (some ls) ∧
    ls.kvh.map (fun kv => (kv.key, kv.vh)) = keys := by
  obtain ⟨f, hf, hloads⟩ := (Option.any_eq_true _ _).mp h
  obtain ⟨ls, hls, hkeys⟩ := (Option.any_eq_true _ _).mp hloads
  exact ⟨f, ls, hf, load_of_toOption hls, of_decide_eq_true hkeys⟩

theorem keys_identify_fragments_run : ∃ f ls, (steadyLog pairContext pairOps).log.fp = some f ∧
    ls.kvh.map (fun kv => (kv.key, kv.vh)) = [(2, [1, 2, 3]), (7, [0])] ∧
      (∀ r ∈ f.written, Identified 2 r) ∧ loadLog f.bytes = .ok (some ls) ∧ KeysFragments ls f.written := by
  obtain ⟨f, ls, hf, hload, hkeys⟩ := @steadyLog_listed pairContext pairOps [(2, [1, 2, 3]), (7, [0])] (by decide +kernel)
  have hfirst : HeaderFirst (steadyEnv false) .initial ⟨0, none, none, none⟩ := ⟨fun h => (nomatch h), rfl, rfl⟩
  obtain ⟨hid, hstore⟩ := @keys_identify_fragments (steadyEnv false) .initial _ pairContext ⟨0, none, none, none⟩ f (by decide)
    (by decide) rfl _ _ (pairOps_run.mono fun _ _ hi => hi.1) hf
  obtain ⟨ls', hload', hfrag⟩ := hstore hfirst pairOps_run
  cases hload.symm.trans hload'
  exact ⟨f, ls, hf, hkeys, hid, hload, hfrag⟩

/-- A frame from the node's own capture, and its payload. -/
def capturedOps : List LogOp := [.frame captureContext 0 0 8, .decode captureContext 0 0 ⟨[9, 4], by decide⟩]

/-- The loader stops at the frame, and the payload is under no key. -/
theorem captured_frame_hides_fragments : ¬ ∀ (env : LogEnv) (ctx : LogContext) (o : CreateOutcome) (st : LogState)
    (is : List LogInput) (st' : LogState) (tr : List Empty) (f : LogFile), 1 ≤ ctx.fecK → ctx.fecK ≤ ctx.fecN → st.dead = false →
      HeaderFirst env st o → Machine.Run (logStep env) (fun _ => SessionInput ctx.fecN) (rxLogCreate env ctx o st) is st' tr →
        st'.log.fp = some f → ∃ ls, loadLog f.bytes = .ok (some ls) ∧ KeysFragments ls f.written := by
  intro hclaim
  obtain ⟨f, ls, hf, hload, hkeys⟩ := @steadyLog_listed captureContext capturedOps [] (by decide +kernel)
  have hops : ∀ op ∈ capturedOps, SessionInput captureContext.fecN (.op op) := by
    intro op hop
    simp only [capturedOps, List.mem_cons, List.not_mem_nil, or_false] at hop
    rcases hop with rfl | rfl <;> exact ⟨rfl, by decide, by decide⟩
  have h0 := (@Machine.Run.nil _ _ _ _ (logStep (steadyEnv false)) (fun _ => SessionInput captureContext.fecN)
    (steadyLog captureContext []))
  have h1 := h0.snoc (hops (.frame captureContext 0 0 8) (by simp [capturedOps])) rfl
  have h2 := h1.snoc (hops (.decode captureContext 0 0 ⟨[9, 4], by decide⟩) (by simp [capturedOps])) rfl
  obtain ⟨ls', hload', hfrag⟩ := hclaim (steadyEnv false) captureContext ⟨0, none, none, none⟩ .initial _ _ _ f (by decide)
    (by decide) rfl
    ⟨fun h => (nomatch h), rfl, rfl⟩ h2 hf
  cases hload.symm.trans hload'
  have htypes : (steadyLog captureContext capturedOps).log.fp.map (fun f => f.written.map fun r => r.hd.type) =
      some [frameTypeUnspec, frameTypeDecode] := by decide +kernel
  rw [hf, Option.map_some, Option.some.injEq] at htypes
  obtain ⟨r, hr, ht⟩ : ∃ r, f.written[1]? = some r ∧ r.hd.type = frameTypeDecode := by
    have hsecond := congrArg (·[1]?) htypes
    rw [List.getElem?_map] at hsecond
    exact Option.map_eq_some_iff.mp hsecond
  obtain ⟨kv, hkv, -⟩ := hfrag.listed 1 r hr ht
  rw [List.map_eq_nil_iff.mp hkeys] at hkv
  cases hkv

end WfbYa.Log
