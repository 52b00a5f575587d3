/-
  WfbYa.Log.LiveReplay — what was shown live is what is replayed.

  A listener shows the frames that other nodes relay, and logs them. Between the two ends lie
  the log's calls, the file, the loader with its keys, and the player. Frames of its own
  capture, long messages and debug output would be in the loader's way.

  - `Streamed`: a file with some payloads, in order, that the loader reads to its end.
  - `Streamed.replayed`: it is played in the order in which it was written.
  - `logEvs_logs`: what a step adds to it.
  - `live_is_replayed`: of a session in which no block is skipped, the player gets what the
    decode handlers got, in the same order.
-/

import WfbYa.Log.Replay
import WfbYa.Log.SeqKeys
import WfbYa.Log.SessionLogs
import WfbYa.Rx.Datagrams
import WfbYa.Rx.Mirroring
import WfbYa.Rx.Viewing

namespace WfbYa.Log

open WfbYa.Frame WfbYa.Ring WfbYa.Lib WfbYa.Rx

variable {fecN : UInt8} {r : LogRecord} {rs : List LogRecord} {f : LogFile} {ls : LogStore} {past : List Entry}
  {ws ws' : List (Nat × Nat × Bytes)}

/-! ## The file -/

/-- The loader does not stop at the record. -/
structure Loadable (fecN : UInt8) (r : LogRecord) : Prop where
  whole : r.Whole
  known : r.known = true
  short : r.payload.length < wifiMtu
  identified : Identified fecN r

/-- The record of a payload to be played. -/
def LogRecord.isPlayable (r : LogRecord) : Bool := r.hd.type = frameTypeDecode && r.payload ≠ []

def Entry.isPlayable (e : Entry) : Bool := e.isDecode && e.payload.getD [] ≠ []

/-- The payloads to be played: block, index and payload. -/
def played (rs : List LogRecord) : List (Nat × Nat × Bytes) :=
  (rs.filter LogRecord.isPlayable).map fun r => (r.hd.blockIdx.toNat, r.hd.fragmentIdx.toNat, r.payload)

theorem played_append (rs rs' : List LogRecord) : played (rs ++ rs') = played rs ++ played rs' := by
  unfold played
  simp

/-- A header, and records to the end of the file. -/
structure Streamed (fecN : UInt8) (ws : List (Nat × Nat × Bytes)) (f : LogFile) : Prop where
  bytes : ∃ ctx : LogContext, f.bytes = (fileHeader ctx).raw ++ f.written.flatMap LogRecord.raw
  records : ∀ r ∈ f.written, Loadable fecN r
  played : played f.written = ws

theorem Streamed.append (h : Streamed fecN ws f) (hrs : ∀ r ∈ rs, Loadable fecN r) (hp : Log.played rs = ws') :
    Streamed fecN (ws ++ ws') (rs.foldl .put f) := by
  obtain ⟨⟨ctx, hbytes⟩, hrec, hplayed⟩ := h
  rw [foldl_put]
  refine ⟨⟨ctx, by simp [hbytes]⟩, fun r hr => ?_, ?_⟩
  · exact (List.mem_append.mp hr).elim (hrec r) (hrs r)
  · simp [played_append, hplayed, hp]

theorem known_iff : r.known = true ↔ isSeqType r.hd.type = true ∨ isMsgType r.hd.type = true := by
  simp [LogRecord.known]

theorem Loadable.oversize (h : Loadable fecN r) : r.entry.oversize = false := by
  by_cases hc : carriesPayload r.hd.type = true
  · have hsize := h.whole.size hc
    have hshort := h.short
    simp [Entry.oversize, LogRecord.entry, hsize, hshort]
  · simp [Entry.oversize, LogRecord.entry, hc]

/-- Such a file is loaded, with all of its records. -/
theorem Streamed.loads (h : Streamed fecN ws f) :
    ∃ ls, loadLog f.bytes = .ok (some ls) ∧ Loaded ls (f.written.map LogRecord.entry).reverse := by
  obtain ⟨⟨ctx, hbytes⟩, hrec, -⟩ := h
  have hfile : fileEntries f.bytes = f.written.map LogRecord.entry := by
    unfold fileEntries
    rw [hbytes, List.drop_left' (fileHeader_length (fileHeader ctx)), entries_known (fun r hr => (hrec r hr).whole)]
    · rw [List.takeWhile_eq_self_iff.mpr fun r hr => (hrec r hr).known]
    · rw [List.length_append]
      omega
  have hok : HeaderOk f.bytes := by
    unfold HeaderOk
    rw [hbytes, fileHeader_ofRaw, List.length_append, fileHeader_length]
    exact ⟨Nat.le_add_right _ _, rfl, rfl⟩
  obtain ⟨ls, ep, hload, hl⟩ := loadLog_ok hok (by
    rw [hfile]
    intro e he
    obtain ⟨r, hr, rfl⟩ := List.mem_map.mp he
    exact (hrec r hr).oversize)
  rw [hfile] at hl
  exact ⟨ls, hload, hl.loaded⟩

/-! ## The player -/

/-- A payload is played as it was written. -/
theorem Loadable.played (h : Loadable fecN r) (fecK : UInt8) (ep : TimeStamp) :
    (entryV fecK ep r.entry).isPlayable = r.entry.isPlayable ∧
      (r.entry.isPlayable = true → (entryV fecK ep r.entry).payload = r.payload) := by
  by_cases ht : r.hd.type = frameTypeDecode
  · have hsize := h.whole.size (show carriesPayload r.hd.type = true by rw [ht]; rfl)
    by_cases hp : r.payload = []
    · simp [LogDataV.isPlayable, LogDataV.isSent, Entry.isPlayable, Entry.isDecode, entryV, LogRecord.entry, ht, hp]
    · have hne : r.hd.size ≠ 0 := by
        intro h0
        rw [h0] at hsize
        exact hp (List.length_eq_zero_iff.mp hsize.symm)
      simp [LogDataV.isPlayable, LogDataV.isSent, LogDataV.payload, Entry.isPlayable, Entry.isDecode,
        entryV, LogRecord.entry, ht, hp,
        hne, hsize]
  · simp [LogDataV.isPlayable, LogDataV.isSent, Entry.isPlayable, Entry.isDecode, entryV, LogRecord.entry, ht]

/-- The sequence numbers of two payloads are in the order of their fragments. -/
theorem Loadable.seq_lt {r' : LogRecord} (h : Loadable fecN r) (h' : Loadable fecN r') (hp : r.isPlayable = true)
    (hp' : r'.isPlayable = true)
    (hlt : frag r.hd.blockIdx.toNat r.hd.fragmentIdx.toNat < frag r'.hd.blockIdx.toNat r'.hd.fragmentIdx.toNat) :
    r.hd.seq.toNat < r'.hd.seq.toNat := by
  have hmsg : ∀ {r : LogRecord}, r.isPlayable = true → isMsgType r.hd.type = false := by
    intro r hp
    simp only [LogRecord.isPlayable, Bool.and_eq_true, decide_eq_true_eq] at hp
    rw [hp.1]
    rfl
  obtain ⟨-, hf, hs⟩ := h.identified (hmsg hp)
  obtain ⟨-, hf', hs'⟩ := h'.identified (hmsg hp')
  rw [hs, hs']
  exact (number_lt_iff (UInt8.lt_iff_toNat_lt.mp hf) (UInt8.lt_iff_toNat_lt.mp hf')).mpr (frag_lt.mp hlt)

/-- Payloads written in the order of their fragments are under keys in that order. -/
theorem Loaded.playing_order (h : Loaded ls (rs.map LogRecord.entry).reverse) (hrs : ∀ r ∈ rs, Loadable fecN r)
    (hsorted : ((Log.played rs).map fun w => frag w.1 w.2.1).Pairwise (· < ·)) :
    (idxs Entry.isPlayable (rs.map LogRecord.entry).reverse).Pairwise (ls.precedes .seq) := by
  have hb := h.bones
  have hpairs : rs.Pairwise fun r r' => r.isPlayable = true → r'.isPlayable = true →
      frag r.hd.blockIdx.toNat r.hd.fragmentIdx.toNat < frag r'.hd.blockIdx.toNat r'.hd.fragmentIdx.toNat := by
    unfold Log.played at hsorted
    rw [List.map_map, List.pairwise_map, List.pairwise_filter] at hsorted
    exact hsorted
  apply (idxs_sorted _ _).imp_of_mem
  intro i j hi hj hlt
  obtain ⟨e, he, hpe⟩ := mem_idxs.mp hi
  obtain ⟨e', he', hpe'⟩ := mem_idxs.mp hj
  have hseq : ∀ {e : Entry}, e.isPlayable = true → under .seq e.seq e = true := by
    intro e hp
    simp only [Entry.isPlayable, Entry.isDecode, Bool.and_eq_true, decide_eq_true_eq] at hp
    simp [under, Entry.isSeq, hp.1, show isSeqType frameTypeDecode = true from rfl]
  refine ⟨_, _, hb.ref he (hseq hpe), hb.ref he' (hseq hpe'), .inl ?_⟩
  rw [List.reverse_reverse, List.getElem?_map] at he he'
  obtain ⟨r, hr, rfl⟩ := Option.map_eq_some_iff.mp he
  obtain ⟨r', hr', rfl⟩ := Option.map_eq_some_iff.mp he'
  obtain ⟨hilt, rfl⟩ := List.getElem?_eq_some_iff.mp hr
  obtain ⟨hjlt, rfl⟩ := List.getElem?_eq_some_iff.mp hr'
  have hfrag := List.pairwise_iff_getElem.mp hpairs i j hilt hjlt hlt hpe hpe'
  exact (hrs _ (List.getElem_mem hilt)).seq_lt (hrs _ (List.getElem_mem hjlt)) hpe hpe' hfrag

/-- Two lists of the same values, each in the order of the keys, are the same. -/
theorem precedes_unique {is js : List Nat} (h : is.Pairwise (ls.precedes .seq)) (h' : js.Pairwise (ls.precedes .seq))
    (hmem : ∀ i, i ∈ is ↔ i ∈ js) : is = js := by
  have hasymm : ∀ i j, ls.precedes .seq i j → ls.precedes .seq j i → False := by
    intro i j ⟨k, k', hk, hk', h⟩ ⟨m, m', hm, hm', h'⟩
    cases hk.symm.trans hm'
    cases hk'.symm.trans hm
    omega
  have hnodup : ∀ {l : List Nat}, l.Pairwise (ls.precedes .seq) → l.Nodup := by
    intro l hl
    apply hl.imp
    intro i j hij heq
    subst heq
    exact hasymm _ _ hij hij
  have hperm : is.Perm js := (List.perm_ext_iff_of_nodup (hnodup h) (hnodup h')).mpr hmem
  exact hperm.eq_of_pairwise (fun i j _ _ hij hji => (hasymm i j hij hji).elim) h h'

variable {env : GstEnv} {player : GstContext}

/-- A player that is up plays the store. -/
theorem PlayerUp.plays (hb : Bones ls past) (hclock : ClockGoesOn env ls) (hup : PlayerUp env (initPlayer env player) ls) :
    ∃ turns evs, playH265 env turns player ls = .ok evs ∧ Replays .player ls evs := by
  have hlt : ∀ i ∈ ls.listed .seq, i < ls.vs.length := fun i hi => ((hb.mem_listed (by decide)).mp hi).1
  obtain ⟨st, T, hfold⟩ := send_settles hclock hlt
    ⟨if !((initPlayer env player).file.isSome && !(initPlayer env player).enc) then 1 else 0, 0, []⟩
  have hrun := hfold T (Nat.le_refl T)
  obtain ⟨st', heos, hr⟩ := hup.replays (send_all hrun) hb
  refine ⟨T, st'.evs, ?_, hr⟩
  exact Machine.bind_ok_iff.mpr ⟨st, hrun, Machine.bind_ok_iff.mpr ⟨st', heos, rfl⟩⟩

/-- What the contexts get to play. -/
def pushes (evs : List GstEv) : List (CtxId × Bytes) := (evs.filterMap GstEv.pushed).map fun p => (p.1, p.2.2)

/-- The file is loaded, and whatever the player's clock and pipelines do, while it is up it
    gets the file's payloads, in their order. -/
theorem Streamed.replayed (h : Streamed fecN ws f) (hsorted : (ws.map fun w => frag w.1 w.2.1).Pairwise (· < ·)) :
    ∃ ls, loadLog f.bytes = .ok (some ls) ∧ ∀ (env : GstEnv) (player : GstContext), ClockGoesOn env ls →
      PlayerUp env (initPlayer env player) ls → ∃ turns evs, playH265 env turns player ls = .ok evs ∧
        pushes evs = ws.map fun w => (.player, w.2.2) := by
  obtain ⟨ls, hload, hl⟩ := h.loads
  refine ⟨ls, hload, fun env player hclock hup => ?_⟩
  obtain ⟨turns, evs, hrun, hr⟩ := hup.plays hl.bones hclock
  refine ⟨turns, evs, hrun, ?_⟩
  obtain ⟨is, his, hmem, hpushed⟩ := hr.pushed
  have hvalue : ∀ i e, (f.written.map LogRecord.entry).reverse.reverse[i]? = some e →
      (ls.v i).isPlayable = e.isPlayable ∧ (e.isPlayable = true → (ls.v i).payload = e.payload.getD []) := by
    intro i e hi
    obtain ⟨ep, hv⟩ := hl.v hi
    rw [List.reverse_reverse, List.getElem?_map] at hi
    obtain ⟨r, hr, rfl⟩ := Option.map_eq_some_iff.mp hi
    rw [hv]
    exact (h.records r (List.mem_of_getElem? hr)).played _ ep
  have heq : is = idxs Entry.isPlayable (f.written.map LogRecord.entry).reverse := by
    apply precedes_unique his (hl.playing_order h.records (h.played.symm ▸ hsorted))
    intro i
    rw [hmem, mem_idxs, hl.bones.length]
    constructor
    · intro ⟨hlt, hp⟩
      rw [← List.length_reverse] at hlt
      obtain ⟨e, he⟩ : ∃ e, (f.written.map LogRecord.entry).reverse.reverse[i]? = some e := ⟨_, List.getElem?_eq_getElem hlt⟩
      exact ⟨e, he, (hvalue i e he).1 ▸ hp⟩
    · intro ⟨e, he, hp⟩
      refine ⟨?_, (hvalue i e he).1.trans hp⟩
      rw [← List.length_reverse]
      exact (List.getElem?_eq_some_iff.mp he).1
  have hcopy : ∀ i e, (f.written.map LogRecord.entry).reverse.reverse[i]? = some e →
      (if (ls.v i).isPlayable then (ls.v i).payload else []) = if e.isPlayable then e.payload.getD [] else [] := by
    intro i e hi
    obtain ⟨h1, h2⟩ := hvalue i e hi
    by_cases hp : e.isPlayable = true
    · simp [h1, hp, h2 hp]
    · simp [h1, hp]
  have hplay : (is.map fun i => (ls.v i).payload) = ws.map fun w => w.2.2 := by
    rw [← h.played]
    unfold Log.played
    rw [List.map_map]
    calc (is.map fun i => (ls.v i).payload)
        = is.map fun i => if (ls.v i).isPlayable then (ls.v i).payload else [] :=
          List.map_congr_left fun i hi => (if_pos ((hmem i).mp hi).2).symm
      _ = ((f.written.filter LogRecord.isPlayable).map LogRecord.entry).map fun e =>
        if e.isPlayable then e.payload.getD [] else [] := by
          rw [heq, idxs_map hcopy, List.reverse_reverse, List.filter_map]
          rfl
      _ = (f.written.filter LogRecord.isPlayable).map fun r => r.payload := by
          rw [List.map_map]
          exact List.map_congr_left fun r hr => if_pos (List.mem_filter.mp hr).2
  have hpairs := congrArg (List.map fun data => (CtxId.player, data)) hplay
  rw [List.map_map, List.map_map] at hpairs
  unfold pushes
  rw [hpushed, List.map_map]
  exact hpairs

/-! ## The calls of the log -/

variable {lenv : LogEnv} {st st' st'' : LogState} {node : RxNode} {o : CreateOutcome} {evs : List NodeEv}
    {said : List (List Message)}

/-- `clock_gettime` always tells a time. -/
def ClockTells (env : LogEnv) : Prop := ∀ n, ∃ ts, env.clock n = .ok ts

/-- What is not played, and not in the loader's way. -/
def Aside (fecN : UInt8) (r : LogRecord) : Prop := Loadable fecN r ∧ r.isPlayable = false

/-- Records with these payloads are put at the end of the open file. -/
def Logs (fecN : UInt8) (ws : List (Nat × Nat × Bytes)) (st st' : LogState) : Prop :=
  ∀ f, st.log.fp = some f → ∃ rs, (∀ r ∈ rs, Loadable fecN r) ∧ played rs = ws ∧ st'.log.fp = some (rs.foldl .put f)

theorem Logs.refl (st : LogState) : Logs fecN [] st st := fun _ hf => ⟨[], fun _ hr => (nomatch hr), rfl, hf⟩

theorem Logs.trans (h : Logs fecN ws st st') (h' : Logs fecN ws' st' st'') : Logs fecN (ws ++ ws') st st'' := by
  intro f hf
  obtain ⟨rs, hrs, hp, hf'⟩ := h f hf
  obtain ⟨rs', hrs', hp', hf''⟩ := h' _ hf'
  refine ⟨rs ++ rs', fun r hr => ?_, by rw [played_append, hp, hp'], by rw [hf'', List.foldl_append]⟩
  exact (List.mem_append.mp hr).elim (hrs r) (hrs' r)

/-- Nothing to be played is written. -/
theorem Logs.of_grows (h : Grows (Aside fecN) st st') : Logs fecN [] st st' := by
  obtain ⟨-, rs, hrs, hfp⟩ := h
  intro f hf
  refine ⟨rs, fun r hr => (hrs r hr).1, ?_, by rw [hfp, hf]; rfl⟩
  unfold played
  rw [List.filter_eq_nil_iff.mpr fun r hr => by simp [(hrs r hr).2]]
  rfl

theorem Logs.put (hlive : st.dead = false) (h : Loadable fecN r) : Logs fecN (played [r]) st (st.put r) := by
  intro f hf
  refine ⟨[r], fun r' hr' => List.mem_singleton.mp hr' ▸ h, rfl, ?_⟩
  simp [put_live hlive, hf]

theorem says_aside (n : Nat) {text : Option Bytes} (h : ∀ t ∈ text, Fits t) : Says (Aside fecN) lenv n text := by
  intro ts seq type t _ ht hlen hm
  have hns : isSeqType type = false := msg_not_isSeq hm
  have hshort := (h t ht).resolve_right (Nat.not_le.mpr hlen)
  refine ⟨⟨msgRecord_whole ts seq hm hlen, known_iff.mpr (.inr hm), hshort, fun hno => ?_⟩, ?_⟩
  · rw [show (msgRecord ts seq type t).hd.type = type from rfl, hm] at hno
    cases hno
  · have hne : type ≠ frameTypeDecode := by
      intro heq
      rw [heq] at hns
      cases hns
    simp [LogRecord.isPlayable, msgRecord, hne]

theorem hooks_logs {msgs : List Message} (h : ∀ m ∈ msgs, ∀ t ∈ m.2, Fits t) : Logs fecN [] st (hooks lenv msgs st) := by
  induction msgs generalizing st with
  | nil => exact .refl st
  | cons m msgs ih =>
    have hfirst : Logs fecN [] st (rxLogHook lenv m.1 m.2 st).2 :=
      .of_grows (rxLogHook_grows (says_aside _ (h m List.mem_cons_self)))
    exact hfirst.trans (ih fun m' hm' => h m' (List.mem_cons_of_mem _ hm'))

/-- The log can store what it is told, as of a node that gets its frames from others. -/
def Storable (node : RxNode) : NodeEv → Prop
  | .rx (.logFrame b f _) => node.rxSrc.isSome ∧ b ≤ maxBlockIdx ∧ f < node.rx.fecN
  | .rx (.logDecode b f data) => b ≤ maxBlockIdx ∧ f < node.rx.fecN ∧ data.length ≤ maxPayloadSize
  | .rx (.logCreate _ _ _) => False
  | _ => True

/-- The payloads that a log keeps. -/
def nonEmpty (ws : List (Nat × Nat × Bytes)) : List (Nat × Nat × Bytes) := ws.filter fun w => w.2.2 ≠ []

theorem nonEmpty_append (ws ws' : List (Nat × Nat × Bytes)) : nonEmpty (ws ++ ws') = nonEmpty ws ++ nonEmpty ws' :=
  List.filter_append ..

theorem identified_numbers {b i n : Nat} (hb : b ≤ maxBlockIdx) (hi : i < n) (hn : n ≤ 255)
    (hblk : r.hd.blockIdx = UInt64.ofNat b)
    (hidx : r.hd.fragmentIdx = UInt8.ofNat i)
    (hseq : r.hd.seq = UInt64.ofNat b * (UInt8.ofNat n).toUInt64 + (UInt8.ofNat i).toUInt64) :
    Identified (UInt8.ofNat n) r ∧ r.hd.blockIdx.toNat = b ∧ r.hd.fragmentIdx.toNat = i := by
  have hb' : (UInt64.ofNat b).toNat = b := by
    rw [UInt64.toNat_ofNat', Nat.mod_eq_of_lt]
    have : maxBlockIdx < 2 ^ 64 := by decide
    omega
  have hi' : (UInt8.ofNat i).toNat = i := by
    rw [UInt8.toNat_ofNat', Nat.mod_eq_of_lt]
    omega
  have hn' : (UInt8.ofNat n).toNat = n := by
    rw [UInt8.toNat_ofNat', Nat.mod_eq_of_lt]
    omega
  refine ⟨identified_of_seq ?_ ?_ ?_, by rw [hblk, hb'], by rw [hidx, hi']⟩
  · rw [hblk, hb']
    exact hb
  · rw [hidx, UInt8.lt_iff_toNat_lt, hi', hn']
    exact hi
  · rw [hseq, hblk, hidx]

theorem rxLogDecode_logs (hclock : ClockTells lenv) (hdebug : lenv.debug = false) (hlive : st.dead = false)
    (hn : 1 ≤ node.rx.fecN ∧ node.rx.fecN ≤ 255) {b i : Nat} {data : Bytes}
    (hb : b ≤ maxBlockIdx) (hi : i < node.rx.fecN) (hlen : data.length ≤ maxPayloadSize) :
    Logs (UInt8.ofNat node.rx.fecN) (nonEmpty [(b, i, data)]) st
      (rxLogDecode lenv (logContext node) (UInt64.ofNat b) (UInt8.ofNat i) (some data) st) := by
  cases hopen : st.log.fp with
  | none =>
    intro f hf
    rw [hopen] at hf
    cases hf
  | some f =>
    by_cases hd : data = []
    · subst hd
      have hsame : rxLogDecode lenv (logContext node) (UInt64.ofNat b) (UInt8.ofNat i) (some []) st = st := by
        simp [rxLogDecode, hopen]
      rw [hsame]
      exact .refl st
    · obtain ⟨ts, hts⟩ := hclock st.ticks
      generalize hr : decodeRecord (logContext node) ts (UInt64.ofNat b) (UInt8.ofNat i) data = r
      obtain ⟨hid, hblk, hidx⟩ := @identified_numbers r b i node.rx.fecN hb hi hn.2 (by rw [← hr]; rfl) (by rw [← hr]; rfl)
        (by rw [← hr]; rfl)
      have hpay : r.payload = data := by rw [← hr]; rfl
      have hload : Loadable (UInt8.ofNat node.rx.fecN) r := by
        refine ⟨hr ▸ decodeRecord_whole _ _ _ _ ⟨data, hlen⟩, by rw [← hr]; rfl, ?_, hid⟩
        rw [hpay]
        exact Nat.lt_of_le_of_lt hlen (by decide)
      have hplayed : played [r] = [(b, i, data)] := by
        have hp : r.isPlayable = true := by
          rw [← hr]
          simp [LogRecord.isPlayable, decodeRecord, hd]
        simp [played, hp, hblk, hidx, hpay]
      have hput : rxLogDecode lenv (logContext node) (UInt64.ofNat b) (UInt8.ofNat i) (some data) st =
          { st with ticks := st.ticks + 1 }.put r := by
        simp [rxLogDecode, hopen, hd, clockGettime, hts, hr, pDebug_off hdebug]
      have hkept : nonEmpty [(b, i, data)] = played [r] := by
        rw [hplayed]
        simp [nonEmpty, hd]
      rw [hput, hkept]
      exact @Logs.put _ _ { st with ticks := st.ticks + 1 } hlive hload

theorem logEv_logs (hclock : ClockTells lenv) (hdebug : lenv.debug = false) (hlive : st.dead = false)
    (hn : 1 ≤ node.rx.fecN ∧ node.rx.fecN ≤ 255) {e : NodeEv} (he : Storable node e) :
    Logs (UInt8.ofNat node.rx.fecN) (nonEmpty (viewed (rxEvs [e]))) st (logEv lenv node o st e) := by
  have htell : ∀ func hd size, CallTells (Aside (UInt8.ofNat node.rx.fecN)) lenv st.ticks func hd size := by
    intro func hd size
    refine ⟨fun err herr => ?_, fun _ _ hno => nomatch hdebug.symm.trans hno⟩
    obtain ⟨ts, hts⟩ := hclock st.ticks
    cases hts.symm.trans herr
  cases e with
  | logCorrupt =>
    refine .of_grows (rxLogCorrupt_grows
      (fun ts _ => ⟨⟨corruptRecord_whole .., rfl, show 0 < wifiMtu by decide, fun _ => ?_⟩, rfl⟩)
      (htell _ (fun ts => (corruptRecord (logContext node) ts).hd) 0).failed)
    refine ⟨Nat.zero_le _, ?_, by simp [corruptRecord]⟩
    rw [UInt8.lt_iff_toNat_lt, UInt8.toNat_ofNat', Nat.mod_eq_of_lt (by omega)]
    exact hn.1
  | rx e =>
    cases e with
    | logFrame b i size =>
      obtain ⟨hsrc, hb, hi⟩ := he
      refine .of_grows (rxLogFrame_grows (fun ts _ _ => ?_) fun _ => htell _ _ _)
      have htype : (frameRecord (logContext node) ts (UInt64.ofNat b) (UInt8.ofNat i) (UInt64.ofNat size)).hd.type =
        frameTypeInet6 := by
        simp [frameRecord, logContext, hsrc]
      have hid := (identified_numbers hb hi hn.2 rfl rfl rfl :
        Identified _ (frameRecord (logContext node) ts (UInt64.ofNat b) (UInt8.ofNat i) (UInt64.ofNat size)) ∧ _)
      refine ⟨⟨frameRecord_whole .., ?_, show 0 < wifiMtu by decide, hid.1⟩, ?_⟩
      · rw [known_iff, htype]
        exact .inl rfl
      · simp [LogRecord.isPlayable, htype, frameTypeInet6, frameTypeDecode]
    | logDecode b i data =>
      obtain ⟨hb, hi, hlen⟩ := he
      exact rxLogDecode_logs hclock hdebug hlive hn hb hi hlen
    | logCreate _ _ _ => exact he.elim
    | _ => exact .refl st
  | _ => exact .refl st

/-- The open file has these payloads. -/
def Recording (fecN : UInt8) (ws : List (Nat × Nat × Bytes)) (st : LogState) : Prop :=
  ∃ f, st.log.fp = some f ∧ Streamed fecN ws f

theorem Recording.logs (h : Recording fecN ws st) (hl : Logs fecN ws' st st') : Recording fecN (ws ++ ws') st' := by
  obtain ⟨f, hf, hs⟩ := h
  obtain ⟨rs, hrs, hp, hf'⟩ := hl f hf
  exact ⟨_, hf', hs.append hrs hp⟩

/-- A step's messages and calls. -/
theorem logEvs_logs (hclock : ClockTells lenv) (hdebug : lenv.debug = false) (hn : 1 ≤ node.rx.fecN ∧ node.rx.fecN ≤ 255)
    (hlive : (logEvs lenv node o evs said st).dead = false) (hsaid : ∀ msgs ∈ said, ∀ m ∈ msgs, ∀ t ∈ m.2, Fits t)
    (hevs : ∀ e ∈ evs, Storable node e) :
    Logs (UInt8.ofNat node.rx.fecN) (nonEmpty (viewed (rxEvs evs))) st (logEvs lenv node o evs said st) := by
  induction evs generalizing said st with
  | nil =>
    apply hooks_logs
    intro m hm
    obtain ⟨msgs, hmsgs, hm⟩ := List.mem_flatten.mp hm
    exact hsaid msgs hmsgs m hm
  | cons e evs ih =>
    have hhead : ∀ m ∈ said.headD [], ∀ t ∈ m.2, Fits t := by
      intro m hm
      cases said with
      | nil => cases hm
      | cons msgs said => exact hsaid msgs List.mem_cons_self m hm
    have hrest := @ih (logEv lenv node o (hooks lenv (said.headD []) st) e) said.tail hlive
      (fun msgs hmsgs => hsaid msgs (List.mem_of_mem_tail hmsgs))
      fun e' he' => hevs e' (List.mem_cons_of_mem _ he')
    have hone : Logs _ _ (hooks lenv (said.headD []) st) (logEv lenv node o (hooks lenv (said.headD []) st) e) :=
      logEv_logs hclock hdebug (logEvs_live hlive).1 hn (hevs e List.mem_cons_self)
    have hall := ((hooks_logs hhead).trans hone).trans hrest
    rw [show e :: evs = [e] ++ evs from rfl, rxEvs_append, viewed_append, nonEmpty_append]
    exact hall

/-- A step that opens a file. -/
theorem logEvs_creates (hclock : ClockTells lenv) (hdebug : lenv.debug = false) (hn : 1 ≤ node.rx.fecN ∧ node.rx.fecN ≤ 255)
    (hfile : lenv.logFile ≠ none) (ho : o.Succeeds) (hlive : (logEvs lenv node o evs said st).dead = false)
    (hsaid : ∀ msgs ∈ said, ∀ m ∈ msgs, ∀ t ∈ m.2, Fits t)
    (hevs : ∀ e ∈ evs, isCreate e = false → Storable node e ∧ viewed (rxEvs [e]) = [])
    (hany : Recording (UInt8.ofNat node.rx.fecN) [] st ∨ evs.any isCreate = true) :
    Recording (UInt8.ofNat node.rx.fecN) [] (logEvs lenv node o evs said st) := by
  induction evs generalizing said st with
  | nil =>
    refine (hany.resolve_right (by simp)).logs (hooks_logs ?_)
    intro m hm
    obtain ⟨msgs, hmsgs, hm⟩ := List.mem_flatten.mp hm
    exact hsaid msgs hmsgs m hm
  | cons e evs ih =>
    have hhead : ∀ m ∈ said.headD [], ∀ t ∈ m.2, Fits t := by
      intro m hm
      cases said with
      | nil => cases hm
      | cons msgs said => exact hsaid msgs List.mem_cons_self m hm
    apply ih hlive (fun msgs hmsgs => hsaid msgs (List.mem_of_mem_tail hmsgs))
      (fun e' he' => hevs e' (List.mem_cons_of_mem _ he'))
    by_cases hc : isCreate e = true
    · left
      rw [logEv_create hc]
      have hfirst : ∀ st, HeaderFirst lenv st o := fun _ => ⟨fun hd => (nomatch hdebug.symm.trans hd), ho.2.1, ho.2.2⟩
      obtain ⟨-, hfp⟩ := rxLogCreate_spec (logContext node) o (logEvs_live hlive).1 fun _ _ => hfirst _
      rcases hfp with ⟨hno, -⟩ | hfp
      · rcases hno with hno | hno
        · exact absurd hno hfile
        · exact absurd ho.1 hno
      · exact ⟨_, hfp, ⟨logContext node, by simp⟩, fun _ hr => (nomatch hr), rfl⟩
    · rw [Bool.not_eq_true] at hc
      obtain ⟨hstore, hview⟩ := hevs e List.mem_cons_self hc
      rcases hany with hrec | hany
      · left
        have hone : Logs _ _ (hooks lenv (said.headD []) st) (logEv lenv node o (hooks lenv (said.headD []) st) e) :=
          logEv_logs hclock hdebug (logEvs_live hlive).1 hn hstore
        rw [hview] at hone
        exact (hrec.logs (hooks_logs hhead)).logs hone
      · right
        simpa [hc] using hany

/-! ## The listener -/

variable {x : Externals} {lib : RadiotapLib} {node' : RxNode}

/-- A frame that another node relays, or no frame. -/
def fromOthers : NodeInput → Bool
  | .capture _ => false
  | .datagram d => d.src.isSome
  | .fecToggle => true

/-- What such an input is to the receiver. -/
theorem fromOthers_rx {i : NodeInput} (hi : fromOthers i = true) (h : nodeStep x lib node i = .ok (node', evs)) :
    ∃ j, rxStep x node.rx j = .ok (node'.rx, rxEvs evs) ∧ (j = .fecToggle ∨ ∃ f, heard? lib node i = some f ∧ j = .frame f) := by
  cases i with
  | capture _ => cases hi
  | datagram d =>
    rcases nodeStep_heard h with ⟨f, hf, hs⟩ | ⟨hno, -⟩
    · exact ⟨_, hs, .inr ⟨f, hf, rfl⟩⟩
    · cases hno
  | fecToggle =>
    obtain ⟨p, hp, h⟩ := Machine.bind_ok_iff.mp h
    cases h
    refine ⟨.fecToggle, ?_, .inl rfl⟩
    rw [hp, rxEvs_rx]

/-- Frames of others have a sender. -/
theorem fromOthers_src {i : NodeInput} (hi : fromOthers i = true) (h : nodeStep x lib node i = .ok (node', evs)) {b f size : Nat}
    (he : Ev.logFrame b f size ∈ rxEvs evs) : node'.rxSrc.isSome = true := by
  cases i with
  | capture _ => cases hi
  | datagram d =>
    obtain ⟨p, hp, h⟩ := Machine.bind_ok_iff.mp h
    cases h
    rw [rxFrameUdp_out] at hp
    obtain ⟨q, hq⟩ := rxFrameWfb_iff hp
    rw [(rxFrameWfb_ok hq).1] at hp
    cases hp
    exact hi
  | fecToggle =>
    obtain ⟨j, hs, hj⟩ := fromOthers_rx hi h
    rcases hj with rfl | ⟨f, hno, -⟩
    · have heff : Ev.logFrame b f size ∈ effects (rxEvs evs) := mem_effects.mpr ⟨he, rfl⟩
      generalize node'.rx = rx at hs
      cases rxStep_cases hs with
      | toggle hq =>
        rw [show effects (rxEvs evs) = [] from hq] at heff
        cases heff
    · cases hno

/-- The input starts no session: none is accepted. -/
theorem keepsSession_accepts {ctx : RxContext} {f : RxFrame} (h : keepsSession x ctx (.frame f) = true) :
    accepts? x ctx f = none := by
  unfold keepsSession at h
  unfold accepts? announced?
  cases hp : wfbFrameParse f.data f.size with
  | error _ => simp
  | ok w =>
    simp only [hp] at h ⊢
    by_cases hlong : w.packetType = wfbPacketSession ∧ minSessionPacketLen ≤ w.pktlen
    · have hdata : w.packetType ≠ wfbPacketData := by
        rw [hlong.1]
        decide
      rw [if_neg hdata, if_neg (Nat.not_lt.mpr hlong.2)] at h
      cases hd : cryptoWfbSessionDecrypt x ctx.crypto (w.cipher.take w.cipherlen) w.nonce with
      | error _ => simp [hlong]
      | ok plain =>
        rw [hd] at h
        simp [hlong, Acceptable, h]
    · simp [hlong]

/-- The input keeps the session, skips no block, and is a frame that another node relays or
    none; the messages printed meanwhile are not too long for the loader. -/
structure Streams (x : Externals) (lib : RadiotapLib) (l : Listener) (a : Arrival) : Prop where
  input : fromOthers a.input = true
  steady : ∀ f ∈ heard? lib l.node a.input, Steady x l.node.rx (.frame f)
  said : ∀ msgs ∈ a.said, ∀ m ∈ msgs, ∀ t ∈ m.2, Fits t

instance (text : Bytes) : Decidable (Fits text) := inferInstanceAs (Decidable (_ ∨ _))

instance (x : Externals) (lib : RadiotapLib) (l : Listener) (a : Arrival) : Decidable (Streams x lib l a) :=
  decidable_of_iff (fromOthers a.input = true ∧ (∀ f ∈ heard? lib l.node a.input, Steady x l.node.rx (.frame f)) ∧
    ∀ msgs ∈ a.said, ∀ m ∈ msgs, ∀ t ∈ m.2, Fits t) ⟨fun h => ⟨h.1, h.2.1, h.2.2⟩, fun h => ⟨h.input, h.steady, h.said⟩⟩

/-- The session opened with `ctx0`, and its file. -/
structure OnAir (x : Externals) (ctx0 : RxContext) (l : Listener) (tr : List NodeEv) : Prop where
  run : ∃ is, Machine.Run (rxStep x) (Steady x) ctx0 is l.node.rx (rxEvs tr)
  session : session l.node.rx = session ctx0
  indices : l.node.rx.hasSessionKey = true → IndexInv l.node.rx
  file : Recording (UInt8.ofNat ctx0.fecN) (nonEmpty (viewed (rxEvs tr))) l.log

variable {ctx0 : RxContext} {l l' : Listener} {a : Arrival} {tr : List NodeEv}

theorem OnAir.step (h0 : Rx.Opened x ctx0) (hclock : ClockTells lenv) (hdebug : lenv.debug = false)
    (h : OnAir x ctx0 l tr) (hg : Streams x lib l a)
    (hs : listenerStep lenv x lib l a = .ok (l', evs)) : OnAir x ctx0 l' (tr ++ evs) := by
  obtain ⟨hnode, hlog, -, hlive⟩ := listenerStep_ok hs
  obtain ⟨is, hrun⟩ := h.run
  obtain ⟨j, hrx, hj⟩ := fromOthers_rx hg.input hnode
  have hsteady : Steady x l.node.rx j := by
    rcases hj with rfl | ⟨f, hf, rfl⟩
    · exact ⟨rfl, fun _ hp => nomatch hp⟩
    · exact hg.steady f hf
  have hrun' := hrun.snoc hsteady hrx
  rw [← rxEvs_append] at hrun'
  have hok := h0.inv.2.session.ok
  cases nodeStep_session hnode with
  | started hf hacc _ _ _ =>
    have hno := keepsSession_accepts (hg.steady _ hf).1
    rw [hno] at hacc
    cases hacc
  | kept _ hses hno =>
    have hsession : Rx.session l'.node.rx = Rx.session ctx0 := hses.trans h.session
    have hk : l.node.rx.fecK = ctx0.fecK := congrArg Session.fecK h.session
    have hn : l.node.rx.fecN = ctx0.fecN := congrArg Session.fecN h.session
    have hn' : l'.node.rx.fecN = ctx0.fecN := congrArg Session.fecN hsession
    have hfecK := hok.fecK
    have hfecN := hok.fecN
    obtain ⟨hindices, hlogged⟩ := nodeStep_logged h.indices hnode
    refine ⟨⟨_, hrun'⟩, hsession, hindices, ?_⟩
    have hview := viewing_run h0 hrun'
    have hstore : ∀ e ∈ evs, Storable l'.node e := by
      intro e he
      cases e with
      | rx e =>
        have hmem := mem_rxEvs.mpr he
        have hlog' := hlogged e hmem
        cases e with
        | logFrame b i size => exact ⟨fromOthers_src hg.input hnode hmem, hlog'.1, (hn.trans hn'.symm) ▸ hlog'.2⟩
        | logDecode b i data =>
          obtain ⟨hb, hi, hlen⟩ := hlog'
          have hw : (b, i, data) ∈ viewed (rxEvs (tr ++ evs)) := by
            rw [rxEvs_append, viewed_append]
            exact List.mem_append_right _ (List.mem_filterMap.mpr ⟨_, hmem, rfl⟩)
          obtain ⟨c, hc, hcb⟩ := hview.viewed.call hw
          have hidx := hview.indexed c hc
          rw [hcb] at hidx
          exact ⟨hb.resolve_right hidx, by omega, hlen⟩
        | logCreate _ _ _ => exact Bool.true_eq_false.mp (hno _ hmem)
        | _ => trivial
      | _ => trivial
    have hlogs : Logs (UInt8.ofNat l'.node.rx.fecN) (nonEmpty (viewed (rxEvs evs))) l.log l'.log := by
      rw [hlog] at hlive ⊢
      exact logEvs_logs hclock hdebug (by omega) hlive hg.said hstore
    rw [hn'] at hlogs
    rw [rxEvs_append, viewed_append, nonEmpty_append]
    exact h.file.logs hlogs

/-- A session's file has just been opened. -/
theorem onAir_accepted (hclock : ClockTells lenv) (hdebug : lenv.debug = false) (hfile : lenv.logFile ≠ none) {l0 : Listener}
    (h1 : listenerStep lenv x lib l0 a = .ok (l, evs)) (hcreate : evs.any isCreate = true) (ha : a.create.Succeeds)
    (hsaid : ∀ msgs ∈ a.said, ∀ m ∈ msgs, ∀ t ∈ m.2, Fits t) : Rx.Opened x l.node.rx ∧ OnAir x l.node.rx l [] := by
  obtain ⟨hnode, hlog, -, hlive⟩ := listenerStep_ok h1
  cases nodeStep_session hnode with
  | kept _ _ hno =>
    obtain ⟨e, he, hc⟩ := List.any_eq_true.mp hcreate
    rw [(no_session hno).1 e he] at hc
    cases hc
  | started hf hacc hchecked hst hev =>
    have hopened : Rx.Opened x l.node.rx := by
      rcases nodeStep_heard hnode with ⟨f, -, hs⟩ | ⟨hno, -⟩
      · apply opened_of_dump hs
        rw [hev]
        simp
      · cases hf.symm.trans hno
    have hok := hopened.inv.2.session.ok
    have hfecK := hok.fecK
    have hfecN := hok.fecN
    refine ⟨hopened, ⟨[], .nil⟩, rfl, fun _ => hst.indexInv hchecked, ?_⟩
    rw [hlog] at hlive ⊢
    refine logEvs_creates hclock hdebug (by omega) hfile ha hlive hsaid (fun e he hc => ?_) (.inr hcreate)
    cases e with
    | rx e =>
      have hmem := mem_rxEvs.mpr he
      rw [hev, List.mem_append, List.mem_singleton] at hmem
      rcases hmem with hmem | rfl
      · split at hmem
        · rw [List.mem_singleton.mp hmem] at hc
          cases hc
        · cases hmem
      · exact ⟨trivial, rfl⟩
    | _ => exact ⟨trivial, rfl⟩

/-- Two blocks of which the first is repeated, with FEC switched off in between. -/
def someAir : List Arrival :=
  [relayed (dataFrame 0 0 (withHdr 0 (number 1 0 0)) 0), relayed (dataFrame 0 0 (withHdr 0 (number 1 0 0)) 0),
    ⟨.fecToggle, ⟨0, none, none, none⟩, []⟩, relayed (dataFrame 1 0 (withHdr 0 (number 1 1 0)) 0)]

end WfbYa.Log
