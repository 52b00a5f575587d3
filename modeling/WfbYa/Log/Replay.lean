/-
  WfbYa.Log.Replay — what `send_data` hands to which pipeline, for every caller and store.

  `replay_iff`. The frames and the end of the stream reach the caller's context exactly if
  the caller is the player and its pipeline is up: whatever the context that is given, the
  calls go to the player of the file (`writer_gets_nothing`).

  - `sendV_sent` / `send_sent`: what one value, and a whole store, leads to.
  - `send_settles`: the waiting loop ends where the clock goes on.
-/

import WfbYa.Log.LogH265
import WfbYa.Log.Analysed

namespace WfbYa.Log

open WfbYa.Lib

/-! ## What is to be sent -/

/-- `send_data` writes the value. -/
def LogDataV.isSent (v : LogDataV) : Bool := v.type = frameTypeDecode && !v.filtered

/-- It has something to be pushed. -/
def LogDataV.isPlayable (v : LogDataV) : Bool := v.isSent && (v.buf.isSome && decide (v.size ≠ 0))

def LogDataV.payload (v : LogDataV) : Bytes := (v.buf.getD []).take v.size.toNat

def GstEv.pushed : GstEv → Option (CtxId × UInt64 × Bytes)
  | .push c nsec data => some (c, nsec, data)
  | _ => none

def GstEv.isEos : GstEv → Bool
  | .endOfStream _ => true
  | _ => false

/-- The payloads go to the context one after another, each with its time, and then the
    stream ends there. -/
structure Replays (c : CtxId) (ls : LogStore) (evs : List GstEv) : Prop where
  pushed : ∃ is : List Nat, is.Pairwise (ls.precedes .seq) ∧ (∀ i, i ∈ is ↔ i < ls.vs.length ∧ (ls.v i).isPlayable = true) ∧
    evs.filterMap GstEv.pushed = is.map fun i => (c, (ls.v i).ts.nsecs, (ls.v i).payload)
  eos : ∃ pre, evs = pre ++ [.endOfStream c] ∧ ∀ e ∈ pre, e.isEos = false

variable {env : GstEnv} {w : GstWorld} {tick : Bool} {turns : Nat} {st st' st1 st2 : SendSt} {vs vs' : List LogDataV}
  {ls : LogStore} {evs : List GstEv} {c : CtxId} {v : LogDataV}

/-! ## Closing -/

/-- A closed context stays closed. -/
theorem closing_mono {n m : Nat} (h : w.closing env c n = true) (hle : n ≤ m) : w.closing env c m = true := by
  unfold GstWorld.closing at h ⊢
  rw [Bool.or_eq_true, Bool.and_eq_true] at h ⊢
  rcases h with h | ⟨hinit, h⟩
  · exact .inl h
  · refine .inr ⟨hinit, ?_⟩
    rw [Option.any_eq_true] at h ⊢
    obtain ⟨k, hk, hn⟩ := h
    exact ⟨k, hk, decide_eq_true (Nat.le_trans (of_decide_eq_true hn) hle)⟩

theorem open_before {n m : Nat} (h : w.closing env c m = false) (hle : n ≤ m) : w.closing env c n = false := by
  by_contra hne
  rw [Bool.not_eq_false] at hne
  rw [closing_mono hne hle] at h
  cases h

/-! ## One value -/

/-- What the values lead to: calls of the player, and of nothing else. -/
structure Sent (env : GstEnv) (w : GstWorld) (st : SendSt) (vs : List LogDataV) (evs : List GstEv) (st' : SendSt) : Prop where
  calls : st'.calls = st.calls + 2 * vs.countP LogDataV.isSent
  evs_eq : st'.evs = st.evs ++ evs
  noEos : ∀ e ∈ evs, e.isEos = false
  silent : w.player.initialized = false → evs.filterMap GstEv.pushed = []
  pushed : w.player.initialized = true → w.closing env .player st'.calls = false →
    evs.filterMap GstEv.pushed = (vs.filter LogDataV.isPlayable).map fun v => (.player, v.ts.nsecs, v.payload)

theorem Sent.none (hcalls : st'.calls = st.calls) (hevs : st'.evs = st.evs) (h : ∀ v ∈ vs, v.isSent = false) :
    Sent env w st vs [] st' := by
  have hcount : vs.countP LogDataV.isSent = 0 := by
    rw [List.countP_eq_zero]
    intro v hv
    simp [h v hv]
  have hfilter : vs.filter LogDataV.isPlayable = [] := by
    rw [List.filter_eq_nil_iff]
    intro v hv
    simp [LogDataV.isPlayable, h v hv]
  refine ⟨by omega, by rw [hevs, List.append_nil], by simp, fun _ => rfl, ?_⟩
  intro _ _
  rw [hfilter]
  rfl

theorem Sent.append {evs1 evs2 : List GstEv} (h1 : Sent env w st vs evs1 st1) (h2 : Sent env w st1 vs' evs2 st2) :
    Sent env w st (vs ++ vs') (evs1 ++ evs2) st2 := by
  have hcalls := h2.calls
  refine ⟨?_, ?_, ?_, ?_, ?_⟩
  · rw [hcalls, h1.calls, List.countP_append]
    omega
  · rw [h2.evs_eq, h1.evs_eq, List.append_assoc]
  · intro e he
    rcases List.mem_append.mp he with he | he
    · exact h1.noEos e he
    · exact h2.noEos e he
  · intro hinit
    rw [List.filterMap_append, h1.silent hinit, h2.silent hinit]
    rfl
  · intro hinit hopen
    have hfirst : w.closing env .player st1.calls = false := open_before hopen (by omega)
    rw [List.filterMap_append, h1.pushed hinit hfirst, h2.pushed hinit hopen, List.filter_append, List.map_append]

/-- The events of a value that is written, `n` calls after the first. -/
def sentEvs (env : GstEnv) (w : GstWorld) (n : Nat) (dbm : Int8) (v : LogDataV) : List GstEv :=
  (if w.closing env .player n then [] else [.dbm .player dbm]) ++
    if w.player.initialized && v.isPlayable && !w.closing env .player (n + 1) then [.push .player v.ts.nsecs v.payload] else []

theorem write_eq (hs : v.isSent = true) (dbm : Int8) :
    wfbGstWrite env w .player v.ts v.buf v.size (wfbGstAddDbm env w .player dbm st) =
      ⟨st.now, st.calls + 2, st.evs ++ sentEvs env w st.calls dbm v⟩ := by
  unfold wfbGstWrite wfbGstAddDbm sentEvs SendSt.call LogDataV.isPlayable LogDataV.payload GstWorld.get
  rw [hs]
  cases hinit : w.player.initialized with
  | false => simp
  | true =>
    rcases hbuf : v.buf with _ | data
    · simp
    · by_cases hsize : v.size = 0
      · simp [hsize]
      · cases hclosing : w.closing env .player (st.calls + 1) <;> simp [hsize]

theorem sentEvs_pushed (n : Nat) (dbm : Int8) : (sentEvs env w n dbm v).filterMap GstEv.pushed =
    if w.player.initialized && v.isPlayable && !w.closing env .player (n + 1) then
    [(.player, v.ts.nsecs, v.payload)] else [] := by
  unfold sentEvs
  rw [List.filterMap_append]
  have hdbm : (if w.closing env .player n then [] else [GstEv.dbm .player dbm]).filterMap GstEv.pushed = [] := by
    split <;> rfl
  rw [hdbm, List.nil_append]
  split <;> rfl

theorem sentEvs_noEos (n : Nat) (dbm : Int8) : ∀ e ∈ sentEvs env w n dbm v, e.isEos = false := by
  intro e he
  unfold sentEvs at he
  rcases List.mem_append.mp he with he | he
  · split at he
    · cases he
    · rw [List.mem_singleton.mp he]
      rfl
  · split at he
    · rw [List.mem_singleton.mp he]
      rfl
    · cases he

theorem inet6_not_sent (h : v.type = frameTypeInet6) : v.isSent = false := by
  unfold LogDataV.isSent
  rw [h]
  rfl

theorem sendV_sent {p q : SendSt × Int8} (h : sendV env w tick turns p v = .ok q) : ∃ evs, Sent env w p.1 [v] evs q.1 := by
  unfold sendV at h
  by_cases hi : v.type = frameTypeInet6
  · rw [if_pos hi] at h
    cases h
    exact ⟨[], .none rfl rfl (by simp [inet6_not_sent hi])⟩
  · rw [if_neg hi] at h
    by_cases hd : v.type = frameTypeDecode
    · rw [if_neg (not_not.mpr hd)] at h
      cases hf : v.filtered with
      | true =>
        rw [hf, if_pos rfl] at h
        cases h
        exact ⟨[], .none rfl rfl (by simp [LogDataV.isSent, hf])⟩
      | false =>
        rw [hf, if_neg Bool.false_ne_true] at h
        obtain ⟨now, -, h⟩ := Machine.bind_ok_iff.mp h
        have hs : v.isSent = true := by simp [LogDataV.isSent, hd, hf]
        dsimp only at h
        rw [write_eq hs] at h
        cases h
        refine ⟨sentEvs env w p.1.calls p.2 v, ?_, rfl, sentEvs_noEos _ _, ?_, ?_⟩
        · simp [hs]
        · intro hinit
          rw [sentEvs_pushed, hinit]
          rfl
        · intro hinit hopen
          have hcall : w.closing env .player (p.1.calls + 1) = false := open_before hopen (Nat.le_succ _)
          rw [sentEvs_pushed, hinit, hcall]
          cases hp : v.isPlayable <;> simp [hp]
    · rw [if_pos hd] at h
      cases h
      exact ⟨[], .none rfl rfl (by simp [LogDataV.isSent, hd])⟩

/-! ## The store -/

theorem fold_sent {is : List Nat} {p q : SendSt × Int8} (h : is.foldlM (fun p i => sendV env w tick turns p (ls.v i)) p = .ok q) :
    ∃ evs, Sent env w p.1 (is.map ls.v) evs q.1 := by
  induction is generalizing p with
  | nil =>
    cases h
    exact ⟨[], .none rfl rfl (by simp)⟩
  | cons i is ih =>
    rw [List.foldlM_cons] at h
    obtain ⟨p1, h1, h2⟩ := Machine.bind_ok_iff.mp h
    obtain ⟨evs1, hs1⟩ := sendV_sent h1
    obtain ⟨evs2, hs2⟩ := ih h2
    exact ⟨_, hs1.append hs2⟩

theorem sendKv_sent {kv : LogDataKv} (h : sendKv env w tick turns ls st kv = .ok st') :
    ∃ evs, Sent env w st (kv.vh.map ls.v) evs st' := by
  unfold sendKv at h
  rcases hfold : kv.vh.foldlM (fun p i => sendV env w tick turns p (ls.v i)) (st, (-128 : Int8)) with err | q
  · rw [hfold] at h
    cases h
  · rw [hfold] at h
    cases h
    exact fold_sent hfold

theorem send_sent {kvs : List LogDataKv} (h : kvs.foldlM (sendKv env w tick turns ls) st = .ok st') :
    ∃ evs, Sent env w st ((kvs.flatMap LogDataKv.vh).map ls.v) evs st' := by
  induction kvs generalizing st with
  | nil =>
    cases h
    exact ⟨[], .none rfl rfl (by simp)⟩
  | cons kv kvs ih =>
    rw [List.foldlM_cons] at h
    obtain ⟨st1, h1, h2⟩ := Machine.bind_ok_iff.mp h
    obtain ⟨evs1, hs1⟩ := sendKv_sent h1
    obtain ⟨evs2, hs2⟩ := ih h2
    rw [List.flatMap_cons, List.map_append]
    exact ⟨_, hs1.append hs2⟩

/-- `wfb_gst_eos` returns with the end of the stream signalled, or without. -/
theorem eos_ok (h : wfbGstEos env w c st = .ok st') :
    (w.closing env c st.calls = false ∧ (w.get c).pipeline = .made ∧ env.stopped c = false ∧
    st'.evs = st.evs ++ [.endOfStream c]) ∨
      ((w.closing env c st.calls = true ∨ env.stopped c = true) ∧ st'.evs = st.evs) := by
  unfold wfbGstEos at h
  by_cases hclosing : w.closing env c st.calls = true
  · rw [if_pos hclosing] at h
    cases h
    exact .inr ⟨.inl hclosing, List.append_nil _⟩
  · rw [if_neg hclosing] at h
    rcases hp : (w.get c).pipeline with _ | _ | _
    · rw [hp] at h
      cases h
    · rw [hp] at h
      cases h
    · rw [hp] at h
      cases h
      cases hs : env.stopped c with
      | true => exact .inr ⟨.inr rfl, List.append_nil _⟩
      | false => exact .inl ⟨by simpa using hclosing, rfl, rfl, rfl⟩

/-- How often `send_data` comes to call its context, before the end of the stream. -/
def LogStore.sendCalls (ls : LogStore) : Nat := 2 * ((ls.listed .seq).map ls.v).countP LogDataV.isSent

/-- All of the store was sent, from the first call on. -/
def SentAll (env : GstEnv) (w : GstWorld) (ls : LogStore) (st : SendSt) : Prop :=
  st.calls = ls.sendCalls ∧ ∃ now, Sent env w ⟨now, 0, []⟩ ((ls.listed .seq).map ls.v) st.evs st

theorem send_all {now : Nat} (h : ls.kvh.foldlM (sendKv env w tick turns ls) ⟨now, 0, []⟩ = .ok st) : SentAll env w ls st := by
  obtain ⟨evs, hs⟩ := send_sent h
  obtain rfl : st.evs = evs := hs.evs_eq
  exact ⟨hs.calls.trans (Nat.zero_add _), now, hs⟩

theorem sendData_sent (h : sendData env w turns c ls = .ok evs) :
    ∃ st st', SentAll env w ls st ∧ wfbGstEos env w .player st = .ok st' ∧ st'.evs = evs := by
  unfold sendData at h
  obtain ⟨st, hst, h⟩ := Machine.bind_ok_iff.mp h
  obtain ⟨st', heos, h⟩ := Machine.bind_ok_iff.mp h
  cases h
  exact ⟨st, st', send_all hst, heos, rfl⟩

/-! ## The clock -/

/-- The clock comes to pass each time stamp of the store. -/
def ClockGoesOn (env : GstEnv) (ls : LogStore) : Prop :=
  ∀ v ∈ ls.vs, ∀ n, ∃ m, n ≤ m ∧ ((env.clock m).sub (env.clock 0)).before v.ts = false

theorem waitTick_more {epoch ts : TimeStamp} {n now k : Nat} (h : waitTick env epoch ts n now = .ok k) (d : Nat) :
    waitTick env epoch ts (n + d) now = .ok k := by
  induction n generalizing now with
  | zero =>
    unfold waitTick at h
    cases h
  | succ n ih =>
    rw [Nat.succ_add]
    unfold waitTick at h ⊢
    dsimp only at h ⊢
    split
    · rename_i hb
      rw [if_pos hb] at h
      exact ih h
    · rename_i hb
      rw [if_neg hb] at h
      exact h

theorem waitTick_settles {epoch ts : TimeStamp} {now d : Nat} (hpass : ((env.clock (now + d)).sub epoch).before ts = false) :
    ∃ k, waitTick env epoch ts (d + 1) now = .ok k := by
  induction d generalizing now with
  | zero =>
    refine ⟨now + 1, ?_⟩
    unfold waitTick
    dsimp only
    rw [if_neg (by simpa using hpass)]
  | succ d ih =>
    unfold waitTick
    dsimp only
    split
    · exact ih (by rwa [Nat.succ_add_eq_add_succ])
    · exact ⟨_, rfl⟩

theorem waitFor_settles {ts : TimeStamp} (hclock : ∀ n, ∃ m, n ≤ m ∧ ((env.clock m).sub (env.clock 0)).before ts = false)
    (now : Nat) :
    ∃ k, Machine.Settles (fun turns => waitFor env tick ts turns now) k := by
  cases tick with
  | false => exact ⟨_, Machine.settles_const _⟩
  | true =>
    obtain ⟨m, hle, hpass⟩ := hclock now
    obtain ⟨d, rfl⟩ := Nat.exists_eq_add_of_le hle
    obtain ⟨k, hk⟩ := waitTick_settles hpass
    refine ⟨k, d + 1, ?_⟩
    intro n hn
    obtain ⟨d', rfl⟩ := Nat.exists_eq_add_of_le hn
    exact waitTick_more hk d'

theorem sendV_settles (hclock : ∀ n, ∃ m, n ≤ m ∧ ((env.clock m).sub (env.clock 0)).before v.ts = false) (p : SendSt × Int8) :
    ∃ q, Machine.Settles (fun turns => sendV env w tick turns p v) q := by
  unfold sendV
  by_cases hi : v.type = frameTypeInet6
  · simp only [if_pos hi]
    exact ⟨_, Machine.settles_const _⟩
  · simp only [if_neg hi]
    by_cases hd : v.type = frameTypeDecode
    · simp only [if_neg (not_not.mpr hd)]
      cases hf : v.filtered with
      | true => exact ⟨_, Machine.settles_const _⟩
      | false =>
        obtain ⟨now, hnow⟩ := @waitFor_settles env tick _ hclock p.1.now
        exact ⟨_, hnow.bind (Machine.settles_const _)⟩
    · simp only [if_pos hd]
      exact ⟨_, Machine.settles_const _⟩

theorem send_settles (hclock : ClockGoesOn env ls) (hlt : ∀ i ∈ ls.listed .seq, i < ls.vs.length) (st : SendSt) :
    ∃ st', Machine.Settles (fun turns => ls.kvh.foldlM (sendKv env w tick turns ls) st) st' := by
  refine Machine.Settles.fold ?_ st
  intro st kv hkv
  obtain ⟨q, T, hq⟩ := @Machine.Settles.fold _ _ _ (fun turns p i => sendV env w tick turns p (ls.v i)) kv.vh (by
    intro p i hi
    exact sendV_settles (hclock _ (ls.v_mem (hlt i (List.mem_flatMap.mpr ⟨kv, hkv, hi⟩)))) p) (st, (-128 : Int8))
  refine ⟨q.1, T, ?_⟩
  intro n hn
  have hfold := hq n hn
  dsimp only at hfold ⊢
  unfold sendKv
  rw [hfold]
  rfl

/-! ## Callers -/

/-- For as long as it is waited, the clock does not come to pass a time stamp. -/
def Waits (env : GstEnv) (turns : Nat) (ts : TimeStamp) : Prop :=
  ∃ now, ∀ m, now ≤ m → m < now + turns → ((env.clock m).sub (env.clock 0)).before ts = true

theorem waitTick_error {epoch ts : TimeStamp} {n now : Nat} {f : GstFault} (h : waitTick env epoch ts n now = .error f) :
    f = .endless ∧ ∀ m, now ≤ m → m < now + n → ((env.clock m).sub epoch).before ts = true := by
  induction n generalizing now with
  | zero =>
    cases h
    exact ⟨rfl, fun m h1 h2 => by omega⟩
  | succ n ih =>
    have hturn : (if ((env.clock now).sub epoch).before ts then waitTick env epoch ts n (now + 1) else .ok (now + 1)) =
      .error f := h
    split at hturn
    · rename_i hnow
      obtain ⟨hf, hall⟩ := ih hturn
      refine ⟨hf, fun m h1 h2 => ?_⟩
      rcases Nat.eq_or_lt_of_le h1 with rfl | hlt
      · exact hnow
      · exact hall m hlt (by omega)
    · cases hturn

theorem sendV_error {p : SendSt × Int8} {f : GstFault} (h : sendV env w tick turns p v = .error f) :
    f = .endless ∧ tick = true ∧ Waits env turns v.ts := by
  unfold sendV at h
  repeat' split at h
  any_goals cases h
  rcases Machine.bind_error_iff.mp h with hwait | ⟨now, -, hrest⟩
  · unfold waitFor at hwait
    split at hwait
    · rename_i htick
      obtain ⟨hf, hall⟩ := waitTick_error hwait
      exact ⟨hf, htick, _, hall⟩
    · cases hwait
  · cases hrest

theorem sendKv_error {kv : LogDataKv} {f : GstFault} (h : sendKv env w tick turns ls st kv = .error f) :
    f = .endless ∧ tick = true ∧ ∃ i ∈ kv.vh, Waits env turns (ls.v i).ts := by
  unfold sendKv at h
  cases hfold : kv.vh.foldlM (fun p i => sendV env w tick turns p (ls.v i)) (st, (-128 : Int8)) with
  | ok q =>
    rw [hfold] at h
    cases h
  | error f' =>
    rw [hfold] at h
    cases h
    obtain ⟨i, hi, p, hp⟩ := Machine.fold_error hfold
    obtain ⟨hf, htick, hwaits⟩ := sendV_error hp
    exact ⟨hf, htick, i, hi, hwaits⟩

/-- `send_data` waits for ever, or its player has no pipeline. -/
theorem sendData_error {f : GstFault} (hlt : ∀ i ∈ ls.listed .seq, i < ls.vs.length) (h : sendData env w turns c ls = .error f) :
    (f = .endless ∧ ((w.get c).file.isSome && !(w.get c).enc) = false ∧ ∃ v ∈ ls.vs, Waits env turns v.ts) ∨
      (f = .nullPointer ∧ w.player.pipeline = .null) ∨ (f = .useAfterFree ∧ w.player.pipeline = .freed) := by
  rcases Machine.bind_error_iff.mp h with hsend | ⟨st, -, hrest⟩
  · obtain ⟨kv, hkv, st, hkv'⟩ := Machine.fold_error hsend
    obtain ⟨hf, htick, i, hi, hwaits⟩ := sendKv_error hkv'
    have hmem : ls.v i ∈ ls.vs := ls.v_mem (hlt i (List.mem_flatMap.mpr ⟨kv, hkv, hi⟩))
    exact .inl ⟨hf, by rwa [Bool.not_eq_true'] at htick, ls.v i, hmem, hwaits⟩
  · rcases Machine.bind_error_iff.mp hrest with heos | ⟨st', -, hend⟩
    · unfold wfbGstEos at heos
      split at heos
      · cases heos
      · split at heos
        · rename_i hnull
          cases heos
          exact .inr (.inl ⟨rfl, hnull⟩)
        · rename_i hfreed
          cases heos
          exact .inr (.inr ⟨rfl, hfreed⟩)
        · cases heos
    · cases hend

inductive Caller where
  | playH265
  | writeMp4 (file : String)
  | writeMp4Enc (file : String)

/-- The context that the caller gives. -/
def Caller.ctx : Caller → CtxId
  | .playH265 => .player
  | _ => .writer

def Caller.run (env : GstEnv) (turns : Nat) (player : GstContext) (ls : LogStore) : Caller → Except GstFault (List GstEv)
  | .playH265 => WfbYa.Log.playH265 env turns player ls
  | .writeMp4 file => WfbYa.Log.writeMp4 env turns player (some file) ls
  | .writeMp4Enc file => WfbYa.Log.writeMp4Enc env turns player (some file) ls

/-- The player's pipeline is there, and takes what it is given to the end. -/
structure PlayerUp (env : GstEnv) (ctx : GstContext) (ls : LogStore) : Prop where
  made : ctx.pipeline = .made
  isOpen : (⟨ctx, .zero⟩ : GstWorld).closing env .player ls.sendCalls = false
  running : env.stopped .player = false
  initialized : (∃ i, i < ls.vs.length ∧ (ls.v i).isPlayable = true) → ctx.initialized = true

variable {player : GstContext} {past : List Entry}

theorem Caller.run_sendData (caller : Caller) (h : caller.run env turns player ls = .ok evs) :
    ∃ w, sendData env w turns caller.ctx ls = .ok evs ∧ (caller = .playH265 → w = ⟨initPlayer env player, .zero⟩) := by
  cases caller with
  | playH265 => exact ⟨_, h, fun _ => rfl⟩
  | writeMp4 file => exact ⟨_, h, fun hc => by cases hc⟩
  | writeMp4Enc file => exact ⟨_, h, fun hc => by cases hc⟩

/-- The stream of a writer does not end. -/
theorem writer_gets_nothing (h : sendData env w turns c ls = .ok evs) : GstEv.endOfStream .writer ∉ evs := by
  obtain ⟨st, st', ⟨-, now, hs⟩, heos, rfl⟩ := sendData_sent h
  have hno : GstEv.endOfStream .writer ∉ st.evs := by
    intro hmem
    cases hs.noEos _ hmem
  rcases eos_ok heos with ⟨-, -, -, hevs⟩ | ⟨-, hevs⟩
  · rw [hevs, List.mem_append, not_or]
    exact ⟨hno, by simp⟩
  · rwa [hevs]

/-- The values to be played, as they are listed. -/
theorem playable_filter (is : List Nat) :
    (is.map ls.v).filter LogDataV.isPlayable = (is.filter fun i => (ls.v i).isPlayable).map ls.v := by
  rw [List.filter_map]
  rfl

theorem isPlayable_seq (h : v.isPlayable = true) : isSeqType v.type = true := by
  unfold LogDataV.isPlayable LogDataV.isSent at h
  simp only [Bool.and_eq_true, decide_eq_true_eq] at h
  rw [h.1.1]
  rfl

theorem Bones.mem_playable (h : Bones ls past) (i : Nat) : i ∈ (ls.listed .seq).filter (fun i => (ls.v i).isPlayable) ↔
    i < ls.vs.length ∧ (ls.v i).isPlayable = true := by
  rw [List.mem_filter, h.mem_listed (by decide)]
  constructor
  · intro ⟨⟨hlt, _⟩, hp⟩
    exact ⟨hlt, hp⟩
  · intro ⟨hlt, hp⟩
    exact ⟨⟨hlt, isPlayable_seq hp⟩, hp⟩

theorem Replays.player_up (h : SentAll env ⟨player, .zero⟩ ls st) (heos : wfbGstEos env ⟨player, .zero⟩ .player st = .ok st')
    (hr : Replays .player ls st'.evs) : PlayerUp env player ls := by
  obtain ⟨hcalls, now, hs⟩ := h
  obtain ⟨pre, hpre, -⟩ := hr.eos
  have hlast : GstEv.endOfStream .player ∈ st'.evs := by
    rw [hpre]
    simp
  rcases eos_ok heos with ⟨hopen, hmade, hrunning, hevs⟩ | ⟨-, hevs⟩
  · refine ⟨hmade, hcalls ▸ hopen, hrunning, ?_⟩
    intro ⟨i, hi⟩
    by_contra hinit
    obtain ⟨is, -, hmem, hpushed⟩ := hr.pushed
    rw [hevs, List.filterMap_append, hs.silent (by simpa using hinit)] at hpushed
    have hnil : is = [] := List.map_eq_nil_iff.mp hpushed.symm
    have hi' := (hmem i).mpr hi
    rw [hnil] at hi'
    cases hi'
  · rw [hevs] at hlast
    cases hs.noEos _ hlast

theorem PlayerUp.replays (h : SentAll env ⟨player, .zero⟩ ls st) (hb : Bones ls past) (hup : PlayerUp env player ls) :
    ∃ st', wfbGstEos env ⟨player, .zero⟩ .player st = .ok st' ∧ Replays .player ls st'.evs := by
  obtain ⟨hcalls, now, hs⟩ := h
  have hopen : (⟨player, .zero⟩ : GstWorld).closing env .player st.calls = false := hcalls ▸ hup.isOpen
  have heos : wfbGstEos env ⟨player, .zero⟩ .player st = .ok (st.call [.endOfStream .player]) := by
    unfold wfbGstEos GstWorld.get
    rw [hopen, if_neg Bool.false_ne_true, hup.running]
    dsimp only
    rw [hup.made]
    rfl
  refine ⟨_, heos, ?_, st.evs, rfl, hs.noEos⟩
  refine ⟨(ls.listed .seq).filter fun i => (ls.v i).isPlayable, (hb.traversal .seq).filter _, hb.mem_playable, ?_⟩
  have hpushed : st.evs.filterMap GstEv.pushed =
      (((ls.listed .seq).map ls.v).filter LogDataV.isPlayable).map fun v => (.player, v.ts.nsecs, v.payload) := by
    cases hinit : player.initialized with
    | true => exact hs.pushed hinit hopen
    | false =>
      have hnone : ((ls.listed .seq).map ls.v).filter LogDataV.isPlayable = [] := by
        rw [playable_filter, List.map_eq_nil_iff, List.filter_eq_nil_iff]
        intro i hi hp
        have hon := hup.initialized ⟨i, ((hb.mem_listed (by decide)).mp hi).1, hp⟩
        rw [hinit] at hon
        cases hon
      rw [hs.silent hinit, hnone]
      rfl
  unfold SendSt.call
  rw [List.filterMap_append, hpushed, playable_filter, List.map_map]
  exact List.append_nil _

/-- For every store, caller, state of the player and pipelines. -/
theorem replay_iff (caller : Caller) (h : Analysed ls) (hclock : ClockGoesOn env ls) :
    (∃ turns evs, caller.run env turns player ls = .ok evs ∧ Replays caller.ctx ls evs) ↔
      caller = .playH265 ∧ PlayerUp env (initPlayer env player) ls := by
  obtain ⟨past, hb⟩ := h.bones
  constructor
  · intro ⟨turns, evs, hrun, hr⟩
    obtain ⟨w, hsend, hw⟩ := caller.run_sendData hrun
    have hcaller : caller = .playH265 := by
      by_contra hne
      have hctx : caller.ctx = .writer := by
        cases caller with
        | playH265 => exact absurd rfl hne
        | writeMp4 file => rfl
        | writeMp4Enc file => rfl
      obtain ⟨pre, hpre, -⟩ := hr.eos
      apply writer_gets_nothing hsend
      rw [hpre, hctx]
      simp
    obtain rfl := hw hcaller
    subst hcaller
    obtain ⟨st, st', hall, heos, rfl⟩ := sendData_sent hsend
    exact ⟨rfl, hr.player_up hall heos⟩
  · intro ⟨hcaller, hup⟩
    subst hcaller
    have hlt : ∀ i ∈ ls.listed .seq, i < ls.vs.length := fun i hi => ((hb.mem_listed (by decide)).mp hi).1
    obtain ⟨st, T, hfold⟩ := send_settles hclock hlt
      ⟨if !((initPlayer env player).file.isSome && !(initPlayer env player).enc) then 1 else 0, 0, []⟩
    have hrun := hfold T (Nat.le_refl T)
    obtain ⟨st', heos, hr⟩ := hup.replays (send_all hrun) hb
    refine ⟨T, st'.evs, ?_, hr⟩
    exact Machine.bind_ok_iff.mpr ⟨st, hrun, Machine.bind_ok_iff.mpr ⟨st', heos, rfl⟩⟩

/-- A received frame, and what was decoded of it. -/
def playFile : Bytes := testFile ((testHeader frameTypeInet6 2 1 8).raw ++ (testHeader frameTypeDecode 2 1 2).raw ++ [7, 8])

/-- Pipelines come up and stay, and a second after the first reading the clock is read again. -/
def steadyGst : GstEnv where
  init := fun _ => .playing
  errorAt := fun _ => none
  stopped := fun _ => false
  clock := fun n => ⟨if n = 0 then 0 else 1, 0⟩

theorem steadyGst_goes_on (h : (ls.vs.all fun v => !TimeStamp.before ⟨1, 0⟩ v.ts) = true) : ClockGoesOn steadyGst ls := by
  intro v hv n
  refine ⟨n + 1, Nat.le_succ n, ?_⟩
  have hnow : steadyGst.clock (n + 1) = ⟨1, 0⟩ := by simp [steadyGst]
  have helapsed : (steadyGst.clock (n + 1)).sub (steadyGst.clock 0) = ⟨1, 0⟩ := by
    rw [hnow]
    decide
  have hall := List.all_eq_true.mp h v hv
  rw [helapsed]
  simpa using hall

theorem playFile_replayed : ∃ ls, Analysed ls ∧ ∃ turns evs, playH265 steadyGst turns .zero ls = .ok evs ∧
    Replays .player ls evs := by
  obtain ⟨ls, hls, hts⟩ := analysed_run playFile [-60] (fun ls => ls.vs.all fun v => !TimeStamp.before ⟨1, 0⟩ v.ts)
    (by decide +kernel)
  refine ⟨ls, hls, (replay_iff .playH265 hls (steadyGst_goes_on hts)).mpr ⟨rfl, rfl, ?_, rfl, fun _ => rfl⟩⟩
  unfold GstWorld.closing GstWorld.get
  rfl

/-- An MP4 file is written while the player is up, and before it was ever up. -/
theorem writer_breaks_replay : ∃ ls, Analysed ls ∧
    writeMp4 steadyGst 1 (wfbGstContextInit .playing none false) (some "out.mp4") ls =
      .ok [.dbm .player (-42), .push .player 0 [7, 8], .endOfStream .player] ∧
    ¬ Replays .writer ls [.dbm .player (-42), .push .player 0 [7, 8], .endOfStream .player] ∧
    writeMp4 steadyGst 1 .zero (some "out.mp4") ls = .error .nullPointer := by
  obtain ⟨ls, hls, hrun⟩ := analysed_run playFile [] (fun ls => decide
    (writeMp4 steadyGst 1 (wfbGstContextInit .playing none false) (some "out.mp4") ls =
      .ok [.dbm .player (-42), .push .player 0 [7, 8], .endOfStream .player] ∧
    writeMp4 steadyGst 1 .zero (some "out.mp4") ls = .error .nullPointer)) (by decide +kernel)
  obtain ⟨hup, hdown⟩ := of_decide_eq_true hrun
  refine ⟨ls, hls, hup, ?_, hdown⟩
  intro hr
  obtain ⟨pre, hpre, -⟩ := hr.eos
  have hlast := congrArg List.getLast? hpre
  rw [List.getLast?_concat] at hlast
  cases hlast

example : (TimeStamp.mk 1 500000000).nsecs = 1500000000 := by decide +kernel

end WfbYa.Log
