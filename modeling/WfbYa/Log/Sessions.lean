/-
  WfbYa.Log.Sessions — log files and the sessions they are of.

  `rx_session` starts a new file if the epoch of the session it accepts has not grown: the
  sender was started again. The first session of a run is held against epoch 0.

  - `Follows`: after a session is accepted, the open file is that session's, and new if and
    only if it has to be; records are keyed with the `fec_n` of their file's header.
  - `sessions_logged`: it holds of every step of every run in which the epoch of each session
    accepted has not grown exactly if the open file is not of that session.
  - `first_session_not_logged`: a first session with an epoch above 0 is not logged at all.
-/

import WfbYa.Log.Listener
import WfbYa.Log.RoundTrip

namespace WfbYa.Log

open WfbYa.Frame WfbYa.Ring WfbYa.Rx WfbYa.Lib

/-! ## The rule -/

/-- The header a file begins with. -/
def LogFile.header (f : LogFile) : RxLogFileHeader := .ofRaw f.bytes

/-- A file with a header that carries the session's FEC parameters. -/
structure Heads (s : Session) (f : LogFile) : Prop where
  length : rxLogFileHdrlen ≤ f.bytes.length
  signature : f.header.signature = rxLogSignature
  fecType : f.header.fecType.toNat = s.fecType
  fecK : f.header.fecK.toNat = s.fecK
  fecN : f.header.fecN.toNat = s.fecN

/-- A receive or decode record. -/
def LogRecord.isFrame (r : LogRecord) : Bool :=
  r.hd.type = frameTypeUnspec || r.hd.type = frameTypeInet6 || r.hd.type = frameTypeDecode

def KeyedBy (fecN : UInt8) (r : LogRecord) : Prop :=
  r.isFrame = true → r.hd.seq = r.hd.blockIdx * fecN.toUInt64 + r.hd.fragmentIdx.toUInt64

def LogFile.Keyed (f : LogFile) : Prop := ∀ r ∈ f.written, KeyedBy f.header.fecN r

/-- Log file and session correspond over a step from `l` to `l'`. -/
structure Follows (l : Listener) (evs : List NodeEv) (l' : Listener) : Prop where
  current : evs.any isAccept = true → ∃ f, l'.log.log.fp = some f ∧ Heads (session l'.node.rx) f
  fresh : evs.any isAccept = true → (evs.any isCreate = true ↔ l.started ≠ some (session l'.node.rx))
  keyed : ∀ f ∈ l'.log.files, f.Keyed

/-- File creation succeeds, after any number of names that are taken. -/
def CreateOutcome.Succeeds (o : CreateOutcome) : Prop := o.fopen = none ∧ o.fcntl = none ∧ o.fwrite = none

instance (o : CreateOutcome) : Decidable o.Succeeds := inferInstanceAs (Decidable (_ ∧ _ ∧ _))

/-- The epoch of a session that is accepted has not grown exactly if the open file is of
    another session, or there is none. -/
def EpochTells (x : Externals) (lib : RadiotapLib) (l : Listener) (i : NodeInput) : Prop :=
  ∀ f ∈ heard? lib l.node i, ∀ s ∈ accepts? x l.node.rx f, (s.epoch ≤ l.node.rx.epoch ↔ l.started ≠ some s)

instance (x : Externals) (lib : RadiotapLib) (l : Listener) (i : NodeInput) : Decidable (EpochTells x lib l i) :=
  inferInstanceAs (Decidable (∀ f ∈ heard? lib l.node i, ∀ s ∈ accepts? x l.node.rx f,
    (s.epoch ≤ l.node.rx.epoch ↔ l.started ≠ some s)))

/-- Where the log follows the sessions. -/
structure Rotates (env : LogEnv) (x : Externals) (lib : RadiotapLib) (l : Listener) (a : Arrival) : Prop where
  epoch : EpochTells x lib l a.input
  /-- Nothing is printed into a new file before its header. -/
  silent : ∀ node evs, nodeStep x lib l.node a.input = .ok (node, evs) →
    AtEach env (fun st e => isCreate e = true → HeaderFirst env st a.create) node a.create evs a.said l.log

/-! ## Files and records -/

/-- The header's fields are the session's. -/
structure OfSession (ctx : LogContext) (s : Session) : Prop where
  fecType : ctx.fecType.toNat = s.fecType
  fecK : ctx.fecK.toNat = s.fecK
  fecN : ctx.fecN.toNat = s.fecN

/-- A file that is a header, and records keyed with its `fec_n`. -/
def Headed (ctx : LogContext) (f : LogFile) : Prop :=
  f.bytes = (fileHeader ctx).raw ++ f.written.flatMap LogRecord.raw ∧ ∀ r ∈ f.written, KeyedBy ctx.fecN r

variable {ctx : LogContext} {f : LogFile} {s : Session} {n : UInt8}

theorem headed_new (ctx : LogContext) : Headed ctx ⟨(fileHeader ctx).raw, []⟩ :=
  ⟨(List.append_nil _).symm, fun _ hr => nomatch hr⟩

theorem Headed.append (h : Headed ctx f) {rs : List LogRecord} (hrs : ∀ r ∈ rs, KeyedBy ctx.fecN r) :
    Headed ctx (rs.foldl .put f) := by
  rw [foldl_put]
  refine ⟨?_, ?_⟩
  · dsimp only
    rw [h.1, List.flatMap_append, List.append_assoc]
  · intro r hr
    exact (List.mem_append.mp hr).elim (h.2 r) (hrs r)

theorem Headed.header (h : Headed ctx f) : f.header = fileHeader ctx := by
  unfold LogFile.header
  rw [h.1, fileHeader_ofRaw]

theorem Headed.heads (h : Headed ctx f) (hs : OfSession ctx s) : Heads s f where
  length := by
    rw [h.1, List.length_append, fileHeader_length]
    exact Nat.le_add_right _ _
  signature := by rw [h.header]; rfl
  fecType := by rw [h.header]; exact hs.fecType
  fecK := by rw [h.header]; exact hs.fecK
  fecN := by rw [h.header]; exact hs.fecN

theorem Headed.keyed (h : Headed ctx f) : f.Keyed := by
  unfold LogFile.Keyed
  rw [h.header]
  exact h.2

theorem msgRecord_keyed (ts : TimeSpec) (seq : Int32) {type : UInt8} (text : Bytes) (h : isMsgType type = true) :
    KeyedBy n (msgRecord ts seq type text) := by
  intro hf
  unfold isMsgType at h
  simp only [Bool.or_eq_true, decide_eq_true_eq] at h
  rcases h with (rfl | rfl) | rfl <;> cases hf

theorem corruptRecord_keyed (ctx : LogContext) (ts : TimeSpec) : KeyedBy n (corruptRecord ctx ts) := fun hf => nomatch hf

/-- Not a frame's record. -/
def Unkeyed (r : LogRecord) : Prop := ∀ n, KeyedBy n r

theorem says_unkeyed (env : LogEnv) (k : Nat) (text : Option Bytes) : Says Unkeyed env k text :=
  fun ts seq _ t _ _ _ hm _ => msgRecord_keyed ts seq t hm

theorem says_keyed (env : LogEnv) (k : Nat) (text : Option Bytes) : Says (KeyedBy n) env k text :=
  fun ts seq _ t _ _ _ hm => msgRecord_keyed ts seq t hm

/-- A step's records are keyed with the `fec_n` of its end. -/
theorem recordOf?_keyed {node : RxNode} {ts : TimeSpec} {e : NodeEv} {r : LogRecord} (h : recordOf? node ts e = some r) :
    KeyedBy (logContext node).fecN r := by
  cases e with
  | logCorrupt =>
    cases h
    exact corruptRecord_keyed _ _
  | rx e =>
    cases e with
    | logFrame b f size =>
      cases h
      exact fun _ => rfl
    | logDecode b f data =>
      cases h
      exact fun _ => rfl
    | _ => cases h
  | _ => cases h

/-! ## Steps -/

variable {env : LogEnv} {x : Externals} {lib : RadiotapLib} {l l' : Listener} {a : Arrival} {evs : List NodeEv}

/-- The open file is of the session accepted last, and there is one if any session was. -/
structure Tracks (l : Listener) : Prop where
  left : ∀ f ∈ l.log.left, ∃ ctx, Headed ctx f
  current : ∀ f, l.log.log.fp = some f →
    l.started = some (session l.node.rx) ∧ ∃ ctx, OfSession ctx (session l.node.rx) ∧ Headed ctx f
  idle : l.log.log.fp = none → l.started = none

theorem OfSession.fecN_eq {node : RxNode} (h : OfSession ctx (session node.rx)) : ctx.fecN = (logContext node).fecN := by
  show ctx.fecN = UInt8.ofNat node.rx.fecN
  rw [← UInt8.ofNat_toNat (x := ctx.fecN)]
  exact congrArg UInt8.ofNat h.fecN

/-- The parameters of a checked header fit the log's. -/
theorem starts_ofSession {ctx ctx' : RxContext} {hdr : WfbSessionHdr} {r : Rbuf} (h : Starts ctx ctx' hdr r)
    (hc : Checked ctx hdr)
    {node : RxNode} (hn : node.rx = ctx') : OfSession (logContext node) (session node.rx) := by
  have hs : session node.rx = sessionOf hdr := by rw [hn, h.session_eq]
  have hk := hc.fecK
  have hle := hc.fecN
  have hparams : node.rx.fecType = hdr.fecType ∧ node.rx.fecK = hdr.fecK ∧ node.rx.fecN = hdr.fecN := by
    rw [hn, h.1]
    exact ⟨rfl, rfl, rfl⟩
  have htype : hdr.fecType = 1 := hc.fecType
  rw [hs]
  refine ⟨?_, ?_, ?_⟩
  · show (UInt8.ofNat node.rx.fecType).toNat = hdr.fecType
    rw [hparams.1, htype]
    rfl
  · show (UInt8.ofNat node.rx.fecK).toNat = hdr.fecK
    rw [hparams.2.1, UInt8.toNat_ofNat']
    omega
  · show (UInt8.ofNat node.rx.fecN).toNat = hdr.fecN
    rw [hparams.2.2, UInt8.toNat_ofNat']
    omega

/-- A step that accepts no session puts records of the open file's session into it. -/
theorem Tracks.kept (h : Tracks l) (hlive : l'.log.dead = false) (hlog : l'.log = logEvs env l'.node a.create evs a.said l.log)
    (hses : session l'.node.rx = session l.node.rx) (hno : ∀ e ∈ evs, isCreate e = false) (hstarted : l'.started = l.started) :
    Tracks l' := by
  have hgrows : Grows (KeyedBy (logContext l'.node).fecN) l.log l'.log := by
    rw [hlog] at hlive ⊢
    refine logEvs_keeps (C := fun _ _ => True) ?_ ?_ hlive (atEach_of env (fun _ _ => trivial) _ _ _ _ _) (.same rfl rfl)
    · intro st type text hg
      exact hg.trans (rxLogHook_grows (says_keyed env _ _))
    · intro e he st _ _ hg
      exact hg.trans (logEv_grows (says_keyed env) (hno e he) fun ts _ r _ hr => recordOf?_keyed hr)
  refine ⟨?_, ?_, ?_⟩
  · rw [hgrows.left]
    exact h.left
  · rw [hses, hstarted]
    intro f hf
    have hopen : l.log.log.fp ≠ none := by
      intro hnone
      obtain ⟨rs, -, hfp⟩ := hgrows.fp
      rw [hnone] at hfp
      cases hfp.symm.trans hf
    obtain ⟨f0, hf0⟩ := Option.ne_none_iff_exists'.mp hopen
    refine ⟨(h.current f0 hf0).1, ?_⟩
    refine hgrows.current (K := fun f => ∃ ctx, OfSession ctx (session l.node.rx) ∧ Headed ctx f) ?_ ?_ f hf
    · rintro f rs hrs ⟨ctx, hctx, hf⟩
      rw [← hses] at hctx
      rw [← hctx.fecN_eq] at hrs
      exact ⟨ctx, hses ▸ hctx, hf.append hrs⟩
    · intro f hf
      exact (h.current f hf).2
  · intro hnone
    rw [hstarted]
    apply h.idle
    obtain ⟨rs, -, hfp⟩ := hgrows.fp
    rw [hfp] at hnone
    exact Option.map_eq_none_iff.mp hnone

/-- The open file is of `ctx`. -/
def Opened (ctx : LogContext) (st : LogState) : Prop := ∃ f, st.log.fp = some f ∧ Headed ctx f

theorem Opened.grows {P : LogRecord → Prop} {st st' : LogState} (h : Opened ctx st) (hg : Grows P st st')
    (hP : ∀ r, P r → KeyedBy ctx.fecN r) : Opened ctx st' := by
  obtain ⟨f, hf, hh⟩ := h
  obtain ⟨rs, hrs, hfp⟩ := hg.fp
  refine ⟨rs.foldl .put f, by rw [hfp, hf, Option.map_some], ?_⟩
  apply hh.append
  intro r hr
  exact hP r (hrs r hr)

/-- The events of a step that accepts a session make no frame records. -/
theorem accepting_record {node : RxNode} {es : List Ev} (hev : rxEvs evs = es) (hes : ∀ e ∈ es, e.ofSession = true) {e : NodeEv}
    (he : e ∈ evs) {ts : TimeSpec} {r : LogRecord} (hr : recordOf? node ts e = some r) : Unkeyed r := by
  intro n
  cases e with
  | logCorrupt =>
    cases hr
    exact corruptRecord_keyed _ _
  | rx e =>
    have hs := hes e (hev ▸ mem_rxEvs.mpr he)
    cases e with
    | logFrame _ _ _ => cases hs
    | logDecode _ _ _ => cases hs
    | _ => cases hr
  | _ => cases hr

/-- The new file is open, and only a header. -/
theorem rxLogCreate_opened {st : LogState} {o : CreateOutcome} (hlive : st.dead = false)
    (hfile : env.logFile ≠ none) (hopen : o.fopen = none)
    (hfirst : HeaderFirst env st o) (ctx : LogContext) : Opened ctx (rxLogCreate env ctx o st) := by
  rcases (rxLogCreate_spec ctx o hlive fun _ _ => hfirst).2 with ⟨hno, -⟩ | hfp
  · exact absurd hno (not_or.mpr ⟨hfile, not_not.mpr hopen⟩)
  · exact ⟨_, hfp, headed_new ctx⟩

/-- A step that calls `rx_log_create` for the session it accepts. -/
theorem Tracks.created (h : Tracks l) (hlive : l'.log.dead = false) (hfile : env.logFile ≠ none) (hopen : a.create.fopen = none)
    (hlog : l'.log = logEvs env l'.node a.create evs a.said l.log)
    (hfirst : AtEach env (fun st e => isCreate e = true → HeaderFirst env st a.create) l'.node a.create evs a.said l.log)
    (hof : OfSession (logContext l'.node) (session l'.node.rx))
    (hrec : ∀ e ∈ evs, ∀ ts r, recordOf? l'.node ts e = some r → Unkeyed r) (hany : evs.any isCreate = true)
    (hstarted : l'.started = l'.log.log.fp.map fun _ => session l'.node.rx) : Tracks l' ∧ l'.log.log.fp ≠ none := by
  have hhook : ∀ st type text, Grows Unkeyed st (rxLogHook env type text st).2 :=
    fun st type text => rxLogHook_grows (says_unkeyed env _ _)
  have hother : ∀ e ∈ evs, ∀ st, isCreate e = false → Grows Unkeyed st (logEv env l'.node a.create st e) :=
    fun e he st hc => logEv_grows (says_unkeyed env) hc fun ts _ r _ hr => hrec e he ts r hr
  -- every file keeps its header, or gets one
  have hgrows : ∀ {st st' : LogState}, Grows Unkeyed st st' → (∀ f ∈ st.files, ∃ ctx, Headed ctx f) →
      ∀ f ∈ st'.files, ∃ ctx, Headed ctx f := by
    intro st st' hg hk
    refine hg.files (K := fun f => ∃ ctx, Headed ctx f) ?_ hk
    rintro f rs hrs ⟨ctx, hf⟩
    exact ⟨ctx, hf.append fun r hr => hrs r hr ctx.fecN⟩
  have hfiles : ∀ f ∈ l'.log.files, ∃ ctx, Headed ctx f := by
    rw [hlog] at hlive ⊢
    refine logEvs_keeps (J := fun st => ∀ f ∈ st.files, ∃ ctx, Headed ctx f)
      (fun st type text hk => hgrows (hhook st type text) hk)
      ?_ hlive hfirst ?_
    · intro e he st hst hc hk
      by_cases hcr : isCreate e = true
      · rw [logEv_create hcr]
        exact rxLogCreate_files (K := fun f => ∃ ctx, Headed ctx f) hst (fun _ _ => hc hcr) ⟨_, headed_new _⟩ hk
      · exact hgrows (hother e he st (Bool.eq_false_iff.mpr hcr)) hk
    · intro f hf
      rcases mem_files.mp hf with hleft | hfp
      · exact h.left f hleft
      · obtain ⟨ctx, -, hh⟩ := (h.current f hfp).2
        exact ⟨ctx, hh⟩
  -- and the open one is the session's
  have hopened : Opened (logContext l'.node) l'.log := by
    have hcreate : ∀ e ∈ evs, ∀ st, st.dead = false → (isCreate e = true → HeaderFirst env st a.create) → isCreate e = true →
        Opened (logContext l'.node) (logEv env l'.node a.create st e) := by
      intro e _ st hst hc hcr
      rw [logEv_create hcr]
      exact rxLogCreate_opened hst hfile hopen (hc hcr) _
    rw [hlog] at hlive ⊢
    refine logEvs_reaches (J := Opened (logContext l'.node))
      (fun st type text hq => hq.grows (hhook st type text) fun r hr => hr _)
      ?_ hcreate hlive hfirst hany
    intro e he st hst hc hq
    by_cases hcr : isCreate e = true
    · exact hcreate e he st hst hc hcr
    · exact hq.grows (hother e he st (Bool.eq_false_iff.mpr hcr)) fun r hr => hr _
  obtain ⟨f, hf, hh⟩ := hopened
  refine ⟨⟨fun f hleft => hfiles f (mem_files.mpr (.inl hleft)), ?_, ?_⟩, hf ▸ Option.some_ne_none f⟩
  · intro f' hf'
    cases hf.symm.trans hf'
    rw [hstarted, hf, Option.map_some]
    exact ⟨rfl, _, hof, hh⟩
  · intro hnone
    cases hf.symm.trans hnone

theorem Tracks.keyed (h : Tracks l) : ∀ f ∈ l.log.files, f.Keyed := by
  intro f hf
  rcases mem_files.mp hf with hleft | hfp
  · obtain ⟨ctx, hh⟩ := h.left f hleft
    exact hh.keyed
  · obtain ⟨-, ctx, -, hh⟩ := h.current f hfp
    exact hh.keyed

theorem Tracks.heads (h : Tracks l) (hopen : l.log.log.fp ≠ none) : ∃ f, l.log.log.fp = some f ∧ Heads (session l.node.rx) f := by
  obtain ⟨f, hf⟩ := Option.ne_none_iff_exists'.mp hopen
  obtain ⟨-, ctx, hof, hh⟩ := h.current f hf
  exact ⟨f, hf, hh.heads hof⟩

/-- One step: it keeps the correspondence, and what it accepts is logged as it should be. -/
theorem Tracks.step (h : Tracks l) (hfile : env.logFile ≠ none) (ha : a.create.Succeeds) (hr : Rotates env x lib l a)
    (hs : listenerStep env x lib l a = .ok (l', evs)) : Tracks l' ∧ Follows l evs l' := by
  obtain ⟨hnode, hlog, hstarted, hlive⟩ := listenerStep_ok hs
  cases nodeStep_session hnode with
  | kept hno hses hev =>
    obtain ⟨hcreate, haccept⟩ := no_session hev
    have hany : evs.any isCreate = false := by
      rw [List.any_eq_false]
      intro e he hc
      exact Bool.false_ne_true ((hcreate e he).symm.trans hc)
    rw [hany] at hstarted
    have ht := h.kept hlive hlog hses hcreate hstarted
    rw [← Bool.not_eq_true] at haccept
    exact ⟨ht, fun hacc => absurd hacc haccept, fun hacc => absurd hacc haccept, ht.keyed⟩
  | @started f w hdr r hf hacc hc hst hev =>
    have hs' : session l'.node.rx = sessionOf hdr := hst.session_eq
    have hepoch := hr.epoch f hf _ hacc
    -- a session whose epoch has grown is not that of the open file
    have hle : hdr.epoch ≤ l.node.rx.epoch := by
      by_contra hgrown
      have hsame : l.started = some (sessionOf hdr) := by
        by_contra hne
        exact hgrown (hepoch.mpr hne)
      obtain ⟨f0, hf0⟩ := Option.ne_none_iff_exists'.mp fun hnone => Option.some_ne_none _ (hsame.symm.trans (h.idle hnone))
      have hcur := Option.some.inj (hsame.symm.trans (h.current f0 hf0).1)
      have he : hdr.epoch = l.node.rx.epoch := congrArg Session.epoch hcur
      omega
    rw [if_pos hle] at hev
    have hmem : NodeEv.rx (.logCreate hdr.fecType hdr.fecK hdr.fecN) ∈ evs := mem_rxEvs.mp (hev ▸ List.mem_cons_self)
    have hany : evs.any isCreate = true := List.any_eq_true.mpr ⟨_, hmem, rfl⟩
    have hes : ∀ e ∈ [Ev.logCreate hdr.fecType hdr.fecK hdr.fecN] ++ [.sessionDump], e.ofSession = true := by simp [Ev.ofSession]
    rw [hany, if_pos rfl] at hstarted
    obtain ⟨ht, hopen⟩ := h.created hlive hfile ha.1 hlog (hr.silent _ _ hnode) (starts_ofSession hst hc rfl)
      (fun e he ts r hr => accepting_record hev hes he hr) hany hstarted
    refine ⟨ht, fun _ => ht.heads hopen, fun _ => ?_, ht.keyed⟩
    rw [hs']
    exact iff_of_true hany (hepoch.mp hle)

/-! ## Over a run -/

theorem tracks_setup (channelId : Nat) (crypto : CryptoWfbContext) (noFec : Bool) (handlers mirrors : List Nat) :
    Tracks (listenerSetup channelId crypto noFec handlers mirrors) :=
  ⟨fun _ hf => (nomatch hf), fun _ hf => (nomatch hf), fun _ => rfl⟩

/-- With a log file named and file creation always succeeding: in every run whose steps all
    meet the condition, log file and session correspond over every step. -/
theorem sessions_logged (hfile : env.logFile ≠ none) {channelId : Nat} {crypto : CryptoWfbContext} {noFec : Bool}
    {handlers mirrors : List Nat} {is : List Arrival} {tr : List NodeEv}
    (h : Machine.Run (listenerStep env x lib) (fun l a => a.create.Succeeds ∧ Rotates env x lib l a)
      (listenerSetup channelId crypto noFec handlers mirrors) is l tr)
    (ha : a.create.Succeeds) (hr : Rotates env x lib l a) (hs : listenerStep env x lib l a = .ok (l', evs)) :
    Follows l evs l' := by
  have ht : Tracks l := by
    refine h.inv (fun _ l _ => Tracks l) (tracks_setup _ _ _ _ _) ?_
    rintro is l tr a l' evs ht ⟨ha, hr⟩ hs
    exact (ht.step hfile ha hr hs).1
  exact (ht.step hfile ha hr hs).2

/-- Without debug output nothing is printed into a new file. -/
theorem rotates_of_quiet (hd : env.debug = false) (ha : a.create.Succeeds) (he : EpochTells x lib l a.input) :
    Rotates env x lib l a := by
  refine ⟨he, fun node evs _ => atEach_of env (fun st e _ => ⟨fun h => ?_, ha.2.1, ha.2.2⟩) _ _ _ _ _⟩
  rw [hd] at h
  cases h

/-- A frame that another node relays, with no meta data. -/
def relayed (f : RxFrame) : Arrival where
  input := .datagram ⟨List.replicate wfbUdpHdrlen 0 ++ f.data, wfbUdpHdrlen + f.size, some (List.replicate 16 1), f.outcome⟩
  create := ⟨0, none, none, none⟩
  said := []

/-- The key of another session. -/
def otherKey : Bytes := List.replicate 32 8

/-- A listener without debug output, for a sender of `numbered 1 2`. -/
abbrev steadyListener : Listener → Arrival → Except Fault (Listener × List NodeEv) :=
  listenerStep (steadyEnv false) (numbered 1 2).externals basicIterator

abbrev SteadyRotates : Listener → Arrival → Prop := Rotates (steadyEnv false) (numbered 1 2).externals basicIterator

/-- The first session has epoch 0, and so has the next one. -/
theorem sessions_logged_run : ∃ l tr l' evs, Machine.Run steadyListener (fun l a => a.create.Succeeds ∧ SteadyRotates l a)
    (listenerSetup 0 loaded false [] [])
    [relayed (sessionFrame 0 0 1 2 someKey), relayed (dataFrame 0 0 (withHdr 0 [7]) 0)] l tr ∧
      steadyListener l (relayed (sessionFrame 0 0 1 2 otherKey)) = .ok (l', evs) ∧ evs.any isAccept = true ∧
        (l'.log.files.map fun f => f.written.length) = [1, 0] ∧ Follows l evs l' := by
  obtain ⟨l, tr, hrun, hq⟩ := Machine.exists_run steadyListener
    (fun l a => a.create.Succeeds ∧ EpochTells (numbered 1 2).externals basicIterator l a.input)
    (listenerSetup 0 loaded false [] [])
    [relayed (sessionFrame 0 0 1 2 someKey), relayed (dataFrame 0 0 (withHdr 0 [7]) 0)]
    (fun p => decide (EpochTells (numbered 1 2).externals basicIterator p.1 (relayed (sessionFrame 0 0 1 2 otherKey)).input) &&
      Machine.returns (steadyListener p.1 (relayed (sessionFrame 0 0 1 2 otherKey)))
        fun q => q.2.any isAccept && decide ((q.1.log.files.map fun f => f.written.length) = [1, 0])) (by decide +kernel)
  simp only [Bool.and_eq_true, decide_eq_true_eq] at hq
  obtain ⟨⟨l', evs⟩, hs, htest⟩ := Machine.returns_iff.mp hq.2
  simp only [Bool.and_eq_true, decide_eq_true_eq] at htest
  have hrotates : Machine.Run steadyListener (fun l a => a.create.Succeeds ∧ SteadyRotates l a)
    (listenerSetup 0 loaded false [] [])
      [relayed (sessionFrame 0 0 1 2 someKey), relayed (dataFrame 0 0 (withHdr 0 [7]) 0)] l tr :=
    hrun.mono fun l a hg => ⟨hg.1, rotates_of_quiet rfl hg.1 hg.2⟩
  have ha : (relayed (sessionFrame 0 0 1 2 otherKey)).create.Succeeds := ⟨rfl, rfl, rfl⟩
  exact ⟨l, tr, l', evs, hrotates, hs, htest.1, htest.2, sessions_logged (by decide) hrotates ha
    (rotates_of_quiet rfl ha hq.1) hs⟩

/-- A session with a later epoch goes on in the file of the one before it, whose `fec_n` was 2. -/
example : Machine.returns (steadyListener (listenerSetup 0 loaded false [] []) (relayed (sessionFrame 0 0 1 2 someKey))) (fun p =>
    Machine.returns (listenerStep (steadyEnv false) (numbered 1 4).externals basicIterator p.1
      (relayed (sessionFrame 1 0 1 4 otherKey)))
      fun q => decide (q.2.any isAccept = true ∧ (q.1.log.log.fp.map fun f => f.header.fecN) = some 2 ∧ q.1.node.rx.fecN = 4)) =
        true := by
  decide +kernel

/-- A first session with epoch 1: no file is opened. -/
theorem first_session_not_logged :
    ¬ ∀ (env : LogEnv) (x : Externals) (lib : RadiotapLib) (channelId : Nat) (crypto : CryptoWfbContext)
    (noFec : Bool) (handlers mirrors : List Nat) (is : List Arrival) (l : Listener) (tr : List NodeEv)
    (a : Arrival) (l' : Listener)
    (evs : List NodeEv), env.logFile ≠ none →
      Machine.Run (listenerStep env x lib) (fun _ a => a.create.Succeeds)
        (listenerSetup channelId crypto noFec handlers mirrors) is l tr →
        a.create.Succeeds → listenerStep env x lib l a = .ok (l', evs) → Follows l evs l' := by
  intro hclaim
  have htest : Machine.returns (steadyListener (listenerSetup 0 loaded false [] []) (relayed (sessionFrame 1 0 1 2 someKey)))
      (fun q => q.2.any isAccept && decide (q.1.log.log.fp.isNone = true)) = true := by decide +kernel
  obtain ⟨⟨l', evs⟩, hs, hq⟩ := Machine.returns_iff.mp htest
  simp only [Bool.and_eq_true, decide_eq_true_eq] at hq
  have ha : (relayed (sessionFrame 1 0 1 2 someKey)).create.Succeeds := ⟨rfl, rfl, rfl⟩
  have hfollows := hclaim (steadyEnv false) _ _ 0 loaded false [] [] [] _ [] _ l' evs (by decide) .nil ha hs
  obtain ⟨f, hf, -⟩ := hfollows.current hq.1
  rw [Option.isNone_iff_eq_none.mp hq.2] at hf
  cases hf

end WfbYa.Log
