/-
  WfbYa.Log.SessionLogs — the log files of one session, in the analysis program.

  `block_sums`: whatever the listener went through before, of each file it writes within one
  session the block counters are the sums of those of the sequence numbers, loaded and after
  any `filter dbm` commands.

  - `nodeStep_logged`: the indices a step of the node gives to the log.
  - `recordOf?_proper`: the records made of them.
  - `Within.step`: every file from some point on is sound, or gives no records.
-/

import WfbYa.Log.BlockSums
import WfbYa.Log.Creation
import WfbYa.Log.Sessions
import WfbYa.Rx.Indices

namespace WfbYa.Log

open WfbYa.Frame WfbYa.Ring WfbYa.Rx WfbYa.Lib

/-! ## Sound files -/

variable {fecN : UInt8} {f : LogFile} {ls : LogStore} {past : List Entry}

theorem oneBlock_placed (h : ∀ e ∈ past, ∃ r, Placed fecN r ∧ r.entry = e) : OneBlock past := by
  intro e he e' he' hs hs' heq
  obtain ⟨r, hr, rfl⟩ := h e he
  obtain ⟨r', hr', rfl⟩ := h e' he'
  have heq' : r.hd.seq.toNat = r'.hd.seq.toNat := heq
  show r.hd.blockIdx.toNat = r'.hd.blockIdx.toNat
  rw [hr hs, hr' hs', heq']

/-- A file that is done gives one block for each sequence number. -/
theorem Done.oneBlock (h : Done fecN f) (hok : HeaderOk f.bytes) : OneBlock (fileEntries f.bytes).reverse := by
  rcases h with hbare | ⟨⟨hd, hbytes⟩, hproper⟩
  · rw [hbare hok]
    exact fun _ he => nomatch he
  · apply oneBlock_placed
    intro e he
    rw [List.mem_reverse] at he
    unfold fileEntries at he
    rw [hbytes, List.drop_left' (fileHeader_length hd)] at he
    obtain ⟨r, hr, he⟩ := entries_whole (fun r hr => (hproper r hr).whole) _ e he
    exact ⟨r, (hproper r hr).placed, he⟩

theorem Done.sums (h : Done fecN f) (hload : loadLog f.bytes = .ok (some ls)) (cs : List Int8) :
    ∃ ls', cs.foldlM shellFilterDbm ls = .ok ls' ∧ BlockSums ls' := by
  obtain ⟨hok, -, ep, hl⟩ := loadLog_some hload
  exact commands_sums hl.loaded (h.oneBlock hok) cs

/-! ## The records of a session -/

/-- The sequence number of a fragment. -/
theorem seq_toNat {b f n : Nat} (hb : b ≤ maxBlockIdx) (hf : f < n) (hn : n ≤ 255) :
    (UInt64.ofNat b * (UInt8.ofNat n).toUInt64 + (UInt8.ofNat f).toUInt64).toNat = b * n + f := by
  unfold maxBlockIdx at hb
  have hmul : b * n ≤ (2 ^ 55 - 1) * 255 := Nat.mul_le_mul hb hn
  rw [UInt64.toNat_add, UInt64.toNat_mul, UInt64.toNat_ofNat', UInt8.toNat_toUInt64, UInt8.toNat_toUInt64, UInt8.toNat_ofNat',
    UInt8.toNat_ofNat', Nat.mod_eq_of_lt (show b < 2 ^ 64 by omega), Nat.mod_eq_of_lt (show n < 2 ^ 8 by omega),
    Nat.mod_eq_of_lt (show f < 2 ^ 8 by omega), Nat.mod_eq_of_lt (show b * n < 2 ^ 64 by omega), Nat.mod_eq_of_lt (by omega)]

theorem placed_frame {b f n : Nat} {r : LogRecord} (hb : BlockIdxOk b) (hf : f < n) (hn : n ≤ 255)
    (hblk : r.hd.blockIdx = UInt64.ofNat b)
    (hseq : r.hd.seq = UInt64.ofNat b * (UInt8.ofNat n).toUInt64 + (UInt8.ofNat f).toUInt64) : Placed (UInt8.ofNat n) r := by
  intro _
  have hn8 : (UInt8.ofNat n).toNat = n := by
    rw [UInt8.toNat_ofNat']
    omega
  rw [hblk, hseq, hn8]
  rcases hb with hb | rfl
  · rw [seq_toNat hb hf hn]
    unfold maxBlockIdx at hb
    have hmul : b * n ≤ (2 ^ 55 - 1) * 255 := Nat.mul_le_mul hb hn
    have hdiv : (b * n + f) / n = b := by
      rw [Nat.mul_comm, Nat.mul_add_div (by omega), Nat.div_eq_of_lt hf, Nat.add_zero]
    rw [if_pos (by omega), hdiv, UInt64.toNat_ofNat']
    omega
  · -- the numbers of no block are the last ones
    have hinval : (UInt64.ofNat blockInval).toNat = 2 ^ 64 - 1 := by decide
    have hlast : 2 ^ 63 ≤ (UInt64.ofNat blockInval * (UInt8.ofNat n).toUInt64 + (UInt8.ofNat f).toUInt64).toNat := by
      rw [UInt64.toNat_add, UInt64.toNat_mul, hinval, UInt8.toNat_toUInt64, UInt8.toNat_toUInt64, hn8, UInt8.toNat_ofNat',
        Nat.mod_eq_of_lt (show f < 2 ^ 8 by omega)]
      omega
    rw [if_neg (Nat.not_lt.mpr hlast), hinval]

theorem recordOf?_proper {node : RxNode} {ts : TimeSpec} {e : NodeEv} {r : LogRecord} (hts : ts.nsec.toNat < 1000000000)
    (hk : node.rx.fecK ≤ node.rx.fecN) (hn : node.rx.fecN ≤ 255) (hlog : ∀ e', e = .rx e' → Logged node.rx.fecK node.rx.fecN e')
    (h : recordOf? node ts e = some r) : Proper (UInt8.ofNat node.rx.fecN) r := by
  cases e with
  | logCorrupt =>
    cases h
    refine ⟨corruptRecord_whole _ _, fun _ => ?_, hts⟩
    have hseq : (corruptRecord (logContext node) ts).hd.seq.toNat = 0 := rfl
    rw [hseq, if_pos (by decide), Nat.zero_div]
    rfl
  | rx e =>
    have hlogged := hlog e rfl
    cases e with
    | logFrame b f size =>
      cases h
      exact ⟨frameRecord_whole _ _ _ _ _, placed_frame (.inl hlogged.1) hlogged.2 hn rfl rfl, hts⟩
    | logDecode b f data =>
      cases h
      exact ⟨decodeRecord_whole _ _ _ _ ⟨data, hlogged.2.2⟩,
        placed_frame hlogged.1 (lt_of_lt_of_le hlogged.2.1 hk) hn rfl rfl, hts⟩
    | _ => cases h
  | _ => cases h

/-! ## Steps of the node -/

variable {x : Externals} {lib : RadiotapLib} {node node' : RxNode}

/-- The indices a step of the node gives to the log. -/
theorem nodeStep_logged {i : NodeInput} {evs : List NodeEv} (hi : node.rx.hasSessionKey = true → IndexInv node.rx)
    (h : nodeStep x lib node i = .ok (node', evs)) :
    (node'.rx.hasSessionKey = true → IndexInv node'.rx) ∧ ∀ e ∈ rxEvs evs, Logged node.rx.fecK node.rx.fecN e := by
  rcases nodeStep_heard h with ⟨f, -, hs⟩ | ⟨-, hq, freq, dbm, noFec, hrx⟩
  · exact rxStep_logged hi hs
  · refine ⟨?_, fun e he => logged_other e (quiet_msg hq he).1 (quiet_msg hq he).2⟩
    rw [hrx]
    intro hk
    exact (hi hk).idle node.rx.wfb freq dbm noFec

/-! ## The files of one session -/

/-- From the `n0`-th on, the files are done or fit to go on with. -/
structure FilesFrom (fecN : UInt8) (n0 : Nat) (st : LogState) : Prop where
  count : n0 ≤ st.files.length
  left : ∀ f ∈ st.left.drop n0, Done fecN f
  fp : n0 ≤ st.left.length → ∀ f, st.log.fp = some f → Fit fecN f

variable {n0 : Nat} {st st' : LogState} {env : LogEnv}

theorem FilesFrom.all (h : FilesFrom fecN n0 st) : ∀ f ∈ st.files.drop n0, Done fecN f := by
  intro f hf
  unfold LogState.files at hf
  rw [List.drop_append] at hf
  rcases List.mem_append.mp hf with hf | hf
  · exact h.left f hf
  · by_cases hn : n0 ≤ st.left.length
    · have hopen := List.mem_of_mem_drop hf
      rw [Option.mem_toList] at hopen
      exact (h.fp hn f hopen).done
    · have hshort : st.log.fp.toList.length ≤ n0 - st.left.length := by
        have hone : st.log.fp.toList.length ≤ 1 := by cases st.log.fp <;> simp
        omega
      rw [List.drop_eq_nil_of_le hshort] at hf
      cases hf

theorem FilesFrom.grows (h : FilesFrom fecN n0 st) (hg : Grows (Proper fecN) st st') : FilesFrom fecN n0 st' := by
  obtain ⟨rs, hrs, hfp⟩ := hg.fp
  refine ⟨?_, ?_, ?_⟩
  · have hcount := h.count
    unfold LogState.files at hcount ⊢
    rw [hg.left, hfp]
    cases hopen : st.log.fp <;> simp_all
  · rw [hg.left]
    exact h.left
  · intro hn
    rw [hg.left] at hn
    exact hg.current (K := Fit fecN) (fun f rs hrs hf => hf.append hrs) (h.fp hn)

theorem FilesFrom.created (h : FilesFrom fecN n0 st) (hlive : st'.dead = false) (hc : Created fecN st.files st') :
    FilesFrom fecN n0 st' := by
  obtain ⟨gone, hleft, hgone⟩ := hc.left
  have hcount := h.count
  refine ⟨?_, ?_, fun _ => hc.fp hlive⟩
  · unfold LogState.files
    rw [hleft, List.length_append, List.length_append]
    omega
  · intro f hf
    rw [hleft, List.drop_append] at hf
    rcases List.mem_append.mp hf with hf | hf
    · exact h.all f hf
    · exact .inl (hgone f (List.mem_of_mem_drop hf))

theorem says_proper (hclock : ClockOk env) (n : Nat) (text : Option Bytes) : Says (Proper fecN) env n text := by
  intro ts seq type t hts ht hlen hm
  exact (says_note hclock n text ts seq type t hts ht hlen hm).proper

/-- A step's calls of the log. -/
theorem FilesFrom.logged (hclock : ClockOk env) (h : FilesFrom fecN n0 st) {o : CreateOutcome} {evs : List NodeEv}
    {said : List (List Message)} (hlive : (logEvs env node o evs said st).dead = false)
    (hrec : ∀ e ∈ evs, ∀ ts r, ts.nsec.toNat < 1000000000 → recordOf? node ts e = some r → Proper fecN r) :
    FilesFrom fecN n0 (logEvs env node o evs said st) := by
  refine logEvs_keeps (J := fun st => st.dead = false → FilesFrom fecN n0 st) (C := fun _ _ => True) ?_ ?_ hlive
    (atEach_of env (fun _ _ => trivial) _ _ _ _ _) (fun _ => h) hlive
  · intro st type text hf hlive'
    have hst : st.dead = false := by
      by_contra hdead
      rw [Bool.not_eq_false] at hdead
      exact absurd (rxLogHook_dead type text hdead) (Bool.not_eq_true _ ▸ hlive')
    exact (hf hst).grows (rxLogHook_grows (says_proper hclock _ _))
  · intro e he st hst _ hf hlive'
    by_cases hc : isCreate e = true
    · rw [logEv_create hc] at hlive' ⊢
      exact (hf hst).created hlive' (rxLogCreate_shape hclock fecN _ o hst)
    · refine (hf hst).grows (logEv_grows (says_proper hclock) (Bool.eq_false_iff.mpr hc) ?_)
      exact fun ts n r hts hr => hrec e he ts r (hclock n ts hts) hr

/-! ## The listener within a session -/

/-- If the input has the receiver accept a session, it is `s`. -/
def Stays (x : Externals) (lib : RadiotapLib) (s : Session) (l : Listener) (a : Arrival) : Prop :=
  ∀ f ∈ heard? lib l.node a.input, ∀ s' ∈ accepts? x l.node.rx f, s' = s

instance (s : Session) (l : Listener) (a : Arrival) : Decidable (Stays x lib s l a) :=
  inferInstanceAs (Decidable (∀ f ∈ heard? lib l.node a.input, ∀ s' ∈ accepts? x l.node.rx f, s' = s))

/-- The session is `s`, and the files from the `n0`-th on are of it. -/
structure Within (s : Session) (n0 : Nat) (l : Listener) : Prop where
  session : session l.node.rx = s
  fecK : s.fecK ≤ s.fecN
  fecN : s.fecN ≤ 255
  indices : l.node.rx.hasSessionKey = true → IndexInv l.node.rx
  files : FilesFrom (UInt8.ofNat s.fecN) n0 l.log

variable {s : Session} {l l' : Listener} {a : Arrival} {evs : List NodeEv}

theorem filesFrom_length (fecN : UInt8) (st : LogState) : FilesFrom fecN st.files.length st := by
  have hle : st.left.length ≤ st.files.length := by
    unfold LogState.files
    rw [List.length_append]
    omega
  refine ⟨le_refl _, ?_, ?_⟩
  · intro f hf
    rw [List.drop_eq_nil_of_le hle] at hf
    cases hf
  · intro hn f hf
    exfalso
    unfold LogState.files at hn
    rw [hf, List.length_append] at hn
    rw [Option.toList_some, List.length_singleton] at hn
    omega

/-- A step that accepts a session. -/
theorem within_accepted (hclock : ClockOk env) (hs : listenerStep env x lib l a = .ok (l', evs)) {f : RxFrame} {w : WfbContext}
    {hdr : WfbSessionHdr} {r : Rbuf} (hc : Checked (withFrame l.node.rx f w) hdr)
    (hst : Starts (withFrame l.node.rx f w) l'.node.rx hdr r)
    (hev : rxEvs evs = (if hdr.epoch ≤ l.node.rx.epoch then [.logCreate hdr.fecType hdr.fecK hdr.fecN] else []) ++ [.sessionDump])
    (h : FilesFrom (UInt8.ofNat hdr.fecN) n0 l.log) : Within (sessionOf hdr) n0 l' := by
  obtain ⟨-, hlog, -, hlive⟩ := listenerStep_ok hs
  have hfec : l'.node.rx.fecK = hdr.fecK ∧ l'.node.rx.fecN = hdr.fecN := by
    rw [hst.1]
    exact ⟨rfl, rfl⟩
  refine ⟨hst.session_eq, hc.fecK.2, hc.fecN, fun _ => hst.indexInv hc, ?_⟩
  rw [hlog] at hlive ⊢
  apply h.logged hclock hlive
  intro e he ts r hts hr
  have hproper := recordOf?_proper hts (by rw [hfec.1, hfec.2]; exact hc.fecK.2) (by rw [hfec.2]; exact hc.fecN) ?_ hr
  · rwa [hfec.2] at hproper
  · rintro e' rfl
    have hmem : e' ∈ rxEvs evs := mem_rxEvs.mpr he
    rw [hev, List.mem_append, List.mem_singleton] at hmem
    rcases hmem with hmem | rfl
    · split at hmem
      · rw [List.mem_singleton.mp hmem]
        trivial
      · cases hmem
    · trivial

theorem Within.step (hclock : ClockOk env) (h : Within s n0 l) (hstays : Stays x lib s l a)
    (hs : listenerStep env x lib l a = .ok (l', evs)) : Within s n0 l' := by
  obtain ⟨hnode, hlog, -, hlive⟩ := listenerStep_ok hs
  cases nodeStep_session hnode with
  | started hf hacc hc hst hev =>
    obtain rfl := hstays _ hf _ hacc
    exact within_accepted hclock hs hc hst hev h.files
  | kept _ hses _ =>
    obtain ⟨hindices, hlogged⟩ := nodeStep_logged h.indices hnode
    have hsession : Rx.session l'.node.rx = s := hses.trans h.session
    have hk : l'.node.rx.fecK = s.fecK ∧ l.node.rx.fecK = s.fecK :=
      ⟨congrArg Session.fecK hsession, congrArg Session.fecK h.session⟩
    have hn : l'.node.rx.fecN = s.fecN ∧ l.node.rx.fecN = s.fecN :=
      ⟨congrArg Session.fecN hsession, congrArg Session.fecN h.session⟩
    refine ⟨hsession, h.fecK, h.fecN, hindices, ?_⟩
    rw [hlog] at hlive ⊢
    apply h.files.logged hclock hlive
    intro e he ts r hts hr
    have hproper := recordOf?_proper hts (by rw [hk.1, hn.1]; exact h.fecK) (by rw [hn.1]; exact h.fecN) ?_ hr
    · rwa [hn.1] at hproper
    · rintro e' rfl
      have hlog' := hlogged e' (mem_rxEvs.mpr he)
      rw [hk.2, hn.2] at hlog'
      rw [hk.1, hn.1]
      exact hlog'

/-- However the listener came to accept a session: of each file it writes from then on, until
    it accepts another one, the block counters are sums, loaded and after any commands. -/
theorem block_sums (hclock : ClockOk env) {l0 l1 : Listener} (h1 : listenerStep env x lib l0 a = .ok (l1, evs))
    (hacc : evs.any isAccept = true) {is : List Arrival} {tr : List NodeEv}
    (h : Machine.Run (listenerStep env x lib) (Stays x lib (Rx.session l1.node.rx)) l1 is l tr) :
    ∀ f ∈ l.log.files.drop l0.log.files.length, ∀ ls, loadLog f.bytes = .ok (some ls) → BlockSums ls ∧
      ∀ cs : List Int8, ∃ ls', cs.foldlM shellFilterDbm ls = .ok ls' ∧ BlockSums ls' := by
  have hfirst : Within (Rx.session l1.node.rx) l0.log.files.length l1 := by
    cases nodeStep_session (listenerStep_ok h1).1 with
    | started _ _ hc hst hev =>
      rw [hst.session_eq]
      exact within_accepted hclock h1 hc hst hev (filesFrom_length _ _)
    | kept _ _ hno =>
      rw [(no_session hno).2] at hacc
      cases hacc
  have hlast : Within (Rx.session l1.node.rx) l0.log.files.length l := by
    refine h.inv (fun _ l _ => Within (Rx.session l1.node.rx) l0.log.files.length l) hfirst ?_
    rintro is l tr a l' evs hl hg hs
    exact hl.step hclock hg hs
  intro f hf ls hload
  have hsums := (hlast.files.all f hf).sums hload
  obtain ⟨ls', hrun, hnone⟩ := hsums []
  cases hrun
  exact ⟨hnone, hsums⟩

/-- The received frames of each block. -/
def LogStore.received (ls : LogStore) : List Nat := ls.blockKvh.map LogDataKv.nEthernetFrame

/-- One frame is received, and then filtered out. -/
theorem block_sums_run : ∃ l1 evs l tr f ls ls',
    steadyListener (listenerSetup 0 loaded false [] []) (relayed (sessionFrame 0 0 1 2 someKey)) = .ok (l1, evs) ∧
      Machine.Run steadyListener (Stays (numbered 1 2).externals basicIterator (Rx.session l1.node.rx)) l1
        [relayed (dataFrame 0 0 (withHdr 0 [7]) 0)] l tr ∧ l.log.files = [f] ∧ loadLog f.bytes = .ok (some ls) ∧
      ls.received = [1] ∧ BlockSums ls ∧ [0].foldlM shellFilterDbm ls = .ok ls' ∧ ls'.received = [0] ∧ BlockSums ls' := by
  have htest : Machine.returns (steadyListener (listenerSetup 0 loaded false [] []) (relayed (sessionFrame 0 0 1 2 someKey)))
    (fun p =>
      p.2.any isAccept && (Machine.exec steadyListener (Stays (numbered 1 2).externals basicIterator (Rx.session p.1.node.rx))
        [relayed (dataFrame 0 0 (withHdr 0 [7]) 0)] p.1).any fun q =>
          q.1.log.left.isEmpty && q.1.log.log.fp.any fun f => ((loadLog f.bytes).toOption.bind id).any fun ls =>
            decide (ls.received = [1]) && Machine.returns (shellFilterDbm ls 0) fun ls' => decide (ls'.received = [0])) =
              true := by
    decide +kernel
  obtain ⟨⟨l1, evs⟩, h1, hrest⟩ := Machine.returns_iff.mp htest
  rw [Bool.and_eq_true] at hrest
  obtain ⟨l, tr, hrun, hq'⟩ := Machine.exists_run _ _ _ _ _ hrest.2
  rw [Bool.and_eq_true, List.isEmpty_iff] at hq'
  obtain ⟨f, hf, hloads⟩ := (Option.any_eq_true _ _).mp hq'.2
  obtain ⟨ls, hls, hq⟩ := (Option.any_eq_true _ _).mp hloads
  rw [Bool.and_eq_true, decide_eq_true_iff] at hq
  obtain ⟨ls', hfilter, hzero⟩ := Machine.returns_iff.mp hq.2
  have hload := load_of_toOption hls
  have hcommands : [0].foldlM shellFilterDbm ls = .ok ls' := by
    rw [List.foldlM_cons, hfilter]
    rfl
  have hfiles : l.log.files = [f] := by
    unfold LogState.files
    rw [hq'.1, hf]
    rfl
  obtain ⟨hsums, hafter⟩ := block_sums (fun n ts hts => by cases hts; decide) h1 hrest.1 hrun f
    (hfiles ▸ List.mem_cons_self) ls hload
  obtain ⟨ls'', hrun', hsums'⟩ := hafter [0]
  cases hcommands.symm.trans hrun'
  exact ⟨l1, evs, l, tr, f, ls, ls', h1, hrun, hfiles, hload, hq.1, hsums, hcommands, of_decide_eq_true hzero, hsums'⟩

end WfbYa.Log
