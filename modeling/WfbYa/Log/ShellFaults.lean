/-
  WfbYa.Log.ShellFaults — what an analysis session dies of.

  A line is cut into tokens within its arrays, the usage a command prints fits its buffer, and
  a message is written only where its bytes were read. What is left is the assertion on the
  size of a record, when a file is loaded, and four functions: `log_hist`, `free_log` of the
  file before, `send_data`, and what a writer of MP4 files leaves behind (`shell_survives`).

  - `expandToken_ok`: the usage.
  - `dumpMessage_ok`: the messages of a file.
  - `shellInvoke_runs`: what a line runs.
  - `shellLine_deadly`: one line.
-/

import WfbYa.Log.FreedOnce
import WfbYa.Log.Histogram
import WfbYa.Log.Replay
import WfbYa.Log.ShellSession

namespace WfbYa.Log

open WfbYa.Lib WfbYa.Lib.CStrings WfbYa.Lib.Words

variable {w : ShellWorld} {ctx : ShellContext} {t : ShellToken} {line : Bytes} {ws : List Bytes} {n : Nat} {e : ShellFault}
variable {ls : LogStore} {b : Option Bench} {W : List ShellWorld} {L : List Bytes} {d : ShellDone}

/-! ## The usage -/

/-- The words, each with a blank in front. -/
theorem expandFrom_ok {size : Nat} {sep : Bool} (h : ws.flatten.length + ws.length < size) :
    ∃ r, expandFrom size sep ws = .ok r := by
  induction ws generalizing size sep with
  | nil => exact ⟨[], rfl⟩
  | cons word ws ih =>
    rw [List.flatten_cons, List.length_append, List.length_cons] at h
    have htext : ((if sep then [charSpace] else []) ++ word).length ≤ word.length + 1 := by
      cases sep <;> simp
    obtain ⟨r, hr⟩ := @ih (size - ((if sep then [charSpace] else []) ++ word).length) true (by omega)
    exact ⟨_, by rw [expandFrom, if_pos (by omega), hr]; rfl⟩

theorem wordsOf_length (line : Bytes) : (wordsOf line).flatten.length + (wordsOf line).length ≤ line.length + 1 := by
  unfold wordsOf
  split
  · simp
  · exact take_runs_length maxToken line

theorem expandToken_ok (h : t.tokens.flatten.length + t.tokens.length ≤ bufsiz) : ∃ r, expandToken t = .ok r := by
  unfold expandToken
  cases ht : t.tokens with
  | nil => exact ⟨[], rfl⟩
  | cons word ws =>
    rw [ht, List.flatten_cons, List.length_append, List.length_cons] at h
    obtain ⟨r, hr⟩ := @expandFrom_ok ws (bufsiz - word.length) true (by omega)
    refine ⟨word ++ r, ?_⟩
    rw [expandFrom]
    simp only [Bool.false_eq_true, if_false, List.nil_append]
    rw [if_pos (by omega), hr]
    rfl

theorem next_tokens (t : ShellToken) : t.next.tokens = t.tokens := by
  unfold ShellToken.next
  split <;> rfl

/-! ## The messages -/

theorem dumpV_ok {v : LogDataV} (h : v.size ≠ 0 → ∃ buf, v.buf = some buf ∧ v.size.toNat ≤ buf.length) :
    ∃ r, dumpV v = .ok r := by
  unfold dumpV
  by_cases hsize : v.size = 0
  · exact ⟨[], if_pos hsize⟩
  · obtain ⟨buf, hbuf, hlen⟩ := h hsize
    rw [if_neg hsize, hbuf]
    exact ⟨_, if_pos hlen⟩

theorem mapM_ok {α β : Type} {f : α → Except Fault β} {l : List α} (h : ∀ a ∈ l, ∃ r, f a = .ok r) : ∃ r, l.mapM f = .ok r := by
  induction l with
  | nil => exact ⟨[], rfl⟩
  | cons a l ih =>
    obtain ⟨r, hr⟩ := h a List.mem_cons_self
    obtain ⟨rs, hrs⟩ := ih fun a' ha => h a' (List.mem_cons_of_mem a ha)
    exact ⟨r :: rs, by rw [List.mapM_cons, hr, hrs]; rfl⟩

/-- What is known of a message: its bytes are there, or it has none. -/
theorem message_whole {file : Bytes} (hb : Bones ls (fileEntries file).reverse) {kv : LogDataKv} (hkv : kv ∈ ls.msgKvh) {i : Nat}
    (hi : i ∈ kv.vh) (hsize : (ls.v i).size ≠ 0) : ∃ buf, (ls.v i).buf = some buf ∧ (ls.v i).size.toNat ≤ buf.length := by
  have hvh : kv.vh = idxs (under .msg kv.key) (fileEntries file).reverse := hb.vh (show kv ∈ ls.kvs .msg from hkv)
  rw [hvh] at hi
  obtain ⟨e, he, hu⟩ := mem_idxs.mp hi
  obtain ⟨x, ep, -, hx, hset⟩ := value_get hb.vs he
  have hmsg : e.isMsg = true := by
    simp only [under, Bool.and_eq_true] at hu
    exact hu.1
  have hmem : e ∈ fileEntries file := by
    rw [List.reverse_reverse] at he
    exact List.mem_of_getElem? he
  have hs : (ls.v i).size = if e.payload = none then 0 else e.hd.size := by
    rw [hx]
    exact congrArg LogDataV.size hset
  have hbuf : (ls.v i).buf = if e.payload = some [] then none else e.payload := by
    rw [hx]
    exact congrArg LogDataV.buf hset
  cases hp : e.payload with
  | none =>
    rw [hp] at hs
    exact absurd hs hsize
  | some p =>
    have hcarries : carriesPayload e.hd.type = true := by
      simp [carriesPayload, show isMsgType e.hd.type = true from hmsg]
    have hlen := entries_payload hmem hcarries hp
    rw [hp] at hs hbuf
    have hs' : (ls.v i).size = e.hd.size := hs
    have hne : p ≠ [] := by
      rintro rfl
      exact hsize (hs'.trans (UInt32.toNat_inj.mp hlen.symm))
    refine ⟨p, ?_, ?_⟩
    · rw [hbuf]
      simp [hne]
    · rw [hs', hlen]

theorem dumpMessage_ok {file : Bytes} (hb : Bones ls (fileEntries file).reverse) : ∃ r, dumpMessage ls = .ok r := by
  obtain ⟨r, hr⟩ := @mapM_ok _ _ (fun i => dumpV (ls.v i)) (ls.msgKvh.flatMap LogDataKv.vh) fun i hi => by
    obtain ⟨kv, hkv, hi⟩ := List.mem_flatMap.mp hi
    exact dumpV_ok (message_whole hb hkv hi)
  exact ⟨r.flatten, by unfold dumpMessage; rw [hr]; rfl⟩

/-! ## What a line runs -/

def commandAt : CmdTree → List Bytes → Option ShellCmd
  | _, [] => none
  | tree, cur :: rest => (tree.lookup cur).bind fun c => c.func.or (c.subTree.bind fun next => commandAt next rest)

/-- A question, and a line for `system`, runs nothing. -/
def commandOf (line : Bytes) : Option ShellCmd := if bang line || asked line then none else commandAt .top (wordsOf line)

/-- There are trees at the top only. -/
theorem sub_cmds {tree next : CmdTree} {c c' : CmdDef} (hc : c ∈ tree.cmds) (hnext : c.subTree = some next)
    (hc' : c' ∈ next.cmds) :
    c'.subTree = none := by
  have hall : ∀ tree : CmdTree, ∀ c ∈ tree.cmds, ∀ next ∈ c.subTree, ∀ c' ∈ next.cmds, c'.subTree = none := by
    intro tree
    cases tree <;> decide
  exact hall tree c hc next hnext c' hc'

theorem shellInvoke_runs (w : ShellWorld) (ctx : ShellContext) (t : ShellToken) :
    (∃ tree said, shellInvoke w (maxToken + 1) .top ctx t = failed { ctx with curTree := tree } said) ∨
    ∃ f tree t', t.query = false ∧ t'.tokens = t.tokens ∧ (∀ ws, Points t ws → t.curIdx = 0 → commandAt .top ws = some f) ∧
      shellInvoke w (maxToken + 1) .top ctx t = f.run w { ctx with curTree := tree } t' := by
  have hwords : ∀ {ws : List Bytes} {cur : Bytes}, Points t ws → t.curIdx = 0 → t.word = some cur → ∃ rest, ws = cur :: rest := by
    intro ws cur hp hidx hw
    rw [hp.word, hidx] at hw
    cases ws with
    | nil => cases hw
    | cons w rest =>
      cases hw
      exact ⟨rest, rfl⟩
  rcases shellInvoke_eq w maxToken .top ctx t with ⟨said, heq, -⟩ | ⟨cur, c, f, hw, hq, hl, hf, heq⟩
    | ⟨cur, c, next, hw, hl, hno, hs, heq⟩
  · exact .inl ⟨_, said, heq⟩
  · refine .inr ⟨f, .top, t, hq, rfl, fun ws hp hidx => ?_, heq⟩
    obtain ⟨rest, rfl⟩ := hwords hp hidx hw
    simp [commandAt, hl, hf]
  · rcases shellInvoke_eq w 9 next { ctx with curTree := .top } t.next with
      ⟨said, heq', -⟩ | ⟨cur', c', f, hw', hq, hl', hf, heq'⟩ | ⟨cur', c', next', hw', hl', -, hs', heq'⟩
    · exact .inl ⟨_, said, heq.trans heq'⟩
    · have hquery : t.query = false := by
        unfold ShellToken.next at hq
        split at hq <;> exact hq
      refine .inr ⟨f, next, t.next, hquery, next_tokens t, fun ws hp hidx => ?_, heq.trans heq'⟩
      obtain ⟨rest, rfl⟩ := hwords hp hidx hw
      have hsecond := hp.next.word
      rw [next_idx (by rw [hidx]; decide), hidx, hw'] at hsecond
      obtain ⟨rest', rfl⟩ : ∃ rest', rest = cur' :: rest' := by
        cases rest with
        | nil => cases hsecond
        | cons w rest =>
          cases hsecond
          exact ⟨rest, rfl⟩
      have hfunc : c.func = none := hno.resolve_left (by rw [hquery]; exact Bool.false_ne_true)
      simp [commandAt, hl, hfunc, hs, hl', hf]
    · rw [sub_cmds (lookup_some hl).1 hs (lookup_some hl').1] at hs'
      cases hs'

/-- A line says something, or runs its command. -/
theorem shellLine_runs (hr : ReadAs line t) (hline : Typed line) (hstray : (ctx.pipelines.left && w.stray) = false) :
    (∃ d, shellLine w ctx t = .ok d ∧ d.ctx.held = ctx.held) ∨
    ∃ f tree t', commandOf line = some f ∧ (∃ r, expandToken t'.next = .ok r) ∧
      shellLine w ctx t = f.run w { ctx with curTree := tree } t' := by
  unfold shellLine
  rw [hstray, if_neg Bool.false_ne_true, hr.system]
  cases hbang : bang line with
  | true => exact .inl ⟨_, rfl, rfl⟩
  | false =>
    rw [if_neg Bool.false_ne_true]
    rcases shellInvoke_runs w ctx t with ⟨tree, said, heq⟩ | ⟨f, tree, t', hq, htokens, hcommand, heq⟩
    · exact .inl ⟨_, heq, rfl⟩
    · have hask : asked line = false := (hr.query hbang).symm.trans hq
      refine .inr ⟨f, tree, t', ?_, ?_, heq⟩
      · unfold commandOf
        rw [hbang, hask]
        exact hcommand _ (hr.points hbang hask) hr.first
      · have hroom := hline.room
        rw [kept_plain (of_decide_eq_false hbang)] at hroom
        refine expandToken_ok ?_
        rw [next_tokens, htokens, hr.tokens hbang hask]
        exact Nat.le_trans (wordsOf_length line) hroom

def Orders (L : List Bytes) (f : ShellCmd) : Prop := ∃ line ∈ L, commandOf line = some f

def WritesMp4 (L : List Bytes) : Prop := Orders L .writeMp4 ∨ Orders L .writeMp4Enc

/-! ## A command -/

/-- A histogram of these can be printed. -/
structure HistOk (ls : LogStore) : Prop where
  fit : CountsFit (samples ls)
  below : ∀ d ∈ samples ls, place d < uint8Max
  some : samples ls = [] ∨ ∃ d ∈ samples ls, place d ≠ 0

def Found (W : List ShellWorld) (file : Bytes) : Prop := ∃ w ∈ W, ∃ name, w.read name = .ok file

/-- What the program may die of, when these are the worlds and the lines. -/
inductive Deadly (W : List ShellWorld) (L : List Bytes) : ShellFault → Prop
  /-- A file with a record that is too large is loaded. -/
  | oversize {file : Bytes} {e : Entry} : Found W file → HeaderOk file → e ∈ fileEntries file → e.oversize = true →
      Deadly W L (.memory .assertFailed)
  /-- The histogram of a file at hand. -/
  | hist {file : Bytes} {cs : List Int8} {ls : LogStore} {f : HistFault} : Orders L .showHist → Found W file →
      CommandsGive file cs ls → ¬ HistOk ls → logHist ls = .error f → Deadly W L (.hist f)
  /-- The file at hand is replaced. -/
  | free {file : Bytes} {cs : List Int8} {ls : LogStore} {f : FreeFault} : Orders L .load → Found W file →
      CommandsGive file cs ls → ¬ Releasable (fileEntries file) → freeLog ls = .error f → Deadly W L (.free f)
  /-- A record of the file at hand is waited for. -/
  | waits {w : ShellWorld} {file : Bytes} {cs : List Int8} {ls : LogStore} {v : LogDataV} :
    Orders L .play ∨ Orders L .writeMp4Enc →
      w ∈ W → Found W file → CommandsGive file cs ls → v ∈ ls.vs → Waits w.gst w.turns v.ts → Deadly W L (.gst .endless)
  /-- An MP4 file is written by way of a player that there is not. -/
  | noPlayer : WritesMp4 L → Deadly W L (.gst .nullPointer)
  | noElements {w : ShellWorld} : Orders L .play → w ∈ W → w.gst.init .player = .noElements → Deadly W L (.gst .nullPointer)
  | noPlaying {w : ShellWorld} : Orders L .play → w ∈ W → w.gst.init .player = .noPlaying → Deadly W L (.gst .useAfterFree)
  /-- The thread of a writer, whose context is gone. -/
  | stray {w : ShellWorld} : WritesMp4 L → w ∈ W → w.stray = true → Deadly W L (.gst .useAfterFree)

/-- The store is that of a file that was found. -/
def FromFile (W : List ShellWorld) (ls : LogStore) : Prop := ∃ file cs, Found W file ∧ CommandsGive file cs ls

theorem FromFile.bones (h : FromFile W ls) : ∃ file, Bones ls (fileEntries file).reverse := by
  obtain ⟨file, cs, -, ls0, hload, hrun⟩ := h
  obtain ⟨-, -, ep, hl⟩ := loadLog_some hload
  exact ⟨file, hl.loaded.bones.commands hrun⟩

/-- What earlier lines may have left of the pipelines. -/
structure PipelinesFrom (W : List ShellWorld) (L : List Bytes) (p : Pipelines) : Prop where
  freed : p.player.pipeline = .freed → Orders L .play ∧ ∃ w ∈ W, w.gst.init .player = .noPlaying
  left : p.left = true → WritesMp4 L

/-- What is held was found, and left by lines. -/
structure HeldFrom (W : List ShellWorld) (L : List Bytes) (ctx : ShellContext) : Prop where
  store : ∀ ls, ctx.ls = some ls → FromFile W ls
  pipelines : PipelinesFrom W L ctx.pipelines

theorem withStore_error {out : Printed} {before : List Output} (h : withStore before out ctx = .error e) :
    ∃ ls, ctx.ls = some ls ∧ out ls ctx.sAddr = .error e := by
  unfold withStore at h
  cases hls : ctx.ls with
  | none =>
    rw [hls] at h
    cases h
  | some ls =>
    rw [hls] at h
    rcases Machine.bind_error_iff.mp h with hout | ⟨r, -, hr⟩
    · exact ⟨ls, rfl, hout⟩
    · cases hr

theorem missing_error {text argument : String} (ht : ∃ r, expandToken t = .ok r) : missing text argument t ctx ≠ .error e := by
  obtain ⟨r, hr⟩ := ht
  unfold missing
  rw [hr]
  intro h
  cases h

theorem withFile_error {out : Bytes → ShellContext → Except ShellFault ShellDone} (ht : ∃ r, expandToken t.next = .ok r)
    (h : withFile out ctx t = .error e) : ∃ file, out file ctx = .error e := by
  unfold withFile at h
  split at h
  · exact absurd h (missing_error ht)
  · exact ⟨_, h⟩

theorem shellWrite_error {out : Option Bytes → Printed} (ht : ∃ r, expandToken t.next = .ok r)
    (h : shellWrite out w ctx t = .error e) :
    ∃ file ls, ctx.ls = some ls ∧ out file ls ctx.sAddr = .error e := by
  obtain ⟨file, h⟩ := withFile_error ht h
  split at h
  · cases h
  · obtain ⟨ls, hls, hout⟩ := withStore_error h
    exact ⟨some file, ls, hls, hout⟩

theorem loadFile_error {file : Bytes} {f : Fault} (h : loadFile w file = .error f) :
    f = .assertFailed ∧ ∃ bytes, w.read file = .ok bytes ∧ HeaderOk bytes ∧ ∃ e ∈ fileEntries bytes, e.oversize = true := by
  unfold loadFile at h
  cases hread : w.read file with
  | error why =>
    rw [hread] at h
    cases h
  | ok bytes =>
    rw [hread] at h
    rcases Machine.bind_error_iff.mp h with hload | ⟨o, -, ho⟩
    · by_cases hok : HeaderOk bytes
      · by_cases hsize : ∃ e ∈ fileEntries bytes, e.oversize = true
        · rw [loadLog_oversize hok hsize] at hload
          cases hload
          exact ⟨rfl, bytes, rfl, hok, hsize⟩
        · obtain ⟨ls, -, hload', -⟩ := loadLog_ok hok fun e he => Bool.eq_false_iff.mpr fun h0 => hsize ⟨e, he, h0⟩
          rw [hload'] at hload
          cases hload
      · rw [loadLog_none hok] at hload
        cases hload
    · cases o <;> cases ho

theorem loadFile_deadly {file : Bytes} {f : Fault} (hw : w ∈ W) (h : loadFile w file = .error f) : Deadly W L (.memory f) := by
  obtain ⟨rfl, bytes, hread, hok, en, hen, hover⟩ := loadFile_error h
  exact .oversize ⟨w, hw, file, hread⟩ hok hen hover

theorem freeOld_error {o : Option LogStore} (h : freeOld o = .error e) :
    ∃ ls f, o = some ls ∧ freeLog ls = .error f ∧ e = .free f := by
  cases o with
  | none => cases h
  | some ls =>
    obtain ⟨f, hf, rfl⟩ := Machine.mapError_error_iff.mp h
    exact ⟨ls, f, rfl, Machine.map_error_iff.mp hf, rfl⟩

theorem shellLoad_deadly (hw : w ∈ W) (hs : ∀ ls, ctx.ls = some ls → FromFile W ls) (horder : Orders L .load)
    (ht : ∃ r, expandToken t.next = .ok r) (h : shellLoad w ctx t = .error e) : Deadly W L e := by
  unfold shellLoad at h
  split at h
  · exact absurd h (missing_error ht)
  · rcases Machine.bind_error_iff.mp h with hr | ⟨⟨o, said⟩, -, hr⟩
    · obtain ⟨f, hf, rfl⟩ := Machine.mapError_error_iff.mp hr
      exact loadFile_deadly hw hf
    · cases o with
      | none => cases hr
      | some new =>
        rcases Machine.bind_error_iff.mp (show freeOld ctx.ls >>= _ = .error e from hr) with hold | ⟨u, -, hdone⟩
        · obtain ⟨ls, f, hls, hf, rfl⟩ := freeOld_error hold
          obtain ⟨file, cs, hfound, hgive⟩ := hs ls hls
          exact .free horder hfound hgive (freeLog_fault hgive hf) hf
        · cases hdone

theorem shellFilter_error (hs : ∀ ls, ctx.ls = some ls → FromFile W ls) (ht : ∃ r, expandToken t.next = .ok r) :
    shellFilterDbmCmd w ctx t ≠ .error e := by
  intro h
  unfold shellFilterDbmCmd at h
  split at h
  · exact missing_error ht h
  · exact missing_error ht h
  · cases hls : ctx.ls with
    | none =>
      rw [hls] at h
      cases h
    | some ls =>
      rw [hls] at h
      dsimp only at h
      split at h
      · cases h
      · rename_i dbm _
        obtain ⟨file, hbones⟩ := (hs ls hls).bones
        obtain ⟨ls', hrun, -⟩ := shellFilterDbm_spec hbones dbm
        unfold shellFilterDbm at hrun
        cases hf : logFilterDbm (logFilterReset ls) dbm with
        | error f =>
          rw [hf] at hrun
          cases hrun
        | ok r =>
          rw [hf] at h
          cases h

theorem printHist_deadly {s : String} (hs : FromFile W ls) (horder : Orders L .showHist) (h : printHist ls s = .error e) :
    Deadly W L e := by
  obtain ⟨f, hf, rfl⟩ := Machine.mapError_error_iff.mp h
  have hr : logHist ls = .error f := Machine.map_error_iff.mp hf
  obtain ⟨file, cs, hfound, hgive⟩ := hs
  refine .hist horder hfound hgive (fun hok => ?_) hr
  obtain ⟨rep, hrep⟩ := (logHist_returns ls).mpr ⟨hok.fit, hok.below, hok.some⟩
  rw [hr] at hrep
  cases hrep

theorem printMessages_error {s : String} (hs : FromFile W ls) : printMessages ls s ≠ .error e := by
  obtain ⟨file, hbones⟩ := hs.bones
  obtain ⟨r, hr⟩ := dumpMessage_ok hbones
  unfold printMessages
  rw [hr]
  intro h
  cases h

/-! ## The pipelines -/

/-- A player that was up has its pipeline. -/
theorem initPlayer_pipeline (env : GstEnv) (player : GstContext) :
    (initPlayer env player).pipeline = .made ∨
      (initPlayer env player).pipeline = .null ∧ env.init .player = .noElements ∨
      (initPlayer env player).pipeline = .freed ∧ env.init .player = .noPlaying := by
  unfold initPlayer
  split
  · rename_i hinit
    exact .inl (player.up hinit)
  · cases env.init .player with
    | noElements => exact .inr (.inl ⟨rfl, rfl⟩)
    | noPlaying => exact .inr (.inr ⟨rfl, rfl⟩)
    | noBus | playing => exact .inl rfl

theorem initPlayer_null {env : GstEnv} {player : GstContext} (h : (initPlayer env player).pipeline = .null) :
    env.init .player = .noElements := by
  rcases initPlayer_pipeline env player with hp | ⟨-, hinit⟩ | ⟨hp, -⟩
  · cases hp.symm.trans h
  · exact hinit
  · cases hp.symm.trans h

theorem initPlayer_freed {env : GstEnv} {player : GstContext} (h : (initPlayer env player).pipeline = .freed) :
    env.init .player = .noPlaying := by
  rcases initPlayer_pipeline env player with hp | ⟨hp, -⟩ | ⟨-, hinit⟩
  · cases hp.symm.trans h
  · cases hp.symm.trans h
  · exact hinit

theorem FromFile.listed (h : FromFile W ls) : ∀ i ∈ ls.listed .seq, i < ls.vs.length := by
  obtain ⟨file, hb⟩ := h.bones
  exact fun i hi => ((hb.mem_listed (by decide)).mp hi).1

theorem shellPlay_deadly (hw : w ∈ W) (hs : ∀ ls, ctx.ls = some ls → FromFile W ls) (horder : Orders L .play)
    (h : shellPlay w ctx t = .error e) : Deadly W L e := by
  unfold shellPlay at h
  split at h
  · cases h
  · rename_i ls hls
    rcases Machine.bind_error_iff.mp h with hsend | ⟨evs, -, hdone⟩
    · obtain ⟨f, hf, rfl⟩ := Machine.mapError_error_iff.mp hsend
      have hfile := hs ls hls
      rcases sendData_error hfile.listed hf with ⟨rfl, -, v, hv, hwaits⟩ | ⟨rfl, hnull⟩ | ⟨rfl, hfreed⟩
      · obtain ⟨file, cs, hfound, hgive⟩ := hfile
        exact .waits (.inl horder) hw hfound hgive hv hwaits
      · exact .noElements horder hw (initPlayer_null hnull)
      · exact .noPlaying horder hw (initPlayer_freed hfreed)
    · cases hdone

/-- The player as a writer of MP4 files finds it. -/
theorem mp4_deadly {env : GstWorld} {c : CtxId} {f : GstFault} (hw : w ∈ W) (hfile : FromFile W ls)
    (hplayer : PipelinesFrom W L ctx.pipelines)
    (horder : WritesMp4 L) (henv : env.player = ctx.pipelines.player)
    (hwaits : ((env.get c).file.isSome && !(env.get c).enc) = false → Orders L .writeMp4Enc)
    (h : sendData w.gst env w.turns c ls = .error f) : Deadly W L (.gst f) := by
  rcases sendData_error hfile.listed h with ⟨rfl, htick, v, hv, hwait⟩ | ⟨rfl, -⟩ | ⟨rfl, hfreed⟩
  · obtain ⟨file, cs, hfound, hgive⟩ := hfile
    exact .waits (.inr (hwaits htick)) hw hfound hgive hv hwait
  · exact .noPlayer horder
  · obtain ⟨hplay, w', hw', hinit⟩ := hplayer.freed (henv ▸ hfreed)
    exact .noPlaying hplay hw' hinit

/-- No writer waits whose frames are not encoded again. -/
theorem initWriter_fast (env : GstEnv) (file : String) : (initWriter env .zero file false).file.isSome = true ∧
    (initWriter env .zero file false).enc = false := by
  show (wfbGstContextInit (env.init .writer) (some file) false).file.isSome = true ∧
    (wfbGstContextInit (env.init .writer) (some file) false).enc = false
  cases env.init .writer <;> exact ⟨rfl, rfl⟩

theorem shellMp4_error {text : String} {enc : Bool} {write : Writer} (ht : ∃ r, expandToken t.next = .ok r)
    (h : shellMp4 text enc write w ctx t = .error e) :
    ∃ ls file f, ctx.ls = some ls ∧ write w.gst w.turns ctx.pipelines.player (some file) ls = .error f ∧ e = .gst f := by
  obtain ⟨file, h⟩ := withFile_error ht h
  dsimp only at h
  split at h
  · cases h
  · rename_i ls hls
    rcases Machine.bind_error_iff.mp h with hsend | ⟨evs, -, hdone⟩
    · obtain ⟨f, hf, rfl⟩ := Machine.mapError_error_iff.mp hsend
      exact ⟨ls, _, f, hls, hf, rfl⟩
    · cases hdone

theorem ShellCmd.run_deadly {f : ShellCmd} (h : f.run w ctx t = .error e) (hw : w ∈ W)
    (hheld : HeldFrom W L ctx) (horder : Orders L f)
    (ht : ∃ r, expandToken t.next = .ok r) : Deadly W L e := by
  have hs := hheld.store
  cases f with
  | ls | exit | help => cases h
  | writeCsv | writeJson | writeJsonBlock =>
    obtain ⟨file, ls, -, hout⟩ := shellWrite_error ht h
    cases hout
  | writeMp4 =>
    obtain ⟨ls, file, f, hls, hf, rfl⟩ := shellMp4_error ht h
    obtain ⟨hfile, henc⟩ := initWriter_fast w.gst file
    refine mp4_deadly hw (hs ls hls) hheld.pipelines (.inl horder) rfl (fun htick => ?_) hf
    have hfast : ((initWriter w.gst .zero file false).file.isSome && !(initWriter w.gst .zero file false).enc) = false := htick
    rw [hfile, henc] at hfast
    cases hfast
  | writeMp4Enc =>
    obtain ⟨ls, file, f, hls, hf, rfl⟩ := shellMp4_error ht h
    exact mp4_deadly hw (hs ls hls) hheld.pipelines (.inr horder) rfl (fun _ => horder) hf
  | showCsv | showJson | showJsonBlock | stat =>
    obtain ⟨ls, -, hout⟩ := withStore_error h
    cases hout
  | showMessage =>
    obtain ⟨ls, hls, hout⟩ := withStore_error h
    exact absurd hout (printMessages_error (hs ls hls))
  | showHist =>
    obtain ⟨ls, hls, hout⟩ := withStore_error h
    exact printHist_deadly (hs ls hls) horder hout
  | filterDbm => exact absurd h (@shellFilter_error w _ _ _ _ hs ht)
  | play => exact shellPlay_deadly (t := t) hw hs horder h
  | load => exact shellLoad_deadly hw hs horder ht h

theorem shellFilter_pipelines (h : shellFilterDbmCmd w ctx t = .ok d) : d.ctx.pipelines = ctx.pipelines := by
  unfold shellFilterDbmCmd at h
  split at h
  · exact held_pipelines (missing_keeps h)
  · exact held_pipelines (missing_keeps h)
  · split at h
    · cases h
      rfl
    · split at h
      · cases h
        rfl
      · obtain ⟨r, -, hd⟩ := Machine.bind_ok_iff.mp h
        cases hd
        rfl

theorem shellLoad_pipelines (h : shellLoad w ctx t = .ok d) : d.ctx.pipelines = ctx.pipelines := by
  unfold shellLoad at h
  split at h
  · exact held_pipelines (missing_keeps h)
  · obtain ⟨⟨o, said⟩, -, hr⟩ := Machine.bind_ok_iff.mp h
    cases o with
    | none =>
      cases hr
      rfl
    | some new =>
      obtain ⟨-, -, hd⟩ := Machine.bind_ok_iff.mp (show freeOld ctx.ls >>= _ = .ok d from hr)
      cases hd
      rfl

theorem ShellCmd.run_pipelines {f : ShellCmd} (h : f.run w ctx t = .ok d) (hw : w ∈ W) (hp : PipelinesFrom W L ctx.pipelines)
    (horder : Orders L f) : PipelinesFrom W L d.ctx.pipelines := by
  have hkept : d.ctx.held = ctx.held → PipelinesFrom W L d.ctx.pipelines := fun hheld => held_pipelines hheld ▸ hp
  have hmp4 : WritesMp4 L → ∀ {text enc write}, shellMp4 text enc write w ctx t = .ok d → PipelinesFrom W L d.ctx.pipelines := by
    intro hwrites text enc write h
    rcases shellMp4_ok h with hheld | ⟨-, file, heq⟩
    · exact hkept hheld
    · rw [heq]
      exact ⟨hp.freed, fun _ => hwrites⟩
  cases f with
  | ls | exit | help =>
    cases h
    exact hp
  | writeCsv | writeJson | writeJsonBlock => exact hkept (shellWrite_keeps h)
  | showCsv | showJson | showJsonBlock | showMessage | showHist | stat => exact hkept (withStore_keeps h)
  | filterDbm => exact (@shellFilter_pipelines w ctx t d h) ▸ hp
  | load => exact shellLoad_pipelines h ▸ hp
  | writeMp4 => exact hmp4 (.inl horder) h
  | writeMp4Enc => exact hmp4 (.inr horder) h
  | play =>
    rcases @shellPlay_ok w ctx t d h with hheld | ⟨-, heq⟩
    · exact hkept hheld
    · rw [heq]
      exact ⟨fun hfreed => ⟨horder, w, hw, initPlayer_freed hfreed⟩, hp.left⟩

/-! ## A session -/

theorem shellLine_deadly (hr : ReadAs line t) (hline : Typed line) (hmem : line ∈ L) (hw : w ∈ W) (hheld : HeldFrom W L ctx)
    (h : shellLine w ctx t = .error e) : Deadly W L e := by
  cases hstray : ctx.pipelines.left && w.stray with
  | true =>
    obtain ⟨hleft, hs⟩ := (Bool.and_eq_true _ _).mp hstray
    unfold shellLine at h
    rw [hstray] at h
    cases h
    exact .stray (hheld.pipelines.left hleft) hw hs
  | false =>
    rcases shellLine_runs hr hline hstray with ⟨d, hd, -⟩ | ⟨f, tree, t', hcommand, ht, heq⟩
    · rw [hd] at h
      cases h
    · rw [heq] at h
      exact ShellCmd.run_deadly h hw ⟨hheld.store, hheld.pipelines⟩ ⟨line, hmem, hcommand⟩ ht

theorem shellLine_pipelines (hr : ReadAs line t) (hline : Typed line) (hmem : line ∈ L) (hw : w ∈ W)
    (hp : PipelinesFrom W L ctx.pipelines) (h : shellLine w ctx t = .ok d) : PipelinesFrom W L d.ctx.pipelines := by
  cases hstray : ctx.pipelines.left && w.stray with
  | true =>
    unfold shellLine at h
    rw [hstray] at h
    cases h
  | false =>
    rcases shellLine_runs hr hline hstray with ⟨d', hd, hsame⟩ | ⟨f, tree, t', hcommand, -, heq⟩
    · cases hd.symm.trans h
      exact held_pipelines hsame ▸ hp
    · exact ShellCmd.run_pipelines (heq.symm.trans h) hw hp ⟨line, hmem, hcommand⟩

/-- The file at hand was found. -/
def BenchFrom (W : List ShellWorld) (b : Option Bench) : Prop := ∀ b', b = some b' → Found W b'.file

theorem BenchFrom.fromFile (h : BenchFrom W b) (hb : benchStore b = .ok ctx.ls) {ls : LogStore} (hls : ctx.ls = some ls) :
    FromFile W ls := by
  cases b with
  | none =>
    rw [hls] at hb
    cases hb
  | some b =>
    obtain ⟨ls0, hload, hstore, -⟩ := bench_store b
    refine ⟨b.file, b.cutOff.toList, h b rfl, ls0, hload, ?_⟩
    rw [hls] at hb
    unfold benchStore at hb
    dsimp only at hb
    rw [hstore] at hb
    cases hc : b.cutOff with
    | none =>
      rw [hc] at hb
      cases hb
      rfl
    | some c =>
      rw [hc, Option.elim_some] at hb
      cases hf : shellFilterDbm ls0 c with
      | error f =>
        rw [hf] at hb
        cases hb
      | ok ls1 =>
        rw [hf] at hb
        cases hb
        exact (show (shellFilterDbm ls0 c).bind Except.ok = _ by rw [hf]; rfl)

theorem benchOf_from {file : Bytes} (hw : w ∈ W) : BenchFrom W (benchOf w file) := by
  intro b hb
  unfold benchOf at hb
  cases hread : w.read file with
  | error why =>
    rw [hread] at hb
    cases hb
  | ok bytes =>
    rw [hread] at hb
    dsimp only at hb
    split at hb
    · cases hb
      exact ⟨w, hw, file, hread⟩
    · cases hb

theorem benchStep_from (hw : w ∈ W) (h : BenchFrom W b) : BenchFrom W (benchStep w line b) := by
  unfold benchStep
  split
  · exact h
  · cases orderOf (runs charSpace line) with
    | load file =>
      intro b' hb'
      rcases Option.or_eq_some_iff.mp hb' with hload | ⟨-, hold⟩
      · exact benchOf_from hw b' hload
      · exact h b' hold
    | cut c =>
      intro b' hb'
      obtain ⟨b0, hb0, rfl⟩ := Option.map_eq_some_iff.mp hb'
      exact h b0 hb0
    | other => exact h

theorem shellLoop_deadly {worlds : List ShellWorld} {lines : List Bytes} (hW : ∀ w ∈ worlds, w ∈ W)
    (hL : ∀ line ∈ lines, line ∈ L)
    (h : ∀ line ∈ lines, Typed line) (hb : benchStore b = .ok ctx.ls) (hfrom : BenchFrom W b)
    (hp : PipelinesFrom W L ctx.pipelines)
    (hdie : shellLoop worlds (typed lines) ctx = .error e) : Deadly W L e := by
  induction worlds generalizing lines ctx b with
  | nil => cases hdie
  | cons w worlds ih =>
    cases lines with
    | nil => cases hdie
    | cons line lines =>
      have hline := h line List.mem_cons_self
      have hmem := hL line List.mem_cons_self
      have hw := hW w List.mem_cons_self
      obtain ⟨t, hread, hr⟩ := shellRead_read hline
      have htyped : typed (line :: lines) = line ++ charNewline :: typed lines := by simp [typed]
      unfold shellLoop at hdie
      rw [htyped, hread] at hdie
      rcases Machine.bind_error_iff.mp (show shellLine w ctx t >>= _ = .error e from hdie) with hd | ⟨d, hd, hrest⟩
      · exact shellLine_deadly hr hline hmem hw ⟨fun ls hls => hfrom.fromFile hb hls, hp⟩ hd
      · split at hrest
        · cases hrest
        · rcases Machine.bind_error_iff.mp hrest with hloop | ⟨r, -, hr'⟩
          · exact ih (fun w' hw' => hW w' (List.mem_cons_of_mem w hw')) (fun l hl => hL l (List.mem_cons_of_mem line hl))
              (fun l hl => h l (List.mem_cons_of_mem line hl)) (shellLine_bench hr hb hd) (benchStep_from hw hfrom)
              (shellLine_pipelines hr hline hmem hw hp hd) hloop
          · cases hr'

theorem Pipelines.zero_from : PipelinesFrom W L .zero where
  freed h := by cases h
  left h := by cases h

end WfbYa.Log
