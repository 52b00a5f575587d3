/-
  WfbYa.Log.ShellCommands — the commands of the analysis shell (`shell.c`, `log_summary.c`,
  `log_message.c`), and the loop that reads a line and invokes one.

  A command is looked up in a tree; a tree is a table of names, each with a function or with a
  tree of its own. What a command finds outside (files, `system`, GStreamer) is a
  `ShellWorld`, another one for each line: the files may be written in between, also by the
  shell.
-/

import WfbYa.Lib.CStrings
import WfbYa.Log.Analysed
import WfbYa.Log.FreeLog
import WfbYa.Log.LogH265
import WfbYa.Log.LogHist
import WfbYa.Log.LogJson
import WfbYa.Log.Shell

namespace WfbYa.Log

open WfbYa.Lib.CStrings WfbYa.Lib.Words

/-! ## What the shell has, and what it puts out -/

/-- How the program dies. -/
inductive ShellFault where
  | memory (f : Fault)
  | hist (f : HistFault)
  | free (f : FreeFault)
  | gst (f : GstFault)
  deriving DecidableEq

def inMemory {α : Type} (x : Except Fault α) : Except ShellFault α := x.mapError .memory

structure ShellWorld where
  /-- `fopen` for reading: what is in the file, or the text of the error. -/
  read : Bytes → Except Bytes Bytes
  writable : Bytes → Bool
  /-- The text of the error, if `system` fails. -/
  systemError : Bytes → Option Bytes
  gst : GstEnv
  /-- How often the waiting loop of `send_data` is run, at most. -/
  turns : Nat
  /-- The thread of a writer that is left uses its context. -/
  stray : Bool

/-- What stays of GStreamer from one command to the next. -/
structure Pipelines where
  /-- `player_ctx`. -/
  player : GstContext
  /-- The pipeline of a writer is left, whose context was on the stack. -/
  left : Bool

inductive Output where
  | prompt
  | newline
  | info (text : Bytes)
  | err (text : Bytes)
  | system (command : Bytes)
  /-- To the file, or to `fp_out`. -/
  | csv (file : Option Bytes) (lines : List (List (Option String)))
  | json (file : Option Bytes) (objs : List KvObj)
  | messages (lines : List (Bytes × Bytes))
  | hist (report : HistReport)
  | summary (lines : List Bytes)
  /-- `play_h265`. -/
  | play (evs : List GstEv)
  /-- `write_mp4`, or `write_mp4_enc`. -/
  | mp4 (file : Bytes) (enc : Bool) (evs : List GstEv)

/-- The trees there are pointers to. -/
inductive CmdTree where
  | top
  | write
  | show
  | filter
  deriving DecidableEq, Repr

structure ShellContext where
  ls : Option LogStore
  curTree : CmdTree
  /-- `s_addr` of `s_source`, which stays from one document to the next. -/
  sAddr : String
  pipelines : Pipelines

/-- A command that returned, or left the program. -/
structure ShellDone where
  ctx : ShellContext
  said : List Output
  rc : Int
  exited : Bool

/-! ## Tokens -/

/-- `token_next`. -/
def ShellToken.next (t : ShellToken) : ShellToken :=
  if maxToken ≤ t.curIdx + 1 then { t with curIdx := maxToken, cur := none }
  else { t with curIdx := t.curIdx + 1, cur := t.tok.getD (t.curIdx + 1) none }

/-- The string at `cur`. -/
def ShellToken.word (t : ShellToken) : Option Bytes := t.cur.map (cString t.buf)

/-- The loop of `expand_token`, with `size` bytes left behind what is stored. -/
def expandFrom (size : Nat) (sep : Bool) : List Bytes → Except Fault Bytes
  | [] => .ok []
  | w :: ws =>
    let text := (if sep then [charSpace] else []) ++ w
    if text.length < size then (expandFrom (size - text.length) true ws).map fun rest => text ++ rest
    else .error .outOfBounds

def expandToken (t : ShellToken) : Except Fault Bytes := expandFrom bufsiz false t.tokens

/-! ## summary_output, dump_message -/

def wfbFecVdmRsName : Bytes := ascii "VDM_RS (Reed-Solomon over Vandermonde Matrix)"

def sFectype (type : UInt8) : Bytes := if type.toNat = wfbFecVdmRs then wfbFecVdmRsName else ascii "Unknown"

def summaryLine (label : String) (value : Bytes) : Bytes := ascii label ++ ascii ": " ++ value ++ ascii "\n"

def summaryOutput (ls : LogStore) : List Bytes :=
  [ascii "---ORIGINAL DATA---\n",
    summaryLine "Channel ID" (decimal ls.channelId.toNat),
    summaryLine "FEC_TYPE" (sFectype ls.fecType),
    summaryLine "FEC_K" (decimal ls.fecK.toNat),
    summaryLine "FEC_N" (decimal ls.fecN.toNat),
    summaryLine "Number of Ethernet Frames" (decimal ls.summary.nPkts.toNat),
    summaryLine "Number of Ethernet Frames(with dbm)" (decimal ls.summary.nPktsWithDbm.toNat),
    summaryLine "Maximum dbm" (ascii (intText ls.summary.maxDbm.toInt)),
    summaryLine "minimum dbm" (ascii (intText ls.summary.minDbm.toInt)),
    summaryLine "Number of H.265 Frames" (decimal ls.summary.nFrames.toNat),
    summaryLine "Maximum frame size" (decimal ls.summary.maxFrameSize.toNat),
    summaryLine "minimum frame size" (decimal ls.summary.minFrameSize.toNat),
    summaryLine "Total H.265 bytes" (decimal ls.summary.totalBytes.toNat),
    ascii "---AFTER FILTER---\n",
    summaryLine "Frame recovered using FEC" (decimal (ls.kvh.countP LogDataKv.hasFecFrame)),
    summaryLine "Number of corrupted blocks" (decimal (ls.blockKvh.countP LogDataKv.hasLostFrame))]

/-- A message, behind its time; nothing of an empty one. -/
def dumpV (v : LogDataV) : Except Fault (List (Bytes × Bytes)) :=
  if v.size = 0 then .ok []
  else
    match v.buf with
    | none => .error .nullPointer
    | some buf =>
      if v.size.toNat ≤ buf.length then
        .ok [(ascii (intText v.ts.sec.toInt ++ "." ++ nsecText v.ts.nsec.toInt ++ ": "), buf.take v.size.toNat)]
      else .error .outOfBounds

def dumpMessage (ls : LogStore) : Except Fault (List (Bytes × Bytes)) :=
  ((ls.msgKvh.flatMap LogDataKv.vh).mapM fun i => dumpV (ls.v i)).map List.flatten

/-! ## The commands -/

abbrev ShellFunc := ShellWorld → ShellContext → ShellToken → Except ShellFault ShellDone

def failed (ctx : ShellContext) (said : List Output) : Except ShellFault ShellDone := .ok ⟨ctx, said, -1, false⟩

def noFileLoaded : Output := .info (ascii "No file loaded.\n")

/-- An output of the store, and `s_addr` behind it. -/
abbrev Printed := LogStore → String → Except ShellFault (Output × String)

/-- What needs a store: `before` is said when there is one. -/
def withStore (before : List Output) (out : Printed) (ctx : ShellContext) : Except ShellFault ShellDone :=
  match ctx.ls with
  | none => failed ctx [noFileLoaded]
  | some ls => do
    let r ← out ls ctx.sAddr
    return ⟨{ ctx with sAddr := r.2 }, before ++ [r.1], 0, false⟩

def printCsv (file : Option Bytes) : Printed := fun ls sAddr => .ok (.csv file (csvSerialize ls), sAddr)

def printJson (file : Option Bytes) : Printed :=
  fun ls sAddr => .ok (.json file (jsonSerialize ls sAddr), (kvh2yyjson ls ls.kvh sAddr).2)

def printJsonBlock (file : Option Bytes) : Printed :=
  fun ls sAddr => .ok (.json file (jsonSerializeBlock ls sAddr), (kvh2yyjson ls ls.blockKvh sAddr).2)

def printMessages : Printed := fun ls sAddr => inMemory ((dumpMessage ls).map fun m => (.messages m, sAddr))

def printHist : Printed := fun ls sAddr => ((logHist ls).map fun r => (.hist r, sAddr)).mapError .hist

def printSummary : Printed := fun ls sAddr => .ok (.summary (summaryOutput ls), sAddr)

def shellShowCsv : ShellFunc := fun _ ctx _ => withStore [] (printCsv none) ctx

def shellShowJson : ShellFunc := fun _ ctx _ => withStore [] (printJson none) ctx

def shellShowJsonBlock : ShellFunc := fun _ ctx _ => withStore [] (printJsonBlock none) ctx

def shellShowMessage : ShellFunc := fun _ ctx _ => withStore [] printMessages ctx

def shellShowHist : ShellFunc := fun _ ctx _ => withStore [] printHist ctx

def shellStat : ShellFunc := fun _ ctx _ => withStore [] printSummary ctx

/-- The player behind a command: an error on its bus has closed it. -/
def GstContext.behind (env : GstEnv) (ctx : GstContext) : GstContext :=
  { ctx with closing := ctx.closing || (ctx.initialized && (env.errorAt .player).isSome) }

def shellPlay : ShellFunc := fun w ctx _ =>
  match ctx.ls with
  | none => failed ctx [noFileLoaded]
  | some ls => do
    let evs ← (playH265 w.gst w.turns ctx.pipelines.player ls).mapError .gst
    let player := (initPlayer w.gst ctx.pipelines.player).behind w.gst
    return ⟨{ ctx with pipelines := { ctx.pipelines with player := player } }, [.play evs], 0, false⟩

/-- The argument that is missing, and the usage. -/
def missing (text : String) (argument : String) (t : ShellToken) (ctx : ShellContext) : Except ShellFault ShellDone := do
  let usage ← inMemory (expandToken t)
  failed ctx [.info (ascii text), .info (usage ++ ascii argument)]

/-- What writes a file. -/
def withFile (out : Bytes → ShellContext → Except ShellFault ShellDone) (ctx : ShellContext) (t : ShellToken) :
    Except ShellFault ShellDone :=
  match t.next.word with
  | none => missing "Missing argument\n" " <file_name>\n" t.next ctx
  | some file => out file ctx

/-- The file is opened once there is a store. -/
def shellWrite (out : Option Bytes → Printed) : ShellFunc := fun w ctx t =>
  withFile (fun file ctx =>
    if ctx.ls.isSome && !w.writable file then failed ctx [.info (ascii "Cannot open file: " ++ file ++ ascii "\n")]
    else withStore [] (out (some file)) ctx) ctx t

def shellWriteCsv : ShellFunc := shellWrite printCsv

def shellWriteJson : ShellFunc := shellWrite printJson

def shellWriteJsonBlock : ShellFunc := shellWrite printJsonBlock

/-- A name, one character for a byte. -/
def fileName (file : Bytes) : String := String.ofList (file.map fun c => Char.ofNat c.toNat)

abbrev Writer := GstEnv → Nat → GstContext → Option String → LogStore → Except GstFault (List GstEv)

/-- The writer's context is gone when it returns, its pipeline is not. -/
def shellMp4 (text : String) (enc : Bool) (write : Writer) : ShellFunc := fun w ctx t =>
  withFile (fun file ctx =>
    match ctx.ls with
    | none => failed ctx [noFileLoaded]
    | some ls => do
      let evs ← (write w.gst w.turns ctx.pipelines.player (some (fileName file)) ls).mapError .gst
      let writer := initWriter w.gst .zero (fileName file) enc
      let pipelines := ⟨ctx.pipelines.player.behind w.gst, ctx.pipelines.left || decide (writer.pipeline = .made)⟩
      return ⟨{ ctx with pipelines := pipelines }, [.info (ascii text ++ file ++ ascii "\n"), .mp4 file enc evs], 0, false⟩) ctx t

def shellWriteMp4 : ShellFunc := shellMp4 "Write to " false writeMp4

def shellWriteMp4Enc : ShellFunc := shellMp4 "Re-encoding and Write to " true writeMp4Enc

/-- `shell_filter_dbm`, up to the argument it filters by: what it says otherwise. -/
def dbmArgument (arg : Bytes) : Except Output Int8 :=
  if (strtol arg).2 ≠ [] then .error (.info (ascii "Invalid argument " ++ arg ++ ascii ".\n"))
  else if (strtol arg).1 < -128 ∨ 127 < (strtol arg).1 then .error (.info (ascii "dbm out of range.\n"))
  else .ok (Int8.ofInt (strtol arg).1)

/-- What `log_filter_dbm` prints, with the number of frames that FEC gives back. -/
def filterPrinted (ls : LogStore) (dbm : Int8) (nFec : Nat) : List Output :=
  let nFiltered := ls.seqVs.countP fun i =>
    (ls.v i).type = frameTypeInet6 ∧ (ls.v i).dbm ≠ dbmInval16 ∧ (ls.v i).dbm.toInt ≤ dbm.toInt
  [.info (decimal nFiltered ++ ascii " frames filtered.\n"), .info (decimal nFec ++ ascii " frames regenerated by FEC.\n")]

def shellFilterDbmCmd : ShellFunc := fun _ ctx t =>
  match t.next.word with
  | none | some [] => missing "Missing argument\n" " <dbm>\n" t.next ctx
  | some arg =>
    match ctx.ls with
    | none => failed ctx [noFileLoaded]
    | some ls =>
      match dbmArgument arg with
      | .error said => failed ctx [said]
      | .ok dbm => do
        let r ← inMemory (logFilterDbm (logFilterReset ls) dbm)
        return ⟨{ ctx with ls := some r.1 }, filterPrinted ls dbm r.2, 0, false⟩

/-- `p_err`. -/
def printErr (func : String) (text : Bytes) : List Output := [.err (ascii func ++ ascii ": "), .err text]

/-- `system`, and the error; its result is not used. -/
def systemRun (w : ShellWorld) (func : String) (command : Bytes) : List Output :=
  .system command ::
    match w.systemError command with
    | none => []
    | some why => printErr func (ascii "system() failed: " ++ why ++ ascii "\n")

def shellLs : ShellFunc := fun w ctx _ => .ok ⟨ctx, systemRun w "shell_ls" (ascii "ls"), 0, false⟩

/-- The loop of `load_log` once more, for what `process_frame_header` prints: the end of the
    file is for `p_debug`. -/
def framesPrinted : Nat → LogStore → Bytes → List Output
  | 0, _, _ => []
  | n + 1, ls, bs =>
    match processFrameHeader ls bs with
    | .ok (ls, .ok rest) => framesPrinted n ls rest
    | .ok (_, .error none) =>
      printErr "process_frame_header"
        (ascii "Unknown frame type " ++ decimal (RxLogFrameHeader.ofRaw bs).type.toNat ++ ascii ".\n")
    | _ => []

def loadPrinted (bytes : Bytes) : List Output :=
  match processFileHeader logStoreAlloc bytes with
  | .error text => if text = "End of File\n" then [] else printErr "process_file_header" (ascii text)
  | .ok (ls, rest) => framesPrinted (rest.length + 1) ls rest

def loadFile (w : ShellWorld) (file : Bytes) : Except Fault (Option LogStore × List Output) :=
  match w.read file with
  | .error why => .ok (none, [.info (ascii "Cannot open file " ++ file ++ ascii ": " ++ why ++ ascii "\n")])
  | .ok bytes => do
    let loading := Output.info (ascii "Loading " ++ file ++ ascii "...\n") :: loadPrinted bytes
    match ← loadLog bytes with
    | none => return (none, loading ++ [.info (ascii "Load error.\n")])
    | some ls => return (some ls, loading ++ [.info (decimal ls.summary.nPkts.toNat ++ ascii " packets loaded.\n")])

/-- `free_log`, of the store that was there. -/
def freeOld : Option LogStore → Except ShellFault Unit
  | none => .ok ()
  | some ls => ((freeLog ls).map fun _ => ()).mapError .free

/-- The store that was there is freed only once there is another. -/
def shellLoad : ShellFunc := fun w ctx t =>
  match t.next.word with
  | none => missing "Missing argument.\n" " <file_name>\n" t.next ctx
  | some file => do
    let r ← inMemory (loadFile w file)
    match r.1 with
    | none => failed ctx r.2
    | some ls => do
      freeOld ctx.ls
      return ⟨{ ctx with ls := some ls }, r.2, 0, false⟩

def shellExit : ShellFunc := fun _ ctx _ => .ok ⟨ctx, [.info (ascii "Exiting..\n")], 0, true⟩

/-! ## The tables -/

/-- The functions there are pointers to. -/
inductive ShellCmd where
  | ls
  | writeCsv
  | writeJson
  | writeJsonBlock
  | writeMp4
  | writeMp4Enc
  | showCsv
  | showJson
  | showJsonBlock
  | showMessage
  | showHist
  | filterDbm
  | play
  | stat
  | load
  | exit
  | help
  deriving DecidableEq, Repr

structure CmdDef where
  token : String
  subTree : Option CmdTree
  func : Option ShellCmd
  deriving DecidableEq, Repr

def CmdTree.cmds : CmdTree → List CmdDef
  | .top =>
    [⟨"ls", none, some .ls⟩, ⟨"write", some .write, none⟩, ⟨"show", some .show, none⟩, ⟨"filter", some .filter, none⟩,
      ⟨"play", none, some .play⟩, ⟨"stat", none, some .stat⟩, ⟨"load", none, some .load⟩, ⟨"exit", none, some .exit⟩,
      ⟨"quit", none, some .exit⟩, ⟨"help", none, some .help⟩, ⟨"?", none, some .help⟩]
  | .write =>
    [⟨"csv", none, some .writeCsv⟩, ⟨"json", none, some .writeJson⟩, ⟨"json_block", none, some .writeJsonBlock⟩,
      ⟨"mp4", none, some .writeMp4⟩, ⟨"mp4enc", none, some .writeMp4Enc⟩]
  | .show =>
    [⟨"csv", none, some .showCsv⟩, ⟨"json", none, some .showJson⟩, ⟨"json_block", none, some .showJsonBlock⟩,
      ⟨"message", none, some .showMessage⟩, ⟨"hist", none, some .showHist⟩]
  | .filter => [⟨"dbm", none, some .filterDbm⟩]

/-- The names, with blanks between them. -/
def helpNames (sep : Bool) : List CmdDef → List Output
  | [] => [.info (ascii "\n")]
  | d :: ds => .info ((if sep then ascii " " else []) ++ ascii d.token) :: helpNames true ds

def helpText (tree : CmdTree) : List Output :=
  .info (ascii (if tree ≠ .top then "Arguments:\n" else "Comands:\n")) :: helpNames false tree.cmds

def shellHelp : ShellFunc := fun _ ctx _ => .ok ⟨ctx, helpText ctx.curTree, 0, false⟩

def ShellCmd.run : ShellCmd → ShellFunc
  | .ls => shellLs
  | .writeCsv => shellWriteCsv
  | .writeJson => shellWriteJson
  | .writeJsonBlock => shellWriteJsonBlock
  | .writeMp4 => shellWriteMp4
  | .writeMp4Enc => shellWriteMp4Enc
  | .showCsv => shellShowCsv
  | .showJson => shellShowJson
  | .showJsonBlock => shellShowJsonBlock
  | .showMessage => shellShowMessage
  | .showHist => shellShowHist
  | .filterDbm => shellFilterDbmCmd
  | .play => shellPlay
  | .stat => shellStat
  | .load => shellLoad
  | .exit => shellExit
  | .help => shellHelp

def CmdTree.lookup (tree : CmdTree) (cur : Bytes) : Option CmdDef := tree.cmds.find? fun d => sameText cur (ascii d.token)

/-- `shell_invoke`, granted `n` calls of itself; each takes a token. -/
def shellInvoke (w : ShellWorld) : Nat → CmdTree → ShellContext → ShellToken → Except ShellFault ShellDone
  | 0, _, _, _ => .error (.memory .endless)
  | n + 1, tree, ctx, t =>
    let ctx := { ctx with curTree := tree }
    match t.word with
    | none => failed ctx (helpText tree)
    | some cur =>
      -- a question is not run
      match if t.query then none else (tree.lookup cur).bind CmdDef.func with
      | some f => f.run w ctx t
      | none =>
        match (tree.lookup cur).bind CmdDef.subTree with
        | some next => shellInvoke w n next ctx t.next
        | none => failed ctx (if t.query then helpText tree else [.info (ascii "Unknown command: " ++ cur ++ ascii "\n")])

/-! ## The session -/

/-- What `shell_read` has `system` run, once the line is read. -/
def readRun (w : ShellWorld) (t : ShellToken) : List Output :=
  if t.system ∧ t.buf.getD 0 0 ≠ 0 then systemRun w "shell_read" (cString t.buf 0) else []

/-- A line that was read. The thread of a writer that is left may come in between. -/
def shellLine (w : ShellWorld) (ctx : ShellContext) (t : ShellToken) : Except ShellFault ShellDone :=
  if ctx.pipelines.left && w.stray then .error (.gst .useAfterFree)
  else if t.system then .ok ⟨ctx, readRun w t, 0, false⟩
  else shellInvoke w (maxToken + 1) .top ctx t

/-- The lines for which there is a world, up to the end of the input or `exit`. -/
def shellLoop : List ShellWorld → Bytes → ShellContext → Except ShellFault (ShellContext × List Output)
  | [], _, ctx => .ok (ctx, [])
  | w :: ws, input, ctx => do
    let r ← inMemory (shellRead input)
    match r.1 with
    | none => return (ctx, [.prompt, .newline])
    | some t => do
      let d ← shellLine w ctx t
      if d.exited then return (d.ctx, .prompt :: d.said)
      else do
        let rest ← shellLoop ws r.2 d.ctx
        return (rest.1, .prompt :: (d.said ++ rest.2))

/-- No pipeline was ever made. -/
def Pipelines.zero : Pipelines := ⟨.zero, false⟩

/-- `shell_init`, and the file that is given on the command line. -/
def shellStart (w : ShellWorld) (file : Option Bytes) : Except Fault (ShellContext × List Output) :=
  match file with
  | none => .ok (⟨none, .top, "", .zero⟩, [])
  | some file => (loadFile w file).map fun r => (⟨r.1, .top, "", .zero⟩, r.2)

def shell (w : ShellWorld) (file : Option Bytes) (ws : List ShellWorld) (input : Bytes) :
    Except ShellFault (ShellContext × List Output) := do
  let s ← inMemory (shellStart w file)
  let r ← shellLoop ws input s.1
  return (r.1, s.2 ++ r.2)

end WfbYa.Log
