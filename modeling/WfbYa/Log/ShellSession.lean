/-
  WfbYa.Log.ShellSession — what an analysis session depends on.

  The shell works on one store, which every `filter` changes in place and `load` replaces, and
  the documents it writes go through a buffer that is never cleared. What is seen of a session
  is nevertheless what is seen when each line is done by a new shell, which loads the file that
  was loaded last and filters it once, by the last cut-off since (`shell_reloads`). Only the
  pipelines are taken over, with the player's state.

  - `shellInvoke_cases`: what `shell_invoke` does.
  - `filter_bench`: filtering again.
  - `shellLine_bench`: what a line does to the store.
-/

import WfbYa.Log.ShellAlike
import WfbYa.Log.ShellTokens

namespace WfbYa.Log

open WfbYa.Lib WfbYa.Lib.CStrings WfbYa.Lib.Words

/-! ## The file at hand -/

/-- A file that loads, and the cut-off it is seen with. -/
structure Bench where
  file : Bytes
  cutOff : Option Int8
  loads : ((loadLog file).toOption.bind id).isSome = true

/-- The file, loaded and filtered once. -/
def Bench.store (b : Bench) : Except Fault LogStore :=
  let ls := ((loadLog b.file).toOption.bind id).get b.loads
  match b.cutOff with
  | none => .ok ls
  | some c => shellFilterDbm ls c

def benchStore : Option Bench → Except Fault (Option LogStore)
  | none => .ok none
  | some b => b.store.map some

/-- What loading the file leaves at hand. -/
def benchOf (w : ShellWorld) (file : Bytes) : Option Bench :=
  match w.read file with
  | .error _ => none
  | .ok bytes => if h : ((loadLog bytes).toOption.bind id).isSome = true then some ⟨bytes, none, h⟩ else none

/-- What a line orders. -/
inductive Order where
  | load (file : Bytes)
  | cut (c : Int8)
  | other

def orderOf : List Bytes → Order
  | cmd :: arg :: rest =>
    if sameText cmd (ascii "load") then .load arg
    else if sameText cmd (ascii "filter") && sameText arg (ascii "dbm") then
      match rest with
      | [] => .other
      | dbm :: _ => (dbmArgument dbm).toOption.elim .other .cut
    else .other
  | _ => .other

def Order.step (w : ShellWorld) (b : Option Bench) : Order → Option Bench
  | .load file => (benchOf w file).or b
  | .cut c => b.map fun b => { b with cutOff := some c }
  | .other => b

/-- A question, and a line for `system`, orders nothing. -/
def benchStep (w : ShellWorld) (line : Bytes) (b : Option Bench) : Option Bench :=
  if bang line || asked line then b else (orderOf (runs charSpace line)).step w b

/-- A shell that has just started, with this at hand. -/
def afresh (b : Option Bench) (p : Pipelines) : Except ShellFault ShellContext :=
  inMemory ((benchStore b).map fun ls => ⟨ls, .top, "", p⟩)

/-- The line, read and done. -/
def typedLine (w : ShellWorld) (line : Bytes) (ctx : ShellContext) : Except ShellFault ShellDone := do
  let r ← inMemory (shellRead (line ++ [charNewline]))
  match r.1 with
  | none => return ⟨ctx, [.newline], 0, true⟩
  | some t => shellLine w ctx t

/-- Each line is done by another shell. -/
def reloadLoop : List ShellWorld → List Bytes → Option Bench → Pipelines → Except ShellFault (List Output)
  | [], _, _, _ => .ok []
  | _ :: _, [], _, _ => .ok [.prompt, .newline]
  | w :: ws, line :: lines, b, p => do
    let ctx ← afresh b p
    let d ← typedLine w line ctx
    if d.exited then return .prompt :: d.said
    else do
      let rest ← reloadLoop ws lines (benchStep w line b) d.ctx.pipelines
      return .prompt :: (d.said ++ rest)

def reloadSession (w : ShellWorld) (file : Option Bytes) (ws : List ShellWorld) (lines : List Bytes) :
    Except ShellFault (List Output) := do
  let s ← inMemory (shellStart w file)
  let rest ← reloadLoop ws lines (file.bind (benchOf w)) .zero
  return s.2 ++ rest

def typed (lines : List Bytes) : Bytes := lines.flatMap (· ++ [charNewline])

variable {w : ShellWorld} {ctx ctx' : ShellContext} {t : ShellToken} {d : ShellDone} {line : Bytes} {ws : List Bytes} {n : Nat}
variable {ls : LogStore} {b : Option Bench}

/-! ## What a line does to the store -/

theorem withStore_keeps {out : Printed} {before : List Output} (h : withStore before out ctx = .ok d) :
    d.ctx.held = ctx.held := by
  cases hls : ctx.ls with
  | none =>
    unfold withStore at h
    rw [hls] at h
    cases h
    rfl
  | some ls =>
    have hseen := @withStore_seen ctx ls out hls before
    rw [h] at hseen
    cases ho : out ls ctx.sAddr with
    | error e => rw [ho] at hseen; cases hseen
    | ok r =>
      rw [ho] at hseen
      exact congrArg Prod.fst (Except.ok.inj hseen)

theorem missing_keeps {text argument : String} (h : missing text argument t ctx = .ok d) : d.ctx.held = ctx.held := by
  unfold missing at h
  cases hu : inMemory (expandToken t) with
  | error e => rw [hu] at h; cases h
  | ok usage =>
    rw [hu] at h
    cases h
    rfl

theorem withFile_keeps {out : Bytes → ShellContext → Except ShellFault ShellDone}
    (hout : ∀ file, out file ctx = .ok d → d.ctx.held = ctx.held) (h : withFile out ctx t = .ok d) : d.ctx.held = ctx.held := by
  unfold withFile at h
  split at h
  · exact missing_keeps h
  · exact hout _ h

theorem shellWrite_keeps {out : Option Bytes → Printed} (h : shellWrite out w ctx t = .ok d) : d.ctx.held = ctx.held := by
  refine withFile_keeps (fun file h => ?_) h
  split at h
  · cases h
    rfl
  · exact withStore_keeps h

/-- What `play` and the writers of MP4 files change. -/
theorem shellPlay_ok (h : shellPlay w ctx t = .ok d) :
    d.ctx.held = ctx.held ∨ d.ctx.ls = ctx.ls ∧
      d.ctx.pipelines = { ctx.pipelines with player := (initPlayer w.gst ctx.pipelines.player).behind w.gst } := by
  unfold shellPlay at h
  split at h
  · cases h
    exact .inl rfl
  · obtain ⟨evs, -, hd⟩ := Machine.bind_ok_iff.mp h
    cases hd
    exact .inr ⟨rfl, rfl⟩

theorem shellMp4_ok {text : String} {enc : Bool} {write : Writer} (h : shellMp4 text enc write w ctx t = .ok d) :
    d.ctx.held = ctx.held ∨ d.ctx.ls = ctx.ls ∧ ∃ file, d.ctx.pipelines =
      ⟨ctx.pipelines.player.behind w.gst, ctx.pipelines.left || decide ((initWriter w.gst .zero file enc).pipeline = .made)⟩ := by
  unfold shellMp4 withFile at h
  split at h
  · exact .inl (missing_keeps h)
  · dsimp only at h
    split at h
    · cases h
      exact .inl rfl
    · obtain ⟨evs, -, hd⟩ := Machine.bind_ok_iff.mp h
      cases hd
      exact .inr ⟨rfl, _, rfl⟩

/-- All commands but two leave the store. -/
theorem ShellCmd.run_keeps {f : ShellCmd} (hload : f ≠ .load) (hfilter : f ≠ .filterDbm) (h : f.run w ctx t = .ok d) :
    d.ctx.ls = ctx.ls := by
  cases f with
  | load => exact absurd rfl hload
  | filterDbm => exact absurd rfl hfilter
  | ls | exit | help =>
    cases h
    rfl
  | writeCsv | writeJson | writeJsonBlock => exact held_ls (shellWrite_keeps h)
  | writeMp4 | writeMp4Enc => exact (shellMp4_ok h).elim held_ls And.left
  | play => exact (@shellPlay_ok _ _ t _ h).elim held_ls And.left
  | showCsv | showJson | showJsonBlock | showMessage | showHist | stat => exact held_ls (withStore_keeps h)

theorem lookup_some {tree : CmdTree} {cur : Bytes} {c : CmdDef} (h : tree.lookup cur = some c) :
    c ∈ tree.cmds ∧ sameText cur (ascii c.token) = true :=
  ⟨List.mem_of_find?_eq_some h, @List.find?_some _ (fun d : CmdDef => sameText cur (ascii d.token)) _ _ h⟩

theorem lookup_none {tree : CmdTree} {cur : Bytes} {c : CmdDef} (h : tree.lookup cur = none) (hc : c ∈ tree.cmds) :
    sameText cur (ascii c.token) = false := by
  have hne := List.find?_eq_none.mp h c hc
  simpa using hne

/-- What `shell_invoke` does: it only says something, runs a function, or goes down to the
    next tree. -/
theorem shellInvoke_eq (w : ShellWorld) (n : Nat) (tree : CmdTree) (ctx : ShellContext) (t : ShellToken) :
    (∃ said, shellInvoke w (n + 1) tree ctx t = failed { ctx with curTree := tree } said ∧
      ∀ cur c, t.word = some cur → tree.lookup cur = some c → (t.query = true ∨ c.func = none) ∧ c.subTree = none) ∨
    (∃ cur c f, t.word = some cur ∧ t.query = false ∧ tree.lookup cur = some c ∧ c.func = some f ∧
      shellInvoke w (n + 1) tree ctx t = f.run w { ctx with curTree := tree } t) ∨
    (∃ cur c next, t.word = some cur ∧ tree.lookup cur = some c ∧ (t.query = true ∨ c.func = none) ∧ c.subTree = some next ∧
      shellInvoke w (n + 1) tree ctx t = shellInvoke w n next { ctx with curTree := tree } t.next) := by
  rw [shellInvoke]
  cases hw : t.word with
  | none => exact .inl ⟨_, rfl, fun cur c hcur => by cases hcur⟩
  | some cur =>
    dsimp only
    cases hf : (if t.query then none else (tree.lookup cur).bind CmdDef.func) with
    | some f =>
      cases hq : t.query with
      | true =>
        rw [hq] at hf
        cases hf
      | false =>
        rw [hq] at hf
        obtain ⟨c, hl, hc⟩ := Option.bind_eq_some_iff.mp hf
        exact .inr (.inl ⟨cur, c, f, rfl, rfl, hl, hc, rfl⟩)
    | none =>
      have hno : ∀ c, tree.lookup cur = some c → t.query = true ∨ c.func = none := by
        intro c hl
        rw [hl] at hf
        cases hq : t.query with
        | true => exact .inl rfl
        | false =>
          rw [hq] at hf
          exact .inr hf
      dsimp only
      cases hs : (tree.lookup cur).bind CmdDef.subTree with
      | some next =>
        obtain ⟨c, hl, hc⟩ := Option.bind_eq_some_iff.mp hs
        exact .inr (.inr ⟨cur, c, next, rfl, hl, hno c hl, hc, rfl⟩)
      | none =>
        refine .inl ⟨_, rfl, fun cur' c hcur hl => ?_⟩
        cases hcur
        rw [hl] at hs
        exact ⟨hno c hl, hs⟩

theorem shellInvoke_cases {tree : CmdTree} (h : shellInvoke w (n + 1) tree ctx t = .ok d) :
    (d.ctx.held = ctx.held ∧ ∀ cur c, t.word = some cur → tree.lookup cur = some c →
    (t.query = true ∨ c.func = none) ∧ c.subTree = none) ∨
    (∃ cur c f, t.word = some cur ∧ t.query = false ∧ tree.lookup cur = some c ∧ c.func = some f ∧
      f.run w { ctx with curTree := tree } t = .ok d) ∨
    (∃ cur c next, t.word = some cur ∧ tree.lookup cur = some c ∧ (t.query = true ∨ c.func = none) ∧ c.subTree = some next ∧
      shellInvoke w n next { ctx with curTree := tree } t.next = .ok d) := by
  rcases shellInvoke_eq w n tree ctx t with ⟨said, heq, hno⟩ | ⟨cur, c, f, hw, hq, hl, hf, heq⟩
    | ⟨cur, c, next, hw, hl, hno, hs, heq⟩
  · rw [heq] at h
    cases h
    exact .inl ⟨rfl, hno⟩
  · exact .inr (.inl ⟨cur, c, f, hw, hq, hl, hf, heq ▸ h⟩)
  · exact .inr (.inr ⟨cur, c, next, hw, hl, hno, hs, heq ▸ h⟩)

/-- A question runs nothing. -/
theorem invoke_query {tree : CmdTree} (hq : t.query = true) (h : shellInvoke w n tree ctx t = .ok d) : d.ctx.ls = ctx.ls := by
  induction n generalizing tree ctx t with
  | zero => cases h
  | succ n ih =>
    have hnext : t.next.query = true := by
      unfold ShellToken.next
      split <;> exact hq
    rcases shellInvoke_cases h with ⟨hheld, -⟩ | ⟨-, -, -, -, hno, -⟩ | ⟨-, -, next, -, -, -, -, hrun⟩
    · exact held_ls hheld
    · rw [hq] at hno
      cases hno
    · have hls := ih hnext hrun
      exact hls

/-- Below `write` and `show` the store stays. -/
theorem invoke_keeps {tree : CmdTree} (htree : tree = .write ∨ tree = .show) (h : shellInvoke w n tree ctx t = .ok d) :
    d.ctx.ls = ctx.ls := by
  have hcmds : ∀ c ∈ tree.cmds, c.subTree = none ∧ c.func ≠ some .load ∧ c.func ≠ some .filterDbm := by
    rcases htree with rfl | rfl <;> decide
  cases n with
  | zero => cases h
  | succ n =>
    rcases shellInvoke_cases h with ⟨hheld, -⟩ | ⟨cur, c, f, -, -, hl, hf, hrun⟩ | ⟨cur, c, next, -, hl, -, hs, -⟩
    · exact held_ls hheld
    · obtain ⟨-, hload, hfilter⟩ := hcmds c (lookup_some hl).1
      rw [hf] at hload hfilter
      have hls := ShellCmd.run_keeps (fun he => hload (congrArg some he)) (fun he => hfilter (congrArg some he)) hrun
      exact hls
    · rw [(hcmds c (lookup_some hl).1).1] at hs
      cases hs

/-! ## The file at hand follows -/

theorem benchOf_some {file bytes : Bytes} (hread : w.read file = .ok bytes) (hload : loadLog bytes = .ok (some ls)) :
    ∃ b, benchOf w file = some b ∧ benchStore (some b) = .ok (some ls) := by
  have hloads : ((loadLog bytes).toOption.bind id).isSome = true := by
    rw [hload]
    rfl
  refine ⟨⟨bytes, none, hloads⟩, ?_, ?_⟩
  · unfold benchOf
    rw [hread]
    exact dif_pos hloads
  · simp [benchStore, Bench.store, hload, Except.toOption, Except.map]

theorem benchOf_none {file bytes : Bytes} (hread : w.read file = .ok bytes) (hload : loadLog bytes = .ok none) :
    benchOf w file = none := by
  have hloads : ¬ ((loadLog bytes).toOption.bind id).isSome = true := by
    rw [hload]
    exact Bool.false_ne_true
  unfold benchOf
  rw [hread]
  exact dif_neg hloads

/-- What `load_file` returns is what is at hand then. -/
theorem loadFile_bench {file : Bytes} {r : Option LogStore × List Output} (h : loadFile w file = .ok r) :
    (∀ ls, r.1 = some ls → ∃ b, benchOf w file = some b ∧ benchStore (some b) = .ok (some ls)) ∧
    (r.1 = none → benchOf w file = none) := by
  unfold loadFile at h
  cases hread : w.read file with
  | error why =>
    rw [hread] at h
    cases h
    refine ⟨fun ls hls => (by cases hls), fun _ => ?_⟩
    unfold benchOf
    rw [hread]
  | ok bytes =>
    rw [hread] at h
    cases hload : loadLog bytes with
    | error e =>
      simp only [hload] at h
      cases h
    | ok o =>
      simp only [hload] at h
      cases o with
      | none =>
        cases h
        exact ⟨fun ls hls => (by cases hls), fun _ => benchOf_none hread hload⟩
      | some ls =>
        cases h
        refine ⟨fun ls' hls => ?_, fun hls => (by cases hls)⟩
        cases hls
        exact benchOf_some hread hload

theorem bench_store (b : Bench) :
    ∃ ls0, loadLog b.file = .ok (some ls0) ∧ b.store = b.cutOff.elim (.ok ls0) (shellFilterDbm ls0) ∧
    ∀ c, ({ b with cutOff := some c } : Bench).store = shellFilterDbm ls0 c := by
  obtain ⟨ls0, hls0⟩ := Option.isSome_iff_exists.mp b.loads
  have hget : ((loadLog b.file).toOption.bind id).get b.loads = ls0 := Option.get_of_eq_some _ hls0
  refine ⟨ls0, load_of_toOption hls0, ?_, fun c => ?_⟩
  · unfold Bench.store
    rw [hget]
    cases b.cutOff <;> rfl
  · unfold Bench.store
    dsimp only
    rw [hget]

/-- Filtering the store at hand is filtering the file at hand, whatever it was filtered by. -/
theorem filter_bench {c : Int8} {ls' : LogStore} (hb : benchStore b = .ok (some ls)) (h : shellFilterDbm ls c = .ok ls') :
    benchStore (b.map fun b => { b with cutOff := some c }) = .ok (some ls') := by
  cases b with
  | none => cases hb
  | some b =>
    obtain ⟨ls0, hload, hstore, hcut⟩ := bench_store b
    obtain ⟨-, -, ep, hl⟩ := loadLog_some hload
    have hbones := hl.loaded.bones
    obtain ⟨ls1, hone, hf1⟩ := shellFilterDbm_spec hbones c
    have hsame : ls1 = ls' := by
      unfold benchStore at hb
      dsimp only at hb
      rw [hstore] at hb
      cases hc : b.cutOff with
      | none =>
        rw [hc] at hb
        cases hb
        exact Except.ok.inj (hone.symm.trans h)
      | some c0 =>
        obtain ⟨ls2, hrun2, hf2⟩ := shellFilterDbm_spec hbones c0
        rw [hc, Option.elim_some, hrun2] at hb
        cases hb
        obtain ⟨ls3, hrun3, hf3⟩ := shellFilterDbm_spec (hf2.bones hbones) c
        cases Except.ok.inj (hrun3.symm.trans h)
        exact hf1.unique (hf2.trans hbones hf3)
    unfold benchStore
    dsimp only [Option.map_some]
    rw [hcut, hone, hsame]
    rfl

theorem shellLoad_bench {file : Bytes} (hb : benchStore b = .ok ctx.ls) (hw : t.next.word = some file)
    (h : shellLoad w ctx t = .ok d) :
    benchStore ((benchOf w file).or b) = .ok d.ctx.ls := by
  unfold shellLoad at h
  rw [hw] at h
  dsimp only at h
  cases hr : loadFile w file with
  | error e =>
    rw [hr] at h
    cases h
  | ok r =>
    obtain ⟨hsome, hnone⟩ := loadFile_bench hr
    rw [hr] at h
    rcases r with ⟨o, said⟩
    cases o with
    | none =>
      cases h
      rw [hnone rfl]
      exact hb
    | some ls =>
      obtain ⟨-, -, hd⟩ := Machine.bind_ok_iff.mp (show freeOld ctx.ls >>= _ = .ok d from h)
      cases hd
      obtain ⟨b', hb', hstore⟩ := hsome ls rfl
      rw [hb']
      exact hstore

theorem shellFilter_bench {arg : Bytes} (hb : benchStore b = .ok ctx.ls) (hw : t.next.word = some arg) (harg : arg ≠ [])
    (h : shellFilterDbmCmd w ctx t = .ok d) :
    benchStore (((dbmArgument arg).toOption.elim .other Order.cut).step w b) = .ok d.ctx.ls := by
  unfold shellFilterDbmCmd at h
  rw [hw] at h
  cases arg with
  | nil => exact absurd rfl harg
  | cons c arg =>
    dsimp only at h
    cases hls : ctx.ls with
    | none =>
      rw [hls] at h
      cases h
      cases b with
      | none => cases hd : dbmArgument (c :: arg) <;> exact hb
      | some b =>
        obtain ⟨ls0, hload, hstore, -⟩ := bench_store b
        rw [hls] at hb
        unfold benchStore at hb
        dsimp only at hb
        cases hs : b.store with
        | error e => rw [hs] at hb; cases hb
        | ok ls => rw [hs] at hb; cases hb
    | some ls =>
      rw [hls] at h hb
      dsimp only at h
      cases hd : dbmArgument (c :: arg) with
      | error said =>
        rw [hd] at h
        cases h
        rw [← hls] at hb
        exact hb
      | ok dbm =>
        rw [hd] at h
        dsimp only at h
        cases hf : logFilterDbm (logFilterReset ls) dbm with
        | error e =>
          rw [hf] at h
          cases h
        | ok r =>
          rw [hf] at h
          cases h
          have hfilter : shellFilterDbm ls dbm = .ok r.1 := by
            unfold shellFilterDbm
            rw [hf]
            rfl
          exact filter_bench hb hfilter

theorem orderOf_other {cmd : Bytes} (hload : sameText cmd (ascii "load") = false)
    (hfilter : sameText cmd (ascii "filter") = false)
    (rest : List Bytes) : orderOf (cmd :: rest) = .other := by
  cases rest with
  | nil => rfl
  | cons arg rest => simp [orderOf, hload, hfilter]

/-- The names at the top, and what is behind them. -/
theorem top_cmds {c : CmdDef} (hc : c ∈ CmdTree.top.cmds) :
    c = ⟨"load", none, some .load⟩ ∨ c = ⟨"filter", some .filter, none⟩ ∨
      (sameText (ascii c.token) (ascii "load") = false ∧ sameText (ascii c.token) (ascii "filter") = false ∧
        (∀ f, c.func = some f → f ≠ .load ∧ f ≠ .filterDbm) ∧ (∀ next, c.subTree = some next → next = .write ∨ next = .show) ∧
        ¬ (c.func = none ∧ c.subTree = none)) := by
  revert c
  decide

theorem filter_cmds {c : CmdDef} (hc : c ∈ CmdTree.filter.cmds) : c = ⟨"dbm", none, some .filterDbm⟩ := List.mem_singleton.mp hc

theorem orderOf_filter {cmd : Bytes} (hcmd : sameText cmd (ascii "filter") = true) (arg : Bytes) (rest : List Bytes) :
    orderOf (cmd :: arg :: rest) =
      if sameText arg (ascii "dbm") then rest.head?.elim .other fun dbm =>
        (dbmArgument dbm).toOption.elim .other .cut else .other := by
  have hload : sameText cmd (ascii "load") = false := sameText_ne hcmd (by decide)
  simp only [orderOf, hload, hcmd, Bool.false_eq_true, if_false, Bool.true_and]
  cases rest <;> rfl

/-- Below `filter`: `t` is behind it. -/
theorem filter_order {cmd : Bytes} {rest : List Bytes} (hb : benchStore b = .ok ctx.ls)
    (hcmd : sameText cmd (ascii "filter") = true)
    (hword : t.word = rest[0]?) (hnext : t.next.word = rest[1]?) (hq : t.query = false) (hws : rest[1]? ≠ some [])
    (h : shellInvoke w (n + 1) .filter ctx t = .ok d) : benchStore ((orderOf (cmd :: rest)).step w b) = .ok d.ctx.ls := by
  cases rest with
  | nil =>
    have hnone : t.word = none := hword
    rcases shellInvoke_cases h with ⟨hheld, -⟩ | ⟨cur, c, f, hw, -⟩ | ⟨cur, c, next, hw, -⟩
    · rw [held_ls hheld]
      exact hb
    · rw [hnone] at hw
      cases hw
    · rw [hnone] at hw
      cases hw
  | cons arg rest =>
    have hsome : t.word = some arg := hword
    rw [orderOf_filter hcmd]
    rcases shellInvoke_cases h with ⟨hheld, hno⟩ | ⟨cur, c, f, hw, -, hl, hf, hrun⟩ | ⟨cur, c, next, hw, hl, -, hs, -⟩
    · have hdbm : sameText arg (ascii "dbm") = false := by
        cases hl : CmdTree.filter.lookup arg with
        | none => exact lookup_none hl (c := ⟨"dbm", none, some .filterDbm⟩) List.mem_cons_self
        | some c =>
          obtain ⟨hfunc, -⟩ := hno arg c hsome hl
          rw [filter_cmds (lookup_some hl).1, hq] at hfunc
          rcases hfunc with h0 | h0 <;> cases h0
      rw [hdbm, held_ls hheld]
      exact hb
    · rw [hsome] at hw
      cases hw
      obtain ⟨hmem, hsame⟩ := lookup_some hl
      rw [filter_cmds hmem] at hf hsame
      cases hf
      rw [if_pos hsame]
      cases rest with
      | nil =>
        have hnone : t.next.word = none := hnext
        have hrun' : shellFilterDbmCmd w { ctx with curTree := .filter } t = .ok d := hrun
        unfold shellFilterDbmCmd at hrun'
        rw [hnone] at hrun'
        have hls := held_ls (missing_keeps hrun')
        rw [hls]
        exact hb
      | cons dbm rest =>
        have hdbm : dbm ≠ [] := fun h0 => hws (by rw [h0]; rfl)
        exact @shellFilter_bench w { ctx with curTree := .filter } _ _ _ _ hb hnext hdbm hrun
    · rw [filter_cmds (lookup_some hl).1] at hs
      cases hs

/-- `load`. -/
theorem load_order {cmd : Bytes} {rest : List Bytes} (hb : benchStore b = .ok ctx.ls) (hcmd : sameText cmd (ascii "load") = true)
    (hnext : t.next.word = rest[0]?) (h : shellLoad w ctx t = .ok d) :
    benchStore ((orderOf (cmd :: rest)).step w b) = .ok d.ctx.ls := by
  cases rest with
  | nil =>
    have hnone : t.next.word = none := hnext
    unfold shellLoad at h
    rw [hnone] at h
    rw [held_ls (missing_keeps h)]
    exact hb
  | cons arg rest =>
    have horder : orderOf (cmd :: arg :: rest) = .load arg := if_pos hcmd
    rw [horder]
    exact shellLoad_bench hb hnext h

theorem invoke_order (hb : benchStore b = .ok ctx.ls) (hp : Points t ws) (hidx : t.curIdx = 0) (hq : t.query = false)
    (hws : ws[2]? ≠ some []) (h : shellInvoke w (maxToken + 1) .top ctx t = .ok d) :
    benchStore ((orderOf ws).step w b) = .ok d.ctx.ls := by
  have hone : t.next.curIdx = 1 := by
    rw [next_idx (by rw [hidx]; decide), hidx]
  have htwo : t.next.next.curIdx = 2 := by
    rw [next_idx (by rw [hone]; decide), hone]
  have hword : t.word = ws[0]? := by rw [hp.word, hidx]
  have hnext : t.next.word = ws[1]? := by rw [hp.next.word, hone]
  have hnext2 : t.next.next.word = ws[2]? := by rw [hp.next.next.word, htwo]
  have hq' : t.next.query = false := by
    unfold ShellToken.next
    split <;> exact hq
  cases ws with
  | nil =>
    have hnone : t.word = none := hword
    rcases shellInvoke_cases h with ⟨hheld, -⟩ | ⟨cur, c, f, hw, -⟩ | ⟨cur, c, next, hw, -⟩
    · rw [held_ls hheld]
      exact hb
    · rw [hnone] at hw
      cases hw
    · rw [hnone] at hw
      cases hw
  | cons cmd rest =>
    have hsome : t.word = some cmd := hword
    rcases shellInvoke_cases h with ⟨hheld, hno⟩ | ⟨cur, c, f, hw, -, hl, hf, hrun⟩ | ⟨cur, c, next, hw, hl, -, hs, hrun⟩
    · cases hl : CmdTree.top.lookup cmd with
      | none =>
        have hload : sameText cmd (ascii "load") = false := lookup_none hl (c := ⟨"load", none, some .load⟩) (by decide)
        have hfilter : sameText cmd (ascii "filter") = false := lookup_none hl (c := ⟨"filter", some .filter, none⟩) (by decide)
        rw [orderOf_other hload hfilter, held_ls hheld]
        exact hb
      | some c =>
        obtain ⟨hfunc, hsub⟩ := hno cmd c hsome hl
        rw [hq] at hfunc
        have hnil : c.func = none := hfunc.resolve_left Bool.false_ne_true
        rcases top_cmds (lookup_some hl).1 with rfl | rfl | ⟨-, -, -, -, hboth⟩
        · cases hnil
        · cases hsub
        · exact absurd ⟨hnil, hsub⟩ hboth
    · rw [hsome] at hw
      cases hw
      obtain ⟨hmem, hsame⟩ := lookup_some hl
      rcases top_cmds hmem with rfl | rfl | ⟨hload, hfilter, hfunc, -, -⟩
      · cases hf
        exact @load_order w { ctx with curTree := .top } _ _ _ _ _ hb hsame hnext hrun
      · cases hf
      · have hls := ShellCmd.run_keeps (hfunc f hf).1 (hfunc f hf).2 hrun
        rw [orderOf_other (sameText_ne hsame hload) (sameText_ne hsame hfilter), hls]
        exact hb
    · rw [hsome] at hw
      cases hw
      obtain ⟨hmem, hsame⟩ := lookup_some hl
      rcases top_cmds hmem with rfl | rfl | ⟨hload, hfilter, -, hnexts, -⟩
      · cases hs
      · cases hs
        exact @filter_order w { ctx with curTree := .top } _ _ _ _ _ _ hb hsame hnext hnext2 hq' hws hrun
      · have hls := invoke_keeps (hnexts next hs) hrun
        rw [orderOf_other (sameText_ne hsame hload) (sameText_ne hsame hfilter), hls]
        exact hb

/-! ## The session -/

theorem runs_ne_nil {word : Bytes} (h : word ∈ runs charSpace line) : word ≠ [] := of_decide_eq_true (List.mem_filter.mp h).2

/-- The words that are cut off do not count. -/
theorem orderOf_words (line : Bytes) : orderOf (wordsOf line) = orderOf (runs charSpace line) := by
  unfold wordsOf
  split
  · rename_i h
    rw [h]
    rfl
  · rcases runs charSpace line with _ | ⟨cmd, _ | ⟨arg, _ | ⟨dbm, rest⟩⟩⟩ <;> rfl

theorem wordsOf_third (line : Bytes) : (wordsOf line)[2]? ≠ some [] := by
  intro h
  unfold wordsOf at h
  split at h
  · cases h
  · exact runs_ne_nil (List.mem_of_mem_take (List.mem_of_getElem? h)) rfl

theorem shellLine_bench (hr : ReadAs line t) (hb : benchStore b = .ok ctx.ls) (h : shellLine w ctx t = .ok d) :
    benchStore (benchStep w line b) = .ok d.ctx.ls := by
  unfold shellLine at h
  split at h
  · cases h
  rw [hr.system] at h
  unfold benchStep
  cases hbang : bang line with
  | true =>
    rw [hbang] at h
    cases h
    exact hb
  | false =>
    rw [hbang] at h
    have hq := hr.query hbang
    cases hask : asked line with
    | true =>
      have hls := invoke_query (hq.trans hask) h
      rw [hls]
      exact hb
    | false =>
      have horder := invoke_order hb (hr.points hbang hask) hr.first (hq.trans hask) (wordsOf_third line) h
      rw [orderOf_words] at horder
      exact horder

theorem typedLine_read (hread : ∀ rest, shellRead (line ++ charNewline :: rest) = .ok (some t, rest)) (ctx : ShellContext) :
    typedLine w line ctx = shellLine w ctx t := by
  unfold typedLine
  rw [hread []]
  rfl

/-- One line, by the shell and by a new one. -/
theorem line_reloads (h : Typed line) (hb : benchStore b = .ok ctx.ls) :
    ∃ t, (∀ rest, shellRead (line ++ charNewline :: rest) = .ok (some t, rest)) ∧
      (∀ d, shellLine w ctx t = .ok d → benchStore (benchStep w line b) = .ok d.ctx.ls) ∧
      ∃ ctx', afresh b ctx.pipelines = .ok ctx' ∧ (shellLine w ctx t).map ShellDone.seen =
        (typedLine w line ctx').map ShellDone.seen := by
  obtain ⟨t, hread, hr⟩ := shellRead_read h
  refine ⟨t, hread, fun d hd => shellLine_bench hr hb hd, ⟨ctx.ls, .top, "", ctx.pipelines⟩, ?_, ?_⟩
  · unfold afresh
    rw [hb]
    rfl
  · rw [typedLine_read hread]
    exact @shellLine_alike w ctx ⟨ctx.ls, .top, "", ctx.pipelines⟩ rfl t

theorem shellLoop_reloads (worlds : List ShellWorld) {lines : List Bytes} (h : ∀ line ∈ lines, Typed line)
    (hb : benchStore b = .ok ctx.ls) :
    (shellLoop worlds (typed lines) ctx).map Prod.snd = reloadLoop worlds lines b ctx.pipelines := by
  induction worlds generalizing lines ctx b with
  | nil => rfl
  | cons w worlds ih =>
    cases lines with
    | nil => rfl
    | cons line lines =>
      obtain ⟨t, hread, hstep, ctx', hfresh, hseen⟩ := @line_reloads w ctx line b (h line List.mem_cons_self) hb
      have htyped : typed (line :: lines) = line ++ charNewline :: typed lines := by simp [typed]
      unfold shellLoop reloadLoop
      rw [htyped, hread, hfresh]
      show ((shellLine w ctx t).bind _).map _ = (typedLine w line ctx').bind _
      cases hd : shellLine w ctx t with
      | error e =>
        cases hd' : typedLine w line ctx' with
        | error e' =>
          rw [hd, hd'] at hseen
          cases hseen
          rfl
        | ok d' =>
          rw [hd, hd'] at hseen
          cases hseen
      | ok d =>
        cases hd' : typedLine w line ctx' with
        | error e' =>
          rw [hd, hd'] at hseen
          cases hseen
        | ok d' =>
          rw [hd, hd'] at hseen
          have hsame : d.seen = d'.seen := Except.ok.inj hseen
          have hsaid : d.said = d'.said := congrArg (fun x => x.2.1) hsame
          have hexit : d.exited = d'.exited := congrArg (fun x => x.2.2.2) hsame
          have hkept : d.ctx.pipelines = d'.ctx.pipelines := congrArg (fun x => x.1.2) hsame
          have hrest := @ih d.ctx (benchStep w line b) lines (fun l hl => h l (List.mem_cons_of_mem _ hl)) (hstep d hd)
          show (if d.exited then _ else _ : Except ShellFault (ShellContext × List Output)).map _ = if d'.exited then _ else _
          rw [← hexit, ← hsaid, ← hkept, ← hrest]
          cases d.exited with
          | true => rfl
          | false =>
            show ((shellLoop worlds (typed lines) d.ctx).bind _).map _ =
              ((shellLoop worlds (typed lines) d.ctx).map Prod.snd).bind _
            cases shellLoop worlds (typed lines) d.ctx <;> rfl

theorem shellStart_bench {file : Option Bytes} {s : ShellContext × List Output} (h : shellStart w file = .ok s) :
    benchStore (file.bind (benchOf w)) = .ok s.1.ls ∧ s.1.pipelines = .zero := by
  unfold shellStart at h
  cases file with
  | none =>
    cases h
    exact ⟨rfl, rfl⟩
  | some file =>
    dsimp only at h
    cases hr : loadFile w file with
    | error e =>
      rw [hr] at h
      cases h
    | ok r =>
      rw [hr] at h
      cases h
      obtain ⟨hsome, hnone⟩ := loadFile_bench hr
      refine ⟨?_, rfl⟩
      show benchStore (benchOf w file) = .ok r.1
      cases ho : r.1 with
      | none =>
        rw [hnone ho]
        rfl
      | some ls =>
        obtain ⟨b, hb, hstore⟩ := hsome ls ho
        rw [hb]
        exact hstore

instance : Decidable (Typed line) :=
  decidable_of_iff ((0 : UInt8) ∉ line ∧ charNewline ∉ line ∧ (kept line).length < bufsiz)
    ⟨fun h => ⟨h.1, h.2.1, h.2.2⟩, fun h => ⟨h.nul, h.newline, h.room⟩⟩

/-- Every file is this one, and pipelines come up. -/
def allFiles (file : Bytes) : ShellWorld where
  read := fun _ => .ok file
  writable := fun _ => true
  systemError := fun _ => none
  gst := ⟨fun _ => .playing, fun _ => none, fun _ => false, fun n => ⟨Int64.ofNat n, 0⟩⟩
  turns := 10
  stray := false

def someLines : List Bytes :=
  [ascii "load a", ascii "FILTER dbm -42", ascii "play", ascii "write json b", ascii "filter dbm -60", ascii "load ?",
    ascii "write mp4 c", ascii "load d", ascii "show csv", ascii "exit"]

end WfbYa.Log
