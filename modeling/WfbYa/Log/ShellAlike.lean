/-
  WfbYa.Log.ShellAlike — what the shell's commands put out depends on the store and on the
  pipelines alone.

  The documents are written by way of `s_addr`, which no command clears: a document refers to
  it only where it has stored an address in it (`jsonSerializeKvh_buffer`). What is left of an
  earlier command is so never seen by a later one, but by the store and by what is played
  (`shellLine_alike`).
-/

import WfbYa.Log.ShellCommands

namespace WfbYa.Log

variable {w : ShellWorld} {ctx ctx' : ShellContext} {t : ShellToken} {ls : LogStore}

/-! ## The buffer of the documents -/

theorem sSource_event (event : LogDataV → String → Members) (hevent : ∀ v s s', v.rxSrc = none → event v s = event v s')
    (v : LogDataV) (s s' : String) : event v (sSource v s) = event v (sSource v s') := by
  cases hv : v.rxSrc with
  | none => exact hevent v _ _ hv
  | some a =>
    unfold sSource
    rw [hv]

/-- Nothing refers to the buffer. -/
def NoRef (ms : Members) : Prop := ∀ m ∈ ms, m.2 ≠ .sAddr

theorem NoRef.written {ms : Members} (h : NoRef ms) (s : String) : writeMembers s ms = ms := by
  refine (List.map_congr_left fun m hm => ?_).trans (List.map_id ms)
  have hne := h m hm
  rcases m with ⟨name, x⟩
  cases x with
  | sAddr => exact absurd rfl hne
  | _ => rfl

/-- Two runs over the same values: the texts are the same, and so is the buffer, unless it
    was not touched and nothing refers to it. -/
structure SameTexts {α : Type} (NoRef : α → Prop) (s s' : String) (r r' : List α × String) : Prop where
  texts : r.1 = r'.1
  buffer : r.2 = r'.2 ∨ (r.2 = s ∧ r'.2 = s' ∧ ∀ x ∈ r.1, NoRef x)

theorem eventTail_noRef {v : LogDataV} {src : JVal} (h : src ≠ .sAddr ∨ v.rxSrc = none) : NoRef (eventTail src v) := by
  intro m hm
  simp only [eventTail, List.mem_append] at hm
  rcases hm with ((hm | hm) | hm) | hm
  · rcases h with h | h
    · split at hm
      · rw [List.mem_singleton.mp hm]
        exact h
      · exact absurd hm List.not_mem_nil
    · rw [h] at hm
      exact absurd hm List.not_mem_nil
  all_goals
    split at hm
    · rw [List.mem_singleton.mp hm]
      simp
    · exact absurd hm List.not_mem_nil

theorem addEvents_buffer {event : LogDataV → String → Members} (hevent : ∀ v s s', v.rxSrc = none → event v s = event v s')
    (hnone : ∀ v s, v.rxSrc = none → NoRef (event v s)) (vs : List LogDataV) (s s' : String) :
    SameTexts NoRef s s' (addEvents event vs s) (addEvents event vs s') := by
  induction vs generalizing s s' with
  | nil => exact ⟨rfl, .inr ⟨rfl, rfl, fun x hx => absurd hx List.not_mem_nil⟩⟩
  | cons v vs ih =>
    obtain ⟨htexts, hbuffer⟩ := ih (sSource v s) (sSource v s')
    refine ⟨?_, ?_⟩
    · simp only [addEvents]
      rw [htexts, sSource_event event hevent v s s']
    · cases hv : v.rxSrc with
      | some a =>
        have hsame : sSource v s = sSource v s' := by
          unfold sSource
          rw [hv]
        simp only [addEvents]
        rw [hsame]
        exact .inl rfl
      | none =>
        have hs : ∀ u, sSource v u = u := by
          intro u
          unfold sSource
          rw [hv]
        simp only [addEvents]
        rw [hs, hs] at hbuffer ⊢
        rcases hbuffer with h | ⟨h1, h2, h3⟩
        · exact .inl h
        · refine .inr ⟨h1, h2, fun x hx => ?_⟩
          rcases List.mem_cons.mp hx with rfl | hx
          · exact hnone v _ hv
          · exact h3 x hx

theorem members_noRef {ms : Members} (h : (ms.all fun m => decide (m.2 ≠ .sAddr)) = true) : NoRef ms :=
  fun m hm => of_decide_eq_true (List.all_eq_true.mp h m hm)

theorem NoRef.append {ms ms' : Members} (h : NoRef ms) (h' : NoRef ms') : NoRef (ms ++ ms') := by
  intro m hm
  rcases List.mem_append.mp hm with hm | hm
  · exact h m hm
  · exact h' m hm

theorem seqEvents_buffer (vs : List LogDataV) (s s' : String) :
    SameTexts NoRef s s' (addEvents seqEvent vs s) (addEvents seqEvent vs s') := by
  refine addEvents_buffer (fun v s s' hv => ?_) (fun v s hv => ?_) vs s s'
  · simp [seqEvent, eventTail, hv]
  · exact .append (members_noRef (by simp)) (eventTail_noRef (.inr hv))

theorem blkEvents_buffer (vs : List LogDataV) (s s' : String) :
    SameTexts NoRef s s' (addEvents blkEvent vs s) (addEvents blkEvent vs s') :=
  addEvents_buffer (fun _ _ _ _ => rfl) (fun _ _ hv => .append (members_noRef (by simp)) (eventTail_noRef (.inr hv))) vs s s'

def KvObj.NoRef (o : KvObj) : Prop := Log.NoRef o.members ∧ ∀ e ∈ o.event, Log.NoRef e

theorem KvObj.NoRef.written {o : KvObj} (h : o.NoRef) (s : String) : o.written s = o := by
  have hevent : o.event.map (writeMembers s) = o.event :=
    (List.map_congr_left fun e he => (h.2 e he).written s).trans (List.map_id _)
  unfold KvObj.written
  rw [h.1.written, hevent]

theorem object_buffer (ls : LogStore) (kv : LogDataKv) (s s' : String) :
    (wfbMutObjKv ls kv s).1 = (wfbMutObjKv ls kv s').1 ∧
      ((wfbMutObjKv ls kv s).2 = (wfbMutObjKv ls kv s').2 ∨
        ((wfbMutObjKv ls kv s).2 = s ∧ (wfbMutObjKv ls kv s').2 = s' ∧ ∀ o ∈ (wfbMutObjKv ls kv s).1, o.NoRef)) := by
  cases hvh : kv.vh with
  | nil => cases htype : kv.type <;> simp [wfbMutObjKv, wfbMutObjKvSeq, wfbMutObjKvBlk, htype, hvh]
  | cons i is =>
    cases htype : kv.type with
    | msg => simp [wfbMutObjKv, htype]
    | seq =>
      obtain ⟨htexts, hbuffer⟩ := seqEvents_buffer ((i :: is).map ls.v) s s'
      simp only [wfbMutObjKv, htype, wfbMutObjKvSeq, hvh]
      refine ⟨by rw [htexts], ?_⟩
      rcases hbuffer with h | ⟨h1, h2, h3⟩
      · exact .inl h
      · refine .inr ⟨h1, h2, fun o ho => ?_⟩
        cases ho
        exact ⟨members_noRef (by simp), h3⟩
    | blk =>
      obtain ⟨htexts, hbuffer⟩ := blkEvents_buffer ((i :: is).map ls.v) s s'
      simp only [wfbMutObjKv, htype, wfbMutObjKvBlk, hvh]
      refine ⟨by rw [htexts], ?_⟩
      rcases hbuffer with h | ⟨h1, h2, h3⟩
      · exact .inl h
      · refine .inr ⟨h1, h2, fun o ho => ?_⟩
        cases ho
        exact ⟨members_noRef (by simp), h3⟩

theorem kvh2yyjson_buffer (ls : LogStore) (kvs : List LogDataKv) (s s' : String) :
    SameTexts KvObj.NoRef s s' (kvh2yyjson ls kvs s) (kvh2yyjson ls kvs s') := by
  induction kvs generalizing s s' with
  | nil => exact ⟨rfl, .inr ⟨rfl, rfl, fun x hx => absurd hx List.not_mem_nil⟩⟩
  | cons kv kvs ih =>
    obtain ⟨hobj, hbuf⟩ := object_buffer ls kv s s'
    obtain ⟨htexts, hbuffer⟩ := ih (wfbMutObjKv ls kv s).2 (wfbMutObjKv ls kv s').2
    refine ⟨?_, ?_⟩
    · simp only [kvh2yyjson]
      rw [hobj, htexts]
    · simp only [kvh2yyjson]
      rcases hbuf with h | ⟨h1, h2, h3⟩
      · rw [h]
        exact .inl rfl
      · rcases hbuffer with h | ⟨h4, h5, h6⟩
        · exact .inl h
        · refine .inr ⟨h4.trans h1, h5.trans h2, fun o ho => ?_⟩
          rcases List.mem_append.mp ho with ho | ho
          · exact h3 o (Option.mem_toList.mp ho)
          · exact h6 o ho

/-- Where the buffer was not touched, nothing in the document refers to it. -/
theorem jsonSerializeKvh_buffer (ls : LogStore) (kvs : List LogDataKv) (s s' : String) :
    jsonSerializeKvh ls kvs s = jsonSerializeKvh ls kvs s' := by
  obtain ⟨htexts, hbuffer⟩ := kvh2yyjson_buffer ls kvs s s'
  unfold jsonSerializeKvh
  dsimp only
  rw [← htexts]
  rcases hbuffer with h | ⟨-, -, h⟩
  · rw [h]
  · exact List.map_congr_left fun o ho => ((h o ho).written _).trans ((h o ho).written _).symm

/-! ## A command depends on what is held -/

/-- All but `s_addr` and the tree. -/
def ShellContext.held (ctx : ShellContext) : Option LogStore × Pipelines := (ctx.ls, ctx.pipelines)

def ShellDone.seen (d : ShellDone) : (Option LogStore × Pipelines) × List Output × Int × Bool :=
  (d.ctx.held, d.said, d.rc, d.exited)

theorem held_ls (h : ctx.held = ctx'.held) : ctx.ls = ctx'.ls := congrArg Prod.fst h

theorem held_pipelines (h : ctx.held = ctx'.held) : ctx.pipelines = ctx'.pipelines := congrArg Prod.snd h

theorem failed_alike (h : ctx.held = ctx'.held) (said : List Output) :
    (failed ctx said).map ShellDone.seen = (failed ctx' said).map ShellDone.seen := by
  simp [failed, Except.map, ShellDone.seen, h]

theorem withStore_seen {out : Printed} (h : ctx.ls = some ls) (before : List Output) :
    (withStore before out ctx).map ShellDone.seen =
    ((out ls ctx.sAddr).map Prod.fst).map fun o => (ctx.held, before ++ [o], 0, false) := by
  unfold withStore
  rw [h]
  show ((out ls ctx.sAddr).bind _).map _ = _
  cases out ls ctx.sAddr with
  | error e => rfl
  | ok r => simp [Except.bind, Pure.pure, Except.pure, Except.map, ShellDone.seen, ShellContext.held, h]

theorem withStore_alike {out : Printed} (h : ctx.held = ctx'.held)
    (hout : ∀ ls s s', (out ls s).map Prod.fst = (out ls s').map Prod.fst)
    (before : List Output) : (withStore before out ctx).map ShellDone.seen = (withStore before out ctx').map ShellDone.seen := by
  cases hls : ctx.ls with
  | none =>
    unfold withStore
    rw [← held_ls h, hls]
    exact failed_alike h _
  | some ls =>
    have hls' : ctx'.ls = some ls := (held_ls h).symm.trans hls
    rw [withStore_seen hls, withStore_seen hls', hout ls ctx.sAddr ctx'.sAddr, h]

theorem missing_alike (h : ctx.held = ctx'.held) (text argument : String) (t : ShellToken) :
    (missing text argument t ctx).map ShellDone.seen = (missing text argument t ctx').map ShellDone.seen := by
  unfold missing
  cases inMemory (expandToken t) with
  | error e => rfl
  | ok usage => exact failed_alike h _

theorem withFile_alike {out : Bytes → ShellContext → Except ShellFault ShellDone} (h : ctx.held = ctx'.held)
    (hout : ∀ file, (out file ctx).map ShellDone.seen = (out file ctx').map ShellDone.seen) (t : ShellToken) :
    (withFile out ctx t).map ShellDone.seen = (withFile out ctx' t).map ShellDone.seen := by
  unfold withFile
  cases t.next.word with
  | none => exact missing_alike h ..
  | some file => exact hout file

theorem shellWrite_alike {out : Option Bytes → Printed} (h : ctx.held = ctx'.held)
    (hout : ∀ file ls s s', (out file ls s).map Prod.fst = (out file ls s').map Prod.fst) :
    (shellWrite out w ctx t).map ShellDone.seen = (shellWrite out w ctx' t).map ShellDone.seen := by
  refine withFile_alike h (fun file => ?_) t
  rw [← held_ls h]
  split
  · exact failed_alike h _
  · exact withStore_alike h (hout _) _

theorem printCsv_alike (file : Option Bytes) (ls : LogStore) (s s' : String) :
    (printCsv file ls s).map Prod.fst = (printCsv file ls s').map Prod.fst := rfl

theorem printJson_alike (file : Option Bytes) (ls : LogStore) (s s' : String) :
    (printJson file ls s).map Prod.fst = (printJson file ls s').map Prod.fst := by
  simp [printJson, Except.map, jsonSerialize, jsonSerializeKvh_buffer ls ls.kvh s s']

theorem printJsonBlock_alike (file : Option Bytes) (ls : LogStore) (s s' : String) :
    (printJsonBlock file ls s).map Prod.fst = (printJsonBlock file ls s').map Prod.fst := by
  simp [printJsonBlock, Except.map, jsonSerializeBlock, jsonSerializeKvh_buffer ls ls.blockKvh s s']

theorem printMessages_alike (ls : LogStore) (s s' : String) :
    (printMessages ls s).map Prod.fst = (printMessages ls s').map Prod.fst := by
  unfold printMessages
  cases dumpMessage ls <;> rfl

theorem printHist_alike (ls : LogStore) (s s' : String) : (printHist ls s).map Prod.fst = (printHist ls s').map Prod.fst := by
  unfold printHist
  cases logHist ls <;> rfl

theorem shellPlay_alike (h : ctx.held = ctx'.held) :
    (shellPlay w ctx t).map ShellDone.seen = (shellPlay w ctx' t).map ShellDone.seen := by
  unfold shellPlay
  rw [← held_ls h, ← held_pipelines h]
  cases hls : ctx.ls with
  | none => exact failed_alike h _
  | some ls =>
    dsimp only
    cases (playH265 w.gst w.turns ctx.pipelines.player ls).mapError ShellFault.gst with
    | error e => rfl
    | ok evs => simp [Bind.bind, Except.bind, Pure.pure, Except.pure, Except.map, ShellDone.seen, ShellContext.held]

theorem shellMp4_alike (h : ctx.held = ctx'.held) (text : String) (enc : Bool) (write : Writer) :
    (shellMp4 text enc write w ctx t).map ShellDone.seen = (shellMp4 text enc write w ctx' t).map ShellDone.seen := by
  refine withFile_alike h (fun file => ?_) t
  dsimp only
  rw [← held_ls h, ← held_pipelines h]
  cases hls : ctx.ls with
  | none => exact failed_alike h _
  | some ls =>
    dsimp only
    cases (write w.gst w.turns ctx.pipelines.player (some (fileName file)) ls).mapError ShellFault.gst with
    | error e => rfl
    | ok evs => simp [Bind.bind, Except.bind, Pure.pure, Except.pure, Except.map, ShellDone.seen, ShellContext.held]

theorem shellFilter_alike (h : ctx.held = ctx'.held) (t : ShellToken) :
    (shellFilterDbmCmd w ctx t).map ShellDone.seen = (shellFilterDbmCmd w ctx' t).map ShellDone.seen := by
  unfold shellFilterDbmCmd
  cases t.next.word with
  | none => exact missing_alike h ..
  | some arg =>
    cases arg with
    | nil => exact missing_alike h ..
    | cons c arg =>
      dsimp only
      rw [← held_ls h]
      cases hls : ctx.ls with
      | none => exact failed_alike h _
      | some ls =>
        dsimp only
        cases dbmArgument (c :: arg) with
        | error said => exact failed_alike h _
        | ok dbm =>
          dsimp only
          cases inMemory (logFilterDbm (logFilterReset ls) dbm) with
          | error e => rfl
          | ok r => simp [Bind.bind, Except.bind, Pure.pure, Except.pure, Except.map, ShellDone.seen,
            ShellContext.held, held_pipelines h]

theorem shellLoad_alike (h : ctx.held = ctx'.held) (t : ShellToken) :
    (shellLoad w ctx t).map ShellDone.seen = (shellLoad w ctx' t).map ShellDone.seen := by
  unfold shellLoad
  cases t.next.word with
  | none => exact missing_alike h ..
  | some file =>
    dsimp only
    cases inMemory (loadFile w file) with
    | error e => rfl
    | ok r =>
      rcases r with ⟨o, said⟩
      cases o with
      | none => exact failed_alike h _
      | some ls =>
        simp only [Bind.bind, Except.bind]
        rw [← held_ls h]
        cases freeOld ctx.ls with
        | error e => rfl
        | ok u => simp [Pure.pure, Except.pure, Except.map, ShellDone.seen, ShellContext.held, held_pipelines h]

theorem ShellCmd.run_alike (h : ctx.held = ctx'.held) (htree : ctx.curTree = ctx'.curTree) (f : ShellCmd) (t : ShellToken) :
    (f.run w ctx t).map ShellDone.seen = (f.run w ctx' t).map ShellDone.seen := by
  have hconst : ∀ (said : List Output) (exited : Bool),
      (Except.ok ⟨ctx, said, 0, exited⟩ : Except ShellFault ShellDone).map ShellDone.seen =
        (Except.ok ⟨ctx', said, 0, exited⟩ : Except ShellFault ShellDone).map ShellDone.seen := by
    intro said exited
    simp [Except.map, ShellDone.seen, h]
  cases f with
  | ls => exact hconst ..
  | writeCsv => exact shellWrite_alike h printCsv_alike
  | writeJson => exact shellWrite_alike h printJson_alike
  | writeJsonBlock => exact shellWrite_alike h printJsonBlock_alike
  | writeMp4 | writeMp4Enc => exact shellMp4_alike h ..
  | showCsv => exact withStore_alike h (printCsv_alike none) _
  | showJson => exact withStore_alike h (printJson_alike none) _
  | showJsonBlock => exact withStore_alike h (printJsonBlock_alike none) _
  | showMessage => exact withStore_alike h printMessages_alike _
  | showHist => exact withStore_alike h printHist_alike _
  | filterDbm => exact @shellFilter_alike w _ _ h t
  | play => exact @shellPlay_alike _ _ _ t h
  | stat => exact @withStore_alike _ _ printSummary h (fun _ _ _ => rfl) _
  | load => exact shellLoad_alike h t
  | exit => exact hconst ..
  | help =>
    show (shellHelp w ctx t).map _ = (shellHelp w ctx' t).map _
    unfold shellHelp
    rw [htree]
    exact hconst ..

theorem shellInvoke_alike (h : ctx.held = ctx'.held) (n : Nat) (tree : CmdTree) (t : ShellToken) :
    (shellInvoke w n tree ctx t).map ShellDone.seen = (shellInvoke w n tree ctx' t).map ShellDone.seen := by
  induction n generalizing tree ctx ctx' t with
  | zero => rfl
  | succ n ih =>
    have hat : ({ ctx with curTree := tree } : ShellContext).held = ({ ctx' with curTree := tree } : ShellContext).held := h
    unfold shellInvoke
    cases t.word with
    | none => exact failed_alike hat _
    | some cur =>
      dsimp only
      cases if t.query then none else (tree.lookup cur).bind CmdDef.func with
      | some f => exact ShellCmd.run_alike hat rfl f t
      | none =>
        cases (tree.lookup cur).bind CmdDef.subTree with
        | some next => exact ih hat next _
        | none => exact failed_alike hat _

theorem shellLine_alike (h : ctx.held = ctx'.held) (t : ShellToken) :
    (shellLine w ctx t).map ShellDone.seen = (shellLine w ctx' t).map ShellDone.seen := by
  unfold shellLine
  rw [← held_pipelines h]
  split
  · rfl
  · split
    · simp [Except.map, ShellDone.seen, h]
    · exact shellInvoke_alike h ..

end WfbYa.Log
