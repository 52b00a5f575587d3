/-
  WfbYa.Rx.Collecting — the receiver of a session is a collector (see
  `WfbYa.Lib.Collector`) of the fragments that come.

  - `serves_collector`: in a session in which no block is skipped and `no_fec` is not
    toggled, the decode handlers have got what the collector puts out of its closed
    blocks, and beyond that the first part of what it puts out of its newest; all of that
    once it can be recovered.
-/

import Mathlib.Data.List.Sort
import WfbYa.Lib.Collector
import WfbYa.Rx.Lossless

namespace WfbYa.Rx

open WfbYa.Frame WfbYa.Ring WfbYa.Lib WfbYa.Lib.Collector

variable {x : Externals} {S : Sender} {enc : Encoder} {payload : Bytes → Nat → Nat → Bytes} {key : Bytes} {ctx : RxContext}
  {b : Nat} {blk : RbufBlock} {D : Finset Nat}

/-! ## A block at hand -/

/-- What is left on the desk of block `b`, and what was handed over of it, once `D` has
    arrived. -/
inductive Progress (S : Sender) (payload : Bytes → Nat → Nat → Bytes) (key : Bytes) (b : Nat) (D : Finset Nat) (noFec : Bool)
    (o : Option RbufBlock) (out : List (Nat × Bytes × Bytes)) : Prop
  | waiting {blk : RbufBlock} : o = some blk → Collected S key b D blk → (noFec = false → D.card < S.fecK key) →
      (∀ i < blk.fragmentToSend, i ∈ D) → out = handed S payload key b blk.fragmentToSend → Progress S payload key b D noFec o out
  | through : o = none → released (!noFec) (S.fecK key) D = List.range (S.fecK key) →
      out = handed S payload key b (S.fecK key) → Progress S payload key b D noFec o out

theorem FecBlock.progress {s : Nat} {o : Option RbufBlock} {e : List Ev} (h : FecBlock x ctx s blk o e)
    (hx : Ideal x S enc payload) (ha : Shares S key ctx) (hb : b ≠ blockInval) (hcol : Collected S key b D blk)
    (hto : blk.fragmentToSend < S.fecK key) (hsent : ∀ i < blk.fragmentToSend, i ∈ D)
    (hcard : ctx.noFec = false → D.card ≤ S.fecK key) :
    Progress S payload key b D ctx.noFec o (handed S payload key b blk.fragmentToSend ++ sends b e) := by
  have hk := ha.fecK
  cases h with
  | waits hw =>
    refine .waiting rfl hcol (fun hv => ?_) hsent (List.append_nil _)
    apply lt_of_le_of_ne (hcard hv)
    intro he
    exact hw ⟨by rw [hk]; exact hto, by rw [hcol.used, he, hk], hv⟩
  | done hready hrec =>
    have hv : ctx.noFec = false := hready.2.2
    have hused : D.card = S.fecK key := by rw [← hcol.used, hready.2.1, hk]
    have hst := (FecBlock.done (s := s) hready hrec).stage (f := 0) hx (ha.agrees hv) hcol hto (hcard hv)
    refine .through rfl (released_decoded (by rw [hv]; rfl) (le_of_eq hused.symm)) ?_
    cases hst with
    | ahead _ hl _ =>
      rcases hl with h | h
      · exact absurd h hb
      · exact absurd h.1 (lt_irrefl _)
    | pending hc _ _ _ _ => cases hc
    | finished _ _ hout => exact hout

theorem AddBlock.progress {s : Nat} {o : Option RbufBlock} {e : List Ev} (h : AddBlock x ctx s blk o e)
    (hx : Ideal x S enc payload) (ha : Shares S key ctx) (hb : b ≠ blockInval) (hcol : Collected S key b D blk)
    (hsent : ∀ i < blk.fragmentToSend, i ∈ D) (hcard : ctx.noFec = false → D.card ≤ S.fecK key) :
    Progress S payload key b D ctx.noFec o (handed S payload key b blk.fragmentToSend ++ sends b e) := by
  have hk := ha.fecK
  obtain ⟨hle, hcol', hcut⟩ := hcol.cut (hx.sender key ha.pos ha.le) ha.withFec
  change blk.fragmentToSend ≤ (sendRun ctx blk false false).2 at hle
  change Collected S key b D { blk with fragmentToSend := (sendRun ctx blk false false).2 } at hcol'
  change sends b (cut ctx blk) = (List.range' blk.fragmentToSend
    ((sendRun ctx blk false false).2 - blk.fragmentToSend)).map (word S payload key b) at hcut
  have hsent' : ∀ i < (sendRun ctx blk false false).2, i ∈ D := by
    intro i hi
    by_cases hlt : i < blk.fragmentToSend
    · exact hsent i hlt
    · have hs := sendPlan_spec blk.fragmentLen false false (ctx.fecK - blk.fragmentToSend) blk.fragmentToSend
      have hlen := (hs.dense rfl i (Nat.le_of_not_lt hlt) hi).resolve_right (by decide)
      exact (hcol.holds i).mp (Nat.ne_of_gt hlen)
  cases h with
  | complete hend =>
    refine .through rfl (released_all fun i hi => hsent' i (by rw [hend, hk]; exact hi)) ?_
    rw [sends_append, hcut, ← hk, ← hend]
    show _ ++ (_ ++ []) = _
    rw [List.append_nil]
    exact handed_append hle
  | partly hne hfec =>
    have hlt : (sendRun ctx blk false false).2 < S.fecK key := lt_of_le_of_ne hcol'.toSend fun he => hne (he.trans hk.symm)
    rw [sends_append, hcut, ← List.append_assoc, handed_append hle]
    exact hfec.progress hx ha hb hcol' hlt hsent' hcard

/-- A block's first fragment. -/
theorem Collected.first (old : RbufBlock) (hne : S.plain key ctx.wfb.blockIdx ctx.wfb.fragmentIdx ≠ [])
    (hle : (S.plain key ctx.wfb.blockIdx ctx.wfb.fragmentIdx).length ≤ maxFecPayload) :
    Collected S key ctx.wfb.blockIdx {ctx.wfb.fragmentIdx} (withFragment ctx (old.renew ctx.wfb.blockIdx)
      (S.plain key ctx.wfb.blockIdx ctx.wfb.fragmentIdx)) :=
  (Collected.fresh S key ctx.wfb.blockIdx old).store rfl hne hle

theorem unsent (old : RbufBlock) (plain : Bytes) : (withFragment ctx (old.renew b) plain).fragmentToSend = 0 := by
  rw [withFragment_toSend]
  rfl

/-- What a block's first fragment gets done, when no block is at hand. -/
theorem AddBlock.first {s : Nat} {old : RbufBlock} {o : Option RbufBlock} {e : List Ev}
    (h : AddBlock x ctx s (withFragment ctx (old.renew ctx.wfb.blockIdx) (S.plain key ctx.wfb.blockIdx ctx.wfb.fragmentIdx)) o e)
    (hx : Ideal x S enc payload) (ha : Shares S key ctx) (hb : ctx.wfb.blockIdx ≠ blockInval)
    (hne : S.plain key ctx.wfb.blockIdx ctx.wfb.fragmentIdx ≠ [])
    (hle : (S.plain key ctx.wfb.blockIdx ctx.wfb.fragmentIdx).length ≤ maxFecPayload) :
    Progress S payload key ctx.wfb.blockIdx {ctx.wfb.fragmentIdx} ctx.noFec o (sends ctx.wfb.blockIdx e) := by
  have hprog := h.progress hx ha hb (.first old hne hle)
    (by rw [unsent]; exact fun i hi => absurd hi (Nat.not_lt_zero i)) fun _ => ha.pos
  rw [unsent] at hprog
  exact hprog

/-- The same, when it displaces a block. -/
theorem FecBlock.first {s : Nat} {old : RbufBlock} {o : Option RbufBlock} {e : List Ev}
    (h : FecBlock x ctx s (withFragment ctx (old.renew ctx.wfb.blockIdx) (S.plain key ctx.wfb.blockIdx ctx.wfb.fragmentIdx)) o e)
    (hx : Ideal x S enc payload) (ha : Shares S key ctx) (hb : ctx.wfb.blockIdx ≠ blockInval)
    (hne : S.plain key ctx.wfb.blockIdx ctx.wfb.fragmentIdx ≠ [])
    (hle : (S.plain key ctx.wfb.blockIdx ctx.wfb.fragmentIdx).length ≤ maxFecPayload) :
    Progress S payload key ctx.wfb.blockIdx {ctx.wfb.fragmentIdx} ctx.noFec o (sends ctx.wfb.blockIdx e) := by
  have hprog := h.progress hx ha hb (.first old hne hle) (by rw [unsent]; exact ha.pos)
    (by rw [unsent]; exact fun i hi => absurd hi (Nat.not_lt_zero i)) fun _ => ha.pos
  rw [unsent] at hprog
  exact hprog

/-! ## The desk serves the collector -/

/-- The calls of `send_data_one` for some fragments of a conforming sender. -/
def callsFor (S : Sender) (payload : Bytes → Nat → Nat → Bytes) (key : Bytes) (ws : List (Nat × Nat)) :
    List (Nat × Nat × Bytes × Bytes) :=
  ws.map fun w => (w.1, word S payload key w.1 w.2)

@[simp] theorem callsFor_append (ws ws' : List (Nat × Nat)) :
    callsFor S payload key (ws ++ ws') = callsFor S payload key ws ++ callsFor S payload key ws' := List.map_append ..

theorem callsFor_block (b : Nat) (is : List Nat) :
    callsFor S payload key (is.map (Prod.mk b)) = (is.map (word S payload key b)).map (Prod.mk b) := by
  unfold callsFor
  rw [List.map_map, List.map_map]
  rfl

/-- The desk and the calls so far, when the collector has begun the blocks `bs`. -/
inductive Serving (S : Sender) (payload : Bytes → Nat → Nat → Bytes) (key : Bytes) (noFec : Bool) (bs : Begun) (d : Desk)
    (out : List (Nat × Nat × Bytes × Bytes)) : Prop
  | unbegun : bs = [] → d.cur = none → d.last = blockInval → out = [] → Serving S payload key noFec bs d out
  | begun {b : Nat} {D : Finset Nat} {rest : Begun} {own : List (Nat × Bytes × Bytes)} : bs = (b, D) :: rest → b ≠ blockInval →
      d.last = b → Progress S payload key b D noFec d.cur own →
      out = callsFor S payload key (output (!noFec) (S.fecK key) rest) ++ own.map (Prod.mk b) →
      Serving S payload key noFec bs d out

/-- What flushing hands over completes what comes out of the block. -/
theorem Collected.flushed (hcol : Collected S key b D blk) (hc : Conforming S enc payload key) (ha : Shares S key ctx)
    (hsent : ∀ i < blk.fragmentToSend, i ∈ D) (hn : ¬ (ctx.noFec = false ∧ S.fecK key ≤ D.card)) :
    handed S payload key b blk.fragmentToSend ++ sends b (flush ctx blk) =
      (released (!ctx.noFec) (S.fecK key) D).map (word S payload key b) := by
  have hk := ha.fecK
  have hle := ha.le
  have hs := sendPlan_spec blk.fragmentLen true false (ctx.fecK - blk.fragmentToSend) blk.fragmentToSend
  have hend : (sendRun ctx blk true false).2 = S.fecK key := by
    have := hs.bounds
    have hto := hcol.toSend
    by_contra hne
    have hlt : (sendPlan blk.fragmentLen true false (ctx.fecK - blk.fragmentToSend) blk.fragmentToSend).2 <
        blk.fragmentToSend + (ctx.fecK - blk.fragmentToSend) := by
      change (sendPlan _ _ _ _ _).2 ≠ _ at hne
      omega
    exact absurd (hs.stop hlt).2.1 (by decide)
  have hlist : (sendRun ctx blk true false).1 =
      (List.range' blk.fragmentToSend (S.fecK key - blk.fragmentToSend)).filter (· ∈ D) := by
    refine List.Pairwise.eq_of_mem_iff hs.sorted (List.Pairwise.filter _ List.pairwise_lt_range') fun i => ?_
    have hmem := hs.mem i
    change i ∈ (sendRun ctx blk true false).1 ↔ (_ ∧ i < (sendRun ctx blk true false).2) ∧ _ at hmem
    change i ∈ (sendRun ctx blk true false).1 ↔ _
    rw [hmem, hend, List.mem_filter, List.mem_range'_1, decide_eq_true_iff, ← hcol.holds i]
    simp only [Bool.false_eq_true, or_false]
    have hto := hcol.toSend
    omega
  rw [released_split (by simpa using hn) hcol.toSend hsent, List.map_append, ← hlist]
  congr 1
  refine sends_carries hc hcol.index fun i hi => ?_
  rw [hlist, List.mem_filter, List.mem_range'_1] at hi
  have hlt : i < S.fecK key := by omega
  exact ⟨hlt, hcol.stored.carries (by omega) ((hcol.holds i).mpr (of_decide_eq_true hi.2))⟩

theorem Serving.step {bs : Begun} {d d' : Desk} {e : List Ev} {out : List (Nat × Nat × Bytes × Bytes)}
    (h : Serving S payload key ctx.noFec bs d out) (hst : DeskStep x ctx d d' e) (hx : Ideal x S enc payload)
    (ha : Shares S key ctx) (hcur : ∀ blk, d.cur = some blk → blk.index = d.last ∧ d.last ≠ blockInval)
    (hplain : ∀ plain, decrypted x ctx.crypto ctx.wfb = .ok (.ok plain) →
      plain = S.plain key ctx.wfb.blockIdx ctx.wfb.fragmentIdx ∧ plain ≠ []) :
    Serving S payload key ctx.noFec (collect bs (ctx.wfb.blockIdx, ctx.wfb.fragmentIdx)) d' (out ++ calls e) := by
  have hpos := ha.pos
  obtain ⟨f, l, cur⟩ := d
  cases h with
  | unbegun hbs hc hl hout =>
    subst hbs hout
    cases hc
    cases hl
    rw [collect_nil]
    cases hst with
    | old h1 _ _ => exact absurd rfl h1
    | duplicate hc' _ _ => cases hc'
    | again hc' _ _ _ _ _ => cases hc'
    | @first old plain o e _ hnew hdec hle hadd =>
      obtain ⟨rfl, hne⟩ := hplain _ hdec
      refine .begun rfl hnew.1 rfl (hadd.first hx ha hnew.1 hne hle) ?_
      exact (hadd.only (b := ctx.wfb.blockIdx) (withFragment_index ..)).calls_eq
    | next hc' _ _ _ _ => cases hc'
  | @begun b D rest own hbs hinv hl hprog hout =>
    subst hbs
    obtain rfl : l = b := hl
    cases hprog with
    | @waiting blk hc hcol hcard hsent hown =>
      obtain rfl : cur = some blk := hc
      cases hst with
      | old _ h2 h3 =>
        rw [collect_old (lt_of_le_of_ne h2 (h3 rfl))]
        refine .begun rfl hinv rfl (.waiting rfl hcol hcard hsent hown) ?_
        rw [hout]
        exact List.append_nil _
      | duplicate hc' he hlen =>
        cases hc'
        obtain rfl : ctx.wfb.blockIdx = l := he
        rw [collect_same, Finset.insert_eq_of_mem ((hcol.holds _).mp hlen)]
        have hprog : Progress S payload key ctx.wfb.blockIdx D ctx.noFec (some (raiseRssi blk ctx.wfb.fragmentIdx ctx.dbm)) own :=
          .waiting rfl hcol.raiseRssi hcard (by rw [raiseRssi_toSend]; exact hsent) (by rw [raiseRssi_toSend]; exact hown)
        refine .begun rfl hinv rfl hprog ?_
        rw [hout]
        exact List.append_nil _
      | @again _ plain o e hc' he h0 hdec hle hadd =>
        cases hc'
        obtain ⟨rfl, hne⟩ := hplain _ hdec
        obtain rfl : ctx.wfb.blockIdx = l := he
        have hcard' : ctx.noFec = false → (insert ctx.wfb.fragmentIdx D).card ≤ S.fecK key := fun hv => by
          have := Finset.card_insert_le ctx.wfb.fragmentIdx D
          have := hcard hv
          omega
        have hprog := hadd.progress hx ha hinv (hcol.store h0 hne hle)
          (by rw [withFragment_toSend]; exact fun i hi => Finset.mem_insert_of_mem (hsent i hi)) hcard'
        rw [withFragment_toSend] at hprog
        rw [collect_same]
        refine .begun rfl hinv rfl hprog ?_
        have hcalls : calls e = (sends ctx.wfb.blockIdx e).map (Prod.mk ctx.wfb.blockIdx) :=
          (hadd.only (by rw [withFragment_index]; exact hcol.index)).calls_eq
        rw [hout, hown, List.map_append, ← hcalls, List.append_assoc]
        rfl
      | first hc' _ _ _ _ => cases hc'
      | @next _ old plain o e hc' hnew hdec hle hfec =>
        cases hc'
        obtain ⟨rfl, hne⟩ := hplain _ hdec
        have hlt : l < ctx.wfb.blockIdx := hnew.2.resolve_left hinv
        rw [collect_newer hlt]
        refine .begun rfl hnew.1 rfl (hfec.first hx ha hnew.1 hne hle) ?_
        have hflush := hcol.flushed (hx.sender key hpos ha.le) ha hsent fun h => absurd (hcard h.1) (Nat.not_lt.mpr h.2)
        have hold : calls (flush ctx blk) = (sends l (flush ctx blk)).map (Prod.mk l) :=
          (only_flatMap ctx hcol.index _).calls_eq
        have hcalls : calls e = (sends ctx.wfb.blockIdx e).map (Prod.mk ctx.wfb.blockIdx) :=
          (hfec.only (withFragment_index ..)).calls_eq
        rw [output_cons, callsFor_append, callsFor_block, ← hflush, List.map_append, ← hold, ← hown, hout]
        show _ ++ calls (flush ctx blk ++ _) = _
        rw [calls_append]
        show _ ++ (_ ++ calls e) = _
        rw [hcalls, List.append_assoc, List.append_assoc, List.append_assoc]
    | through hc hrel hown =>
      obtain rfl : cur = none := hc
      cases hst with
      | old _ h2 _ =>
        rw [hout]
        show Serving _ _ _ _ _ _ (_ ++ [])
        rw [List.append_nil]
        by_cases he : ctx.wfb.blockIdx = l
        · subst he
          rw [collect_same]
          exact .begun rfl hinv rfl (.through rfl (released_insert hrel) hown) rfl
        · rw [collect_old (lt_of_le_of_ne h2 he)]
          exact .begun rfl hinv rfl (.through rfl hrel hown) rfl
      | duplicate hc' _ _ => cases hc'
      | again hc' _ _ _ _ _ => cases hc'
      | @first old plain o e _ hnew hdec hle hadd =>
        obtain ⟨rfl, hne⟩ := hplain _ hdec
        have hlt : l < ctx.wfb.blockIdx := hnew.2.resolve_left hinv
        rw [collect_newer hlt]
        refine .begun rfl hnew.1 rfl (hadd.first hx ha hnew.1 hne hle) ?_
        have hcalls : calls e = (sends ctx.wfb.blockIdx e).map (Prod.mk ctx.wfb.blockIdx) :=
          (hadd.only (withFragment_index ..)).calls_eq
        rw [output_cons, callsFor_append, callsFor_block, hrel, hout, hown]
        show _ ++ calls e = _
        rw [hcalls]
        rfl
      | next hc' _ _ _ _ => cases hc'

/-! ## A session -/

/-- The fragment that a DATA frame of the session carries. -/
def carried (ctx : RxContext) (i : Input) : Option (Nat × Nat) :=
  (dataHdr? i).bind fun w =>
    if minDataPacketLen ≤ w.pktlen ∧ w.blockIdx ≤ maxBlockIdx ∧ w.fragmentIdx < ctx.fecN then some (w.blockIdx, w.fragmentIdx)
    else none

/-- What the collector makes of the frames. -/
def begunBy (ctx : RxContext) (is : List Input) : Begun := (is.filterMap (carried ctx)).foldl collect []

/-- What the decode handlers get of the blocks a collector has begun. -/
def outOf (S : Sender) (payload : Bytes → Nat → Nat → Bytes) (ctx : RxContext) (bs : Begun) : List (Nat × Nat × Nat × Bytes) :=
  (output (!ctx.noFec) ctx.fecK bs).flatMap fun w => toHandlers S payload ctx w.1 w.2

def Input.isFrame : Input → Bool
  | .frame _ => true
  | .fecToggle => false

/-- The input starts no session, skips no block and leaves `no_fec` alone. -/
def SteadyFrame (x : Externals) (ctx : RxContext) (i : Input) : Prop := Steady x ctx i ∧ i.isFrame = true

instance (x : Externals) (ctx : RxContext) (i : Input) : Decidable (SteadyFrame x ctx i) := by unfold SteadyFrame; infer_instance

theorem begunBy_none {is : List Input} {i : Input} (h : carried ctx i = none) : begunBy ctx (is ++ [i]) = begunBy ctx is := by
  simp [begunBy, List.filterMap_append, h]

theorem begunBy_some {is : List Input} {i : Input} {w : Nat × Nat} (h : carried ctx i = some w) :
    begunBy ctx (is ++ [i]) = collect (begunBy ctx is) w := by
  simp [begunBy, List.filterMap_append, h]

theorem calls_quiet {evs : List Ev} (h : Quiet evs) : calls evs = [] := by
  rw [← calls_effects, show effects evs = [] from h]
  rfl

theorem Told.quiet {hs : List Nat} {evs : List Ev} (h : Quiet evs) : Told hs evs := by
  unfold Told
  rw [calls_quiet h, ← decodes_effects, show effects evs = [] from h]
  rfl

/-- The receiver and the collector after the same frames. -/
structure Keeping (S : Sender) (payload : Bytes → Nat → Nat → Bytes) (ctx0 ctx : RxContext) (is : List Input)
    (tr : List Ev) : Prop where
  noFec : ctx.noFec = ctx0.noFec
  handlers : ctx.decodeHandler = ctx0.decodeHandler
  desk : ∃ d, DeskInv ctx0 ctx d ∧ Serving S payload ctx0.sessionKey ctx0.noFec (begunBy ctx0 is) d (calls tr)
  told : Told ctx0.decodeHandler tr

/-- Frames that carry no fragment of the session change nothing. -/
theorem Keeping.idle {ctx0 : RxContext} {is : List Input} {tr e : List Ev} (h : Keeping S payload ctx0 ctx is tr) {i : Input}
    (hi : carried ctx0 i = none) (w : WfbContext) (freq : Nat) (dbm : Int) (hq : Quiet e) :
    Keeping S payload ctx0 { ctx with wfb := w, freq := freq, dbm := dbm } (is ++ [i]) (tr ++ e) := by
  obtain ⟨d, hd, hserve⟩ := h.desk
  refine ⟨h.noFec, h.handlers, ⟨d, hd.idle w freq dbm ctx.noFec, ?_⟩, h.told.append (.quiet hq)⟩
  rw [begunBy_none hi, calls_append, calls_quiet hq, List.append_nil]
  exact hserve

theorem Keeping.step (hx : Ideal x S enc payload) {ctx0 ctx' : RxContext} {is : List Input} {tr e : List Ev}
    (h : Keeping S payload ctx0 ctx is tr) (hf : FaithfulInv S ctx0) (hk : ctx.hasSessionKey = true) {i : Input}
    (hg : SteadyFrame x ctx i) (hs : rxStep x ctx i = .ok (ctx', e)) (hk' : ctx'.hasSessionKey = true) :
    Keeping S payload ctx0 ctx' (is ++ [i]) (tr ++ e) := by
  cases rxStep_cases hs with
  | toggle _ => cases hg.2
  | @unparsed f fmt _ hp hq => exact h.idle (by simp [carried, dataHdr?, hp]) ctx.wfb f.freq f.dbm hq
  | @session f w q hp ht hsess =>
    obtain ⟨he, hq⟩ := rxSession_keeps hp ht hg.1.1 hsess
    rw [he]
    have hnone : dataHdr? (.frame f) = none := by
      simp only [dataHdr?, hp]
      exact if_neg (by rw [ht]; decide)
    exact h.idle (by simp [carried, hnone]) w f.freq f.dbm hq
  | @data f w q hp ht hcall =>
    obtain ⟨d, hd, hserve⟩ := h.desk
    obtain ⟨r, hr, -⟩ := hd.desk
    have hw := dataHdr?_some hp ht
    by_cases hadm : minDataPacketLen ≤ w.pktlen ∧ w.blockIdx ≤ maxBlockIdx ∧ w.fragmentIdx < ctx0.fecN
    · have hin : carried ctx0 (.frame f) = some (w.blockIdx, w.fragmentIdx) := by simp [carried, hw, hadm]
      rcases data_step hd hg.1.2 hp ht hcall with ⟨hnot, -, -⟩ | ⟨hlost, -⟩ | ⟨d', -, hd', hdstep⟩
      · exact absurd ⟨hk, hr, hadm.1, hadm.2.1, by rw [← hd.fecN] at hadm; exact hadm.2.2⟩ (hnot r)
      · rw [hlost] at hk'
        cases hk'
      · obtain ⟨ring, hkey, he, -⟩ := hcall.ctx_eq
        have hok := hf.session.ok.fecK
        have hkS := hf.fecK
        have hnS := hf.fecN
        have hplain : ∀ plain, decrypted x ctx.crypto w = .ok (.ok plain) →
            plain = S.plain ctx0.sessionKey w.blockIdx w.fragmentIdx ∧ plain ≠ [] := fun plain hdec => by
          have hpl := decrypted_plain hx (wfbFrameParse_data hp ht).1 hdec
          rw [hd.session.ok.crypto.2, hd.sessionKey] at hpl
          rw [hpl]
          exact ⟨rfl, (hx.sender _ (by omega) (by omega)).plain_ne (by omega) (by omega)⟩
        have hid := hd.idle w f.freq f.dbm ctx.noFec
        have hshares : Shares S ctx0.sessionKey (withFrame ctx f w) :=
          ⟨hid.session.ok, hd.fecK.trans hf.fecK, hd.fecN.trans hf.fecN⟩
        have htold : Told ctx0.decodeHandler q.evs := by
          have := hdstep.told
          rw [show (withFrame ctx f w).decodeHandler = ctx0.decodeHandler from h.handlers] at this
          unfold Told at this ⊢
          rwa [decodes_effects, calls_effects] at this
        refine ⟨by rw [he]; exact h.noFec, by rw [he]; exact h.handlers, ⟨d', hd', ?_⟩, h.told.append htold⟩
        rw [begunBy_some hin, calls_append, ← calls_effects q.evs]
        rw [← h.noFec] at hserve ⊢
        exact @Serving.step x S enc payload _ (withFrame ctx f w) _ _ _ _ _ hserve hdstep hx hshares hd.index hplain
    · have hout : carried ctx0 (.frame f) = none := by simp [carried, hw, hadm]
      cases hcall with
      | refused _ hq => exact h.idle hout w f.freq f.dbm hq
      | outside ha _ => exact absurd ⟨ha.pktlen, ha.blockIdx, by rw [← hd.fecN]; exact ha.fragmentIdx⟩ hadm
      | filed ha _ _ => exact absurd ⟨ha.pktlen, ha.blockIdx, by rw [← hd.fecN]; exact ha.fragmentIdx⟩ hadm

theorem Keeping.run (hx : Ideal x S enc payload) {ctx0 : RxContext} (h0 : Opened x ctx0) {is : List Input} {tr : List Ev}
    (h : Machine.Run (rxStep x) (SteadyFrame x) ctx0 is ctx tr) (hk : ctx.hasSessionKey = true) :
    Keeping S payload ctx0 ctx is tr := by
  have hf := h0.faithful hx
  refine h.inv (fun is ctx tr => ctx.hasSessionKey = true → Keeping S payload ctx0 ctx is tr) (fun _ => ?_)
    (fun is ctx tr i ctx' e hi hg hs hk' => ?_) hk
  · exact ⟨rfl, rfl, ⟨emptyDesk, h0.inv.2, .unbegun rfl rfl rfl rfl⟩, rfl⟩
  · have hopen : ctx.hasSessionKey = true := by
      by_contra hno
      rw [(closed_step (Bool.eq_false_iff.mpr hno) hg.1.1 hs).1] at hk'
      cases hk'
    exact (hi hopen).step hx hf hopen hg hs hk'

/-! ## What the handlers get -/

/-- What was handed over of the block at hand is the first part of what comes out of it. -/
theorem Progress.first_part {v : Bool} {o : Option RbufBlock} {out : List (Nat × Bytes × Bytes)}
    (h : Progress S payload key b D v o out) : ∃ is, is <+: released (!v) (S.fecK key) D ∧ out = is.map (word S payload key b) ∧
      (v = false → S.fecK key ≤ D.card → is = released (!v) (S.fecK key) D) := by
  cases h with
  | @waiting blk _ hcol hcard hsent hout =>
    refine ⟨List.range blk.fragmentToSend, ?_, hout, fun hv hd => absurd (hcard hv) (Nat.not_lt.mpr hd)⟩
    have hn : ¬ ((!v) = true ∧ S.fecK key ≤ D.card) := fun hd => absurd (hcard (by simpa using hd.1)) (Nat.not_lt.mpr hd.2)
    rw [released_split hn hcol.toSend hsent]
    exact List.prefix_append ..
  | through _ hrel hout => exact ⟨List.range (S.fecK key), by rw [hrel], hout, fun _ _ => hrel.symm⟩

/-- What the handlers get of some fragments. -/
theorem given_callsFor (hc : Conforming S enc payload ctx.sessionKey) {ws : List (Nat × Nat)}
    (h : ∀ w ∈ ws, w.2 < S.fecK ctx.sessionKey) : (callsFor S payload ctx.sessionKey ws).flatMap (given ctx.decodeHandler) =
      ws.flatMap fun w => toHandlers S payload ctx w.1 w.2 := by
  unfold callsFor
  rw [List.flatMap_map]
  exact List.flatMap_congr fun w hw => given_word hc (h w hw)

/-- In a session in which no block is skipped and `no_fec` is not toggled, whatever else
    is lost, repeated, late or forged: the decode handlers have got all that comes out of
    the collector's closed blocks, and then the first part of what comes out of its newest
    block; all of it once there are enough fragments to recover the block. -/
theorem serves_collector (hx : Ideal x S enc payload) {ctx0 : RxContext} (h0 : Opened x ctx0) {is : List Input} {tr : List Ev}
    (h : Machine.Run (rxStep x) (SteadyFrame x) ctx0 is ctx tr) (hk : ctx.hasSessionKey = true) :
    outOf S payload ctx0 (begunBy ctx0 is).tail <+: decodes tr ∧ decodes tr <+: outOf S payload ctx0 (begunBy ctx0 is) ∧
      (ctx0.noFec = false → ∀ p ∈ (begunBy ctx0 is).head?, ctx0.fecK ≤ p.2.card →
        decodes tr = outOf S payload ctx0 (begunBy ctx0 is)) := by
  have hf := h0.faithful hx
  have hok := hf.session.ok.fecK
  have hkS := hf.fecK
  have hnS := hf.fecN
  have hc := hx.sender ctx0.sessionKey (by omega) (by omega)
  have hkeep := Keeping.run hx h0 h hk
  obtain ⟨d, -, hserve⟩ := hkeep.desk
  have htold : decodes tr = _ := hkeep.told
  cases hserve with
  | unbegun hbs _ _ hout =>
    rw [htold, hout, hbs]
    exact ⟨List.prefix_refl _, List.prefix_refl _, fun _ _ _ _ => rfl⟩
  | @begun b D rest own hbs _ _ hprog hout =>
    obtain ⟨is', hpre, rfl, hall⟩ := hprog.first_part
    have hlt : ∀ w ∈ output (!ctx0.noFec) (S.fecK ctx0.sessionKey) rest ++ is'.map (Prod.mk b), w.2 < S.fecK ctx0.sessionKey := by
      intro w hw
      rcases List.mem_append.mp hw with hw | hw
      · exact lt_of_mem_output hw
      · obtain ⟨i, hi, rfl⟩ := List.mem_map.mp hw
        exact lt_of_mem_released (hpre.subset hi)
    have hdec : decodes tr = outOf S payload ctx0 rest ++ (is'.map (Prod.mk b)).flatMap fun w =>
      toHandlers S payload ctx0 w.1 w.2 := by
      rw [htold, hout, ← callsFor_block, ← callsFor_append, given_callsFor hc hlt, List.flatMap_append]
      unfold outOf
      rw [hkS]
    have hnewest : outOf S payload ctx0 ((b, D) :: rest) = outOf S payload ctx0 rest ++
        ((released (!ctx0.noFec) (S.fecK ctx0.sessionKey) D).map (Prod.mk b)).flatMap fun w =>
          toHandlers S payload ctx0 w.1 w.2 := by
      unfold outOf
      rw [output_cons, List.flatMap_append, hkS]
    rw [hbs, hdec, List.tail_cons, hnewest]
    refine ⟨List.prefix_append .., ?_, fun hv p hp hcard => ?_⟩
    · obtain ⟨more, hmore⟩ := hpre
      rw [← hmore, List.map_append, List.flatMap_append, ← List.append_assoc]
      exact List.prefix_append ..
    · obtain rfl : (b, D) = p := Option.some.inj hp
      rw [hall hv (by rw [← hkS]; exact hcard)]

theorem serves_collector_run : ∃ ctx0 ctx tr, Opened (numbered 2 2).externals ctx0 ∧
    Machine.Run (rxStep (numbered 2 2).externals) (SteadyFrame (numbered 2 2).externals) ctx0
      [(numbered 2 2).input 7 1, (numbered 2 2).input 8 0, (numbered 2 2).input 7 0, (numbered 2 2).input 8 1] ctx tr ∧
    ctx.hasSessionKey = true ∧
      outOf (numbered 2 2) (fun _ => number 2) ctx0 (begunBy ctx0
        [(numbered 2 2).input 7 1, (numbered 2 2).input 8 0, (numbered 2 2).input 7 0, (numbered 2 2).input 8 1]).tail
          <+: decodes tr ∧
      decodes tr <+: outOf (numbered 2 2) (fun _ => number 2) ctx0 (begunBy ctx0
        [(numbered 2 2).input 7 1, (numbered 2 2).input 8 0, (numbered 2 2).input 7 0, (numbered 2 2).input 8 1]) := by
  obtain ⟨ctx0, ctx, tr, h0, hrun, hk⟩ := (numbered 2 2).exists_session (SteadyFrame (numbered 2 2).externals)
    [(numbered 2 2).input 7 1, (numbered 2 2).input 8 0, (numbered 2 2).input 7 0, (numbered 2 2).input 8 1]
    (fun _ p => p.1.hasSessionKey) (by decide +kernel)
  obtain ⟨h1, h2, -⟩ := serves_collector (numbered_ideal (by decide) (.inr rfl)) h0 hrun hk
  exact ⟨ctx0, ctx, tr, h0, hrun, hk, h1, h2⟩

end WfbYa.Rx
