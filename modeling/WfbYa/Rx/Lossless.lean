/-
  WfbYa.Rx.Lossless — without loss, FEC on or off makes no difference.

  All primaries of a block arrive before a later block starts, in any order and among any
  parities. With FEC the parities may bring out primaries that are still under way; without
  it these are waited for. The decode handlers get the same either way.

  - `DeskStep.told`: what the decode handlers get is a function of what is handed over.
  - `Filling`: how far a block is, for both values of `no_fec`.
  - `fec_on_off_agree`: the handlers get all primaries in order, those that are there for
    FEC alone left out.
  - `fec_only_breaks_lossless`: those never reach a handler.
-/

import WfbYa.Rx.Completeness

namespace WfbYa.Rx

open WfbYa.Frame WfbYa.Ring WfbYa.Lib WfbYa.Lib.InOrder WfbYa.Lib.BigEndian

variable {x : Externals} {S : Sender} {enc : Encoder} {payload : Bytes → Nat → Nat → Bytes} {key : Bytes} {ctx : RxContext}
  {b : Nat} {blk : RbufBlock} {D : Finset Nat}

/-! ## What the decode handlers get -/

/-- The calls of `send_data_one`: block, index, header and payload. -/
def calls (evs : List Ev) : List (Nat × Nat × Bytes × Bytes) :=
  evs.filterMap fun e => match e with
    | .send b f hdr data => some (b, f, hdr, data)
    | _ => none

/-- The calls of decode handlers: handler, block, index and payload. -/
def decodes (evs : List Ev) : List (Nat × Nat × Nat × Bytes) :=
  evs.filterMap fun e => match e with
    | .decode h b f _ data => some (h, b, f, data)
    | _ => none

@[simp] theorem calls_append (e e' : List Ev) : calls (e ++ e') = calls e ++ calls e' := List.filterMap_append ..

@[simp] theorem decodes_append (e e' : List Ev) : decodes (e ++ e') = decodes e ++ decodes e' := List.filterMap_append ..

theorem calls_effects (evs : List Ev) : calls (effects evs) = calls evs := filterMap_effects (fun _ _ => rfl) evs

theorem decodes_effects (evs : List Ev) : decodes (effects evs) = decodes evs := filterMap_effects (fun _ _ => rfl) evs

/-- What the handlers `hs` get of one call of `send_data_one`. -/
def given (hs : List Nat) (w : Nat × Nat × Bytes × Bytes) : List (Nat × Nat × Nat × Bytes) :=
  if w.2.2.1.headD 0 &&& wfbPacketFFecOnly ≠ 0 ∨ maxPayloadSize < packetSize w.2.2.1 then []
  else hs.map fun h => (h, w.1, w.2.1, w.2.2.2)

/-- What the handlers get in a list of events, by what is handed over in it. -/
def Told (hs : List Nat) (evs : List Ev) : Prop := decodes evs = (calls evs).flatMap (given hs)

theorem Told.append {hs : List Nat} {e e' : List Ev} (h : Told hs e) (h' : Told hs e') : Told hs (e ++ e') := by
  unfold Told at *
  rw [decodes_append, calls_append, List.flatMap_append, h, h']

/-- An event that neither hands over nor calls a handler. -/
theorem Told.cons {hs : List Nat} {a : Ev} {e : List Ev} (ha : decodes [a] = []) (hc : calls [a] = []) (h : Told hs e) :
    Told hs (a :: e) := by
  unfold Told at *
  rw [show a :: e = [a] ++ e from rfl, decodes_append, calls_append, ha, hc, List.nil_append, List.nil_append]
  exact h

/-- The header is enough to read the flags and the size. -/
theorem packetSize_take (fragment : Bytes) : packetSize (fragment.take wfbDataHdrlen) = packetSize fragment := by
  have hs : slice (fragment.take wfbDataHdrlen) 1 2 = slice fragment 1 2 := by
    unfold slice
    apply List.map_congr_left
    intro i hi
    rw [List.mem_range] at hi
    rw [List.getD_eq_getElem?_getD, List.getD_eq_getElem?_getD, List.getElem?_take_of_lt (by unfold wfbDataHdrlen; omega)]
  unfold packetSize
  rw [hs]

theorem headD_take (fragment : Bytes) : (fragment.take wfbDataHdrlen).headD 0 = fragment.headD 0 := by
  cases fragment with
  | nil => rfl
  | cons a l => rfl

theorem calls_handOver (ctx : RxContext) (blk : RbufBlock) (i : Nat) : calls (handOver ctx blk i) =
    [(blk.index, i, (blk.fragment i).take wfbDataHdrlen, packetData (blk.fragment i))] :=
  filterMap_handOver (fun _ _ => rfl) (fun _ _ _ _ _ => rfl) (fun _ _ _ => rfl) ctx blk i

theorem handOver_told (ctx : RxContext) (blk : RbufBlock) (i : Nat) : Told ctx.decodeHandler (handOver ctx blk i) := by
  unfold Told
  rw [calls_handOver, List.flatMap_singleton]
  show decodes (effects (deliver ctx { blk with fragmentToSend := i })) = _
  rw [decodes_effects]
  unfold given deliver
  dsimp only
  rw [packetSize_take, headD_take]
  split
  · rename_i h
    rw [if_pos (.inl h)]
    rfl
  · rename_i h
    split
    · rename_i h'
      rw [if_pos (.inr h')]
      rfl
    · rename_i h'
      rw [if_neg (not_or.mpr ⟨h, h'⟩), decodes_append]
      show _ ++ [] = _
      rw [List.append_nil]
      split
      · rename_i hs
        rw [hs]
        rfl
      · unfold decodes
        rw [List.filterMap_map, ← List.filterMap_eq_map]
        rfl

theorem flatMap_told (ctx : RxContext) (blk : RbufBlock) (is : List Nat) :
    Told ctx.decodeHandler (is.flatMap (handOver ctx blk)) := by
  induction is with
  | nil => rfl
  | cons i is ih =>
    rw [List.flatMap_cons]
    exact (handOver_told ctx blk i).append ih

theorem FecBlock.told {s : Nat} {o : Option RbufBlock} {e : List Ev} (h : FecBlock x ctx s blk o e) :
    Told ctx.decodeHandler e := by
  cases h with
  | waits _ => rfl
  | @done blk' e _ hrec =>
    have hquiet : Told ctx.decodeHandler (effects e) := by
      cases hrec with
      | complete _ => rfl
      | decoded _ _ _ => rfl
    exact (hquiet.append (flatMap_told ..)).append rfl

theorem AddBlock.told {s : Nat} {o : Option RbufBlock} {e : List Ev} (h : AddBlock x ctx s blk o e) :
    Told ctx.decodeHandler e := by
  cases h with
  | complete _ => exact (flatMap_told ..).append rfl
  | partly _ hfec => exact (flatMap_told ..).append hfec.told

/-- What the decode handlers get in a step is a function of what is handed over. -/
theorem DeskStep.told {d d' : Desk} {e : List Ev} (h : DeskStep x ctx d d' e) : Told ctx.decodeHandler e := by
  cases h with
  | old _ _ _ => rfl
  | duplicate _ _ _ => rfl
  | again _ _ _ _ _ hadd => exact .cons rfl rfl (.cons rfl rfl hadd.told)
  | first _ _ _ _ hadd => exact .cons rfl rfl (.cons rfl rfl (.cons rfl rfl hadd.told))
  | next _ _ _ _ hfec =>
    refine .cons rfl rfl (.cons rfl rfl (.cons rfl rfl (.append (flatMap_told ..) (.cons rfl rfl (.cons rfl rfl ?_)))))
    exact hfec.told

/-! ## Filling a block -/

/-- What the session has in common with the sender's, with FEC or without. -/
structure Shares (S : Sender) (key : Bytes) (ctx : RxContext) : Prop where
  ok : SessionOk ctx
  fecK : ctx.fecK = S.fecK key
  fecN : ctx.fecN = S.fecN key

theorem Shares.pos (h : Shares S key ctx) : 1 ≤ S.fecK key := by
  have := h.ok.fecK.1
  have := h.fecK
  omega

theorem Shares.le (h : Shares S key ctx) : S.fecK key ≤ S.fecN key := by
  have := h.ok.fecK.2
  have := h.fecK
  have := h.fecN
  omega

/-- `no_fec` is nothing the sender knows of. -/
theorem Shares.withFec (h : Shares S key ctx) : Agrees S key { ctx with noFec := false } :=
  ⟨⟨h.ok.ring, h.ok.fecK, h.ok.fecN, h.ok.fec, h.ok.crypto⟩, h.fecK, h.fecN, rfl⟩

theorem Shares.agrees (h : Shares S key ctx) (hv : ctx.noFec = false) : Agrees S key ctx := ⟨h.ok, h.fecK, h.fecN, hv⟩

/-- How far block `b` is when `D` has arrived of it and `out` was handed over, in a run
    that began with block `first` and skipped none. -/
inductive Filling (S : Sender) (payload : Bytes → Nat → Nat → Bytes) (key : Bytes) (first b : Nat) (D : Finset Nat) (noFec : Bool)
    (d : Desk) (out : List (Nat × Bytes × Bytes)) : Prop
  | ahead : D = ∅ → d.cur = none → d.last = blockInval ∧ b = first ∨ d.last + 1 = b → out = [] →
      Filling S payload key first b D noFec d out
  | pending {blk : RbufBlock} : d.cur = some blk → d.last = b → Collected S key b D blk → blk.fragmentToSend < S.fecK key →
      blk.fragmentLen blk.fragmentToSend = 0 → (noFec = false → D.card < S.fecK key) →
      out = handed S payload key b blk.fragmentToSend → Filling S payload key first b D noFec d out
  | finished : d.cur = none → d.last = b → out = handed S payload key b (S.fecK key) →
      Filling S payload key first b D noFec d out

/-- Cutting a block through: it is complete, or recovered, or waits for the primary it
    stopped at. -/
theorem AddBlock.filling {s f first : Nat} {o : Option RbufBlock} {e : List Ev} (h : AddBlock x ctx s blk o e)
    (hx : Ideal x S enc payload) (ha : Shares S key ctx) (hb : b ≠ blockInval) (hcol : Collected S key b D blk)
    (hcard : ctx.noFec = false → D.card ≤ S.fecK key) :
    Filling S payload key first b D ctx.noFec ⟨f, b, o⟩ (handed S payload key b blk.fragmentToSend ++ sends b e) := by
  have hk := ha.fecK
  obtain ⟨hle, hcol', hcut⟩ := hcol.cut (hx.sender key ha.pos ha.le) ha.withFec
  change blk.fragmentToSend ≤ (sendRun ctx blk false false).2 at hle
  change Collected S key b D { blk with fragmentToSend := (sendRun ctx blk false false).2 } at hcol'
  change sends b (cut ctx blk) = (List.range' blk.fragmentToSend
    ((sendRun ctx blk false false).2 - blk.fragmentToSend)).map (word S payload key b) at hcut
  cases h with
  | complete hend =>
    refine .finished rfl rfl ?_
    rw [sends_append, hcut, ← hk, ← hend]
    show _ ++ (_ ++ []) = _
    rw [List.append_nil]
    exact handed_append hle
  | partly hne hfec =>
    have hlt : (sendRun ctx blk false false).2 < S.fecK key := lt_of_le_of_ne hcol'.toSend fun he => hne (he.trans hk.symm)
    rw [sends_append, hcut, ← List.append_assoc, handed_append hle]
    cases hfec with
    | waits hw =>
      have hs := sendPlan_spec blk.fragmentLen false false (ctx.fecK - blk.fragmentToSend) blk.fragmentToSend
      have hto := hcol.toSend
      have hstop : blk.fragmentLen (sendRun ctx blk false false).2 = 0 :=
        (hs.stop (by show (sendRun ctx blk false false).2 < _; omega)).1
      refine .pending rfl rfl hcol' hlt hstop (fun hv => ?_) (List.append_nil _)
      apply lt_of_le_of_ne (hcard hv)
      intro he
      exact hw ⟨by rw [hk]; exact hlt, by rw [hcol'.used, he, hk], hv⟩
    | done hready hrec =>
      have hv : ctx.noFec = false := hready.2.2
      have hst := (FecBlock.done (s := s) hready hrec).stage (f := f) hx (ha.agrees hv) hcol' hlt (hcard hv)
      cases hst with
      | ahead _ hl _ =>
        rcases hl with h | h
        · exact absurd h hb
        · exact absurd h.1 (lt_irrefl _)
      | pending hc _ _ _ _ => cases hc
      | finished hc hl hout => exact .finished hc hl hout

/-- One more fragment of the block. -/
theorem Filling.step {first : Nat} {d d' : Desk} {e : List Ev} {out : List (Nat × Bytes × Bytes)}
    (h : Filling S payload key first b D ctx.noFec d out) (hst : DeskStep x ctx d d' e) (hx : Ideal x S enc payload)
    (ha : Shares S key ctx) (hb : ctx.wfb.blockIdx = b) (hinv : b ≠ blockInval)
    (hplain : ∀ plain, decrypted x ctx.crypto ctx.wfb = .ok (.ok plain) →
    plain = S.plain key b ctx.wfb.fragmentIdx ∧ plain ≠ []) :
    Filling S payload key first b (insert ctx.wfb.fragmentIdx D) ctx.noFec d' (out ++ sends b e) := by
  obtain ⟨f, l, cur⟩ := d
  subst hb
  cases h with
  | ahead hD hc hl hout =>
    subst hD hout
    cases hc
    have hl' : l = blockInval ∨ l < ctx.wfb.blockIdx := hl.imp And.left fun h => by
      change l + 1 = _ at h
      omega
    cases hst with
    | old h1 h2 _ => exact absurd hl' (not_or.mpr ⟨h1, Nat.not_lt.mpr h2⟩)
    | duplicate hc' _ _ => cases hc'
    | again hc' _ _ _ _ _ => cases hc'
    | @first old plain o e _ _ hdec hle hadd =>
      obtain ⟨rfl, hne⟩ := hplain _ hdec
      have hcol := (Collected.fresh S key ctx.wfb.blockIdx old).store rfl hne hle
      have : Filling S payload key first _ _ _ ⟨f, _, o⟩ _ := hadd.filling hx ha hinv hcol fun _ => by
        rw [insert_empty_eq, Finset.card_singleton]
        exact ha.pos
      rwa [withFragment_toSend] at this
    | next hc' _ _ _ _ => cases hc'
  | @pending blk hc hl hcol hlt hstop hcard hout =>
    cases hc
    subst hout
    cases hst with
    | old _ _ h3 => exact absurd hl.symm (h3 rfl)
    | duplicate hc' _ hlen =>
      cases hc'
      rw [Finset.insert_eq_of_mem ((hcol.holds _).mp hlen)]
      refine .pending rfl hl hcol.raiseRssi ?_ ?_ hcard ?_
      · rw [raiseRssi_toSend]
        exact hlt
      · rw [raiseRssi_toSend, raiseRssi_len]
        exact hstop
      · rw [raiseRssi_toSend]
        exact List.append_nil _
    | again hc' _ h0 hdec hle hadd =>
      cases hc'
      obtain ⟨rfl, hne⟩ := hplain _ hdec
      obtain rfl : l = ctx.wfb.blockIdx := hl
      have : Filling S payload key first _ _ _ ⟨f, _, _⟩ _ := hadd.filling hx ha hinv (hcol.store h0 hne hle) fun hv => by
        have := Finset.card_insert_le ctx.wfb.fragmentIdx D
        have := hcard hv
        omega
      rwa [withFragment_toSend] at this
    | first hc' _ _ _ _ => cases hc'
    | next _ hnew _ _ _ =>
      refine absurd hnew.2 (not_or.mpr ⟨fun h => hinv (hl.symm.trans h), ?_⟩)
      exact fun h => absurd hl (ne_of_lt h)
  | finished hc hl hout =>
    cases hc
    subst hout
    cases hst with
    | old _ _ _ => exact .finished rfl hl (List.append_nil _)
    | duplicate hc' _ _ => cases hc'
    | again hc' _ _ _ _ _ => cases hc'
    | first _ hnew _ _ _ =>
      refine absurd hnew.2 (not_or.mpr ⟨fun h => hinv (hl.symm.trans h), ?_⟩)
      exact fun h => absurd hl (ne_of_lt h)
    | next hc' _ _ _ _ => cases hc'

/-- The newest block begun is the one at hand, or the one before it. -/
theorem Filling.last {first : Nat} {d : Desk} {out : List (Nat × Bytes × Bytes)} {v : Bool}
    (h : Filling S payload key first b D v d out) :
    d.last = b ∨ d.cur = none ∧ (d.last = blockInval ∧ b = first ∨ d.last + 1 = b) := by
  cases h with
  | ahead _ hc hl _ => exact .inr ⟨hc, hl⟩
  | pending _ hl _ _ _ _ _ => exact .inl hl
  | finished _ hl _ => exact .inl hl

/-- A frame of an earlier block is refused. -/
theorem Filling.late {first : Nat} {d d' : Desk} {e : List Ev} {out : List (Nat × Bytes × Bytes)} {v : Bool}
    (h : Filling S payload key first b D v d out) (hst : DeskStep x ctx d d' e) (h1 : first ≤ ctx.wfb.blockIdx)
    (h2 : ctx.wfb.blockIdx < b) (hb : b ≤ maxBlockIdx) : d' = d ∧ e = [logged ctx] := by
  have hinv : b < blockInval := lt_of_le_of_lt hb (by decide)
  have hlast : d.last ≠ blockInval ∧ ctx.wfb.blockIdx ≤ d.last ∧ (ctx.wfb.blockIdx = d.last → d.cur = none) := by
    rcases h.last with hl | ⟨hc, hl | hl⟩
    · omega
    · omega
    · exact ⟨by omega, by omega, fun _ => hc⟩
  cases hst with
  | old _ _ _ => exact ⟨rfl, rfl⟩
  | duplicate hc he _ => rw [hlast.2.2 he] at hc; cases hc
  | again hc he _ _ _ _ => rw [hlast.2.2 he] at hc; cases hc
  | first _ hnew _ _ _ => exact absurd hnew.2 (not_or.mpr ⟨hlast.1, Nat.not_lt.mpr hlast.2.1⟩)
  | next _ hnew _ _ _ => exact absurd hnew.2 (not_or.mpr ⟨hlast.1, Nat.not_lt.mpr hlast.2.1⟩)

/-! ## One block at a time -/

/-- Only fragments of block `b` are handed over. -/
def Only (b : Nat) (evs : List Ev) : Prop := ∀ w ∈ calls evs, w.1 = b

theorem Only.append {e e' : List Ev} (h : Only b e) (h' : Only b e') : Only b (e ++ e') := by
  intro w hw
  rw [calls_append, List.mem_append] at hw
  exact hw.elim (h w) (h' w)

theorem Only.quiet {e : List Ev} (h : calls e = []) : Only b e := by
  intro w hw
  rw [h] at hw
  cases hw

theorem only_flatMap (ctx : RxContext) (h : blk.index = b) (is : List Nat) : Only b (is.flatMap (handOver ctx blk)) := by
  induction is with
  | nil => exact .quiet rfl
  | cons i is ih =>
    rw [List.flatMap_cons]
    refine .append (fun w hw => ?_) ih
    rw [calls_handOver, List.mem_singleton] at hw
    rw [hw]
    exact h

theorem FecBlock.only {s : Nat} {o : Option RbufBlock} {e : List Ev} (h : FecBlock x ctx s blk o e) (hb : blk.index = b) :
    Only b e := by
  cases h with
  | waits _ => exact .quiet rfl
  | @done blk' e _ hrec =>
    have hquiet : Only b (effects e) := by
      cases hrec with
      | complete _ => exact .quiet rfl
      | decoded _ _ _ => exact .quiet rfl
    exact (hquiet.append (only_flatMap ctx (hrec.keeps.1.trans hb) _)).append (.quiet rfl)

theorem AddBlock.only {s : Nat} {o : Option RbufBlock} {e : List Ev} (h : AddBlock x ctx s blk o e) (hb : blk.index = b) :
    Only b e := by
  cases h with
  | complete _ => exact (only_flatMap ctx hb _).append (.quiet rfl)
  | partly _ hfec => exact (only_flatMap ctx hb _).append (hfec.only hb)

/-- A step with nothing but the frame's own block on the desk. -/
theorem DeskStep.only {d d' : Desk} {e : List Ev} (h : DeskStep x ctx d d' e) (hb : ctx.wfb.blockIdx = b)
    (hcur : ∀ blk, d.cur = some blk → blk.index = b) : Only b e := by
  have hown : ∀ blk plain, blk.index = b → (withFragment ctx blk plain).index = b := fun blk plain hi => by
    rw [withFragment_index, hi]
  have hnew : ∀ old plain, (withFragment ctx (RbufBlock.renew old ctx.wfb.blockIdx) plain).index = b := fun old plain => by
    rw [withFragment_index]
    exact hb
  cases h with
  | old _ _ _ => exact .quiet rfl
  | duplicate _ _ _ => exact .quiet rfl
  | again hc _ _ _ _ hadd => exact hadd.only (hown _ _ (hcur _ hc))
  | first _ _ _ _ hadd => exact hadd.only (hnew _ _)
  | next hc _ _ _ hfec => exact (only_flatMap ctx (hcur _ hc) _).append (hfec.only (hnew _ _))

theorem Only.calls_eq {evs : List Ev} (h : Only b evs) : calls evs = (sends b evs).map (Prod.mk b) := by
  induction evs with
  | nil => rfl
  | cons e evs ih =>
    rw [show e :: evs = [e] ++ evs from rfl] at h ⊢
    have htail : Only b evs := fun w hw => h w (by rw [calls_append]; exact List.mem_append_right _ hw)
    rw [calls_append, sends_append, List.map_append, ← ih htail]
    congr 1
    cases e with
    | send c f hdr data =>
      obtain rfl : c = b := h (c, f, hdr, data) List.mem_cons_self
      simp [calls, sends]
    | _ => rfl

/-! ## Blocks that arrive in full -/

/-- The fragment of block `b` that an input carries. -/
def fragmentOf (b : Nat) (i : Input) : Option Nat :=
  (dataHdr? i).bind fun w => if w.blockIdx = b then some w.fragmentIdx else none

/-- The fragments of block `b` among some inputs. -/
def arrived (b : Nat) (fs : List Input) : Finset Nat := (fs.filterMap (fragmentOf b)).toFinset

theorem arrived_snoc {fs : List Input} {i : Input} {w : WfbContext} (h : dataHdr? i = some w) :
    arrived b (fs ++ [i]) = if w.blockIdx = b then insert w.fragmentIdx (arrived b fs) else arrived b fs := by
  unfold arrived
  rw [List.filterMap_append, List.toFinset_append]
  split
  · rename_i hb
    have hi : [i].filterMap (fragmentOf b) = [w.fragmentIdx] := by simp [fragmentOf, h, hb]
    rw [hi, Finset.union_comm]
    rfl
  · rename_i hb
    have hi : [i].filterMap (fragmentOf b) = [] := by simp [fragmentOf, h, hb]
    rw [hi]
    exact Finset.union_empty _

/-- From block `b` on: a list of inputs for each block, every one a fragment of that block
    or of an earlier one, all primaries of the block among them. -/
def Lossless (x : Externals) (ctx : RxContext) (first : Nat) : Nat → List (List Input) → Prop
  | _, [] => True
  | b, fs :: fss => b ≤ maxBlockIdx ∧ (∀ i ∈ fs, ∃ c ≤ b, first ≤ c ∧ OfBlock x ctx c i) ∧
      (∀ p < ctx.fecK, p ∈ arrived b fs) ∧ Lossless x ctx first (b + 1) fss

instance decidableLossless (x : Externals) (ctx : RxContext) (first : Nat) :
    ∀ (b : Nat) (fss : List (List Input)), Decidable (Lossless x ctx first b fss)
  | _, [] => .isTrue trivial
  | b, _ :: fss =>
    have := decidableLossless x ctx first (b + 1) fss
    inferInstanceAs (Decidable (_ ∧ _ ∧ _ ∧ _))

/-- What the decode handlers get of a primary: nothing, if it is there for FEC alone. -/
def toHandlers (S : Sender) (payload : Bytes → Nat → Nat → Bytes) (ctx : RxContext) (b i : Nat) :
    List (Nat × Nat × Nat × Bytes) :=
  if (S.plain ctx.sessionKey b i).headD 0 &&& wfbPacketFFecOnly ≠ 0 then []
  else ctx.decodeHandler.map fun h => (h, b, i, payload ctx.sessionKey b i)

theorem given_word (hc : Conforming S enc payload ctx.sessionKey) {i : Nat} (hi : i < S.fecK ctx.sessionKey) :
    given ctx.decodeHandler (b, word S payload ctx.sessionKey b i) = toHandlers S payload ctx b i := by
  obtain ⟨hl, flags, hp⟩ := hc.primary b i hi
  have hsize : packetSize (S.plain ctx.sessionKey b i) = (payload ctx.sessionKey b i).length := by
    have := (packetData_withHdr flags [] hl).1
    rw [List.append_nil, ← hp] at this
    exact this
  unfold given toHandlers word
  dsimp only
  rw [headD_take, packetSize_take, hsize]
  simp only [Nat.not_lt.mpr hl, or_false]

/-- The receiver within block `b`: the inputs `fs` have come since it was due, and `tr` is
    what they made it report. -/
structure Phase (S : Sender) (payload : Bytes → Nat → Nat → Bytes) (ctx0 ctx : RxContext) (first b : Nat)
    (fs : List Input) (tr : List Ev) : Prop where
  session : ctx.hasSessionKey = true
  noFec : ctx.noFec = ctx0.noFec
  crypto : ctx.crypto = ctx0.crypto
  handlers : ctx.decodeHandler = ctx0.decodeHandler
  filling : ∃ d, DeskInv ctx0 ctx d ∧ Filling S payload ctx0.sessionKey first b (arrived b fs) ctx0.noFec d (sends b tr)
  only : Only b tr
  told : Told ctx0.decodeHandler tr

/-- No frame of the block or of an earlier one skips a block. -/
theorem Filling.next {first c : Nat} {d : Desk} {out : List (Nat × Bytes × Bytes)} {v : Bool}
    (h : Filling S payload key first b D v d out) {r : Rbuf} (hr : Desked r d) (h2 : c ≤ b) : Next r c := by
  unfold Next
  rw [hr.last]
  rcases h.last with hl | ⟨-, hl | hl⟩
  · right
    left
    omega
  · exact .inl hl.1
  · right
    by_cases hc : c = b
    · right
      rw [show c - d.last = 1 by omega]
      rfl
    · left
      omega

theorem Phase.sound (hx : Ideal x S enc payload) {ctx0 : RxContext} {first c : Nat} {fs : List Input} {tr : List Ev}
    (h : Phase S payload ctx0 ctx first b fs tr) (hf : FaithfulInv S ctx0) {i : Input} (h2 : c ≤ b)
    (hi : OfBlock x ctx0 c i) : Sound x ctx i := by
  obtain ⟨d, hd, hst⟩ := h.filling
  obtain ⟨f, w, rfl, hp, ht, hw, hb, -, hdec, hne⟩ := hi.frame hx hd h.crypto rfl hf
  obtain ⟨r, hr, hdesk⟩ := hd.desk
  refine ⟨⟨keepsSession_data hp ht, fun p ha => ?_⟩, fun he => ?_⟩
  · obtain ⟨f', w', hf', hp', -, hb', hadm⟩ := asked?_some ha
    cases hf'
    cases hp.symm.trans hp'
    cases hr.symm.trans hadm.ring
    rw [hb', hb]
    exact hst.next hdesk h2
  · rw [plaintext?_data hp ht hdec] at he
    exact hne (Option.some.inj he)

theorem Phase.step (hx : Ideal x S enc payload) (hax : AeadLen x) {ctx0 ctx' : RxContext} {first c : Nat} {fs : List Input}
    {tr e : List Ev} (h : Phase S payload ctx0 ctx first b fs tr) (hf : FaithfulInv S ctx0) (hb : b ≤ maxBlockIdx) {i : Input}
    (h1 : first ≤ c) (h2 : c ≤ b) (hi : OfBlock x ctx0 c i) (hs : rxStep x ctx i = .ok (ctx', e)) :
    Phase S payload ctx0 ctx' first b (fs ++ [i]) (tr ++ e) := by
  have hsound := h.sound hx hf h2 hi
  obtain ⟨d, hd, hst⟩ := h.filling
  obtain ⟨f, w, rfl, hp, ht, hw, hbi, hlt, hdec, hne⟩ := hi.frame hx hd h.crypto rfl hf
  cases rxStep_cases hs with
  | unparsed hp' _ => rw [hp] at hp'; cases hp'
  | session hp' ht' _ => cases hp.symm.trans hp'; rw [ht] at ht'; exact absurd ht' (by decide)
  | @data f w' q hp' _ hcall =>
    cases hp.symm.trans hp'
    obtain ⟨ring, hkey, he, -⟩ := hcall.ctx_eq
    rcases data_step hd hsound.1.2 hp ht hcall with ⟨hnot, -, -⟩ | ⟨-, hlost⟩ | ⟨d', hk', hd', hdstep⟩
    · obtain ⟨r, hr, -⟩ := hd.desk
      have hlen : minDataPacketLen ≤ w.pktlen := decrypted_pktlen hax (wfbFrameParse_data hp ht).1 hdec
      exact absurd ⟨h.session, hr, hlen, by show w.blockIdx ≤ maxBlockIdx; omega, hlt⟩ (hnot r)
    · obtain ⟨err, hbad⟩ := hlost.forged
      exact absurd (hdec.symm.trans hbad) (fun e => (nomatch e))
    · have htold : Told ctx0.decodeHandler q.evs := by
        have := hdstep.told
        rw [show (withFrame ctx f w).decodeHandler = ctx0.decodeHandler from h.handlers] at this
        unfold Told at this ⊢
        rwa [decodes_effects, calls_effects] at this
      have hid := hd.idle w f.freq f.dbm ctx.noFec
      have hplain : ∀ plain, decrypted x ctx.crypto w = .ok (.ok plain) →
          plain = S.plain ctx0.sessionKey c w.fragmentIdx ∧ plain ≠ [] := fun plain hpl => by
        cases hdec.symm.trans hpl
        exact ⟨rfl, hne⟩
      refine ⟨hk'.trans h.session, by rw [he]; exact h.noFec, by rw [he]; exact h.crypto, by rw [he]; exact h.handlers,
        ⟨d', hd', ?_⟩, h.only.append ?_, h.told.append htold⟩
      · rw [arrived_snoc hw, sends_append, ← sends_effects b q.evs]
        by_cases hc : w.blockIdx = b
        · -- a fragment of the block itself
          obtain rfl : c = b := hbi.symm.trans hc
          rw [if_pos hc]
          rw [← h.noFec] at hst ⊢
          have hshares : Shares S ctx0.sessionKey (withFrame ctx f w) :=
            ⟨hid.session.ok, hd.fecK.trans hf.fecK, hd.fecN.trans hf.fecN⟩
          exact @Filling.step x S enc payload _ (withFrame ctx f w) _ _ _ _ _ _ _ hst hdstep hx hshares hc
            (maxBlockIdx_ne hb) hplain
        · obtain ⟨rfl, hev⟩ := hst.late hdstep (by show first ≤ w.blockIdx; omega) (by show w.blockIdx < b; omega) hb
          rw [if_neg hc, hev]
          show Filling _ _ _ _ _ _ _ _ (sends b tr ++ [])
          rw [List.append_nil]
          exact hst
      · intro a ha
        rw [← calls_effects] at ha
        by_cases hc : w.blockIdx = b
        · refine hdstep.only hc (fun blk hcur => ?_) a ha
          rcases hst.last with hl | ⟨hnone, -⟩
          · exact (hd.index blk hcur).1.trans hl
          · rw [hnone] at hcur
            cases hcur
        · obtain ⟨-, hev⟩ := hst.late hdstep (by show first ≤ w.blockIdx; omega) (by show w.blockIdx < b; omega) hb
          rw [hev] at ha
          cases ha

theorem Phase.run (hx : Ideal x S enc payload) (hax : AeadLen x) (hpos : 0 < x.maxIter) {ctx0 : RxContext} (h0 : Opened x ctx0)
    {first : Nat} {is : List Input} {tr : List Ev} (hrun : Machine.Run (rxStep x) (Sound x) ctx0 is ctx tr)
    (hb : b ≤ maxBlockIdx) (h : Phase S payload ctx0 ctx first b [] []) {fs : List Input}
    (hfs : ∀ i ∈ fs, ∃ c ≤ b, first ≤ c ∧ OfBlock x ctx0 c i) :
    ∃ ctx' tr', Machine.Run (rxStep x) (Sound x) ctx fs ctx' tr' ∧ Phase S payload ctx0 ctx' first b fs tr' := by
  have hf := h0.faithful hx
  induction fs using List.reverseRecOn with
  | nil => exact ⟨ctx, [], .nil, h⟩
  | append_singleton fs i ih =>
    obtain ⟨ctx', tr', hr, hp⟩ := ih fun j hj => hfs j (List.mem_append_left _ hj)
    obtain ⟨c, h2, h1, hi⟩ := hfs i (List.mem_append_right _ List.mem_cons_self)
    have hsound := hp.sound hx hf h2 hi
    obtain ⟨ctx'', e, hs⟩ := Sound.handled hax hpos h0 (hrun.append hr) hsound
    exact ⟨ctx'', tr' ++ e, hr.snoc hsound hs, hp.step hx hax hf hb h1 h2 hi hs⟩

/-- Once all primaries have arrived the block is done. -/
theorem Phase.done {ctx0 : RxContext} {first : Nat} {fs : List Input} {tr : List Ev} (h : Phase S payload ctx0 ctx first b fs tr)
    (hpos : 1 ≤ S.fecK ctx0.sessionKey) (hall : ∀ p < S.fecK ctx0.sessionKey, p ∈ arrived b fs) :
    ∃ d, DeskInv ctx0 ctx d ∧ d.cur = none ∧ d.last = b ∧
      sends b tr = handed S payload ctx0.sessionKey b (S.fecK ctx0.sessionKey) := by
  obtain ⟨d, hd, hst⟩ := h.filling
  refine ⟨d, hd, ?_⟩
  cases hst with
  | ahead hD _ _ _ =>
    have := hall 0 hpos
    rw [hD] at this
    exact absurd this (Finset.notMem_empty 0)
  | pending _ _ hcol hlt hstop _ _ => exact absurd hstop ((hcol.holds _).mpr (hall _ hlt))
  | finished hc hl hout => exact ⟨hc, hl, hout⟩

/-- What the decode handlers get of a block. -/
theorem Phase.decodes_eq {ctx0 : RxContext} {first : Nat} {fs : List Input} {tr : List Ev}
    (h : Phase S payload ctx0 ctx first b fs tr) (hc : Conforming S enc payload ctx0.sessionKey)
    (hout : sends b tr = handed S payload ctx0.sessionKey b (S.fecK ctx0.sessionKey)) :
    decodes tr = (List.range (S.fecK ctx0.sessionKey)).flatMap (toHandlers S payload ctx0 b) := by
  rw [show decodes tr = _ from h.told, h.only.calls_eq, hout, handed, List.map_map, List.flatMap_map]
  apply List.flatMap_congr
  intro i hi
  exact given_word hc (List.mem_range.mp hi)

theorem Lossless.run (hx : Ideal x S enc payload) (hax : AeadLen x) (hpos : 0 < x.maxIter) {ctx0 : RxContext}
    (h0 : Opened x ctx0) {first : Nat} {fss : List (List Input)} (hl : Lossless x ctx0 first b fss) {is : List Input}
    {tr : List Ev} (hrun : Machine.Run (rxStep x) (Sound x) ctx0 is ctx tr) (h : Phase S payload ctx0 ctx first b [] []) :
    ∃ ctx' tr', Machine.Run (rxStep x) (Sound x) ctx fss.flatten ctx' tr' ∧
      decodes tr' = (List.range' b fss.length).flatMap fun c => (List.range ctx0.fecK).flatMap (toHandlers S payload ctx0 c) := by
  have hf := h0.faithful hx
  have h1 := hf.session.ok.fecK
  have hk := hf.fecK
  have hn := hf.fecN
  induction fss generalizing b is ctx tr with
  | nil => exact ⟨ctx, [], .nil, rfl⟩
  | cons fs fss ih =>
    obtain ⟨hb, hfs, hall, hrest⟩ := hl
    obtain ⟨ctx1, tr1, hr, hp⟩ := Phase.run hx hax hpos h0 hrun hb h hfs
    obtain ⟨d, hd, hcur, hlast, hout⟩ := hp.done (by omega) fun p hp => hall p (by omega)
    have hnext : Phase S payload ctx0 ctx1 first (b + 1) [] [] :=
      ⟨hp.session, hp.noFec, hp.crypto, hp.handlers, ⟨d, hd, .ahead rfl hcur (.inr (by rw [hlast])) rfl⟩, .quiet rfl, rfl⟩
    obtain ⟨ctx2, tr2, hr2, hdec⟩ := ih hrest (hrun.append hr) hnext
    refine ⟨ctx2, tr1 ++ tr2, ?_, ?_⟩
    · rw [List.flatten_cons]
      exact hr.append hr2
    · rw [decodes_append, hdec, hp.decodes_eq (hx.sender _ (by omega) (by omega)) hout, List.length_cons, List.range'_succ,
        List.flatMap_cons, hk]

/-- A session is opened with any `no_fec`. -/
theorem Opened.withFec (h : Opened x ctx) (v : Bool) : Opened x { ctx with noFec := v } := by
  obtain ⟨ctx0, plain, r, hd, hc, rfl, hring⟩ := h
  exact ⟨{ ctx0 with noFec := v }, plain, r, hd, ⟨hc.channelId, hc.fecType, hc.fecK, hc.fecN, hc.sessionKey⟩, rfl, hring⟩

theorem Lossless.withFec {first : Nat} {fss : List (List Input)} (h : Lossless x ctx first b fss) (v : Bool) :
    Lossless x { ctx with noFec := v } first b fss := by
  induction fss generalizing b with
  | nil => trivial
  | cons fs fss ih => exact ⟨h.1, h.2.1, h.2.2.1, ih h.2.2.2⟩

theorem Lossless.decodes (hx : Ideal x S enc payload) (hax : AeadLen x) (hpos : 0 < x.maxIter) (h0 : Opened x ctx) {first : Nat}
    {fss : List (List Input)} (hl : Lossless x ctx first first fss) (v : Bool) :
    ∃ ctx' tr, Machine.Run (rxStep x) (fun _ _ => True) { ctx with noFec := v } fss.flatten ctx' tr ∧
      decodes tr = (List.range' first fss.length).flatMap fun b => (List.range ctx.fecK).flatMap
        (toHandlers S payload ctx b) := by
  have h0' := h0.withFec v
  obtain ⟨hk, hd⟩ := h0'.inv
  have hstart : Phase S payload { ctx with noFec := v } { ctx with noFec := v } first first [] [] :=
    ⟨hk, rfl, rfl, rfl, ⟨emptyDesk, hd, .ahead rfl rfl (.inl ⟨rfl, rfl⟩) rfl⟩, .quiet rfl, rfl⟩
  obtain ⟨ctx', tr, hrun, hdec⟩ := (hl.withFec v).run hx hax hpos h0' .nil hstart
  exact ⟨ctx', tr, hrun.mono fun _ _ _ => trivial, hdec⟩

/-- In any session: where every block's primaries all arrive before a later block starts,
    in any order and among any parities, the decode handlers get the same with FEC and
    without, and it is all primaries in order but those that are there for FEC alone. -/
theorem fec_on_off_agree (hx : Ideal x S enc payload) (hax : AeadLen x) (hpos : 0 < x.maxIter) (h0 : Opened x ctx) {first : Nat}
    {fss : List (List Input)} (hl : Lossless x ctx first first fss) : ∃ ctxOn trOn ctxOff trOff,
      Machine.Run (rxStep x) (fun _ _ => True) { ctx with noFec := false } fss.flatten ctxOn trOn ∧
        Machine.Run (rxStep x) (fun _ _ => True) { ctx with noFec := true } fss.flatten ctxOff trOff ∧
          decodes trOn = decodes trOff ∧ decodes trOn =
            (List.range' first fss.length).flatMap fun b => (List.range ctx.fecK).flatMap (toHandlers S payload ctx b) := by
  obtain ⟨ctxOn, trOn, hon, hdon⟩ := hl.decodes hx hax hpos h0 false
  obtain ⟨ctxOff, trOff, hoff, hdoff⟩ := hl.decodes hx hax hpos h0 true
  exact ⟨ctxOn, trOn, ctxOff, trOff, hon, hoff, hdon.trans hdoff.symm, hdon⟩

theorem fec_on_off_agree_run : ∃ ctx ctxOn trOn ctxOff trOff, Opened (numbered 1 2).externals ctx ∧
    Machine.Run (rxStep (numbered 1 2).externals) (fun _ _ => True) { ctx with noFec := false }
      [(numbered 1 2).input 7 1, (numbered 1 2).input 7 0, (numbered 1 2).input 7 1, (numbered 1 2).input 8 0] ctxOn trOn ∧
    Machine.Run (rxStep (numbered 1 2).externals) (fun _ _ => True) { ctx with noFec := true }
      [(numbered 1 2).input 7 1, (numbered 1 2).input 7 0, (numbered 1 2).input 7 1, (numbered 1 2).input 8 0] ctxOff trOff ∧
      decodes trOn = decodes trOff ∧ decodes trOn = (List.range' 7 2).flatMap fun b =>
        (List.range ctx.fecK).flatMap (toHandlers (numbered 1 2) (fun _ => number 1) ctx b) := by
  obtain ⟨ctx0, ctx, tr, h0, hrun, hq⟩ := (numbered 1 2).exists_session (fun _ _ => True) []
    (fun ctx0 _ => decide (Lossless (numbered 1 2).externals ctx0 7 7
      [[(numbered 1 2).input 7 1, (numbered 1 2).input 7 0], [(numbered 1 2).input 7 1, (numbered 1 2).input 8 0]]))
    (by decide +kernel)
  obtain ⟨ctxOn, trOn, ctxOff, trOff, hon, hoff, hout⟩ := fec_on_off_agree (numbered_ideal (le_refl _) (.inl rfl))
    (externals_aeadLen _) (by decide) h0 (of_decide_eq_true hq)
  exact ⟨ctx0, ctxOn, trOn, ctxOff, trOff, h0, hon, hoff, hout⟩

/-- A parity brings out the primary, which is then refused. -/
example : decodes ((numbered 1 2).report [(numbered 1 2).input 7 1, (numbered 1 2).input 7 0]) = [(0, 7, 0, number 1 7 0)] := by
  decide +kernel

/-- A sender of null frames: they are there for FEC alone. -/
def nullFrames : Sender where
  fecK := fun _ => 1
  fecN := fun _ => 1
  plain := fun _ b f => withHdr wfbPacketFFecOnly (number 1 b f)

theorem nullFrames_ideal : Ideal nullFrames.externals nullFrames repeating (fun _ => number 1) :=
  Sender.ideal (fun _ => ⟨fun b i _ => ⟨numbered_payload_le 1 b i, _, rfl⟩, fun _ _ h1 h2 => absurd h2 (Nat.not_lt.mpr h1)⟩)
    fun _ => .inl rfl

/-- A null frame reaches no handler. -/
theorem fec_only_breaks_lossless : ¬ ∀ (x : Externals) (S : Sender) (enc : Encoder) (payload : Bytes → Nat → Nat → Bytes)
    (ctx : RxContext) (first : Nat) (fss : List (List Input)), Ideal x S enc payload → AeadLen x → 0 < x.maxIter → Opened x ctx →
      Lossless x ctx first first fss → ∃ ctxOn trOn ctxOff trOff,
        Machine.Run (rxStep x) (fun _ _ => True) { ctx with noFec := false } fss.flatten ctxOn trOn ∧
          Machine.Run (rxStep x) (fun _ _ => True) { ctx with noFec := true } fss.flatten ctxOff trOff ∧
            decodes trOn = decodes trOff ∧ decodes trOn = (List.range' first fss.length).flatMap fun b =>
              (List.range ctx.fecK).flatMap fun i => ctx.decodeHandler.map fun h => (h, b, i, payload ctx.sessionKey b i) := by
  intro hclaim
  obtain ⟨ctx0, ctx, tr, h0, hrun, hq⟩ := nullFrames.exists_session (fun _ _ => True) []
    (fun ctx0 _ => decide (Lossless nullFrames.externals ctx0 7 7 [[nullFrames.input 7 0]]) &&
      decide (ctx0.fecK = 1 ∧ ctx0.decodeHandler = [0]) &&
        (Machine.exec (rxStep nullFrames.externals) (fun _ _ => True) [nullFrames.input 7 0] { ctx0 with noFec := false }).any
          fun p => decide (decodes p.2 = [])) (by decide +kernel)
  simp only [Bool.and_eq_true, decide_eq_true_eq] at hq
  obtain ⟨⟨hl, hk, hhandlers⟩, hexec⟩ := hq
  obtain ⟨ctxOn, trOn, -, -, hon, -, -, hout⟩ := hclaim _ _ _ _ _ _ _ nullFrames_ideal (externals_aeadLen _) (by decide) h0 hl
  obtain ⟨ctx', tr', hon', hnone⟩ := Machine.exists_run _ _ _ _ _ hexec
  obtain ⟨-, rfl⟩ := hon.unique hon'
  have hnil : decodes trOn = [] := of_decide_eq_true hnone
  rw [hnil, hk, hhandlers] at hout
  cases hout

end WfbYa.Rx
