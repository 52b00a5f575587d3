/-
  WfbYa.Rx.Channel — a session as a channel from the sender's blocks to the decode handlers.

  The sender's stream is its primaries, block by block, each for every handler.

  - `lossy_fifo`: in a session in which no block is skipped, whatever is lost, repeated, out
    of order or forged, and however `no_fec` is toggled, the handlers get a part of the
    stream: nothing of it twice, nothing out of order, nothing else.
  - `reliable_fifo`: with FEC, if `k` distinct fragments of each block come before the next
    block, the run goes through and the handlers get the whole stream.
-/

import Mathlib.Data.List.Flatten
import WfbYa.Rx.Collecting

namespace WfbYa.Rx

open WfbYa.Frame WfbYa.Ring WfbYa.Lib

variable {x : Externals} {S : Sender} {enc : Encoder} {payload : Bytes → Nat → Nat → Bytes} {ctx : RxContext} {b : Nat}

/-- The first `n` blocks of the sender's stream. -/
def stream (S : Sender) (payload : Bytes → Nat → Nat → Bytes) (ctx : RxContext) (n : Nat) : List (Nat × Nat × Nat × Bytes) :=
  (List.range n).flatMap fun b => (List.range ctx.fecK).flatMap (toHandlers S payload ctx b)

/-! ## Any session -/

/-- The fragments of the first `n` blocks, in order. -/
def fragsBefore (n k : Nat) : List Frag := (List.range n).flatMap fun b => (List.range k).map (frag b)

theorem fragsBefore_sorted (n k : Nat) : (fragsBefore n k).Pairwise (· < ·) := by
  unfold fragsBefore
  rw [List.pairwise_flatMap]
  constructor
  · intro b _
    apply List.Pairwise.map _ (fun i j hij => ?_) List.pairwise_lt_range
    exact frag_lt.mpr (.inr ⟨rfl, hij⟩)
  · apply List.pairwise_lt_range.imp
    intro b c hbc w hw v hv
    obtain ⟨i, -, rfl⟩ := List.mem_map.mp hw
    obtain ⟨j, -, rfl⟩ := List.mem_map.mp hv
    exact frag_lt.mpr (.inl hbc)

theorem mem_fragsBefore {n k b i : Nat} (hb : b < n) (hi : i < k) : frag b i ∈ fragsBefore n k :=
  List.mem_flatMap.mpr ⟨b, List.mem_range.mpr hb, List.mem_map.mpr ⟨i, List.mem_range.mpr hi, rfl⟩⟩

theorem sent_calls (evs : List Ev) : sent evs = (calls evs).map fun w => frag w.1 w.2.1 := by
  unfold sent calls
  rw [List.map_filterMap]
  apply List.filterMap_congr
  intro e _
  cases e <;> rfl

/-- A call of `send_data_one` for a primary, with what its sender made. -/
def Exact (S : Sender) (payload : Bytes → Nat → Nat → Bytes) (key : Bytes) (w : Nat × Nat × Bytes × Bytes) : Prop :=
  w.2.1 < S.fecK key ∧ w.2 = word S payload key w.1 w.2.1

theorem calls_exact {key : Bytes} {evs : List Ev} (h : ∀ e ∈ evs, Genuine S payload key e) :
    ∀ w ∈ calls evs, Exact S payload key w := by
  intro w hw
  obtain ⟨e, he, hwe⟩ := List.mem_filterMap.mp hw
  have hg := h e he
  cases e with
  | send b f hdr data =>
    cases hwe
    obtain ⟨hf, hhdr, hdata⟩ := hg
    refine ⟨hf, ?_⟩
    show (f, hdr, data) = (f, _, _)
    rw [hhdr, hdata]
  | _ => cases hwe

theorem rxStep_handlers {ctx' : RxContext} {i : Input} {evs : List Ev} (hs : rxStep x ctx i = .ok (ctx', evs)) :
    ctx'.decodeHandler = ctx.decodeHandler := by
  cases rxStep_cases hs with
  | toggle _ => rfl
  | unparsed _ _ => rfl
  | session _ _ hsess =>
    cases rxSession_cases hsess with
    | ignored _ => rfl
    | ended _ => rfl
    | started _ _ _ _ hst _ => rw [hst.1]; rfl
  | data _ _ hcall =>
    obtain ⟨ring, key, he, -⟩ := hcall.ctx_eq
    rw [he]
    rfl

/-- A part of the calls, in order, comes with a part of the stream. -/
theorem stream_of_sorted (hc : Conforming S enc payload ctx.sessionKey) (hk : ctx.fecK = S.fecK ctx.sessionKey)
    {ws : List (Nat × Nat × Bytes × Bytes)} (hex : ∀ w ∈ ws, Exact S payload ctx.sessionKey w)
    (hsort : (ws.map fun w => frag w.1 w.2.1).Pairwise (· < ·)) :
    ∃ n, (ws.flatMap (given ctx.decodeHandler)).Sublist (stream S payload ctx n) := by
  obtain ⟨n, hn⟩ := (ws.map Prod.fst).toFinset.exists_nat_subset_range
  have hlt : ∀ w ∈ ws, w.1 < n := fun w hw => Finset.mem_range.mp (hn (List.mem_toFinset.mpr (List.mem_map_of_mem hw)))
  refine ⟨n, ?_⟩
  have hsub : (ws.map fun w => frag w.1 w.2.1).Sublist (fragsBefore n ctx.fecK) := by
    apply List.sublist_of_subperm_of_pairwise (List.subperm_of_subset hsort.nodup ?_) hsort (fragsBefore_sorted n ctx.fecK)
    intro p hp
    obtain ⟨w, hw, rfl⟩ := List.mem_map.mp hp
    exact mem_fragsBefore (hlt w hw) (by rw [hk]; exact (hex w hw).1)
  have hout := hsub.flatMap fun p => toHandlers S payload ctx (ofLex p).1 (ofLex p).2
  rw [List.flatMap_map] at hout
  have hleft : ws.flatMap (given ctx.decodeHandler) = ws.flatMap fun w => toHandlers S payload ctx w.1 w.2.1 := by
    apply List.flatMap_congr
    intro w hw
    obtain ⟨hi, hword⟩ := hex w hw
    rw [← given_word hc hi, ← hword]
  rw [hleft]
  unfold stream
  unfold fragsBefore at hout
  rw [List.flatMap_assoc] at hout
  simp only [List.flatMap_map] at hout
  exact hout

/-- A steady input asks for no block that `uint32_t` arithmetic loses. -/
theorem Steady.noWrap {i : Input} (h : Steady x ctx i) : NoWrap ctx i := by
  intro p hp hv
  obtain ⟨h1, h2, h3⟩ := hv
  rcases h.2 p hp with hn | hn | hn
  · exact h1 hn
  · exact absurd h2 (Nat.not_lt.mpr hn)
  · omega

/-- A session's calls of `send_data_one` so far, and what they told the handlers. -/
structure Relaying (S : Sender) (payload : Bytes → Nat → Nat → Bytes) (ctx0 ctx : RxContext) (tr : List Ev) : Prop where
  handlers : ctx.decodeHandler = ctx0.decodeHandler
  faithful : ctx.hasSessionKey = true → FaithfulInv S ctx ∧ ∃ d, DeskInv ctx0 ctx d
  exact : ∀ w ∈ calls tr, Exact S payload ctx0.sessionKey w
  told : Told ctx0.decodeHandler tr

theorem Relaying.step (hx : Ideal x S enc payload) {ctx0 ctx' : RxContext} {tr e : List Ev}
    (h : Relaying S payload ctx0 ctx tr) {i : Input} (hg : Steady x ctx i) (hs : rxStep x ctx i = .ok (ctx', e)) :
    Relaying S payload ctx0 ctx' (tr ++ e) := by
  have hhandlers := (rxStep_handlers hs).trans h.handlers
  by_cases hk : ctx.hasSessionKey = true
  · obtain ⟨hf, d, hd⟩ := h.faithful hk
    obtain ⟨hf', hgen⟩ := (faithfulSessionRules hx).step (fun _ => hf) hg.noWrap hs
    have hex : ∀ w ∈ calls e, Exact S payload ctx0.sessionKey w := by
      rw [← hd.sessionKey]
      exact calls_exact hgen
    have hin := desk_step hd hk hg hs
    have hnext : (ctx'.hasSessionKey = true → ∃ d', DeskInv ctx0 ctx' d') ∧ Told ctx0.decodeHandler (effects e) := by
      generalize effects e = ev at hin
      cases hin with
      | idle _ hd' => exact ⟨fun _ => ⟨d, hd'⟩, rfl⟩
      | lost _ _ hclosed hl =>
        refine ⟨fun hk' => ?_, by cases hl <;> rfl⟩
        rw [hclosed] at hk'
        cases hk'
      | @step f w _ d' _ _ _ _ hd' hstep =>
        refine ⟨fun _ => ⟨d', hd'⟩, ?_⟩
        have := hstep.told
        rwa [show (withFrame ctx f w).decodeHandler = ctx0.decodeHandler from h.handlers] at this
    have htold : Told ctx0.decodeHandler e := by
      have := hnext.2
      unfold Told at this ⊢
      rwa [decodes_effects, calls_effects] at this
    refine ⟨hhandlers, fun hk' => ⟨hf' hk', hnext.1 hk'⟩, fun w hw => ?_, h.told.append htold⟩
    rw [calls_append, List.mem_append] at hw
    exact hw.elim (h.exact w) (hex w)
  · obtain ⟨hclosed, hq⟩ := closed_step (Bool.eq_false_iff.mpr hk) hg.1 hs
    refine ⟨hhandlers, fun hk' => ?_, fun w hw => ?_, h.told.append (.quiet hq)⟩
    · rw [hclosed] at hk'
      cases hk'
    · rw [calls_append, calls_quiet hq, List.append_nil] at hw
      exact h.exact w hw

/-- In a session in which no block is skipped, whatever is lost, repeated, out of order or
    forged and however `no_fec` is toggled, the decode handlers get a part of the sender's
    stream, in its order. -/
theorem lossy_fifo (hx : Ideal x S enc payload) {ctx0 : RxContext} (h0 : Opened x ctx0) {is : List Input} {tr : List Ev}
    (h : Machine.Run (rxStep x) (Steady x) ctx0 is ctx tr) : ∃ n, (decodes tr).Sublist (stream S payload ctx0 n) := by
  have hf := h0.faithful hx
  have hok := hf.session.ok.fecK
  have hkS := hf.fecK
  have hnS := hf.fecN
  have hrel : Relaying S payload ctx0 ctx tr := h.inv (fun _ ctx tr => Relaying S payload ctx0 ctx tr)
    ⟨rfl, fun _ => ⟨hf, emptyDesk, h0.inv.2⟩, fun w hw => (nomatch hw), rfl⟩ fun _ _ _ _ _ _ hi hg hs => hi.step hx hg hs
  have hsort := Steady.sorted (fun _ _ hg => hg) h0 h
  rw [sent_calls] at hsort
  rw [show decodes tr = _ from hrel.told]
  exact stream_of_sorted (hx.sender _ (by omega) (by omega)) hkS hrel.exact hsort

theorem lossy_fifo_run : ∃ ctx0 ctx tr, Opened (numbered 2 2).externals ctx0 ∧
    Machine.Run (rxStep (numbered 2 2).externals) (Steady (numbered 2 2).externals) ctx0
      [(numbered 2 2).input 7 1, .fecToggle, (numbered 2 2).input 8 0, (numbered 2 2).input 7 0, (numbered 2 2).input 8 1]
        ctx tr ∧
      ∃ n, (decodes tr).Sublist (stream (numbered 2 2) (fun _ => number 2) ctx0 n) := by
  obtain ⟨ctx0, ctx, tr, h0, hrun, -⟩ := (numbered 2 2).exists_session (Steady (numbered 2 2).externals)
    [(numbered 2 2).input 7 1, .fecToggle, (numbered 2 2).input 8 0, (numbered 2 2).input 7 0, (numbered 2 2).input 8 1]
    (fun _ _ => true) (by decide +kernel)
  exact ⟨ctx0, ctx, tr, h0, hrun, lossy_fifo (numbered_ideal (by decide) (.inr rfl)) h0 hrun⟩

/-! ## Enough of every block -/

/-- From block `b` on: a list of inputs for each block, every one a fragment of that block
    or of an earlier one, `k` distinct ones of the block among them. -/
def Redundant (x : Externals) (ctx : RxContext) (first : Nat) : Nat → List (List Input) → Prop
  | _, [] => True
  | b, fs :: fss => b ≤ maxBlockIdx ∧ (∀ i ∈ fs, ∃ c ≤ b, first ≤ c ∧ OfBlock x ctx c i) ∧
      ctx.fecK ≤ (arrived b fs).card ∧ Redundant x ctx first (b + 1) fss

instance decidableRedundant (x : Externals) (ctx : RxContext) (first : Nat) :
    ∀ (b : Nat) (fss : List (List Input)), Decidable (Redundant x ctx first b fss)
  | _, [] => .isTrue trivial
  | b, _ :: fss =>
    have := decidableRedundant x ctx first (b + 1) fss
    inferInstanceAs (Decidable (_ ∧ _ ∧ _ ∧ _))

/-- Once `k` fragments have arrived the block is recovered. -/
theorem Phase.recovered {ctx0 : RxContext} {first : Nat} {fs : List Input} {tr : List Ev}
    (h : Phase S payload ctx0 ctx first b fs tr) (hpos : 1 ≤ S.fecK ctx0.sessionKey) (hv : ctx0.noFec = false)
    (hcard : S.fecK ctx0.sessionKey ≤ (arrived b fs).card) :
    ∃ d, DeskInv ctx0 ctx d ∧ d.cur = none ∧ d.last = b ∧
      sends b tr = handed S payload ctx0.sessionKey b (S.fecK ctx0.sessionKey) := by
  obtain ⟨d, hd, hst⟩ := h.filling
  refine ⟨d, hd, ?_⟩
  cases hst with
  | ahead hD _ _ _ =>
    rw [hD, Finset.card_empty] at hcard
    omega
  | pending _ _ _ _ _ hlt _ => exact absurd (hlt hv) (Nat.not_lt.mpr hcard)
  | finished hc hl hout => exact ⟨hc, hl, hout⟩

theorem Redundant.run (hx : Ideal x S enc payload) (hax : AeadLen x) (hpos : 0 < x.maxIter) {ctx0 : RxContext}
    (h0 : Opened x ctx0) (hv : ctx0.noFec = false) {first : Nat} {fss : List (List Input)} (hl : Redundant x ctx0 first b fss)
    {is : List Input} {tr : List Ev} (hrun : Machine.Run (rxStep x) (Sound x) ctx0 is ctx tr)
    (h : Phase S payload ctx0 ctx first b [] []) :
    ∃ ctx' tr', Machine.Run (rxStep x) (Sound x) ctx fss.flatten ctx' tr' ∧
      decodes tr' = (List.range' b fss.length).flatMap fun c => (List.range ctx0.fecK).flatMap (toHandlers S payload ctx0 c) := by
  have hf := h0.faithful hx
  have h1 := hf.session.ok.fecK
  have hk := hf.fecK
  have hn := hf.fecN
  induction fss generalizing b is ctx tr with
  | nil => exact ⟨ctx, [], .nil, rfl⟩
  | cons fs fss ih =>
    obtain ⟨hb, hfs, hcard, hrest⟩ := hl
    obtain ⟨ctx1, tr1, hr, hp⟩ := Phase.run hx hax hpos h0 hrun hb h hfs
    obtain ⟨d, hd, hcur, hlast, hout⟩ := hp.recovered (by omega) hv (by omega)
    have hnext : Phase S payload ctx0 ctx1 first (b + 1) [] [] :=
      ⟨hp.session, hp.noFec, hp.crypto, hp.handlers, ⟨d, hd, .ahead rfl hcur (.inr (by rw [hlast])) rfl⟩, .quiet rfl, rfl⟩
    obtain ⟨ctx2, tr2, hr2, hdec⟩ := ih hrest (hrun.append hr) hnext
    refine ⟨ctx2, tr1 ++ tr2, ?_, ?_⟩
    · rw [List.flatten_cons]
      exact hr.append hr2
    · rw [decodes_append, hdec, hp.decodes_eq (hx.sender _ (by omega) (by omega)) hout, List.length_cons, List.range'_succ,
        List.flatMap_cons, hk]

/-- With FEC, in any session: if `k` distinct fragments of every block come before the next
    block starts, in any order, some twice and some late, the receiver takes them all
    without a fault and the decode handlers get the whole stream. -/
theorem reliable_fifo (hx : Ideal x S enc payload) (hax : AeadLen x) (hpos : 0 < x.maxIter) (h0 : Opened x ctx)
    (hv : ctx.noFec = false) {first : Nat} {fss : List (List Input)} (hl : Redundant x ctx first first fss) :
    ∃ ctx' tr, Machine.Run (rxStep x) (fun _ _ => True) ctx fss.flatten ctx' tr ∧
      decodes tr = (List.range' first fss.length).flatMap fun b => (List.range ctx.fecK).flatMap
        (toHandlers S payload ctx b) := by
  obtain ⟨hk, hd⟩ := h0.inv
  have hstart : Phase S payload ctx ctx first first [] [] :=
    ⟨hk, rfl, rfl, rfl, ⟨emptyDesk, hd, .ahead rfl rfl (.inl ⟨rfl, rfl⟩) rfl⟩, .quiet rfl, rfl⟩
  obtain ⟨ctx', tr, hrun, hdec⟩ := hl.run hx hax hpos h0 hv .nil hstart
  exact ⟨ctx', tr, hrun.mono fun _ _ _ => trivial, hdec⟩

theorem reliable_fifo_run : ∃ ctx ctx' tr, Opened (numbered 1 3).externals ctx ∧ ctx.noFec = false ∧
    Machine.Run (rxStep (numbered 1 3).externals) (fun _ _ => True) ctx
      [(numbered 1 3).input 7 2, (numbered 1 3).input 7 0, (numbered 1 3).input 7 1, (numbered 1 3).input 8 1] ctx' tr ∧
      decodes tr = (List.range' 7 2).flatMap fun b => (List.range ctx.fecK).flatMap
        (toHandlers (numbered 1 3) (fun _ => number 1) ctx b) := by
  obtain ⟨ctx0, ctx, tr, h0, hrun, hq⟩ := (numbered 1 3).exists_session (fun _ _ => True) []
    (fun ctx0 _ => decide (ctx0.noFec = false ∧ Redundant (numbered 1 3).externals ctx0 7 7
      [[(numbered 1 3).input 7 2, (numbered 1 3).input 7 0], [(numbered 1 3).input 7 1, (numbered 1 3).input 8 1]]))
    (by decide +kernel)
  obtain ⟨hv, hl⟩ := of_decide_eq_true hq
  obtain ⟨ctx', tr', hrun', hout⟩ := reliable_fifo (numbered_ideal (le_refl _) (.inl rfl))
    (externals_aeadLen _) (by decide) h0 hv hl
  exact ⟨ctx0, ctx', tr', h0, hv, hrun', hout⟩

end WfbYa.Rx
