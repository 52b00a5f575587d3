/-
  WfbYa.Rx.Viewing — what a session's viewers get, and what its log gets.

  `send_data_one` gives a payload to the decode handlers and then to the log, or to neither.

  - `Pieced.deskStep`: what holds of each call of `send_data_one` and of every other event
    holds of a step of the desk.
  - `view_ordered`: in a session in which no block is skipped, whatever is lost, repeated or
    forged, the log gets payloads in the order of their fragments, none twice, and the
    handlers get these and no others.
-/

import WfbYa.Rx.Accepting
import WfbYa.Rx.Channel

namespace WfbYa.Rx

open WfbYa.Frame WfbYa.Ring WfbYa.Lib

variable {x : Externals} {ctx : RxContext} {blk : RbufBlock} {Q : List Ev → Prop}

/-! ## The pieces of a step -/

/-- An event of a call of `send_data_one`. -/
def Ev.isHandOver : Ev → Bool
  | .send _ _ _ _ => true
  | .decode _ _ _ _ _ => true
  | .logDecode _ _ _ => true
  | _ => false

/-- `Q` holds of each call of `send_data_one`, of other events, and of what it holds of put
    together. -/
structure Pieced (ctx : RxContext) (Q : List Ev → Prop) : Prop where
  nil : Q []
  append : ∀ e e', Q e → Q e' → Q (e ++ e')
  call : ∀ blk i, Q (handOver ctx blk i)
  other : ∀ a : Ev, a.isHandOver = false → Q [a]

theorem Pieced.cons (h : Pieced ctx Q) {a : Ev} {e : List Ev} (ha : a.isHandOver = false) (he : Q e) : Q (a :: e) :=
  h.append [a] e (h.other a ha) he

theorem Pieced.flatMap (h : Pieced ctx Q) (blk : RbufBlock) (is : List Nat) : Q (is.flatMap (handOver ctx blk)) := by
  induction is with
  | nil => exact h.nil
  | cons i is ih =>
    rw [List.flatMap_cons]
    exact h.append _ _ (h.call blk i) ih

theorem Pieced.fecBlock (h : Pieced ctx Q) {s : Nat} {o : Option RbufBlock} {e : List Ev} (hb : FecBlock x ctx s blk o e) :
    Q e := by
  cases hb with
  | waits _ => exact h.nil
  | @done blk' e _ hrec =>
    have hquiet : Q (effects e) := by
      cases hrec with
      | complete _ => exact h.nil
      | decoded _ _ _ => exact h.other _ rfl
    exact h.append _ _ (h.append _ _ hquiet (h.flatMap ..)) (h.other _ rfl)

theorem Pieced.addBlock (h : Pieced ctx Q) {s : Nat} {o : Option RbufBlock} {e : List Ev} (hb : AddBlock x ctx s blk o e) :
    Q e := by
  cases hb with
  | complete _ => exact h.append _ _ (h.flatMap ..) (h.other _ rfl)
  | partly _ hfec => exact h.append _ _ (h.flatMap ..) (h.fecBlock hfec)

theorem Pieced.deskStep (h : Pieced ctx Q) {d d' : Desk} {e : List Ev} (hs : DeskStep x ctx d d' e) : Q e := by
  cases hs with
  | old _ _ _ => exact h.other _ rfl
  | duplicate _ _ _ => exact h.other _ rfl
  | again _ _ _ _ _ hadd => exact h.cons rfl (h.cons rfl (h.addBlock hadd))
  | first _ _ _ _ hadd => exact h.cons rfl (h.cons rfl (h.cons rfl (h.addBlock hadd)))
  | next _ _ _ _ hfec =>
    apply h.cons rfl
    apply h.cons rfl
    apply h.cons rfl
    exact h.append _ _ (h.flatMap ..) (h.cons rfl (h.cons rfl (h.fecBlock hfec)))

theorem Pieced.deskLost (h : Pieced ctx Q) {d : Desk} {e : List Ev} (hl : DeskLost x ctx d e) : Q e := by
  cases hl with
  | again _ _ _ _ => exact h.cons rfl (h.other _ rfl)
  | opened _ _ => exact h.cons rfl (h.cons rfl (h.other _ rfl))

/-! ## The view -/

/-- What the log gets: block, index and payload. -/
def viewed (evs : List Ev) : List (Nat × Nat × Bytes) :=
  evs.filterMap fun e => match e with
    | .logDecode b f data => some (b, f, data)
    | _ => none

@[simp] theorem viewed_append (e e' : List Ev) : viewed (e ++ e') = viewed e ++ viewed e' := List.filterMap_append ..

theorem viewed_effects (evs : List Ev) : viewed (effects evs) = viewed evs := filterMap_effects (fun _ _ => rfl) evs

/-- What the handlers `hs` get of a payload. -/
def shownTo (hs : List Nat) (w : Nat × Nat × Bytes) : List (Nat × Nat × Nat × Bytes) := hs.map fun h => (h, w.1, w.2.1, w.2.2)

/-- The log gets some of what is handed over, in that order, and the handlers get the same. -/
structure Viewed (hs : List Nat) (evs : List Ev) : Prop where
  order : ((viewed evs).map fun w => frag w.1 w.2.1).Sublist (sent evs)
  shown : decodes evs = (viewed evs).flatMap (shownTo hs)

theorem Viewed.of_effects {hs : List Nat} {evs : List Ev} (h : Viewed hs (effects evs)) : Viewed hs evs := by
  obtain ⟨ho, hd⟩ := h
  rw [viewed_effects] at ho hd
  rw [sent_effects] at ho
  rw [decodes_effects] at hd
  exact ⟨ho, hd⟩

theorem Viewed.append {hs : List Nat} {e e' : List Ev} (h : Viewed hs e) (h' : Viewed hs e') : Viewed hs (e ++ e') := by
  constructor
  · rw [viewed_append, sent_append, List.map_append]
    exact h.order.append h'.order
  · rw [decodes_append, viewed_append, List.flatMap_append, h.shown, h'.shown]

theorem Viewed.nil (hs : List Nat) : Viewed hs [] := ⟨.slnil, rfl⟩

/-- A payload goes to the handlers and the log, or to neither. -/
theorem deliver_viewed (ctx : RxContext) (blk : RbufBlock) :
    viewed (deliver ctx blk) = [] ∧ decodes (deliver ctx blk) = [] ∨
      ∃ data, viewed (deliver ctx blk) = [(blk.index, blk.fragmentToSend, data)] ∧
        decodes (deliver ctx blk) = shownTo ctx.decodeHandler (blk.index, blk.fragmentToSend, data) := by
  unfold deliver
  dsimp only
  split
  · exact .inl ⟨rfl, rfl⟩
  · split
    · exact .inl ⟨rfl, rfl⟩
    · refine .inr ⟨packetData (blk.fragment blk.fragmentToSend), ?_⟩
      rw [viewed_append, decodes_append]
      split
      · rename_i hs
        rw [hs]
        exact ⟨rfl, rfl⟩
      · constructor
        · unfold viewed
          rw [List.filterMap_map]
          simp
        · unfold decodes shownTo
          rw [List.filterMap_map, ← List.filterMap_eq_map]
          exact List.append_nil _

theorem handOver_viewed (ctx : RxContext) (blk : RbufBlock) (i : Nat) : Viewed ctx.decodeHandler (handOver ctx blk i) := by
  have hv : viewed (handOver ctx blk i) = viewed (deliver ctx { blk with fragmentToSend := i }) := viewed_effects _
  have hd : decodes (handOver ctx blk i) = decodes (deliver ctx { blk with fragmentToSend := i }) := decodes_effects _
  have hs : sent (handOver ctx blk i) = [frag blk.index i] := sent_handOver ctx blk i
  rcases deliver_viewed ctx { blk with fragmentToSend := i } with ⟨h1, h2⟩ | ⟨data, h1, h2⟩
  · constructor
    · rw [hv, h1]
      exact List.nil_sublist _
    · rw [hd, h2, hv, h1]
      rfl
  · constructor
    · rw [hv, h1, hs]
      exact List.Sublist.refl _
    · rw [hd, h2, hv, h1, List.flatMap_singleton]

theorem viewedPieces (ctx : RxContext) : Pieced ctx (Viewed ctx.decodeHandler) where
  nil := .nil _
  append := fun _ _ h h' => h.append h'
  call := handOver_viewed ctx
  other := fun a ha => by
    cases a with
    | send _ _ _ _ => cases ha
    | decode _ _ _ _ _ => cases ha
    | logDecode _ _ _ => cases ha
    | _ => exact ⟨List.nil_sublist _, rfl⟩

/-- What the log gets was handed over of the same block. -/
theorem Viewed.call {hs : List Nat} {evs : List Ev} (h : Viewed hs evs) {w : Nat × Nat × Bytes} (hw : w ∈ viewed evs) :
    ∃ c ∈ calls evs, c.1 = w.1 := by
  have hmem : frag w.1 w.2.1 ∈ sent evs := h.order.subset (List.mem_map_of_mem hw)
  rw [sent_calls] at hmem
  obtain ⟨c, hc, heq⟩ := List.mem_map.mp hmem
  exact ⟨c, hc, congrArg (fun p : Frag => (ofLex p).1) heq⟩

/-- Only fragments of blocks are handed over. -/
def Indexed (evs : List Ev) : Prop := ∀ c ∈ calls evs, c.1 ≠ blockInval

theorem Only.indexed {b : Nat} {e : List Ev} (h : Only b e) (hb : b ≠ blockInval) : Indexed e := fun c hc => h c hc ▸ hb

theorem Indexed.append {e e' : List Ev} (h : Indexed e) (h' : Indexed e') : Indexed (e ++ e') := by
  intro c hc
  rw [calls_append] at hc
  exact (List.mem_append.mp hc).elim (h c) (h' c)

theorem DeskStep.indexed {d d' : Desk} {e : List Ev} (h : DeskStep x ctx d d' e)
    (hcur : ∀ blk, d.cur = some blk → blk.index = d.last ∧ d.last ≠ blockInval) : Indexed e := by
  cases h with
  | old _ _ _ => exact fun c hc => nomatch hc
  | duplicate _ _ _ => exact fun c hc => nomatch hc
  | again hc _ _ _ _ hadd =>
    have hi := hcur _ hc
    exact (hadd.only ((withFragment_index ..).trans hi.1)).indexed hi.2
  | first _ hnew _ _ hadd => exact (hadd.only (withFragment_index ..)).indexed hnew.1
  | @next blk _ _ _ _ hc hnew _ _ hfec =>
    have hi := hcur _ hc
    have hflush := (only_flatMap ctx hi.1 (sendRun ctx blk true false).1).indexed hi.2
    exact hflush.append ((hfec.only (withFragment_index ..)).indexed hnew.1)

/-- A session so far. -/
structure Viewing (ctx0 ctx : RxContext) (tr : List Ev) : Prop where
  handlers : ctx.decodeHandler = ctx0.decodeHandler
  desk : ctx.hasSessionKey = true → ∃ d, DeskInv ctx0 ctx d
  viewed : Viewed ctx0.decodeHandler tr
  indexed : Indexed tr

theorem Viewing.step {ctx0 ctx' : RxContext} {tr e : List Ev} (h : Viewing ctx0 ctx tr) {i : Input} (hg : Steady x ctx i)
    (hs : rxStep x ctx i = .ok (ctx', e)) : Viewing ctx0 ctx' (tr ++ e) := by
  have hhandlers := (rxStep_handlers hs).trans h.handlers
  by_cases hk : ctx.hasSessionKey = true
  · obtain ⟨d, hd⟩ := h.desk hk
    have hin := desk_step hd hk hg hs
    have hpieces : ∀ (f : RxFrame) (w : WfbContext), Pieced (withFrame ctx f w) (Viewed ctx0.decodeHandler) := by
      intro f w
      rw [← show (withFrame ctx f w).decodeHandler = ctx0.decodeHandler from h.handlers]
      exact viewedPieces _
    have hnext : (ctx'.hasSessionKey = true → ∃ d', DeskInv ctx0 ctx' d') ∧ Viewed ctx0.decodeHandler (effects e) ∧
        Indexed (effects e) := by
      generalize effects e = ev at hin
      cases hin with
      | idle _ hd' => exact ⟨fun _ => ⟨d, hd'⟩, .nil _, fun _ hc => nomatch hc⟩
      | @lost f w _ _ _ _ hclosed hl =>
        refine ⟨fun hk' => ?_, (hpieces f w).deskLost hl, ?_⟩
        · rw [hclosed] at hk'
          cases hk'
        · cases hl <;> exact fun c hc => nomatch hc
      | @step f w _ d' _ _ _ _ hd' hstep => exact ⟨fun _ => ⟨d', hd'⟩, (hpieces f w).deskStep hstep, hstep.indexed hd.index⟩
    refine ⟨hhandlers, hnext.1, h.viewed.append hnext.2.1.of_effects, h.indexed.append fun c hc => ?_⟩
    exact hnext.2.2 c (by rwa [calls_effects])
  · obtain ⟨hclosed, hq⟩ := closed_step (Bool.eq_false_iff.mpr hk) hg.1 hs
    refine ⟨hhandlers, fun hk' => ?_, h.viewed.append (.of_effects ?_), h.indexed.append fun c hc => ?_⟩
    · rw [hclosed] at hk'
      cases hk'
    · rw [hq]
      exact .nil _
    · rw [calls_quiet hq] at hc
      cases hc

theorem viewing_run {ctx0 : RxContext} (h0 : Opened x ctx0) {is : List Input} {tr : List Ev}
    (h : Machine.Run (rxStep x) (Steady x) ctx0 is ctx tr) : Viewing ctx0 ctx tr :=
  h.inv (fun _ ctx tr => Viewing ctx0 ctx tr) ⟨rfl, fun _ => ⟨emptyDesk, h0.inv.2⟩, .nil _, fun _ hc => nomatch hc⟩
    fun _ _ _ _ _ _ hi hg hs => hi.step hg hs

theorem view_ordered {ctx0 : RxContext} (h0 : Opened x ctx0) {is : List Input} {tr : List Ev}
    (h : Machine.Run (rxStep x) (Steady x) ctx0 is ctx tr) : ((viewed tr).map fun w => frag w.1 w.2.1).Pairwise (· < ·) :=
  (Steady.sorted (fun _ _ hg => hg) h0 h).sublist (viewing_run h0 h).viewed.order

/-- A session whose acceptance is printed has been opened. -/
theorem opened_of_dump {ctx' : RxContext} {i : Input} {evs : List Ev} (hs : rxStep x ctx i = .ok (ctx', evs))
    (hd : Ev.sessionDump ∈ evs) : Opened x ctx' := by
  have hquiet : ∀ {e : List Ev}, Quiet e → Ev.sessionDump ∉ e := by
    intro e hq hm
    have hm' : Ev.sessionDump ∈ effects e := mem_effects.mpr ⟨hm, rfl⟩
    rw [hq] at hm'
    cases hm'
  cases rxStep_cases hs with
  | toggle hq => exact absurd hd (hquiet hq)
  | unparsed _ hq => exact absurd hd (hquiet hq)
  | session _ _ hx =>
    cases rxSession_cases hx with
    | ignored hq => exact absurd hd (hquiet hq)
    | ended hq => exact absurd hd (hquiet hq)
    | started hdec _ _ hc hst _ => exact ⟨_, _, _, hdec, hc, hst⟩
  | data _ _ hcall => exact absurd (hcall.ofSession _ hd) Bool.true_eq_false.mp

end WfbYa.Rx
