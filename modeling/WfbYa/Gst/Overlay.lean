/-
  WfbYa.Gst.Overlay — the signal strengths the overlay shows (`wfb_gst_add_dbm`, `write_graph`,
  `write_text`).

  `history_cur` is the cell written next, which holds the oldest value. `write_graph` starts
  there and goes once round, so that the newest comes last; `write_text` prints that cell, as
  if it were the newest.

  - `addDbms_ready`: what a sequence of calls leaves.
  - `graphFrom_values`: what the graph goes through.
  - `history_shown_iff`: when the number printed is the one added last.
-/

import WfbYa.Params
import WfbYa.Lib.Rotation

namespace WfbYa.Gst

open WfbYa.Lib.Rotation

def overlayNhist : Nat := 300

/-- `struct wfb_gst_context`, what the overlay is about. -/
structure WfbGstContext where
  closing : Bool
  history : List Int8
  historyCur : Nat
  deriving DecidableEq

def wfbGstAddDbm (ctx : WfbGstContext) (dbm : Int8) : Except Fault WfbGstContext :=
  if ctx.closing then .ok ctx
  else if ctx.historyCur < overlayNhist then
    .ok { ctx with history := ctx.history.set ctx.historyCur dbm, historyCur := next overlayNhist ctx.historyCur }
  else .error .outOfBounds

/-- The graph's last `x`, and its height. -/
def maxX : Nat := overlayNhist - 1
def maxY : Int := 50

def satY (y minY maxY : Int) : Int := if maxY < y then maxY else if y < minY then minY else y

/-- The height of a value: -65 dBm is at the bottom. -/
def graphY (v : Int8) : Int := satY (maxY - (v.toInt + 65)) 0 maxY

/-- A point of the graph, and the value it is for. -/
structure GraphPoint where
  x : Nat
  value : Int8
  y : Int
  deriving DecidableEq

/-- The loop of `write_graph`: `n` turns from `x` and `idx` on. -/
def graphFrom (ctx : WfbGstContext) : Nat → Nat → Nat → Except Fault (List GraphPoint)
  | 0, _, _ => .ok []
  | n + 1, x, idx =>
    match ctx.history[idx]? with
    | none => .error .outOfBounds
    | some v => (graphFrom ctx n (x + 1) (next overlayNhist idx)).map fun pts => ⟨x, v, graphY v⟩ :: pts

def writeGraph (ctx : WfbGstContext) : Except Fault (List GraphPoint) := graphFrom ctx (maxX + 1) 0 ctx.historyCur

/-- The number in front of ` [dbm]`. -/
def writeText (ctx : WfbGstContext) : Except Fault Int8 :=
  match ctx.history[ctx.historyCur]? with
  | none => .error .outOfBounds
  | some v => .ok v

def addDbms (ctx : WfbGstContext) (vs : List Int8) : Except Fault WfbGstContext := vs.foldlM wfbGstAddDbm ctx

/-! ## What the calls leave -/

/-- An open context. -/
structure Ready (ctx : WfbGstContext) : Prop where
  isOpen : ctx.closing = false
  size : ctx.history.length = overlayNhist
  inside : ctx.historyCur < overlayNhist

/-- The values held, oldest first. -/
def WfbGstContext.held (ctx : WfbGstContext) : List Int8 := unrolled ctx.history ctx.historyCur

variable {ctx ctx' : WfbGstContext} {vs : List Int8} {v : Int8}

theorem Ready.held_length (h : Ready ctx) : ctx.held.length = overlayNhist := (unrolled_length _ _).trans h.size

theorem addDbm_ready (h : Ready ctx) (v : Int8) : ∃ ctx', wfbGstAddDbm ctx v = .ok ctx' ∧ Ready ctx' ∧
    ctx'.held = ctx.held.drop 1 ++ [v] := by
  have hlt : ctx.historyCur < ctx.history.length := h.size ▸ h.inside
  refine ⟨{ ctx with history := ctx.history.set ctx.historyCur v, historyCur := next overlayNhist ctx.historyCur }, ?_, ?_, ?_⟩
  · unfold wfbGstAddDbm
    rw [h.isOpen, if_neg Bool.false_ne_true, if_pos h.inside]
  · exact ⟨h.isOpen, (List.length_set ..).trans h.size, next_lt (by decide)⟩
  · have hpush := unrolled_push hlt v
    rw [h.size] at hpush
    have hold : ctx.held = ctx.history[ctx.historyCur] :: newer ctx.history ctx.historyCur := unrolled_eq hlt
    rw [hold, List.drop_succ_cons, List.drop_zero]
    exact hpush

theorem addDbms_ready (h : Ready ctx) (vs : List Int8) :
    ∃ ctx', addDbms ctx vs = .ok ctx' ∧ Ready ctx' ∧ ctx'.held = (ctx.held ++ vs).drop vs.length := by
  induction vs generalizing ctx with
  | nil => exact ⟨ctx, rfl, h, by simp⟩
  | cons v vs ih =>
    obtain ⟨ctx1, hadd, hready, hheld⟩ := addDbm_ready h v
    obtain ⟨ctx', hrest, hready', hheld'⟩ := ih hready
    refine ⟨ctx', ?_, hready', ?_⟩
    · unfold addDbms
      rw [List.foldlM_cons, hadd]
      exact hrest
    · have hpos : 1 ≤ ctx.held.length := by
        rw [h.held_length]
        decide
      rw [hheld', hheld, List.append_assoc, List.singleton_append, ← List.drop_append_of_le_length hpos, List.drop_drop,
        List.length_cons, Nat.add_comm]

/-! ## What is shown -/

theorem graphFrom_values (h : ctx.history.length = overlayNhist) {n x idx : Nat} (hidx : idx < overlayNhist)
    (hn : n ≤ overlayNhist) :
    ∃ pts, graphFrom ctx n x idx = .ok pts ∧ pts.map GraphPoint.x = List.range' x n ∧
      pts.map GraphPoint.value = (unrolled ctx.history idx).take n ∧ ∀ p ∈ pts, p.y = graphY p.value := by
  induction n generalizing x idx with
  | zero => exact ⟨[], rfl, rfl, by simp, fun p hp => absurd hp List.not_mem_nil⟩
  | succ n ih =>
    have hlt : idx < ctx.history.length := h ▸ hidx
    obtain ⟨pts, hpts, hx, hval, hy⟩ := @ih (x + 1) (next overlayNhist idx) (next_lt (by decide)) (by omega)
    refine ⟨⟨x, ctx.history[idx], graphY ctx.history[idx]⟩ :: pts, ?_, ?_, ?_, ?_⟩
    · rw [graphFrom, List.getElem?_eq_getElem hlt, hpts]
      rfl
    · rw [List.map_cons, hx, List.range'_succ]
    · have hnewer : n ≤ (newer ctx.history idx).length := by
        have hlen := unrolled_length ctx.history idx
        rw [unrolled_eq hlt, List.length_cons] at hlen
        omega
      have hnext := unrolled_next hlt
      rw [h] at hnext
      rw [List.map_cons, hval, unrolled_eq hlt, List.take_succ_cons, hnext, List.take_append_of_le_length hnewer]
    · intro p hp
      rcases List.mem_cons.mp hp with rfl | hp
      · rfl
      · exact hy p hp

theorem writeGraph_values (h : Ready ctx) : ∃ pts, writeGraph ctx = .ok pts ∧ pts.map GraphPoint.x = List.range overlayNhist ∧
    pts.map GraphPoint.value = ctx.held ∧ ∀ p ∈ pts, p.y = graphY p.value := by
  obtain ⟨pts, hpts, hx, hval, hy⟩ := @graphFrom_values ctx h.size (maxX + 1) 0 ctx.historyCur h.inside (Nat.le_refl _)
  refine ⟨pts, hpts, ?_, ?_, hy⟩
  · rw [hx, List.range_eq_range']
    rfl
  · rw [hval]
    exact List.take_of_length_le (Nat.le_of_eq h.held_length)

theorem writeText_oldest (h : Ready ctx) : ∃ v, writeText ctx = .ok v ∧ ctx.held[0]? = some v := by
  have hlt : ctx.historyCur < ctx.history.length := h.size ▸ h.inside
  refine ⟨ctx.history[ctx.historyCur], ?_, ?_⟩
  · unfold writeText
    rw [List.getElem?_eq_getElem hlt]
  · have hold : ctx.held = ctx.history[ctx.historyCur] :: newer ctx.history ctx.historyCur := unrolled_eq hlt
    rw [hold]
    rfl

/-- How many of the values added are still held. -/
def shownCount (vs : List Int8) : Nat := min vs.length overlayNhist

/-- What the overlay should show once `vs` were added. -/
structure HistoryShown (vs : List Int8) (ctx : WfbGstContext) : Prop where
  inside : ctx.historyCur < overlayNhist
  graph : ∃ pts, writeGraph ctx = .ok pts ∧ pts.map GraphPoint.x = List.range overlayNhist ∧ (∀ p ∈ pts, p.y = graphY p.value) ∧
    (pts.map GraphPoint.value).drop (overlayNhist - shownCount vs) = vs.drop (vs.length - shownCount vs)
  text : ∃ v, writeText ctx = .ok v ∧ vs.getLast? = some v

/-- The value that `vs` leave as the oldest of those held is the last of them. -/
def OldestIsLast (ctx : WfbGstContext) (vs : List Int8) : Prop := (ctx.held ++ vs)[vs.length]? = vs.getLast?

instance : Decidable (OldestIsLast ctx vs) := inferInstanceAs (Decidable (_ = _))

theorem history_shown_iff (h : Ready ctx) :
    (∃ ctx', addDbms ctx vs = .ok ctx' ∧ HistoryShown vs ctx') ↔ OldestIsLast ctx vs := by
  obtain ⟨ctx', hadd, hready, hheld⟩ := addDbms_ready h vs
  obtain ⟨w, htext, hold⟩ := writeText_oldest hready
  have hcell : (ctx.held ++ vs)[vs.length]? = some w := by
    rw [← hold, hheld, List.getElem?_drop, Nat.add_zero]
  unfold OldestIsLast
  rw [hcell]
  constructor
  · intro ⟨ctx'', hadd', hshown⟩
    rw [hadd] at hadd'
    cases hadd'
    obtain ⟨v, hv, hlast⟩ := hshown.text
    rw [htext] at hv
    cases hv
    exact hlast.symm
  · intro hlast
    obtain ⟨pts, hpts, hx, hval, hy⟩ := writeGraph_values hready
    refine ⟨ctx', hadd, hready.inside, ⟨pts, hpts, hx, hy, ?_⟩, w, htext, hlast.symm⟩
    rw [hval, hheld, List.drop_drop]
    have hlen := h.held_length
    unfold shownCount
    rcases Nat.le_total vs.length overlayNhist with hle | hle
    · rw [Nat.min_eq_left hle, Nat.sub_self, List.drop_zero, Nat.add_sub_cancel' hle, ← hlen, List.drop_left]
    · rw [Nat.min_eq_right hle, Nat.sub_self, Nat.add_zero, List.drop_append, hlen, List.drop_of_length_le (by omega),
        List.nil_append]

/-! ## A context just opened -/

/-- What `memset` leaves. -/
def newContext : WfbGstContext := ⟨false, List.replicate overlayNhist 0, 0⟩

theorem newContext_ready : Ready newContext := ⟨rfl, List.length_replicate .., by decide⟩

theorem history_shown_zero : ∃ ctx', addDbms newContext [-60, 0] = .ok ctx' ∧ HistoryShown [-60, 0] ctx' :=
  (history_shown_iff newContext_ready).mpr (by decide +kernel)

/-- After one call with -60 the overlay says `0 [dbm]`. -/
theorem first_value_breaks_text : ∃ ctx', addDbms newContext [-60] = .ok ctx' ∧ writeText ctx' = .ok 0 ∧
    ¬ HistoryShown [-60] ctx' := by
  obtain ⟨ctx', hadd, hready, hheld⟩ := addDbms_ready newContext_ready [-60]
  obtain ⟨w, htext, hold⟩ := writeText_oldest hready
  have hzero : ((newContext.held ++ [(-60 : Int8)]).drop 1)[0]? = some (0 : Int8) := by decide +kernel
  have hw : w = 0 := by
    rw [hheld] at hold
    exact Option.some.inj (hold.symm.trans hzero)
  refine ⟨ctx', hadd, hw ▸ htext, fun hshown => ?_⟩
  obtain ⟨v, hv, hlast⟩ := hshown.text
  rw [htext, hw] at hv
  cases hv
  exact absurd hlast (by decide)

end WfbYa.Gst
