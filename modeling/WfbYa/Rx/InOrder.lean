/-
  WfbYa.Rx.InOrder — fragments are handed over in order.

  The desk has a cursor: the block on it and that block's `fragment_to_send`, or the start
  of the block after the newest one. Every step of the desk hands over fragments from the
  cursor on and leaves the cursor behind them.

  - `DeskStep.emits`: that step.
  - `in_order`: in a session in which no block is skipped the fragments handed over
    increase, block first, over any loss, duplication and reordering.
  - `gap_breaks_order`: a skipped block leaves blocks behind that are handed over late.
-/

import WfbYa.Rx.DeskRun
import WfbYa.Lib.InOrder
import Mathlib.Data.Prod.Lex

namespace WfbYa.Rx

open WfbYa.Frame WfbYa.Ring WfbYa.Lib WfbYa.Lib.InOrder

/-- A fragment of a block; fragments are ordered by block first. -/
abbrev Frag := Nat ×ₗ Nat

def frag (b f : Nat) : Frag := toLex (b, f)

theorem frag_lt {a b i j : Nat} : frag a i < frag b j ↔ a < b ∨ a = b ∧ i < j := Prod.Lex.toLex_lt_toLex

theorem frag_le {a b i j : Nat} : frag a i ≤ frag b j ↔ a < b ∨ a = b ∧ i ≤ j := Prod.Lex.toLex_le_toLex

/-- The fragments handed to `send_data_one`, in order. -/
def sent (evs : List Ev) : List Frag :=
  evs.filterMap fun e => match e with
    | .send b f _ _ => some (frag b f)
    | _ => none

@[simp] theorem sent_append (a b : List Ev) : sent (a ++ b) = sent a ++ sent b := List.filterMap_append ..

theorem sent_effects (evs : List Ev) : sent (effects evs) = sent evs := filterMap_effects (fun _ _ => rfl) evs

theorem sent_handOver (ctx : RxContext) (blk : RbufBlock) (i : Nat) : sent (handOver ctx blk i) = [frag blk.index i] :=
  filterMap_handOver (fun _ _ => rfl) (fun _ _ _ _ _ => rfl) (fun _ _ _ => rfl) ctx blk i

theorem sent_flatMap (ctx : RxContext) (blk : RbufBlock) (is : List Nat) :
    sent (is.flatMap (handOver ctx blk)) = is.map (frag blk.index) := by
  induction is with
  | nil => rfl
  | cons i is ih => rw [List.flatMap_cons, sent_append, sent_handOver, ih]; rfl

/-! ## The cursor -/

/-- The next fragment that can be handed over. -/
def Desk.cursor (d : Desk) : Frag :=
  match d.cur with
  | some blk => frag d.last blk.fragmentToSend
  | none => if d.last = blockInval then frag 0 0 else frag (d.last + 1) 0

theorem cursor_none {f l : Nat} (h : l ≠ blockInval) : Desk.cursor ⟨f, l, none⟩ = frag (l + 1) 0 := if_neg h

variable {x : Externals} {ctx : RxContext}

/-- A call of `send_data_any` hands over fragments between where its cursor was and is. -/
theorem sendRun_emits (ctx : RxContext) (blk : RbufBlock) (stale recovered : Bool) :
    Emits (frag blk.index blk.fragmentToSend) (sent ((sendRun ctx blk stale recovered).1.flatMap (handOver ctx blk)))
      (frag blk.index (sendRun ctx blk stale recovered).2) := by
  have hs := sendPlan_spec blk.fragmentLen stale recovered (ctx.fecK - blk.fragmentToSend) blk.fragmentToSend
  rw [sent_flatMap]
  refine ⟨frag_le.mpr (.inr ⟨rfl, hs.bounds.1⟩), ?_, fun k hk => ?_⟩
  · exact List.pairwise_map.mpr (hs.sorted.imp fun hlt => frag_lt.mpr (.inr ⟨rfl, hlt⟩))
  · obtain ⟨i, hi, rfl⟩ := List.mem_map.mp hk
    have := ((hs.mem i).mp hi).1
    exact ⟨frag_le.mpr (.inr ⟨rfl, this.1⟩), frag_lt.mpr (.inr ⟨rfl, this.2⟩)⟩

/-- All of a block is before the next one. -/
theorem sendRun_emits_all (ctx : RxContext) (blk : RbufBlock) (stale recovered : Bool) {b : Nat} (h : blk.index < b) :
    Emits (frag blk.index blk.fragmentToSend) (sent ((sendRun ctx blk stale recovered).1.flatMap (handOver ctx blk)))
    (frag b 0) :=
  (sendRun_emits ctx blk stale recovered).until (frag_le.mpr (.inl h))

theorem FecBlock.emits {f s : Nat} {blk : RbufBlock} {o : Option RbufBlock} {e : List Ev} (h : FecBlock x ctx s blk o e)
    (hi : blk.index ≠ blockInval) : Emits (frag blk.index blk.fragmentToSend) (sent e) (Desk.cursor ⟨f, blk.index, o⟩) := by
  cases h with
  | waits _ => exact .nil (le_refl _)
  | @done blk' e _ hrec =>
    obtain ⟨hidx, -, hto, -, -⟩ := hrec.keeps
    have hquiet : sent (effects e) = [] := by
      cases hrec with
      | complete _ => rfl
      | decoded _ _ _ => rfl
    rw [sent_append, sent_append, hquiet, cursor_none hi]
    have := sendRun_emits_all ctx blk' false true (show blk'.index < blk.index + 1 by omega)
    rw [hidx, hto] at this
    exact this.append (.nil (le_refl _))

theorem AddBlock.emits {f s : Nat} {blk : RbufBlock} {o : Option RbufBlock} {e : List Ev} (h : AddBlock x ctx s blk o e)
    (hi : blk.index ≠ blockInval) : Emits (frag blk.index blk.fragmentToSend) (sent e) (Desk.cursor ⟨f, blk.index, o⟩) := by
  cases h with
  | complete _ =>
    rw [sent_append, cursor_none hi]
    exact (sendRun_emits_all ctx blk false false (Nat.lt_succ_self _)).append (.nil (le_refl _))
  | partly _ hfec =>
    rw [sent_append]
    exact (sendRun_emits ctx blk false false).append (hfec.emits hi)

/-- A newer block is ahead of the cursor. -/
theorem Desk.Newer.cursor_le {d : Desk} {b : Nat} (h : d.Newer b) (hcur : d.cur.isSome → d.last ≠ blockInval) :
    d.cursor ≤ frag b 0 := by
  obtain ⟨f, l, cur⟩ := d
  cases cur with
  | none =>
    by_cases hl : l = blockInval
    · rw [show Desk.cursor ⟨f, l, none⟩ = frag 0 0 from if_pos hl]
      exact frag_le.mpr (by omega)
    · rw [cursor_none hl]
      have hlt : l < b := h.2.resolve_left hl
      exact frag_le.mpr (by omega)
  | some blk => exact frag_le.mpr (.inl (h.2.resolve_left (hcur rfl)))

theorem sent_next (s t : Nat) (plain : Bytes) (e : List Ev) :
    sent (logged ctx :: .ring (.alloc s ctx.wfb.blockIdx) :: storedEv ctx t plain :: e) = sent e := rfl

/-- A step of the desk hands over what lies between where its cursor was and is. -/
theorem DeskStep.emits {d d' : Desk} {e : List Ev} (h : DeskStep x ctx d d' e)
    (hcur : ∀ blk, d.cur = some blk → blk.index = d.last ∧ d.last ≠ blockInval) : Emits d.cursor (sent e) d'.cursor := by
  obtain ⟨f, l, cur⟩ := d
  cases h with
  | old _ _ _ => exact .nil (le_refl _)
  | @duplicate blk hc _ _ =>
    cases hc
    refine .nil (le_of_eq ?_)
    show frag l blk.fragmentToSend = frag l (raiseRssi blk _ _).fragmentToSend
    rw [raiseRssi_toSend]
  | @again blk plain o e hc hb _ _ _ hadd =>
    cases hc
    obtain ⟨hi, hl⟩ := hcur blk rfl
    have hidx := (withFragment_index ctx blk plain).trans hi
    have := hadd.emits (f := f) (hidx ▸ hl)
    rw [hidx, withFragment_toSend] at this
    exact this
  | @first old plain o e hc hnew _ _ hadd =>
    cases hc
    have hidx := withFragment_index ctx (old.renew ctx.wfb.blockIdx) plain
    have := hadd.emits (f := f) (hidx ▸ hnew.1)
    rw [hidx, withFragment_toSend] at this
    exact (Emits.nil (hnew.cursor_le fun h => (nomatch h))).append this
  | @next blk old plain o e hc hnew _ _ hfec =>
    cases hc
    obtain ⟨hi, hl⟩ := hcur blk rfl
    have hidx := withFragment_index ctx (old.renew ctx.wfb.blockIdx) plain
    have hrest := hfec.emits (f := beyond f) (hidx ▸ hnew.1)
    rw [hidx, withFragment_toSend] at hrest
    have hlt : l < ctx.wfb.blockIdx := hnew.2.resolve_left hl
    have hflush := sendRun_emits_all ctx blk true false (show blk.index < ctx.wfb.blockIdx from hi ▸ hlt)
    rw [hi] at hflush
    rw [List.cons_append, List.cons_append, List.cons_append, sent_next, sent_append]
    exact hflush.append hrest

/-! ## Runs -/

theorem orderRules (x : Externals) (ctx0 : RxContext) :
    DeskRules x (Steady x) ctx0 (fun d tr => Emits (frag 0 0) (sent tr) d.cursor) (fun tr => (sent tr).Pairwise (· < ·)) where
  guard := fun _ _ h => h
  start := .nil (le_refl _)
  step := fun _ _ _ _ _ tr e hd _ _ _ hj hst => by
    rw [sent_append]
    exact hj.append (hst.emits hd.index)
  lost := fun _ _ _ _ tr e _ hj hl => by
    have hnone : sent e = [] := by cases hl <;> rfl
    rw [sent_append, hnone, List.append_nil]
    exact hj.sorted
  keep := fun _ _ h => h.sorted

/-- With any guard that skips no block. -/
theorem Steady.sorted {G : RxContext → Input → Prop} (hG : ∀ ctx i, G ctx i → Steady x ctx i) {ctx0 : RxContext}
    (h0 : Opened x ctx0) {is : List Input} {tr : List Ev} (h : Machine.Run (rxStep x) G ctx0 is ctx tr) :
    (sent tr).Pairwise (· < ·) := by
  have := ((orderRules x ctx0).run h0 (h.mono hG)).keep (orderRules x ctx0)
  rwa [sent_effects] at this

/-- In a session in which no block is skipped, whatever else is lost, repeated or out of
    order, fragments are handed over in order and none twice. -/
theorem in_order {x : Externals} {ctx0 ctx : RxContext} (h0 : Opened x ctx0) {is : List Input} {tr : List Ev}
    (h : Machine.Run (rxStep x) (Steady x) ctx0 is ctx tr) : (sent tr).Pairwise (· < ·) := by
  have := ((orderRules x ctx0).run h0 h).keep (orderRules x ctx0)
  rwa [sent_effects] at this

theorem in_order_run : ∃ ctx0 ctx tr, Opened (numbered 2 2).externals ctx0 ∧ Machine.Run (rxStep (numbered 2 2).externals)
    (Steady (numbered 2 2).externals) ctx0 [(numbered 2 2).input 7 1, (numbered 2 2).input 8 0, (numbered 2 2).input 7 0,
      (numbered 2 2).input 8 1] ctx tr ∧ (sent tr).Pairwise (· < ·) := by
  obtain ⟨ctx0, ctx, tr, h0, hrun, -⟩ := (numbered 2 2).exists_session (Steady (numbered 2 2).externals)
    [(numbered 2 2).input 7 1, (numbered 2 2).input 8 0, (numbered 2 2).input 7 0, (numbered 2 2).input 8 1]
    (fun _ _ => true) (by decide +kernel)
  exact ⟨ctx0, ctx, tr, h0, hrun, in_order h0 hrun⟩

example : sent ((numbered 2 2).report [(numbered 2 2).input 7 1, (numbered 2 2).input 8 0, (numbered 2 2).input 8 1]) =
    [frag 7 1, frag 8 0, frag 8 1] := by decide +kernel

/-- After blocks 0, 100 and 102, block 83 is still live and comes out late. -/
theorem gap_breaks_order : ¬ ∀ (x : Externals) (ctx0 ctx : RxContext) (is : List Input) (tr : List Ev), Opened x ctx0 →
    Machine.Run (rxStep x) (Authentic x) ctx0 is ctx tr → (sent tr).Pairwise (· ≤ ·) := by
  intro hclaim
  obtain ⟨ctx0, ctx, tr, h0, hrun, hq⟩ := (numbered 1 1).exists_session (Authentic (numbered 1 1).externals)
    [(numbered 1 1).input 0 0, (numbered 1 1).input 100 0, (numbered 1 1).input 102 0, (numbered 1 1).input 83 0]
    (fun _ p => decide ¬ (sent p.2).Pairwise (· ≤ ·)) (by decide +kernel)
  exact of_decide_eq_true hq (hclaim _ _ _ _ _ h0 hrun)

end WfbYa.Rx
