/-
  WfbYa.Rx.SessionIndices — the session, and the fragment indices its frames use.

  - `session_ok`: in every run the flag means one session in the context, the ring, the codec
    and the crypto module; and if no authenticated plaintext is empty, every fragment index
    `rx_data` uses is within the ring's arrays, those of `data_recovery` included.
  - `empty_leaves_arrays`: an empty plaintext counts as used and is not held, and at the next
    frame of its block the scan for parities runs past the arrays' end.
-/

import WfbYa.Rx.Accounting

namespace WfbYa.Rx

open WfbYa.Frame WfbYa.Ring WfbYa.Lib

/-- The fragments that a call of `data_recovery` reads and writes. -/
def recoveryIndices : Ev → List Nat
  | .recover _ index out _ => index ++ out
  | _ => []

/-- The event uses no fragment index from `n` on. -/
def InArrays (n : Nat) (e : Ev) : Prop := Below n e ∧ ∀ i ∈ recoveryIndices e, i < n

/-- What the next input with `G` may not do: have a fragment index leave the ring's arrays. -/
def IndicesOk (x : Externals) (G : RxContext → Input → Prop) (ctx : RxContext) : Prop :=
  ∀ i, G ctx i → rxStep x ctx i ≠ .error .outOfBounds ∧
    ∀ ctx' evs, rxStep x ctx i = .ok (ctx', evs) → ∃ r, ctx.rxRing = some r ∧ ∀ e ∈ evs, InArrays r.fragmentNof e

/-- A well-formed recovery stays in the arrays. -/
theorem recoversWell_inArrays {k n : Nat} (hk : k ≤ n) {e : Ev} (h : RecoversWell k n e) : ∀ i ∈ recoveryIndices e, i < n := by
  cases e with
  | recover received index out pktsiz =>
    intro i hi
    rcases List.mem_append.mp hi with hi | hi
    · exact h.lt i hi
    · rw [h.missing] at hi
      have hlt := List.mem_range.mp (List.mem_filter.mp hi).1
      omega
  | _ => exact fun _ hi => absurd hi List.not_mem_nil

theorem AccountInv.indices {x : Externals} (hx : AeadLen x) {ctx : RxContext} (h : AccountInv ctx) :
    IndicesOk x (Filled x) ctx := by
  intro i hfill
  refine ⟨?_, fun ctx' evs hs => ?_⟩
  · intro hfault
    obtain ⟨-, f, w, r, -, -, -, -, hd⟩ := account_error hx (fun _ => h) hfill hfault
    rcases hd.kind with h | h <;> cases h
  · obtain ⟨r, hr, -, hn, -⟩ := h.session.ok.ring
    have hbelow := ((sessionRules x).step (fun _ => h.session) trivial hs).2
    have hwell := ((accountSessionRules x).step (fun _ => h) hfill hs).2
    refine ⟨r, hr, fun e he => ?_⟩
    rw [hn]
    exact ⟨hbelow e he, recoversWell_inArrays h.session.ok.fecK.2 (hwell e he)⟩

/-- In every run, however decryption, the codec and allocation fail, a set session flag
    means one session in the context, the ring, the codec and the crypto module. If no
    plaintext of the run is empty, no fragment index leaves the arrays. -/
theorem session_ok {x : Externals} {chan : Nat} {crypto : CryptoWfbContext} {noFec : Bool} {handlers : List Nat}
    {is : List Input} {ctx : RxContext} {tr : List Ev}
    (h : Machine.Run (rxStep x) (fun _ _ => True) (rxSetup chan crypto noFec handlers) is ctx tr)
    (hk : ctx.hasSessionKey = true) : SessionOk ctx ∧
      (AeadLen x → Machine.Run (rxStep x) (Filled x) (rxSetup chan crypto noFec handlers) is ctx tr →
        IndicesOk x (Filled x) ctx) := by
  refine ⟨((sessionRules x).run h hk).ok, fun hx hfilled => ?_⟩
  have hi := (accountSessionRules x).run hfilled hk
  exact hi.indices hx

theorem session_ok_run : ∃ ctx tr, Machine.Run (rxStep (numbered 1 2).externals) (Filled (numbered 1 2).externals)
    (rxSetup 0 loaded false [0]) [(numbered 1 2).opening, (numbered 1 2).input 0 1, .fecToggle] ctx tr ∧
      SessionOk ctx ∧ IndicesOk (numbered 1 2).externals (Filled (numbered 1 2).externals) ctx := by
  obtain ⟨ctx, tr, hrun, hk⟩ := Machine.exists_run (rxStep (numbered 1 2).externals) (Filled (numbered 1 2).externals)
    (rxSetup 0 loaded false [0]) [(numbered 1 2).opening, (numbered 1 2).input 0 1, .fecToggle]
    (fun p => p.1.hasSessionKey) (by decide +kernel)
  obtain ⟨hok, hindices⟩ := session_ok (hrun.mono fun _ _ _ => trivial) hk
  exact ⟨ctx, tr, hrun, hok, hindices (externals_aeadLen _) hrun⟩

/-- A sender whose fragment 0 is empty. -/
def firstEmpty : Sender := ⟨fun _ => 2, fun _ => 3, fun _ _ f => if f = 0 then [] else withHdr 0 [7]⟩

/-- Fragment 0 of block 0, empty, and then fragment 1: two fragments used, one held. -/
theorem empty_leaves_arrays : ¬ ∀ (x : Externals) (chan : Nat) (crypto : CryptoWfbContext) (noFec : Bool)
    (handlers : List Nat) (is : List Input) (ctx : RxContext) (tr : List Ev), AeadLen x →
      Machine.Run (rxStep x) (fun _ _ => True) (rxSetup chan crypto noFec handlers) is ctx tr →
        ctx.hasSessionKey = true → SessionOk ctx ∧ IndicesOk x (fun _ _ => True) ctx := by
  intro hclaim
  obtain ⟨ctx, tr, hrun, hq⟩ := Machine.exists_run (rxStep firstEmpty.externals) (fun _ _ => True)
    (rxSetup 0 loaded false [0]) [firstEmpty.opening, firstEmpty.input 0 0]
    (fun p => p.1.hasSessionKey && Machine.fails (rxStep firstEmpty.externals p.1 (firstEmpty.input 0 1)) .outOfBounds)
    (by decide +kernel)
  obtain ⟨hk, hfault⟩ := (Bool.and_eq_true _ _).mp hq
  have hok := (hclaim _ _ _ _ _ _ ctx tr (externals_aeadLen _) hrun hk).2 (firstEmpty.input 0 1) trivial
  exact hok.1 (Machine.fails_iff.mp hfault)

end WfbYa.Rx
