/-
  WfbYa.Rx.CaptureBounds — what `rx_frame_pcap` takes off, hands on and dereferences.

  Each layer takes its header off what the layer before it left, in `size_t` arithmetic.
  Two steps are taken unseen: the FLAGS field is read whether the header has it or not, and
  the FCS is taken off whatever is left.

  - `InBounds`: no length wraps, no part of the buffer is behind its end, no field is read
    that is absent.
  - `capture_bounds_iff`: that holds of a captured buffer if and only if its header has a
    FLAGS field and the FCS it announces is there (`FcsFits`).
  - `absent_flags_breaks_bounds`: a header without the field.
-/

import WfbYa.Rx.NodeSteps
import WfbYa.Rx.Sender

namespace WfbYa.Rx

open WfbYa.Frame WfbYa.Lib WfbYa.Lib.BigEndian WfbYa.Lib.LittleEndian

/-- What a captured buffer allows. -/
def InBounds (buf : Bytes) : NodeEv → Prop
  | .call _ (some p) size => p + size ≤ buf.length
  | .call _ none size => size = 0
  | .minus rxlen parsed => parsed ≤ rxlen
  | .parse (.deref index arg) => arg.isSome = true ∧ Marked buf index
  | _ => True

/-- If the radiotap header is accepted and gone through, it has a FLAGS field; if that
    announces an FCS, and not a bad one, four bytes follow the header. -/
def FcsFits (lib : RadiotapLib) (buf : Bytes) : Prop :=
  radiotapHdrlen ≤ buf.length → ∀ it, lib buf buf.length = some it → it.noent = true →
    ∃ p, it.field ieee80211RadiotapFlags = some p ∧
      (flagSet buf p ieee80211RadiotapFFcs = true → flagSet buf p ieee80211RadiotapFBadfcs = false →
        itLen buf + 4 ≤ buf.length)

variable {lib : RadiotapLib} {node : RxNode} {buf : Bytes}

/-! ## Each layer -/

theorem rxMirrorFrame_inBounds (data : Option Nat) (size : Nat) :
    Traced.All (InBounds buf) (rxMirrorFrame node buf data size) := by
  unfold rxMirrorFrame
  split
  · exact fun _ h => nomatch h
  · intro e he
    obtain ⟨h, -, rfl⟩ := List.mem_map.mp he
    trivial

/-- Messages are no concern here. -/
theorem parse_inBounds {evs : List ParseEv} (h : ∀ i a, ParseEv.deref i a ∉ evs) : ∀ e ∈ evs, InBounds buf (.parse e) := by
  intro e he
  cases e with
  | err fmt => trivial
  | deref i a => exact absurd he (h i a)

/-- From the 802.11 header on, if what is left is in the buffer. -/
theorem rxPcapBody_inBounds {rxbuf rxlen : Nat} (h : rxbuf + rxlen ≤ buf.length) (hfit : buf.length < 2 ^ 64) :
    Traced.All (InBounds buf) (rxPcapBody node buf rxbuf rxlen) ∧
      ∀ q, (rxPcapBody node buf rxbuf rxlen).out = .ok q → ∀ s, q.2 = some s → s.1 + s.2 ≤ buf.length := by
  have hcall := ieee80211FrameParse_cases (buf.drop rxbuf) rxlen
  unfold rxPcapBody
  rw [Traced.all_emit_bind, Traced.emit_bind_out]
  generalize ieee80211FrameParse (buf.drop rxbuf) rxlen = t at hcall
  obtain ⟨evs, out⟩ := t
  dsimp only at hcall
  cases hcall with
  | @refused ctx _ hquiet _ =>
    have hlift : (Traced.lift NodeEv.parse (⟨evs, .ok (ctx, -1)⟩ : Traced ParseEv Fault (Ieee80211Context × Int))).out =
      .ok (ctx, -1) := rfl
    rw [Traced.all_bind_ok hlift, (Traced.bind_ok hlift).2]
    refine ⟨⟨h, Traced.all_lift.mpr (parse_inBounds hquiet), Traced.all_pure _⟩, fun q hq s hs => ?_⟩
    cases hq
    cases hs
  | beyond _ _ =>
    rw [Traced.all_bind_error rfl]
    exact ⟨⟨h, fun _ he => (nomatch he)⟩, fun q hq => (nomatch hq)⟩
  | parsed h1 _ _ =>
    have hlift : (Traced.lift NodeEv.parse (⟨[], .ok (⟨ieee80211DataHdrlen, wfbSig, getChannelId (buf.drop rxbuf)⟩,
        ieee80211DataHdrlen)⟩ : Traced ParseEv Fault (Ieee80211Context × Int))).out = .ok (_, _) := rfl
    have hlt : rxlen < 2 ^ 64 := by omega
    have hrest : rxbuf + ieee80211DataHdrlen + (rxlen - ieee80211DataHdrlen) ≤ buf.length := by omega
    rw [Traced.all_bind_ok hlift, (Traced.bind_ok hlift).2]
    dsimp only
    rw [if_neg (Int.not_lt.mpr (Int.natCast_nonneg _)), Int.toNat_natCast, sizeMinus_eq h1 hlt, Traced.emit_bind_out,
      Traced.all_emit_bind]
    refine ⟨⟨h, fun _ he => (nomatch he), h1, ?_⟩, fun q hq s hs => ?_⟩
    · split
      · exact Traced.all_pure _
      · exact Traced.all_emit_bind.mpr ⟨hrest, Traced.all_bind.mpr ⟨rxMirrorFrame_inBounds _ _, fun _ _ => Traced.all_pure _⟩⟩
    · split at hq
      · cases hq
        cases hs
      · rw [Traced.emit_bind_out] at hq
        obtain ⟨node', -, hq'⟩ := Traced.out_bind.mp hq
        cases hq'
        cases hs
        exact hrest

theorem wfbTaken_inBounds (data : Bytes) (size : Nat) : ∀ e ∈ wfbTaken size (wfbFrameParse data size), InBounds buf e := by
  intro e he
  cases hp : wfbFrameParse data size with
  | error fmt =>
    rw [hp] at he
    cases he
  | ok w =>
    rw [hp] at he
    cases List.mem_singleton.mp he
    exact le_of_eq (wfbFrameParse_pktlen hp)

theorem rxFrameWfb_inBounds {x : Externals} {rxbuf size : Nat} {o : Outcome} (h : rxbuf + size ≤ buf.length) :
    Traced.All (InBounds buf) (rxFrameWfb x node buf rxbuf size o) := by
  unfold rxFrameWfb
  refine Traced.all_emit_bind.mpr ⟨h, Traced.all_bind.mpr ⟨wfbTaken_inBounds _ _, fun _ _ => ?_⟩⟩
  split
  · intro e he
    obtain ⟨a, -, rfl⟩ := List.mem_map.mp he
    trivial
  · exact Traced.all_fail _

/-! ## The whole of it -/

/-- Behind an accepted header with a good FCS: what is left is in the buffer, if the FCS
    is. -/
theorem accepted_inBounds (hlib : RadiotapOk lib) (hfit : buf.length < 2 ^ 64) {it : RadiotapIterator} {p : Nat}
    (ha : Accepted lib buf it p) (node : RxNode) :
    (Traced.All (InBounds buf) (do
      let rxlen ← stripFcs (flagSet buf p ieee80211RadiotapFFcs) (sizeMinus buf.length it.maxLength)
      rxPcapBody node buf it.maxLength rxlen) ↔ (flagSet buf p ieee80211RadiotapFFcs = true → itLen buf + 4 ≤ buf.length)) ∧
    ((flagSet buf p ieee80211RadiotapFFcs = true → itLen buf + 4 ≤ buf.length) → ∀ q, (do
      let rxlen ← stripFcs (flagSet buf p ieee80211RadiotapFFcs) (sizeMinus buf.length it.maxLength)
      rxPcapBody node buf it.maxLength rxlen).out = .ok q → ∀ s, q.2 = some s → s.1 + s.2 ≤ buf.length) := by
  have hle := hlib.itLen _ _ _ ha.init
  rw [hlib.maxLength _ _ _ ha.init, sizeMinus_eq hle hfit]
  cases hfcs : flagSet buf p ieee80211RadiotapFFcs with
  | false =>
    have hbody := @rxPcapBody_inBounds node buf (itLen buf) (buf.length - itLen buf) (by omega) hfit
    have hstrip : (stripFcs false (buf.length - itLen buf)).out = .ok (buf.length - itLen buf) := rfl
    rw [Traced.all_bind_ok hstrip, (Traced.bind_ok hstrip).2]
    exact ⟨⟨fun _ h => (nomatch h), fun _ => ⟨fun _ h => (nomatch h), hbody.1⟩⟩, fun _ => hbody.2⟩
  | true =>
    have hstrip : (stripFcs true (buf.length - itLen buf)).out = .ok (sizeMinus (buf.length - itLen buf) 4) := rfl
    have hminus : Traced.All (InBounds buf) (stripFcs true (buf.length - itLen buf)) ↔ 4 ≤ buf.length - itLen buf := by
      unfold stripFcs
      rw [if_pos rfl, Traced.all_emit_bind]
      exact ⟨fun h => h.1, fun h => ⟨h, Traced.all_pure _⟩⟩
    rw [Traced.all_bind_ok hstrip, hminus, (Traced.bind_ok hstrip).2]
    constructor
    · constructor
      · intro h _
        omega
      · intro h
        have h4 := h rfl
        rw [sizeMinus_eq (by omega) (by omega)]
        exact ⟨by omega, (rxPcapBody_inBounds (by omega) hfit).1⟩
    · intro h
      have h4 := h rfl
      rw [sizeMinus_eq (by omega) (by omega)]
      exact (rxPcapBody_inBounds (by omega) hfit).2

theorem rxPcapFrame_inBounds (hlib : RadiotapOk lib) (hfit : buf.length < 2 ^ 64) (node : RxNode) :
    (Traced.All (InBounds buf) (rxPcapFrame lib node buf) ↔ FcsFits lib buf) ∧
      (FcsFits lib buf → ∀ q, (rxPcapFrame lib node buf).out = .ok q → ∀ s, q.2 = some s → s.1 + s.2 ≤ buf.length) := by
  unfold rxPcapFrame
  have hstart : InBounds buf (.minus buf.length 0) ∧ InBounds buf (.call .radiotapFrameParse (some 0) buf.length) :=
    ⟨Nat.zero_le _, by show 0 + buf.length ≤ buf.length; omega⟩
  rw [Traced.all_emit_bind, Traced.all_emit_bind, and_iff_right hstart.1, and_iff_right hstart.2, Traced.emit_bind_out,
    Traced.emit_bind_out]
  have hcall := radiotapFrameParse_cases lib buf buf.length
  generalize radiotapFrameParse lib buf buf.length = t at hcall
  obtain ⟨evs, out⟩ := t
  dsimp only at hcall
  cases hcall with
  | short h hquiet =>
    have hfits : FcsFits lib buf := fun h8 => absurd h8 (Nat.not_le.mpr h)
    have hlift : (Traced.lift NodeEv.parse (⟨evs, .ok (.zero, 0)⟩ : Traced ParseEv Fault (RadiotapContext × Int))).out =
      .ok (.zero, 0) := rfl
    have hstrip : (stripFcs RadiotapContext.zero.hasFcs (sizeMinus buf.length 0)).out = .ok (sizeMinus buf.length 0) := rfl
    have hbody := @rxPcapBody_inBounds
      { node with
        rxSrc := none, radiotap := .zero,
        rx := { node.rx with freq := RadiotapContext.zero.freq, dbm := RadiotapContext.zero.dbm } }
      buf 0 buf.length (by omega) hfit
    rw [Traced.all_bind_ok hlift, (Traced.bind_ok hlift).2]
    dsimp only
    rw [if_neg (by decide), if_neg (by decide), Int.toNat_zero, Traced.all_emit_bind, Traced.emit_bind_out,
      Traced.all_bind_ok hstrip, (Traced.bind_ok hstrip).2, sizeMinus_eq (Nat.zero_le _) hfit]
    refine ⟨iff_of_true ⟨Traced.all_lift.mpr (parse_inBounds hquiet), hstart.1, ?_, hbody.1⟩ hfits, fun _ => hbody.2⟩
    exact Traced.all_pure _
  | @refused ctx _ _ h hquiet =>
    have hfits : FcsFits lib buf := fun _ it hl hn => by
      rw [h it hl] at hn
      cases hn
    have hlift : (Traced.lift NodeEv.parse (⟨evs, .ok (ctx, -1)⟩ : Traced ParseEv Fault (RadiotapContext × Int))).out =
      .ok (ctx, -1) := rfl
    rw [Traced.all_bind_ok hlift, (Traced.bind_ok hlift).2]
    refine ⟨iff_of_true ⟨Traced.all_lift.mpr (parse_inBounds hquiet), Traced.all_pure _⟩ hfits, fun _ q hq s hs => ?_⟩
    cases hq
    cases hs
  | @noFlags it h8 hl hn hf =>
    have hnot : ¬ FcsFits lib buf := fun hfits => by
      obtain ⟨p, hp, -⟩ := hfits h8 it hl hn
      rw [hf] at hp
      cases hp
    refine ⟨iff_of_false (fun h => ?_) hnot, fun hfits => absurd hfits hnot⟩
    -- the null pointer is read
    have hderef := ((Traced.all_bind_error rfl).mp h) _ (List.mem_map.mpr ⟨_, List.mem_cons_self, rfl⟩)
    cases hderef.1
  | @parsed it p _ h8 hl hn hf hev =>
    have ha : Accepted lib buf it p := ⟨h8, hl, hn, hf⟩
    have hderefs : Traced.All (InBounds buf) (Traced.lift NodeEv.parse (⟨evs, .ok (it.context buf p, (it.maxLength : Int))⟩ :
        Traced ParseEv Fault (RadiotapContext × Int))) := by
      rw [Traced.all_lift]
      intro e he
      obtain ⟨i, q, rfl, hq⟩ := hev e he
      exact ⟨rfl, hlib.field hl hq⟩
    have hlift : (Traced.lift NodeEv.parse (⟨evs, .ok (it.context buf p, it.maxLength)⟩ :
      Traced ParseEv Fault (RadiotapContext × Int))).out = .ok (it.context buf p, (it.maxLength : Int)) := rfl
    have hfits : FcsFits lib buf ↔ (flagSet buf p ieee80211RadiotapFFcs = true →
        flagSet buf p ieee80211RadiotapFBadfcs = false → itLen buf + 4 ≤ buf.length) := by
      constructor
      · intro h
        obtain ⟨p', hp', h4⟩ := h h8 it hl hn
        cases hf.symm.trans hp'
        exact h4
      · intro h _ it' hl' _
        cases hl.symm.trans hl'
        exact ⟨p, hf, h⟩
    rw [Traced.all_bind_ok hlift, and_iff_right hderefs, (Traced.bind_ok hlift).2, hfits]
    dsimp only
    rw [if_neg (Int.not_lt.mpr (Int.natCast_nonneg _)), Int.toNat_natCast]
    cases hbad : flagSet buf p ieee80211RadiotapFBadfcs with
    | true =>
      rw [if_pos (show (it.context buf p).badFcs = true from hbad)]
      refine ⟨iff_of_true ?_ fun _ h => (nomatch h), fun _ q hq s hs => ?_⟩
      · exact Traced.all_emit_bind.mpr ⟨rfl, Traced.all_bind.mpr ⟨rxMirrorFrame_inBounds _ _, fun _ _ => Traced.all_pure _⟩⟩
      · rw [Traced.emit_bind_out] at hq
        obtain ⟨node', -, hq'⟩ := Traced.out_bind.mp hq
        cases hq'
        cases hs
    | false =>
      rw [if_neg (show ¬ (it.context buf p).badFcs = true from fun h => Bool.false_ne_true (hbad.symm.trans h))]
      have hmax : it.maxLength ≤ buf.length := by
        rw [hlib.maxLength _ _ _ hl]
        exact hlib.itLen _ _ _ hl
      rw [Traced.all_emit_bind, and_iff_right (show InBounds buf (.minus buf.length it.maxLength) from hmax),
        Traced.emit_bind_out]
      have hacc := accepted_inBounds hlib hfit ha
        { node with
          rxSrc := none, radiotap := it.context buf p,
          rx := { node.rx with freq := (it.context buf p).freq, dbm := (it.context buf p).dbm } }
      exact ⟨hacc.1.trans ⟨fun h hf _ => h hf, fun h hf => h hf rfl⟩, fun h => hacc.2 fun hf => h hf rfl⟩

/-- For every captured buffer: no remaining length wraps, what each function is given lies
    in the buffer, and no absent radiotap field is read, if and only if the header has a
    FLAGS field and the FCS it announces follows the header. -/
theorem capture_bounds_iff (hlib : RadiotapOk lib) (x : Externals) (node : RxNode) (cap : Capture) :
    (∀ e ∈ (rxFramePcap x lib node cap).evs, InBounds cap.bytes e) ↔ FcsFits lib cap.bytes := by
  obtain ⟨hfront, hseen⟩ := rxPcapFrame_inBounds hlib cap.fits node
  show Traced.All (InBounds cap.bytes) (rxPcapFrame lib node cap.bytes >>= rxPcapRest x cap) ↔ _
  rw [Traced.all_bind, hfront]
  constructor
  · exact fun h => h.1
  · intro h
    refine ⟨h, fun q hq => ?_⟩
    obtain ⟨node', seen⟩ := q
    cases seen with
    | none => exact Traced.all_pure _
    | some s => exact rxFrameWfb_inBounds (hseen h _ hq s rfl)

/-- A node that mirrors, before any frame. -/
def someNode : RxNode := (rxContextSetMirror (nodeSetup 0 loaded false [0]) 0).2

/-- A radiotap header with FLAGS alone, `rest` behind it. -/
def flagged (flags : UInt8) (rest : Bytes) : Bytes := [0, 0, 9, 0, 2, 0, 0, 0, flags] ++ rest

theorem capture_bounds_run : NodeEv.minus 4 4 ∈ (rxFramePcap (numbered 1 1).externals basicIterator someNode
      ⟨flagged 0x10 [8, 0, 0, 0], by decide, allWell⟩).evs ∧
    ∀ e ∈ (rxFramePcap (numbered 1 1).externals basicIterator someNode
      ⟨flagged 0x10 [8, 0, 0, 0], by decide, allWell⟩).evs, InBounds (flagged 0x10 [8, 0, 0, 0]) e := by
  refine ⟨by decide +kernel,
    (capture_bounds_iff basicIterator_ok _ _ ⟨flagged 0x10 [8, 0, 0, 0], by decide, allWell⟩).mpr fun _ it hit _ => ?_⟩
  have hb : basicIterator (flagged 0x10 [8, 0, 0, 0]) 13 = some ⟨[⟨true, 1, 8⟩], true, 9⟩ := by decide +kernel
  cases hb.symm.trans hit
  exact ⟨8, rfl, fun _ _ => by decide +kernel⟩

/-- Three bytes are left, and four are taken off. -/
example : NodeEv.minus 3 4 ∈ (rxFramePcap (numbered 1 1).externals basicIterator someNode
    ⟨flagged 0x10 [8, 0, 0], by decide, allWell⟩).evs := by decide +kernel

/-- A header without fields: the FLAGS field is read through a null pointer. -/
theorem absent_flags_breaks_bounds : ¬ ∀ (x : Externals) (lib : RadiotapLib) (node : RxNode) (cap : Capture), RadiotapOk lib →
    ∀ e ∈ (rxFramePcap x lib node cap).evs, InBounds cap.bytes e := by
  intro hclaim
  have hread : NodeEv.parse (.deref ieee80211RadiotapFlags none) ∈ (rxFramePcap (numbered 1 1).externals basicIterator someNode
      ⟨[0, 0, 8, 0, 0, 0, 0, 0], by decide, allWell⟩).evs := by decide +kernel
  have := (hclaim (numbered 1 1).externals _ _ _ basicIterator_ok _ hread).1
  cases this

end WfbYa.Rx
