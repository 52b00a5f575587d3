/-
  WfbYa.Frame.FrameIeee80211 — the 802.11 header of a captured frame (`frame_ieee80211.c`).

  - `ieee80211FrameParse_cases`: everything a call can do.
-/

import WfbYa.Frame.FrameRadiotap

namespace WfbYa.Frame

open WfbYa.Lib WfbYa.Lib.BigEndian WfbYa.Lib.LittleEndian

structure Ieee80211Context where
  hdrlen : Nat
  wfbSignature : Nat
  channelId : Nat

def Ieee80211Context.zero : Ieee80211Context := ⟨0, 0, 0⟩

def ftypeData : Nat := 0x2
def dtypeData : Nat := 0x0

/-- `frame_control`, in host byte order. -/
def frameControl (data : Bytes) : Nat := ofLe (slice data 0 2)

def getVersion (frameControl : Nat) : Nat := frameControl &&& 0x03
def getFrameType (frameControl : Nat) : Nat := (frameControl >>> 2) &&& 0x3
def getFrameSubtype (frameControl : Nat) : Nat := (frameControl >>> 4) &&& 0xf

/-- The transmitter address, in the header. -/
def addr2 : Nat := 10

def getSignature (data : Bytes) : Nat := ofBe (slice data addr2 2)
def getChannelId (data : Bytes) : Nat := ofBe (slice data (addr2 + 2) 4)

/-- `data` is what is left of the captured buffer, `size` what the caller takes it for:
    memory behind the buffer is not known. -/
def ieee80211FrameParse (data : Bytes) (size : Nat) : Traced ParseEv Fault (Ieee80211Context × Int) :=
  if size < 2 then do
    Traced.emit (.err "Frame too short\n")
    return (.zero, -1)
  else if data.length < 2 then Traced.fail .outOfBounds
  else if getVersion (frameControl data) ≠ 0 then do
    Traced.emit (.err "Unknown version\n")
    return (.zero, -1)
  else if getFrameType (frameControl data) ≠ ftypeData then do
    Traced.emit (.err "Unsupported frame type(%d)\n")
    return (.zero, -1)
  else if getFrameSubtype (frameControl data) ≠ dtypeData then do
    Traced.emit (.err "Unsupported frame subtype(%d)\n")
    return (.zero, -1)
  else if size < ieee80211DataHdrlen then do
    Traced.emit (.err "Frame too short")
    return (⟨ieee80211DataHdrlen, 0, 0⟩, -1)
  else if data.length < addr2 + 6 then Traced.fail .outOfBounds
  else
    let ctx := Ieee80211Context.mk ieee80211DataHdrlen (getSignature data) (getChannelId data)
    if getSignature data ≠ wfbSig then do
      Traced.emit (.err "Unknown signature\n")
      return (ctx, -1)
    else return (ctx, ieee80211DataHdrlen)

/-! ## What a call does -/

/-- The header of a WFB frame. -/
structure WfbHeader (data : Bytes) : Prop where
  version : getVersion (frameControl data) = 0
  type : getFrameType (frameControl data) = ftypeData
  subtype : getFrameSubtype (frameControl data) = dtypeData
  signature : getSignature data = wfbSig

instance (data : Bytes) : Decidable (WfbHeader data) :=
  decidable_of_iff (getVersion (frameControl data) = 0 ∧ getFrameType (frameControl data) = ftypeData ∧
    getFrameSubtype (frameControl data) = dtypeData ∧ getSignature data = wfbSig)
    ⟨fun ⟨h1, h2, h3, h4⟩ => ⟨h1, h2, h3, h4⟩, fun h => ⟨h.version, h.type, h.subtype, h.signature⟩⟩

inductive Ieee80211Call (data : Bytes) (size : Nat) : List ParseEv → Except Fault (Ieee80211Context × Int) → Prop
  | refused {ctx : Ieee80211Context} {evs : List ParseEv} : (∀ i a, ParseEv.deref i a ∉ evs) →
      (ieee80211DataHdrlen ≤ size → ¬ WfbHeader data) → Ieee80211Call data size evs (.ok (ctx, -1))
  | beyond : data.length < ieee80211DataHdrlen → data.length < size → Ieee80211Call data size [] (.error .outOfBounds)
  | parsed : ieee80211DataHdrlen ≤ size → addr2 + 6 ≤ data.length → WfbHeader data →
      Ieee80211Call data size [] (.ok (⟨ieee80211DataHdrlen, wfbSig, getChannelId data⟩, ieee80211DataHdrlen))

theorem ieee80211FrameParse_cases (data : Bytes) (size : Nat) :
    Ieee80211Call data size (ieee80211FrameParse data size).evs (ieee80211FrameParse data size).out := by
  unfold ieee80211FrameParse
  split
  · exact .refused (by simp) (fun hs => by unfold ieee80211DataHdrlen at hs; omega)
  · split
    · exact .beyond (by unfold ieee80211DataHdrlen; omega) (by omega)
    · split
      · rename_i h
        exact .refused (by simp) (fun _ hw => h hw.version)
      · rename_i hv
        split
        · rename_i h
          exact .refused (by simp) (fun _ hw => h hw.type)
        · rename_i ht
          split
          · rename_i h
            exact .refused (by simp) (fun _ hw => h hw.subtype)
          · rename_i hst
            split
            · exact .refused (by simp) (fun hs => by omega)
            · rename_i hsize
              have hsize' : ieee80211DataHdrlen ≤ size := Nat.not_lt.mp hsize
              split
              · rename_i hshort
                have h24 : ieee80211DataHdrlen = 24 := rfl
                have h16 : addr2 + 6 = 16 := rfl
                exact .beyond (by omega) (by omega)
              · rename_i hlen
                dsimp only
                split
                · rename_i h
                  exact .refused (by simp) (fun _ hw => h hw.signature)
                · rename_i hsig
                  rw [ne_eq, not_not] at hv ht hst hsig
                  rw [hsig]
                  exact .parsed hsize' (Nat.not_lt.mp hlen) ⟨hv, ht, hst, hsig⟩

end WfbYa.Frame
