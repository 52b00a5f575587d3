/-
  WfbYa.Frame.FrameUdp — the header of a relayed datagram (`frame_udp.c`).

  - `udpFrameParse_build`: what is built is parsed back, a `dbm` outside a signed byte as
    `DBM_INVAL`.
-/

import WfbYa.Params
import WfbYa.Lib.BigEndian

namespace WfbYa.Frame

open WfbYa.Lib.BigEndian

structure UdpContext where
  /-- The header `udp_frame_build` makes. -/
  raw : Bytes
  hdrlen : Nat
  flags : Nat
  freq : Nat
  dbm : Int

def UdpContext.zero : UdpContext := ⟨List.replicate wfbUdpHdrlen 0, 0, 0, 0, 0⟩

/-- A `uint16_t` stored in an `int16_t`. -/
def int16OfU16 (n : Nat) : Int := (n : Int).bmod (2 ^ 16)

/-- An `int16_t` passed as a `uint16_t`. -/
def u16OfInt16 (v : Int) : Nat := (v % 2 ^ 16).toNat

/-- The `dbm` a header carries: one that fits a signed byte, or none. -/
def dbmCarried (dbm : Int) : Int := if dbm < dbmMin ∨ dbmMax < dbm then dbmInval else dbm

/-- The return value is `hdrlen`. The size is not looked at. -/
def udpFrameParse (data : Bytes) : UdpContext where
  raw := List.replicate wfbUdpHdrlen 0
  hdrlen := wfbUdpHdrlen
  flags := ofBe (slice data 0 4)
  freq := ofBe (slice data 4 2)
  dbm := dbmCarried (int16OfU16 (ofBe (slice data 6 2)))

def udpFrameBuild (ctx : UdpContext) : UdpContext :=
  { ctx with
    raw := be 4 ctx.flags ++ be 2 ctx.freq ++
      be 2 (u16OfInt16 (if dbmMin ≤ ctx.dbm ∧ ctx.dbm ≤ dbmMax then ctx.dbm else dbmInval))
    hdrlen := wfbUdpHdrlen }

theorem udpFrameBuild_length (ctx : UdpContext) : (udpFrameBuild ctx).raw.length = wfbUdpHdrlen := by
  simp [udpFrameBuild, wfbUdpHdrlen]

theorem dbmCarried_eq (dbm : Int) : dbmCarried dbm = if dbmMin ≤ dbm ∧ dbm ≤ dbmMax then dbm else dbmInval := by
  unfold dbmCarried
  split
  · rename_i h
    rw [if_neg (by omega)]
  · rename_i h
    rw [if_pos (by omega)]

@[simp] theorem dbmCarried_self (dbm : Int) : dbmCarried (dbmCarried dbm) = dbmCarried dbm := by
  by_cases h : dbm < dbmMin ∨ dbmMax < dbm
  · rw [show dbmCarried dbm = dbmInval from if_pos h]
    rfl
  · rw [show dbmCarried dbm = dbm from if_neg h]
    exact if_neg h

/-- What is carried survives the wire. -/
theorem int16OfU16_carried (dbm : Int) : int16OfU16 (u16OfInt16 (dbmCarried dbm)) = dbmCarried dbm := by
  have h : -2 ^ 15 ≤ dbmCarried dbm ∧ dbmCarried dbm < 2 ^ 15 := by
    unfold dbmCarried dbmMin dbmMax dbmInval
    split <;> omega
  unfold int16OfU16 u16OfInt16
  rw [Int.toNat_of_nonneg (Int.emod_nonneg _ (by decide))]
  show (dbmCarried dbm % ((2 ^ 16 : Nat) : Int)).bmod (2 ^ 16) = _
  rw [Int.emod_bmod]
  exact Int.bmod_eq_of_le (by omega) (by omega)

theorem udpFrameParse_build (ctx : UdpContext) (rest : Bytes) (hflags : ctx.flags < 2 ^ 32) (hfreq : ctx.freq < 2 ^ 16) :
    (udpFrameParse ((udpFrameBuild ctx).raw ++ rest)).flags = ctx.flags ∧
      (udpFrameParse ((udpFrameBuild ctx).raw ++ rest)).freq = ctx.freq ∧
        (udpFrameParse ((udpFrameBuild ctx).raw ++ rest)).dbm = dbmCarried ctx.dbm := by
  have hraw : (udpFrameBuild ctx).raw = be 4 ctx.flags ++ (be 2 ctx.freq ++ be 2 (u16OfInt16 (dbmCarried ctx.dbm))) := by
    rw [dbmCarried_eq, ← List.append_assoc]
    rfl
  have h1 : slice ((udpFrameBuild ctx).raw ++ rest) 0 4 = be 4 ctx.flags := by
    rw [hraw, List.append_assoc]
    exact @slice_middle [] _ _ _ _ rfl (be_length 4 _)
  have h2 : slice ((udpFrameBuild ctx).raw ++ rest) 4 2 = be 2 ctx.freq := by
    rw [hraw, List.append_assoc, List.append_assoc]
    exact slice_middle (be_length 4 _) (be_length 2 _)
  have h3 : slice ((udpFrameBuild ctx).raw ++ rest) 6 2 = be 2 (u16OfInt16 (dbmCarried ctx.dbm)) := by
    rw [hraw, ← List.append_assoc, List.append_assoc]
    exact slice_middle (by simp) (be_length 2 _)
  have hu : u16OfInt16 (dbmCarried ctx.dbm) < 256 ^ 2 := by
    unfold u16OfInt16
    omega
  unfold udpFrameParse
  dsimp only
  rw [h1, h2, h3, ofBe_be hflags, ofBe_be hfreq, ofBe_be hu, int16OfU16_carried, dbmCarried_self]
  exact ⟨rfl, rfl, rfl⟩

end WfbYa.Frame
