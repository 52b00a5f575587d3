/-
  WfbYa.Log.LogFilter — the analysis program's filter (`log_analysis/log_filter.c`), as the
  shell's `filter dbm` runs it (`log_analysis/shell.c`).

  Records weaker than the cut-off are marked; then the counters and marks of the keys are
  made anew, in a pass over the blocks and one over the sequence numbers, which decides for
  each decoded frame whether it would still be there. The number of records marked is only
  printed, and left out.

  - `logUpdateKv`: the two passes.
  - `shellFilterDbm`: one command.
-/

import WfbYa.Log.LogRaw

namespace WfbYa.Log

open WfbYa.Lib

/-! ## log_update_kv -/

/-- A key as both passes begin with it. -/
def LogDataKv.clear (kv : LogDataKv) : LogDataKv :=
  { kv with hasEthernetFrame := false, hasLostFrame := false, hasFecFrame := false, nEthernetFrame := 0, nH265Frame := 0 }

/-- The first pass, at one value of a block. -/
def blockScan (ls : LogStore) (kv : LogDataKv) (v : Nat) : LogDataKv :=
  if (ls.v v).filtered then kv
  else if (ls.v v).type ≠ frameTypeInet6 then kv
  else kv.received

/-- The first pass, at one block. -/
def updateBlock (ls : LogStore) (kv : LogDataKv) : LogDataKv :=
  let kv := kv.vh.foldl (blockScan ls) kv.clear
  if kv.nEthernetFrame < ls.fecK.toNat then kv.lost true else kv

/-- The variables of the second pass. -/
structure SeqScan where
  kv : LogDataKv
  vd : Option Nat
  blockKv : Option KvRef

/-- The second pass, at one value of a sequence number. -/
def seqScan (ls : LogStore) (s : SeqScan) (v : Nat) : SeqScan :=
  let x := ls.v v
  let s := if s.blockKv = none then { s with blockKv := x.blockKv } else s
  if x.filtered then s
  else
    let s := if x.type = frameTypeInet6 then { s with kv := s.kv.received } else s
    if x.type = frameTypeDecode then { s with vd := some v } else s

def setFiltered (b : Bool) (v : LogDataV) : LogDataV := { v with filtered := b }

/-- The second pass, at one sequence number; with it goes the number of frames that FEC
    would give. -/
def updateSeq (st : LogStore × Nat) (kv : LogDataKv) : Except Fault (LogStore × Nat) :=
  let ls := st.1
  let ref : KvRef := ⟨.seq, kv.key⟩
  let s := kv.vh.foldl (seqScan ls) ⟨kv.clear, none, none⟩
  let ls := ls.modKv ref fun _ => s.kv
  match s.blockKv with
  | none => .error .assertFailed
  | some blockKv =>
    match s.vd with
    | none =>
      -- the number of the frame in the stream, not in its block
      if kv.key < ls.fecK.toNat then .ok ((ls.modKv ref (.lost true)).modKv blockKv (.lost true), st.2)
      else .ok (ls, st.2)
    | some vd =>
      if s.kv.hasEthernetFrame then
        .ok (((ls.modV vd (setFiltered false)).modKv ref .decoded).modKv blockKv .decoded, st.2)
      else if ((ls.v vd).blockKv.bind ls.kv?).any fun b => ls.fecK.toNat ≤ b.nEthernetFrame then
        let ls := (ls.modKv ref .byFec).modKv blockKv .byFec
        .ok (((ls.modV vd (setFiltered false)).modKv ref .decoded).modKv blockKv .decoded, st.2 + 1)
      else
        .ok (((ls.modV vd (setFiltered true)).modKv ref (.lost true)).modKv blockKv (.lost true), st.2)

def logUpdateKv (ls : LogStore) : Except Fault (LogStore × Nat) :=
  let ls := { ls with blockKvh := ls.blockKvh.map (updateBlock ls) }
  ls.kvh.foldlM updateSeq (ls, 0)

/-! ## The commands -/

/-- Every value under a sequence number, in the order of the numbers. -/
def LogStore.seqVs (ls : LogStore) : List Nat := ls.kvh.flatMap LogDataKv.vh

def logFilterReset (ls : LogStore) : LogStore := ls.seqVs.foldl (fun ls v => ls.modV v (setFiltered false)) ls

/-- The mark of a received frame. -/
def cutOffV (cutOff : Int8) (v : LogDataV) : LogDataV :=
  if v.type ≠ frameTypeInet6 then v
  else if v.dbm = dbmInval16 then v
  else setFiltered (decide (v.dbm.toInt ≤ cutOff.toInt)) v

def logFilterDbm (ls : LogStore) (cutOff : Int8) : Except Fault (LogStore × Nat) :=
  logUpdateKv (ls.seqVs.foldl (fun ls v => ls.modV v (cutOffV cutOff)) ls)

/-- `filter dbm`, with an argument in range. -/
def shellFilterDbm (ls : LogStore) (dbm : Int8) : Except Fault LogStore := (logFilterDbm (logFilterReset ls) dbm).map Prod.fst

end WfbYa.Log
