/-
  WfbYa.Log.LogJson — the analysis program's JSON documents (`log_analysis/log_json.c`).

  A document is built first and written afterwards. What was added as a copy or by a
  reference to a constant is a text of its own; what was added by a reference to the buffer
  of `s_source` is the text that is there when the document is written. An object keeps its
  members in the order they were added, whatever their names. A time stamp goes by its
  nanoseconds, which the program turns into a floating-point number of seconds.

  - `jsonSerialize` / `jsonSerializeBlock`: what is written.
-/

import WfbYa.Log.LogCsv

namespace WfbYa.Log

/-! ## yyjson -/

inductive JVal where
  | uint (n : Nat)
  | int (n : Int)
  | bool (b : Bool)
  | seconds (nsec : UInt64)
  | str (s : String)
  /-- A reference to the buffer `s_addr`. -/
  | sAddr
  deriving DecidableEq, Repr

abbrev Members := List (String × JVal)

/-- The object of a key, with the array that is its last member, `Event`. -/
structure KvObj where
  members : Members
  event : List Members
  deriving DecidableEq, Repr

def JVal.written (sAddr : String) : JVal → JVal
  | .sAddr => .str sAddr
  | x => x

def writeMembers (sAddr : String) (ms : Members) : Members := ms.map fun m => (m.1, m.2.written sAddr)

def KvObj.written (sAddr : String) (o : KvObj) : KvObj := ⟨writeMembers sAddr o.members, o.event.map (writeMembers sAddr)⟩

/-! ## Events -/

def sVType (v : LogDataV) : String :=
  if v.type = frameTypeCorrupt then "Corrupt"
  else if v.type = frameTypeInet6 then "Receive"
  else if v.type = frameTypeDecode then "Decode"
  else "Unknown"

/-- The buffer, once `s_source` returned. -/
def sSource (v : LogDataV) (sAddr : String) : String :=
  match v.rxSrc with
  | some a => inetNtop a
  | none => sAddr

def fTimestamp (v : LogDataV) : UInt64 := v.ts.sec.toUInt64 * 1000000000 + v.ts.nsec.toUInt64

/-- What the events of both documents end with: the source, as it was added, and the rest. -/
def eventTail (src : JVal) (v : LogDataV) : Members :=
  (if v.rxSrc.isSome then [("SourceNode", src)] else []) ++
    -- again under the name of the source
    (if 0 < v.freq then [("SourceNode", .uint v.freq.toNat)] else []) ++
    (if dbmShown v.dbm then [("dbm", .int v.dbm.toInt)] else []) ++
    if 0 < v.size then [("DataSize", .uint v.size.toNat)] else []

/-- The source by a copy of the buffer, as `s_source` left it. -/
def seqEvent (v : LogDataV) (sAddr : String) : Members :=
  [("TimeStamp", .seconds (fTimestamp v)), ("Type", .str (sVType v))] ++ eventTail (.str sAddr) v

/-- The source by a reference to the buffer. -/
def blkEvent (v : LogDataV) (_ : String) : Members :=
  [("TimeStamp", .seconds (fTimestamp v)), ("BlockIndex", .uint v.blockIdx.toNat), ("FragmentIndex", .uint v.fragmentIdx.toNat),
    ("Type", .str (sVType v))] ++ eventTail .sAddr v

/-- The events of a key's values, and the buffer behind the last of them. -/
def addEvents (event : LogDataV → String → Members) : List LogDataV → String → List Members × String
  | [], sAddr => ([], sAddr)
  | v :: vs, sAddr =>
    let r := addEvents event vs (sSource v sAddr)
    (event v (sSource v sAddr) :: r.1, r.2)

/-! ## Keys -/

def wfbMutObjKvSeq (ls : LogStore) (kv : LogDataKv) (sAddr : String) : Option KvObj × String :=
  match kv.vh with
  | [] => (none, sAddr)
  | i :: is =>
    let v := ls.v i
    let r := addEvents seqEvent ((i :: is).map ls.v) sAddr
    (some ⟨[("Key", .uint kv.key), ("BlockIndex", .uint v.blockIdx.toNat), ("FragmentIndex", .uint v.fragmentIdx.toNat),
        ("IsParity", .bool v.isParity), ("IsFEC", .bool kv.hasFecFrame), ("EthernetFrames", .uint kv.nEthernetFrame),
        ("H265Frames", .uint kv.nH265Frame)], r.1⟩, r.2)

def wfbMutObjKvBlk (ls : LogStore) (kv : LogDataKv) (sAddr : String) : Option KvObj × String :=
  match kv.vh with
  | [] => (none, sAddr)
  | i :: is =>
    let r := addEvents blkEvent ((i :: is).map ls.v) sAddr
    (some ⟨[("Key", .uint kv.key), ("HasLostFrame", .bool kv.hasLostFrame), ("IsFEC", .bool kv.hasFecFrame),
        ("EthernetFrames", .uint kv.nEthernetFrame), ("H265Frames", .uint kv.nH265Frame)], r.1⟩, r.2)

def wfbMutObjKv (ls : LogStore) (kv : LogDataKv) (sAddr : String) : Option KvObj × String :=
  match kv.type with
  | .seq => wfbMutObjKvSeq ls kv sAddr
  | .blk => wfbMutObjKvBlk ls kv sAddr
  | .msg => (none, sAddr)

def kvh2yyjson (ls : LogStore) : List LogDataKv → String → List KvObj × String
  | [], sAddr => ([], sAddr)
  | kv :: kvs, sAddr =>
    let o := wfbMutObjKv ls kv sAddr
    let r := kvh2yyjson ls kvs o.2
    (o.1.toList ++ r.1, r.2)

/-- The buffer holds `sAddr` from an earlier document, or nothing. -/
def jsonSerializeKvh (ls : LogStore) (kvh : List LogDataKv) (sAddr : String) : List KvObj :=
  let doc := kvh2yyjson ls kvh sAddr
  doc.1.map (KvObj.written doc.2)

def jsonSerialize (ls : LogStore) (sAddr : String) : List KvObj := jsonSerializeKvh ls ls.kvh sAddr

def jsonSerializeBlock (ls : LogStore) (sAddr : String) : List KvObj := jsonSerializeKvh ls ls.blockKvh sAddr

end WfbYa.Log
