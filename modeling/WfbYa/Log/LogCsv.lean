/-
  WfbYa.Log.LogCsv — the analysis program's table (`log_analysis/log_csv.c`).

  A line is the list of its fields, with nothing where the program prints none.

  - `inetNtop`: an IPv6 address as `inet_ntop` of the C library writes it.
  - `csvSerialize`: the lines.
-/

import WfbYa.Log.LogRaw

namespace WfbYa.Log

/-! ## inet_ntop -/

def In6Addr.words (a : In6Addr) : List Nat :=
  (List.range 8).map fun i => (a.val.getD (2 * i) 0).toNat * 256 + (a.val.getD (2 * i + 1) 0).toNat

def hexText (n : Nat) : String := String.ofList (Nat.toDigits 16 n)

def decText (n : Nat) : String := String.ofList (Nat.toDigits 10 n)

/-- Where the longest run of zero words begins, the first of several, and how long it is. -/
def zeroRun (ws : List Nat) : Nat × Nat :=
  (List.range 8).foldl (fun best i => let n := ((ws.drop i).takeWhile (· = 0)).length; if best.2 < n then (i, n) else best) (0, 0)

/-- The last four bytes, as an IPv4 address. -/
def In6Addr.quad (a : In6Addr) : String := String.intercalate "." ((a.val.drop 12).map fun b => decText b.toNat)

def inetNtop (a : In6Addr) : String :=
  let ws := a.words
  let best := zeroRun ws
  if best.2 < 2 then String.intercalate ":" (ws.map hexText)
  else if best.1 = 0 ∧ best.2 = 6 then "::" ++ a.quad
  else if best.1 = 0 ∧ best.2 = 5 ∧ ws.getD 5 0 = 65535 then "::ffff:" ++ a.quad
  else
    String.intercalate ":" ((ws.take best.1).map hexText) ++ "::" ++
      String.intercalate ":" ((ws.drop (best.1 + best.2)).map hexText)

example : inetNtop ⟨[0xfe, 0x80, 0, 0, 0, 0, 0, 0, 0, 0, 0, 0xff, 0, 0, 0, 0xa0], rfl⟩ = "fe80::ff:0:a0" := by decide +kernel

/-! ## csv_serialize -/

def csvHdr : List (Option String) :=
  [some "Key", some "Time Stamp", some "Block Index", some "Fragment Index", some "Source Node", some "Frequency", some "dbm",
    some "Data Size", some "Corrupted", some "IsParity"]

/-- `%ld`. -/
def intText (n : Int) : String := if n < 0 then "-" ++ decText n.natAbs else decText n.natAbs

/-- `%09ld`. -/
def nsecText (n : Int) : String :=
  let digits := decText n.natAbs
  if n < 0 then "-" ++ String.ofList (List.replicate (8 - digits.length) '0') ++ digits
  else String.ofList (List.replicate (9 - digits.length) '0') ++ digits

/-- `DBM_MIN` and `DBM_MAX` have the same range. -/
def dbmShown (dbm : Int16) : Bool := -128 ≤ dbm.toInt && dbm.toInt ≤ 127

def csvSerializeV (kv : LogDataKv) (v : LogDataV) : List (Option String) :=
  [some (decText kv.key), some (intText v.ts.sec.toInt ++ "." ++ nsecText v.ts.nsec.toInt), some (decText v.blockIdx.toNat),
    some (decText v.fragmentIdx.toNat), v.rxSrc.map inetNtop, if 0 < v.freq then some (decText v.freq.toNat) else none,
    if dbmShown v.dbm then some (intText v.dbm.toInt) else none, some (decText v.size.toNat),
      some (if v.corrupt then "1" else "0"),
    some (if v.isParity then "1" else "0")]

def csvSerialize (ls : LogStore) : List (List (Option String)) :=
  csvHdr :: ls.kvh.flatMap fun kv => (kv.vh.filter fun i => !(ls.v i).filtered).map fun i => csvSerializeV kv (ls.v i)

end WfbYa.Log
