/-
  WfbYa.Log.LogHist — the analysis program's histogram of signal strengths
  (`log_analysis/log_hist.c`).

  `uint8_t` and `uint32_t` are numbers with their wrapping written out, `int` is an integer
  that may overflow. An array is read and written through its bounds; what `cumulative` holds
  before it is written is taken for 0. The mean is left as what it is computed from: a sum
  and a count.

  - `logHist`: what is printed, or what goes wrong.
-/

import WfbYa.Log.LogRaw

namespace WfbYa.Log

/-! ## C -/

inductive HistFault where
  | outOfBounds
  | divisionByZero
  | overflow
  | endless
  deriving DecidableEq, Repr

def u8 (n : Nat) : Nat := n % 2 ^ 8
def u32 (n : Nat) : Nat := n % 2 ^ 32

/-- `UINT8_MAX`. -/
def uint8Max : Nat := 255

/-- `a[i]`. -/
def cell (a : List Nat) (i : Nat) : Except HistFault Nat :=
  match a[i]? with
  | some n => .ok n
  | none => .error .outOfBounds

/-- `a[i] = n`. -/
def setCell (a : List Nat) (i n : Nat) : Except HistFault (List Nat) :=
  if i < a.length then .ok (a.set i n) else .error .outOfBounds

/-- The value of an `int`. -/
def intOf (n : Int) : Except HistFault Int := if -intMax - 1 ≤ n ∧ n ≤ intMax then .ok n else .error .overflow

/-! ## graph -/

def graph (hist histMax : Nat) : Except HistFault String :=
  if histMax = 0 then .error .divisionByZero
  else .ok (match u32 (hist * 10) / histMax with
    | 0 => "|"
    | 1 => "|*"
    | 2 => "|**"
    | 3 => "|***"
    | 4 => "|****"
    | 5 => "|*****"
    | 6 => "|******"
    | 7 => "|*******"
    | 8 => "|********"
    | 9 => "|*********"
    | _ => "|**********")

/-! ## log_hist -/

/-- What the first loop fills in. -/
structure HistCount where
  hist : List Nat
  idxMin : Nat
  idxMax : Nat
  nentry : Int
  sum : Int

def HistCount.initial : HistCount := ⟨List.replicate uint8Max 0, uint8Max, 0, 0, 0⟩

/-- A sample is counted. -/
def countDbm (st : HistCount) (dbm : Int16) : Except HistFault HistCount := do
  let idx := ((dbm.toInt + 128) % 2 ^ 8).toNat
  let n ← cell st.hist idx
  let hist ← setCell st.hist idx (u32 (n + 1))
  let nentry ← intOf (st.nentry + 1)
  let sum ← intOf (st.sum + dbm.toInt)
  return ⟨hist, if idx < st.idxMin then idx else st.idxMin, if st.idxMax < idx then idx else st.idxMax, nentry, sum⟩

/-- The first loop's body. -/
def countV (st : HistCount) (v : LogDataV) : Except HistFault HistCount :=
  if v.type ≠ frameTypeInet6 then .ok st
  else if v.dbm = dbmInval16 then .ok st
  else if v.filtered then .ok st
  else countDbm st v.dbm

def countLoop (ls : LogStore) : Except HistFault HistCount :=
  ls.kvh.foldlM (fun st kv => kv.vh.foldlM (fun st i => countV st (ls.v i)) st) .initial

/-- What the second loop fills in. -/
structure HistScan where
  cumulative : List Nat
  idxMedian : Nat
  histMax : Nat

def scanStep (hist : List Nat) (half idx : Nat) (s : HistScan) : Except HistFault HistScan := do
  let c ← cell s.cumulative (idx - 1)
  let h ← cell hist idx
  let cumulative ← setCell s.cumulative idx (u32 (c + h))
  return ⟨cumulative, if s.idxMedian = 0 ∧ half < u32 (c + h) then idx else s.idxMedian, if s.histMax < h then h else s.histMax⟩

/-- The second loop, granted `n` turns. -/
def scanLoop (hist : List Nat) (half : Nat) : Nat → Nat → HistScan → Except HistFault HistScan
  | n, idx, s =>
    if idx < uint8Max then
      match n with
      | 0 => .error .endless
      | n + 1 => do
        let s ← scanStep hist half idx s
        scanLoop hist half n (u8 (idx + 1)) s
    else .ok s

/-- A printed line. -/
structure HistRow where
  dbm : Int
  count : Nat
  cumulative : Nat
  graph : String
  deriving DecidableEq, Repr

/-- The third loop, granted `n` turns: the lines and `idx_mode`. An index comes again after
    256 turns. -/
def printLoop (hist cumulative : List Nat) (histMax idxMax : Nat) : Nat → Nat → Nat → Nat → Except HistFault (List HistRow × Nat)
  | n, idx, mode, idxMode =>
    if idx ≤ idxMax then
      match n with
      | 0 => .error .endless
      | n + 1 => do
        let h ← cell hist idx
        let c ← cell cumulative idx
        let g ← graph h histMax
        let rest ← printLoop hist cumulative histMax idxMax n (u8 (idx + 1)) (if mode < h then h else mode)
          (if mode < h then idx else idxMode)
        return (⟨idx - 128, h, c, g⟩ :: rest.1, rest.2)
    else .ok ([], idxMode)

structure HistReport where
  rows : List HistRow
  sum : Int
  nentry : Int
  median : Int
  mode : Int
  deriving DecidableEq, Repr

def logHist (ls : LogStore) : Except HistFault HistReport := do
  let st ← countLoop ls
  -- `half` is compared as an `unsigned int`
  let half := (st.nentry.tdiv 2 % 2 ^ 32).toNat
  let h0 ← cell st.hist 0
  let cumulative ← setCell (List.replicate uint8Max 0) 0 h0
  let scan ← scanLoop st.hist half 256 1 ⟨cumulative, 0, 0⟩
  let p ← printLoop st.hist scan.cumulative scan.histMax st.idxMax 256 st.idxMin 0 st.idxMin
  return ⟨p.1, st.sum, st.nentry, scan.idxMedian - 128, p.2 - 128⟩

end WfbYa.Log
