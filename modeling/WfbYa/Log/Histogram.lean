/-
  WfbYa.Log.Histogram — what the histogram prints, and when it prints at all.

  (1) `hist_safe_iff`. `log_hist` comes to its end exactly if no sample is 127, not all of
  them are -128, and the `int` counters do not overflow: there is no bin for 127, and the
  first bin has no part in the greatest count that `graph` divides by.

  (2) `hist_statistics_iff`. The median is right exactly if no more than half of the samples
  are -128: the loop that looks for it starts behind the first bin. The mode and the
  cumulative counts are always right.

  - `count_returns` / `tallied`: the loop that counts.
  - `scanLoop_spec` / `printLoop_spec`: the loops over the bins.
-/

import WfbYa.Log.LogHist
import WfbYa.Log.Representation
import WfbYa.Lib.Machine
import WfbYa.Lib.Scan
import Mathlib.Data.List.Infix
import Mathlib.Order.Bounds.Basic

namespace WfbYa.Log

open WfbYa.Lib

/-! ## Samples -/

/-- A value that `log_hist` counts. -/
def LogDataV.isSample (v : LogDataV) : Bool := v.type = frameTypeInet6 && v.dbm ≠ dbmInval16 && !v.filtered

def samples (ls : LogStore) : List Int16 :=
  ((ls.kvh.flatMap fun kv => kv.vh.map ls.v).filter LogDataV.isSample).map LogDataV.dbm

theorem countV_eq (st : HistCount) (v : LogDataV) : countV st v = if v.isSample then countDbm st v.dbm else .ok st := by
  unfold countV LogDataV.isSample
  by_cases ht : v.type = frameTypeInet6
  · by_cases hd : v.dbm = dbmInval16
    · simp [ht, hd]
    · cases hf : v.filtered <;> simp [ht, hd]
  · simp [ht]

theorem foldlM_countV (vs : List LogDataV) (st : HistCount) :
    vs.foldlM countV st = ((vs.filter LogDataV.isSample).map LogDataV.dbm).foldlM countDbm st := by
  induction vs generalizing st with
  | nil => rfl
  | cons v vs ih =>
    rw [List.foldlM_cons, countV_eq]
    by_cases hs : v.isSample = true
    · rw [if_pos hs, List.filter_cons_of_pos hs, List.map_cons, List.foldlM_cons]
      congr 1
      funext st'
      exact ih st'
    · rw [if_neg hs, List.filter_cons_of_neg hs]
      exact ih st

theorem foldlM_flat (ls : LogStore) (kvs : List LogDataKv) (st : HistCount) :
    kvs.foldlM (fun st kv => kv.vh.foldlM (fun st i => countV st (ls.v i)) st) st =
      (kvs.flatMap fun kv => kv.vh.map ls.v).foldlM countV st := by
  induction kvs generalizing st with
  | nil => rfl
  | cons kv kvs ih =>
    rw [List.foldlM_cons, List.flatMap_cons, List.foldlM_append, List.foldlM_map]
    congr 1
    funext st'
    exact ih st'

theorem countLoop_eq (ls : LogStore) : countLoop ls = (samples ls).foldlM countDbm .initial := by
  unfold countLoop samples
  rw [foldlM_flat, foldlM_countV]

/-! ## Bins -/

/-- The bin of a sample. -/
def place (d : Int16) : Nat := ((d.toInt + 128) % 2 ^ 8).toNat

/-- The samples in a bin, and those up to it. -/
def tally (ds : List Int16) (i : Nat) : Nat := ds.countP fun d => place d = i
def upTo (ds : List Int16) (i : Nat) : Nat := ds.countP fun d => place d ≤ i

variable {ds : List Int16} {d : Int16}

theorem upTo_zero (ds : List Int16) : upTo ds 0 = tally ds 0 := by
  unfold upTo tally
  apply List.countP_congr
  intro d _
  simp

theorem upTo_succ (ds : List Int16) (i : Nat) : upTo ds (i + 1) = upTo ds i + tally ds (i + 1) := by
  unfold upTo tally
  induction ds with
  | nil => rfl
  | cons d ds ih =>
    simp only [List.countP_cons, decide_eq_true_eq, ih]
    by_cases h1 : place d ≤ i
    · rw [if_pos (by omega), if_pos h1, if_neg (by omega)]
      omega
    · by_cases h2 : place d = i + 1
      · rw [if_pos (by omega), if_neg h1, if_pos h2]
        omega
      · rw [if_neg (by omega), if_neg h1, if_neg h2]
        omega

theorem upTo_le (ds : List Int16) (i : Nat) : upTo ds i ≤ ds.length := List.countP_le_length

theorem tally_le (ds : List Int16) (i : Nat) : tally ds i ≤ ds.length := List.countP_le_length

theorem tally_pos {i : Nat} : 0 < tally ds i ↔ ∃ d ∈ ds, place d = i := by
  unfold tally
  rw [List.countP_pos_iff]
  simp

theorem tally_snoc (ds : List Int16) (d : Int16) (i : Nat) : tally (ds ++ [d]) i = tally ds i + if place d = i then 1 else 0 := by
  unfold tally
  rw [List.countP_append, List.countP_cons, List.countP_nil]
  simp

/-! ## Counting -/

theorem cell_iff {a : List Nat} {i n : Nat} : cell a i = .ok n ↔ a[i]? = some n := by
  unfold cell
  cases a[i]? <;> simp

theorem setCell_iff {a a' : List Nat} {i n : Nat} : setCell a i n = .ok a' ↔ i < a.length ∧ a' = a.set i n := by
  unfold setCell
  by_cases h : i < a.length
  · simp [h, eq_comm]
  · simp [h]

def FitsInt (n : Int) : Prop := -intMax - 1 ≤ n ∧ n ≤ intMax

instance (n : Int) : Decidable (FitsInt n) := inferInstanceAs (Decidable (_ ∧ _))

theorem intOf_iff {n m : Int} : intOf n = .ok m ↔ FitsInt n ∧ m = n := by
  unfold intOf FitsInt
  by_cases h : -(intMax : Int) - 1 ≤ n ∧ n ≤ intMax
  · rw [if_pos h]
    constructor
    · intro hm
      cases hm
      exact ⟨h, rfl⟩
    · intro ⟨_, hm⟩
      rw [hm]
  · rw [if_neg h]
    constructor
    · intro hm
      cases hm
    · intro ⟨hfits, _⟩
      exact absurd hfits h

/-- A sample counted in. -/
def HistCount.add (st : HistCount) (d : Int16) (n : Nat) : HistCount where
  hist := st.hist.set (place d) (u32 (n + 1))
  idxMin := if place d < st.idxMin then place d else st.idxMin
  idxMax := if st.idxMax < place d then place d else st.idxMax
  nentry := st.nentry + 1
  sum := st.sum + d.toInt

theorem countDbm_iff {st st' : HistCount} : countDbm st d = .ok st' ↔
    ∃ n, st.hist[place d]? = some n ∧ FitsInt (st.nentry + 1) ∧ FitsInt (st.sum + d.toInt) ∧ st' = st.add d n := by
  unfold countDbm
  dsimp only
  constructor
  · intro h
    obtain ⟨n, hn, h⟩ := Machine.bind_ok_iff.mp h
    obtain ⟨hist, hhist, h⟩ := Machine.bind_ok_iff.mp h
    obtain ⟨nentry, hnentry, h⟩ := Machine.bind_ok_iff.mp h
    obtain ⟨sum, hsum, h⟩ := Machine.bind_ok_iff.mp h
    obtain ⟨-, rfl⟩ := setCell_iff.mp hhist
    obtain ⟨hfit, rfl⟩ := intOf_iff.mp hnentry
    obtain ⟨hfit', rfl⟩ := intOf_iff.mp hsum
    cases h
    exact ⟨n, cell_iff.mp hn, hfit, hfit', rfl⟩
  · intro ⟨n, hn, hfit, hfit', hst⟩
    subst hst
    have hlt : place d < st.hist.length := (List.getElem?_eq_some_iff.mp hn).1
    exact Machine.bind_ok_iff.mpr ⟨n, cell_iff.mpr hn, Machine.bind_ok_iff.mpr ⟨_, setCell_iff.mpr ⟨hlt, rfl⟩,
      Machine.bind_ok_iff.mpr ⟨_, intOf_iff.mpr ⟨hfit, rfl⟩, Machine.bind_ok_iff.mpr ⟨_, intOf_iff.mpr ⟨hfit', rfl⟩, rfl⟩⟩⟩⟩

/-- What the counters hold after the samples. -/
structure Tallied (ds : List Int16) (st : HistCount) : Prop where
  length : st.hist.length = uint8Max
  cells : ∀ i, i < uint8Max → st.hist[i]? = some (tally ds i)
  idxMin : (∀ d ∈ ds, st.idxMin ≤ place d) ∧ (ds = [] ∧ st.idxMin = uint8Max ∨ ∃ d ∈ ds, place d = st.idxMin)
  idxMax : (∀ d ∈ ds, place d ≤ st.idxMax) ∧ (ds = [] ∧ st.idxMax = 0 ∨ ∃ d ∈ ds, place d = st.idxMax)
  nentry : st.nentry = ds.length
  sum : st.sum = (ds.map Int16.toInt).sum
  fits : ds.length ≤ intMax

theorem tallied_nil : Tallied [] .initial where
  length := List.length_replicate
  cells := by
    intro i hi
    unfold HistCount.initial
    dsimp only
    rw [List.getElem?_replicate, if_pos hi]
    rfl
  idxMin := ⟨fun _ h => (nomatch h), .inl ⟨rfl, rfl⟩⟩
  idxMax := ⟨fun _ h => (nomatch h), .inl ⟨rfl, rfl⟩⟩
  nentry := rfl
  sum := rfl
  fits := Nat.zero_le _

theorem Tallied.snoc {st : HistCount} (h : Tallied ds st) (hplace : place d < uint8Max) (hfit : FitsInt (st.nentry + 1)) :
    Tallied (ds ++ [d]) (st.add d (tally ds (place d))) where
  length := by
    unfold HistCount.add
    rw [List.length_set, h.length]
  cells := by
    intro i hi
    have hsmall : u32 (tally ds (place d) + 1) = tally ds (place d) + 1 := by
      have hle := tally_le ds (place d)
      have hfits := h.fits
      unfold intMax at hfits
      unfold u32
      omega
    unfold HistCount.add
    dsimp only
    rw [List.getElem?_set, hsmall, tally_snoc, h.length]
    by_cases heq : place d = i
    · subst heq
      simp [hplace]
    · simp [heq, h.cells i hi]
  idxMin := by
    unfold HistCount.add
    dsimp only
    constructor
    · intro d' hd'
      rcases List.mem_append.mp hd' with hd' | hd'
      · have hle := h.idxMin.1 d' hd'
        split <;> omega
      · rw [List.mem_singleton.mp hd']
        split <;> omega
    · right
      by_cases hlt : place d < st.idxMin
      · exact ⟨d, by simp, by rw [if_pos hlt]⟩
      · rw [if_neg hlt]
        rcases h.idxMin.2 with ⟨-, hmin⟩ | ⟨d', hd', hmin⟩
        · omega
        · exact ⟨d', List.mem_append_left _ hd', hmin⟩
  idxMax := by
    unfold HistCount.add
    dsimp only
    constructor
    · intro d' hd'
      rcases List.mem_append.mp hd' with hd' | hd'
      · have hle := h.idxMax.1 d' hd'
        split <;> omega
      · rw [List.mem_singleton.mp hd']
        split <;> omega
    · right
      by_cases hlt : st.idxMax < place d
      · exact ⟨d, by simp, by rw [if_pos hlt]⟩
      · rw [if_neg hlt]
        rcases h.idxMax.2 with ⟨-, hmax⟩ | ⟨d', hd', hmax⟩
        · exact ⟨d, by simp, by omega⟩
        · exact ⟨d', List.mem_append_left _ hd', hmax⟩
  nentry := by
    unfold HistCount.add
    rw [List.length_append, List.length_singleton, Nat.cast_add, h.nentry]
    rfl
  sum := by
    unfold HistCount.add
    rw [List.map_append, List.sum_append, h.sum]
    simp
  fits := by
    have hle := hfit.2
    rw [h.nentry] at hle
    rw [List.length_append, List.length_singleton]
    omega

/-- The `int` counters go as far as the samples, one after another, take them. -/
def CountsFit (ds : List Int16) : Prop := ∀ p, p <+: ds → FitsInt p.length ∧ FitsInt (p.map Int16.toInt).sum

instance : Decidable (CountsFit ds) :=
  decidable_of_iff (∀ p ∈ ds.inits, FitsInt p.length ∧ FitsInt (p.map Int16.toInt).sum) (by simp [CountsFit, List.mem_inits])

theorem countsFit_snoc : CountsFit (ds ++ [d]) ↔
    CountsFit ds ∧ FitsInt ((ds.length : Int) + 1) ∧ FitsInt ((ds.map Int16.toInt).sum + d.toInt) := by
  unfold CountsFit
  constructor
  · intro h
    refine ⟨fun p hp => h p (hp.trans (List.prefix_append ds [d])), ?_⟩
    have hall := h (ds ++ [d]) (List.prefix_refl _)
    rw [List.length_append, List.map_append, List.sum_append] at hall
    simpa using hall
  · intro ⟨hds, hd⟩ p hp
    rcases List.prefix_concat_iff.mp hp with rfl | hp
    · rw [List.length_append, List.map_append, List.sum_append]
      simpa using hd
    · exact hds p hp

theorem tallied {st : HistCount} (h : ds.foldlM countDbm .initial = .ok st) : Tallied ds st := by
  induction ds using List.reverseRecOn generalizing st with
  | nil =>
    cases h
    exact tallied_nil
  | append_singleton ds d ih =>
    rw [List.foldlM_append] at h
    obtain ⟨st1, h1, h2⟩ := Machine.bind_ok_iff.mp h
    have ht := ih h1
    rw [List.foldlM_cons] at h2
    obtain ⟨st2, h2, h3⟩ := Machine.bind_ok_iff.mp h2
    cases h3
    obtain ⟨n, hn, hfit, -, rfl⟩ := countDbm_iff.mp h2
    have hplace : place d < uint8Max := by
      rw [← ht.length]
      exact (List.getElem?_eq_some_iff.mp hn).1
    obtain rfl : tally ds (place d) = n := Option.some.inj ((ht.cells _ hplace).symm.trans hn)
    exact ht.snoc hplace hfit

theorem count_returns : (∃ st, ds.foldlM countDbm .initial = .ok st) ↔ (∀ d ∈ ds, place d < uint8Max) ∧ CountsFit ds := by
  induction ds using List.reverseRecOn with
  | nil =>
    refine iff_of_true ⟨_, rfl⟩ ⟨fun _ h => (nomatch h), fun p hp => ?_⟩
    rw [List.prefix_nil.mp hp]
    exact ⟨by decide, by decide⟩
  | append_singleton ds d ih =>
    rw [countsFit_snoc]
    constructor
    · intro ⟨st, h⟩
      rw [List.foldlM_append] at h
      obtain ⟨st1, h1, h2⟩ := Machine.bind_ok_iff.mp h
      obtain ⟨hplaces, hfits⟩ := ih.mp ⟨st1, h1⟩
      have ht := tallied h1
      rw [List.foldlM_cons] at h2
      obtain ⟨st2, h2, -⟩ := Machine.bind_ok_iff.mp h2
      obtain ⟨n, hn, hfit, hfit', -⟩ := countDbm_iff.mp h2
      rw [ht.nentry] at hfit
      rw [ht.sum] at hfit'
      refine ⟨?_, hfits, hfit, hfit'⟩
      intro d' hd'
      rcases List.mem_append.mp hd' with hd' | hd'
      · exact hplaces d' hd'
      · rw [List.mem_singleton.mp hd', ← ht.length]
        exact (List.getElem?_eq_some_iff.mp hn).1
    · intro ⟨hplaces, hfits, hfit, hfit'⟩
      obtain ⟨st1, h1⟩ := ih.mpr ⟨fun d' hd' => hplaces d' (List.mem_append_left _ hd'), hfits⟩
      have ht := tallied h1
      rw [← ht.nentry] at hfit
      rw [← ht.sum] at hfit'
      have hstep := countDbm_iff.mpr ⟨_, ht.cells _ (hplaces d (by simp)), hfit, hfit', rfl⟩
      refine ⟨st1.add d (tally ds (place d)), ?_⟩
      rw [List.foldlM_append]
      exact Machine.bind_ok_iff.mpr ⟨st1, h1, Machine.bind_ok_iff.mpr ⟨_, hstep, rfl⟩⟩

/-! ## The bins in order -/

/-- The second loop has come to the bin `i`. -/
structure Scanned (ds : List Int16) (half i : Nat) (s : HistScan) : Prop where
  length : s.cumulative.length = uint8Max
  cells : ∀ j, j < i → s.cumulative[j]? = some (upTo ds j)
  median : Scan.FirstAt (fun j => half < upTo ds j) 1 i s.idxMedian
  histMax : Scan.MaxAt (tally ds) 1 i s.histMax

variable {hist cumulative : List Nat} {half i n : Nat}

theorem Scanned.step {s : HistScan} (h : Scanned ds half i s) (hpos : 1 ≤ i) (hi : i < uint8Max)
    (hh : hist[i]? = some (tally ds i))
    (hfit : ds.length ≤ intMax) : ∃ s', scanStep hist half i s = .ok s' ∧ Scanned ds half (i + 1) s' := by
  obtain ⟨j, rfl⟩ := Nat.exists_eq_add_of_le' hpos
  have hsum : u32 (upTo ds j + tally ds (j + 1)) = upTo ds (j + 1) := by
    have hle := upTo_le ds (j + 1)
    rw [upTo_succ] at hle ⊢
    unfold intMax at hfit
    unfold u32
    omega
  have hcell : cell s.cumulative (j + 1 - 1) = .ok (upTo ds j) := cell_iff.mpr (h.cells j (Nat.lt_succ_self j))
  have hset : setCell s.cumulative (j + 1) (upTo ds (j + 1)) = .ok (s.cumulative.set (j + 1) (upTo ds (j + 1))) :=
    setCell_iff.mpr ⟨by rw [h.length]; exact hi, rfl⟩
  refine ⟨⟨s.cumulative.set (j + 1) (upTo ds (j + 1)),
    if s.idxMedian = 0 ∧ half < upTo ds (j + 1) then j + 1 else s.idxMedian,
    if s.histMax < tally ds (j + 1) then tally ds (j + 1) else s.histMax⟩, ?_, ?_, ?_, ?_, ?_⟩
  · unfold scanStep
    refine Machine.bind_ok_iff.mpr ⟨_, hcell, Machine.bind_ok_iff.mpr ⟨_, cell_iff.mpr hh, ?_⟩⟩
    rw [hsum]
    exact Machine.bind_ok_iff.mpr ⟨_, hset, rfl⟩
  · rw [List.length_set]
    exact h.length
  · intro j' hj'
    dsimp only
    rw [List.getElem?_set]
    by_cases heq : j + 1 = j'
    · subst heq
      rw [if_pos rfl, if_pos (by rw [h.length]; exact hi)]
    · rw [if_neg heq]
      exact h.cells j' (by omega)
  · exact h.median.step hpos hpos
  · exact h.histMax.step hpos

theorem scanLoop_spec (hcells : ∀ j, j < uint8Max → hist[j]? = some (tally ds j)) (hfit : ds.length ≤ intMax) {s : HistScan}
    (h : Scanned ds half i s) (hpos : 1 ≤ i) (hi : i ≤ uint8Max) (hn : uint8Max ≤ i + n) :
    ∃ s', scanLoop hist half n i s = .ok s' ∧ Scanned ds half uint8Max s' := by
  induction n generalizing i s with
  | zero =>
    obtain rfl : i = uint8Max := by omega
    refine ⟨s, ?_, h⟩
    unfold scanLoop
    rw [if_neg (Nat.lt_irrefl _)]
  | succ n ih =>
    by_cases hlt : i < uint8Max
    · obtain ⟨s1, hs1, h1⟩ := h.step hpos hlt (hcells i hlt) hfit
      have hu8 : u8 (i + 1) = i + 1 := by
        unfold uint8Max at hlt
        unfold u8
        omega
      obtain ⟨s', hs', h'⟩ := ih h1 (by omega) hlt (by omega)
      refine ⟨s', ?_, h'⟩
      unfold scanLoop
      rw [if_pos hlt, hu8]
      exact Machine.bind_ok_iff.mpr ⟨s1, hs1, hs'⟩
    · obtain rfl : i = uint8Max := by omega
      refine ⟨s, ?_, h⟩
      unfold scanLoop
      rw [if_neg (Nat.lt_irrefl _)]

/-- What a line says beside its graph. -/
def HistRow.numbers (row : HistRow) : Int × Nat × Nat := (row.dbm, row.count, row.cumulative)

/-- The lines for the bins from `i` to `idxMax`. -/
def lines (ds : List Int16) (i idxMax : Nat) : List (Int × Nat × Nat) :=
  (List.range' i (idxMax + 1 - i)).map fun (j : Nat) => ((j : Int) - 128, tally ds j, upTo ds j)

theorem graph_ok {h histMax : Nat} (hmax : histMax ≠ 0) : ∃ g, graph h histMax = .ok g := by
  unfold graph
  rw [if_neg hmax]
  exact ⟨_, rfl⟩

example : (graph 3 6).toOption = some "|*****" := by decide +kernel

theorem printLoop_spec (hcells : ∀ j, j < uint8Max → hist[j]? = some (tally ds j))
    (hcum : ∀ j, j < uint8Max → cumulative[j]? = some (upTo ds j)) {histMax idxMax : Nat} (hmax : histMax ≠ 0)
    (hlast : idxMax < uint8Max) {lo mode idxMode : Nat} (h : Scan.ArgMaxAt (tally ds) lo i mode idxMode) (hlo : lo ≤ i)
    (hi : i ≤ idxMax + 1) (hn : idxMax + 1 ≤ i + n) :
    ∃ rows mode' arg, printLoop hist cumulative histMax idxMax n i mode idxMode = .ok (rows, arg) ∧
      rows.map HistRow.numbers = lines ds i idxMax ∧ Scan.ArgMaxAt (tally ds) lo (idxMax + 1) mode' arg := by
  have hend : ∀ mode idxMode n, Scan.ArgMaxAt (tally ds) lo (idxMax + 1) mode idxMode →
      ∃ rows mode' arg, printLoop hist cumulative histMax idxMax n (idxMax + 1) mode idxMode = .ok (rows, arg) ∧
        rows.map HistRow.numbers = lines ds (idxMax + 1) idxMax ∧ Scan.ArgMaxAt (tally ds) lo (idxMax + 1) mode' arg := by
    intro mode idxMode n h
    refine ⟨[], mode, idxMode, ?_, ?_, h⟩
    · unfold printLoop
      rw [if_neg (Nat.not_succ_le_self _)]
    · unfold lines
      rw [Nat.sub_self]
      rfl
  induction n generalizing i mode idxMode with
  | zero =>
    obtain rfl : i = idxMax + 1 := by omega
    exact hend mode idxMode 0 h
  | succ n ih =>
    by_cases hle : i ≤ idxMax
    · have hlt : i < uint8Max := by omega
      have hu8 : u8 (i + 1) = i + 1 := by
        unfold uint8Max at hlt
        unfold u8
        omega
      obtain ⟨g, hg⟩ := @graph_ok (tally ds i) histMax hmax
      obtain ⟨rows, mode', arg, hrest, hrows, harg⟩ := ih (h.step hlo) (by omega) (by omega) (by omega)
      refine ⟨⟨(i : Int) - 128, tally ds i, upTo ds i, g⟩ :: rows, mode', arg, ?_, ?_, harg⟩
      · unfold printLoop
        rw [if_pos hle, hu8]
        exact Machine.bind_ok_iff.mpr ⟨_, cell_iff.mpr (hcells i hlt), Machine.bind_ok_iff.mpr ⟨_, cell_iff.mpr (hcum i hlt),
          Machine.bind_ok_iff.mpr ⟨g, hg, Machine.bind_ok_iff.mpr ⟨_, hrest, rfl⟩⟩⟩⟩
      · have hcount : idxMax + 1 - i = idxMax + 1 - (i + 1) + 1 := by omega
        unfold lines at hrows ⊢
        rw [List.map_cons, hrows, hcount, List.range'_succ, List.map_cons]
        rfl
    · obtain rfl : i = idxMax + 1 := by omega
      exact hend mode idxMode _ h

/-- With nothing to divide by, the first line is not printed. -/
theorem printLoop_zero {idxMax mode idxMode c h : Nat} (hi : i ≤ idxMax) (hh : hist[i]? = some h) (hc : cumulative[i]? = some c) :
    printLoop hist cumulative 0 idxMax (n + 1) i mode idxMode = .error .divisionByZero := by
  unfold printLoop cell
  rw [if_pos hi, hh, hc]
  rfl

/-! ## log_hist -/

variable {ls : LogStore} {st : HistCount}

theorem half_eq (ht : Tallied ds st) : (st.nentry.tdiv 2 % 2 ^ 32).toNat = ds.length / 2 := by
  have hfits := ht.fits
  unfold intMax at hfits
  rw [ht.nentry, Int.tdiv_eq_ediv_of_nonneg (Int.natCast_nonneg _)]
  omega

theorem logHist_eq (hcount : countLoop ls = .ok st) (ht : Tallied ds st) : ∃ scan, Scanned ds (ds.length / 2) uint8Max scan ∧
    logHist ls = (printLoop st.hist scan.cumulative scan.histMax st.idxMax 256 st.idxMin 0 st.idxMin >>= fun p =>
      .ok ⟨p.1, st.sum, st.nentry, scan.idxMedian - 128, p.2 - 128⟩) := by
  have hfirst : Scanned ds (ds.length / 2) 1 ⟨(List.replicate uint8Max 0).set 0 (tally ds 0), 0, 0⟩ := by
    refine ⟨by rw [List.length_set, List.length_replicate], ?_, .start, .start⟩
    intro j hj
    obtain rfl : j = 0 := by omega
    rw [upTo_zero]
    rfl
  obtain ⟨scan, hscan, hs⟩ := @scanLoop_spec ds st.hist _ 1 256 ht.cells ht.fits _ hfirst (Nat.le_refl 1) (by decide) (by decide)
  refine ⟨scan, hs, ?_⟩
  have hcell : cell st.hist 0 = .ok (tally ds 0) := cell_iff.mpr (ht.cells 0 (by decide))
  have hset : setCell (List.replicate uint8Max 0) 0 (tally ds 0) = .ok ((List.replicate uint8Max 0).set 0 (tally ds 0)) :=
    setCell_iff.mpr ⟨by rw [List.length_replicate]; decide, rfl⟩
  unfold logHist
  rw [hcount]
  dsimp only [bind, Except.bind]
  rw [half_eq ht, hcell]
  dsimp only
  rw [hset]
  dsimp only
  rw [hscan]
  rfl

/-- What is printed of samples that are not all in the first bin. -/
structure Reported (ds : List Int16) (rep : HistReport) : Prop where
  rows : ∃ lo hi, (∀ d ∈ ds, lo ≤ place d ∧ place d ≤ hi) ∧ hi < uint8Max ∧ rep.rows.map HistRow.numbers = lines ds lo hi
  median : ∃ m : Nat, Scan.FirstAt (fun j => ds.length / 2 < upTo ds j) 1 uint8Max m ∧ rep.median = m - 128
  mode : ∃ arg : Nat, (∃ d ∈ ds, place d = arg) ∧ (∀ j, tally ds j ≤ tally ds arg) ∧ (∀ j, j < arg → tally ds j < tally ds arg) ∧
    rep.mode = arg - 128

theorem histMax_pos {scan : HistScan} (hs : Scanned ds half uint8Max scan) (hplaces : ∀ d ∈ ds, place d < uint8Max) :
    scan.histMax ≠ 0 ↔ ∃ d ∈ ds, place d ≠ 0 := by
  constructor
  · intro hne
    obtain ⟨j, hj, -, heq⟩ := hs.histMax.hit hne
    obtain ⟨d, hd, hplace⟩ := tally_pos.mp (Nat.pos_of_ne_zero (heq ▸ hne))
    exact ⟨d, hd, by omega⟩
  · intro ⟨d, hd, hne⟩
    have hle := hs.histMax.le (place d) (Nat.pos_of_ne_zero hne) (hplaces d hd)
    have hpos := tally_pos.mpr ⟨d, hd, rfl⟩
    omega

theorem logHist_reported (hcount : countLoop ls = .ok st) (ht : Tallied ds st) (hplaces : ∀ d ∈ ds, place d < uint8Max)
    (hne : ∃ d ∈ ds, place d ≠ 0) : ∃ rep, logHist ls = .ok rep ∧ Reported ds rep := by
  obtain ⟨scan, hs, heq⟩ := logHist_eq hcount ht
  obtain ⟨d0, hd0, -⟩ := id hne
  have hds : ds ≠ [] := List.ne_nil_of_mem hd0
  obtain ⟨dmin, hdmin, hmin⟩ := ht.idxMin.2.resolve_left fun h => hds h.1
  obtain ⟨dmax, hdmax, hmax⟩ := ht.idxMax.2.resolve_left fun h => hds h.1
  have hlast : st.idxMax < uint8Max := hmax ▸ hplaces dmax hdmax
  have hlohi : st.idxMin ≤ st.idxMax := hmin ▸ ht.idxMax.1 dmin hdmin
  have hbound : st.idxMax + 1 ≤ st.idxMin + 256 := by
    unfold uint8Max at hlast
    omega
  obtain ⟨rows, best, arg, hprint, hrows, harg⟩ := @printLoop_spec ds st.hist scan.cumulative st.idxMin 256 ht.cells hs.cells
    scan.histMax st.idxMax ((histMax_pos hs hplaces).mpr hne) hlast st.idxMin 0 st.idxMin .start (Nat.le_refl _) (by omega) hbound
  rw [hprint] at heq
  refine ⟨_, heq, ⟨st.idxMin, st.idxMax, fun d hd => ⟨ht.idxMin.1 d hd, ht.idxMax.1 d hd⟩, hlast, hrows⟩,
    ⟨scan.idxMedian, hs.median, rfl⟩, arg, ?_⟩
  have hbest : best ≠ 0 := by
    have hle := harg.greatest.le st.idxMin (Nat.le_refl _) (by omega)
    have hpos := tally_pos.mpr ⟨dmin, hdmin, hmin⟩
    omega
  obtain ⟨hlo, hhi, hval, hless⟩ := harg.first hbest
  -- bins without samples are beyond the two ends
  have hempty : ∀ j, j < st.idxMin ∨ st.idxMax < j → tally ds j = 0 := by
    intro j hj
    by_contra hne
    obtain ⟨d, hd, rfl⟩ := tally_pos.mp (Nat.pos_of_ne_zero hne)
    have h1 := ht.idxMin.1 d hd
    have h2 := ht.idxMax.1 d hd
    omega
  refine ⟨tally_pos.mp (by omega), ?_, ?_, rfl⟩
  · intro j
    by_cases hj : st.idxMin ≤ j ∧ j < st.idxMax + 1
    · rw [hval]
      exact harg.greatest.le j hj.1 hj.2
    · rw [hempty j (by omega)]
      exact Nat.zero_le _
  · intro j hj
    by_cases hj' : st.idxMin ≤ j
    · rw [hval]
      exact hless j hj' hj
    · rw [hempty j (by omega)]
      omega

/-- All samples in the first bin. -/
theorem logHist_divides (hplaces : ∀ d ∈ samples ls, place d = 0) (hfits : CountsFit (samples ls)) (hds : samples ls ≠ []) :
    logHist ls = .error .divisionByZero := by
  have hlt : ∀ d ∈ samples ls, place d < uint8Max := by
    intro d hd
    rw [hplaces d hd]
    decide
  obtain ⟨st, hfold⟩ := count_returns.mpr ⟨hlt, hfits⟩
  have ht := tallied hfold
  have hcount : countLoop ls = .ok st := by rw [countLoop_eq, hfold]
  obtain ⟨scan, hs, heq⟩ := logHist_eq hcount ht
  have hmax : scan.histMax = 0 := by
    by_contra hpos
    obtain ⟨d, hd, hne⟩ := (histMax_pos hs hlt).mp hpos
    exact hne (hplaces d hd)
  obtain ⟨dmin, hdmin, hmin⟩ := ht.idxMin.2.resolve_left fun h => hds h.1
  rw [hplaces dmin hdmin] at hmin
  rw [heq, hmax, ← hmin, printLoop_zero (Nat.zero_le _) (ht.cells 0 (by decide)) (hs.cells 0 (by decide))]
  rfl

/-- Whatever the store: the bins, and when there is a report. -/
theorem logHist_returns (ls : LogStore) : (∃ rep, logHist ls = .ok rep) ↔ CountsFit (samples ls) ∧
    (∀ d ∈ samples ls, place d < uint8Max) ∧ (samples ls = [] ∨ ∃ d ∈ samples ls, place d ≠ 0) := by
  constructor
  · intro ⟨rep, hrep⟩
    obtain ⟨st, hcount, -⟩ := Machine.bind_ok_iff.mp hrep
    have hfold := hcount
    rw [countLoop_eq] at hfold
    obtain ⟨hplaces, hfits⟩ := count_returns.mp ⟨st, hfold⟩
    refine ⟨hfits, hplaces, ?_⟩
    by_contra hno
    rw [not_or] at hno
    have hzero : ∀ d ∈ samples ls, place d = 0 := by
      intro d hd
      by_contra hne
      exact hno.2 ⟨d, hd, hne⟩
    rw [logHist_divides hzero hfits hno.1] at hrep
    cases hrep
  · intro ⟨hfits, hplaces, hsome⟩
    obtain ⟨st, hfold⟩ := count_returns.mpr ⟨hplaces, hfits⟩
    have ht := tallied hfold
    have hcount : countLoop ls = .ok st := by rw [countLoop_eq, hfold]
    rcases hsome with hnil | hne
    · obtain ⟨scan, hs, heq⟩ := logHist_eq hcount ht
      have hmin : st.idxMin = uint8Max := by
        rcases ht.idxMin.2 with h | ⟨d, hd, -⟩
        · exact h.2
        · rw [hnil] at hd
          cases hd
      have hmax : st.idxMax = 0 := by
        rcases ht.idxMax.2 with h | ⟨d, hd, -⟩
        · exact h.2
        · rw [hnil] at hd
          cases hd
      have hprint : printLoop st.hist scan.cumulative scan.histMax 0 256 uint8Max 0 uint8Max = .ok ([], uint8Max) := by
        unfold printLoop
        rw [if_neg (by decide)]
      rw [hmin, hmax, hprint] at heq
      exact ⟨_, heq⟩
    · obtain ⟨rep, hrep, -⟩ := logHist_reported hcount ht hplaces hne
      exact ⟨rep, hrep⟩

/-! ## Signal strengths -/

/-- What a signed byte holds. -/
def InByte (d : Int16) : Prop := -128 ≤ d.toInt ∧ d.toInt ≤ 127

theorem place_eq (h : InByte d) : (place d : Int) = d.toInt + 128 := by
  obtain ⟨h1, h2⟩ := h
  unfold place
  omega

theorem place_inj {d' : Int16} (h : InByte d) (h' : InByte d') : place d = place d' ↔ d = d' := by
  have hp := place_eq h
  have hp' := place_eq h'
  rw [← Int16.toInt_inj]
  omega

theorem upTo_eq (hall : ∀ d ∈ ds, InByte d) (j : Nat) : upTo ds j = ds.countP fun d => d.toInt ≤ (j : Int) - 128 := by
  unfold upTo
  apply List.countP_congr
  intro d hd
  have hp := place_eq (hall d hd)
  simp only [decide_eq_true_eq]
  omega

theorem tally_eq (hall : ∀ d ∈ ds, InByte d) {s : Int16} (hs : InByte s) : tally ds (place s) = ds.count s := by
  unfold tally List.count
  apply List.countP_congr
  intro d hd
  rw [decide_eq_true_iff, beq_iff_eq, place_inj (hall d hd) hs]

/-- The store's receive records carry what the listener writes. -/
def DbmOk (ls : LogStore) : Prop := ∀ v ∈ ls.vs, v.type = frameTypeInet6 → v.dbm = dbmInval16 ∨ InByte v.dbm

theorem DbmOk.inByte (h : DbmOk ls) : ∀ d ∈ samples ls, InByte d := by
  intro d hd
  unfold samples at hd
  obtain ⟨v, hv, rfl⟩ := List.mem_map.mp hd
  obtain ⟨hmem, hs⟩ := List.mem_filter.mp hv
  unfold LogDataV.isSample at hs
  simp only [Bool.and_eq_true, decide_eq_true_eq, ne_eq] at hs
  obtain ⟨kv, -, hvh⟩ := List.mem_flatMap.mp hmem
  obtain ⟨i, -, rfl⟩ := List.mem_map.mp hvh
  by_cases hi : i < ls.vs.length
  · have hget : ls.v i ∈ ls.vs := by
      unfold LogStore.v
      rw [List.getD_eq_getElem?_getD, List.getElem?_eq_getElem hi]
      exact List.getElem_mem hi
    exact (h _ hget hs.1.1).resolve_left hs.1.2
  · have hzero : ls.v i = .zero := by
      unfold LogStore.v
      rw [List.getD_eq_getElem?_getD, List.getElem?_eq_none (Nat.not_lt.mp hi)]
      rfl
    rw [hzero] at hs
    cases hs.1.1

/-! ## (1) Safety -/

/-- For every store of the listener's signal strengths, under any filter. -/
theorem hist_safe_iff (h : DbmOk ls) : (∃ rep, logHist ls = .ok rep) ↔
    (∀ d ∈ samples ls, d ≠ 127) ∧ (samples ls = [] ∨ ∃ d ∈ samples ls, d ≠ -128) ∧ CountsFit (samples ls) := by
  have hlast : ∀ d ∈ samples ls, (place d < uint8Max ↔ d ≠ 127) := by
    intro d hd
    have hp := place_eq (h.inByte d hd)
    have hb := h.inByte d hd
    have h127 : (127 : Int16).toInt = 127 := by decide
    unfold InByte at hb
    unfold uint8Max
    rw [ne_eq, ← Int16.toInt_inj, h127]
    omega
  have hfirst : ∀ d ∈ samples ls, (place d ≠ 0 ↔ d ≠ -128) := by
    intro d hd
    have hp := place_eq (h.inByte d hd)
    have h128 : (-128 : Int16).toInt = -128 := by decide
    rw [ne_eq, ne_eq, ← Int16.toInt_inj, h128]
    omega
  rw [logHist_returns]
  constructor
  · intro ⟨hfits, hplaces, hsome⟩
    refine ⟨fun d hd => (hlast d hd).mp (hplaces d hd), hsome.imp_right ?_, hfits⟩
    intro ⟨d, hd, hne⟩
    exact ⟨d, hd, (hfirst d hd).mp hne⟩
  · intro ⟨hno, hsome, hfits⟩
    refine ⟨hfits, fun d hd => (hlast d hd).mpr (hno d hd), hsome.imp_right ?_⟩
    intro ⟨d, hd, hne⟩
    exact ⟨d, hd, (hfirst d hd).mpr hne⟩

/-- A file of receive records with these signal strengths, one for each sequence number. -/
def dbmFile (ds : List Int16) : Bytes :=
  testFile ((ds.zipIdx.map fun p => ({ testHeader frameTypeInet6 (UInt64.ofNat p.2) 0 8 with dbm := p.1 }).raw).flatten)

theorem dbmFile_loads (ds : List Int16) (p : LogStore → Bool) (h : ((loadLog (dbmFile ds)).toOption.bind id).any p = true) :
    ∃ ls, loadLog (dbmFile ds) = .ok (some ls) ∧ p ls = true := by
  obtain ⟨ls, hls, hp⟩ := (Option.any_eq_true _ _).mp h
  exact ⟨ls, load_of_toOption hls, hp⟩

instance : Decidable (InByte d) := inferInstanceAs (Decidable (_ ∧ _))

-- the samples are gone through, not the type
instance decidableAllSamples (ds : List Int16) (p : Int16 → Prop) [DecidablePred p] : Decidable (∀ d ∈ ds, p d) :=
  List.decidableBAll p ds

instance decidableSomeSample (ds : List Int16) (p : Int16 → Prop) [DecidablePred p] : Decidable (∃ d ∈ ds, p d) :=
  List.decidableBEx p ds

instance : Decidable (DbmOk ls) :=
  inferInstanceAs (Decidable (∀ v ∈ ls.vs, v.type = frameTypeInet6 → v.dbm = dbmInval16 ∨ InByte v.dbm))

theorem hist_safe_mid : ∃ ls, loadLog (dbmFile [-90, 126]) = .ok (some ls) ∧ ∃ rep, logHist ls = .ok rep := by
  obtain ⟨ls, hload, hls⟩ := dbmFile_loads [-90, 126] (fun ls => decide (DbmOk ls ∧ samples ls = [-90, 126])) (by decide +kernel)
  obtain ⟨hok, hsam⟩ := of_decide_eq_true hls
  refine ⟨ls, hload, (hist_safe_iff hok).mpr ?_⟩
  rw [hsam]
  decide +kernel

/-- One packet at either end of the range. -/
theorem ends_break_hist :
    (∃ ls, loadLog (dbmFile [127]) = .ok (some ls) ∧ DbmOk ls ∧ logHist ls = .error .outOfBounds) ∧
      ∃ ls, loadLog (dbmFile [-128]) = .ok (some ls) ∧ DbmOk ls ∧ logHist ls = .error .divisionByZero := by
  constructor
  · obtain ⟨ls, hload, hls⟩ := dbmFile_loads [127] (fun ls => decide (DbmOk ls ∧ logHist ls = .error .outOfBounds))
      (by decide +kernel)
    exact ⟨ls, hload, of_decide_eq_true hls⟩
  · obtain ⟨ls, hload, hls⟩ := dbmFile_loads [-128] (fun ls => decide (DbmOk ls ∧ samples ls = [-128])) (by decide +kernel)
    obtain ⟨hok, hsam⟩ := of_decide_eq_true hls
    refine ⟨ls, hload, hok, logHist_divides ?_ ?_ ?_⟩ <;> (rw [hsam]; decide +kernel)

/-! ## (2) Statistics -/

/-- What the report says of the samples is so. -/
structure Statistics (ds : List Int16) (rep : HistReport) : Prop where
  median : IsLeast { d : Int | ds.length / 2 < ds.countP fun s => s.toInt ≤ d } rep.median
  mode : IsLeast { d : Int | ∃ s ∈ ds, s.toInt = d ∧ ∀ s' ∈ ds, ds.count s' ≤ ds.count s } rep.mode
  cumulative : ∀ row ∈ rep.rows, row.cumulative = ds.countP fun s => s.toInt ≤ row.dbm
  listed : ∀ s ∈ ds, ∃ row ∈ rep.rows, row.dbm = s.toInt ∧ row.count = ds.count s

theorem Reported.mode_least {rep : HistReport} (h : Reported ds rep) (hall : ∀ d ∈ ds, InByte d) :
    IsLeast { d : Int | ∃ s ∈ ds, s.toInt = d ∧ ∀ s' ∈ ds, ds.count s' ≤ ds.count s } rep.mode := by
  obtain ⟨arg, ⟨s, hs, rfl⟩, hmost, hfirst, hrep⟩ := h.mode
  have hp := place_eq (hall s hs)
  constructor
  · refine ⟨s, hs, by omega, ?_⟩
    intro s' hs'
    rw [← tally_eq hall (hall s' hs'), ← tally_eq hall (hall s hs)]
    exact hmost _
  · intro d ⟨s', hs', hd, hmost'⟩
    by_contra hlt
    have hp' := place_eq (hall s' hs')
    have hless := hfirst (place s') (by omega)
    have hle := hmost' s hs
    rw [← tally_eq hall (hall s' hs'), ← tally_eq hall (hall s hs)] at hle
    omega

theorem Reported.line {rep : HistReport} (h : Reported ds rep) {row : HistRow} (hrow : row ∈ rep.rows) :
    ∃ j : Nat, row.dbm = (j : Int) - 128 ∧ row.count = tally ds j ∧ row.cumulative = upTo ds j := by
  obtain ⟨lo, hi, -, -, hrows⟩ := h.rows
  have hmem : row.numbers ∈ lines ds lo hi := hrows ▸ List.mem_map_of_mem hrow
  obtain ⟨j, -, hj⟩ := List.mem_map.mp hmem
  unfold HistRow.numbers at hj
  rw [Prod.mk.injEq, Prod.mk.injEq] at hj
  exact ⟨j, hj.1.symm, hj.2.1.symm, hj.2.2.symm⟩

theorem Reported.listed {rep : HistReport} (h : Reported ds rep) (hall : ∀ d ∈ ds, InByte d) {s : Int16} (hs : s ∈ ds) :
    ∃ row ∈ rep.rows, row.dbm = s.toInt ∧ row.count = ds.count s := by
  obtain ⟨lo, hi, hbounds, -, hrows⟩ := h.rows
  obtain ⟨hlo, hhi⟩ := hbounds s hs
  have hmem : ((place s : Int) - 128, tally ds (place s), upTo ds (place s)) ∈ lines ds lo hi :=
    List.mem_map.mpr ⟨place s, List.mem_range'_1.mpr ⟨hlo, by omega⟩, rfl⟩
  rw [← hrows] at hmem
  obtain ⟨row, hrow, hnum⟩ := List.mem_map.mp hmem
  unfold HistRow.numbers at hnum
  rw [Prod.mk.injEq, Prod.mk.injEq] at hnum
  have hp := place_eq (hall s hs)
  exact ⟨row, hrow, by omega, hnum.2.1.trans (tally_eq hall (hall s hs))⟩

/-- The median is right exactly if it is not in the first bin. -/
theorem Reported.median_least_iff {rep : HistReport} (h : Reported ds rep) (hall : ∀ d ∈ ds, InByte d)
    (hlast : ∀ d ∈ ds, place d < uint8Max) (hne : ds ≠ []) :
    IsLeast { d : Int | ds.length / 2 < ds.countP fun s => s.toInt ≤ d } rep.median ↔ upTo ds 0 ≤ ds.length / 2 := by
  obtain ⟨m, hm, hrep⟩ := h.median
  have hpos : 0 < ds.length := List.length_pos_of_ne_nil hne
  have hset : ∀ j : Nat, ds.length / 2 < (ds.countP fun s => s.toInt ≤ (j : Int) - 128) ↔ ds.length / 2 < upTo ds j := by
    intro j
    rw [upTo_eq hall]
  have htop : upTo ds 254 = ds.length := by
    unfold upTo
    rw [List.countP_eq_length]
    intro d hd
    have hlt := hlast d hd
    unfold uint8Max at hlt
    simp only [decide_eq_true_eq]
    omega
  have hm0 : m ≠ 0 := by
    intro hzero
    have hno := hm.before 254 (by decide) (by decide) (.inl hzero)
    omega
  obtain ⟨h1, h2, h3⟩ := hm.hit hm0
  constructor
  · intro hleast
    by_contra hover
    have hin : ((0 : Nat) : Int) - 128 ∈ { d : Int | ds.length / 2 < ds.countP fun s => s.toInt ≤ d } :=
      (hset 0).mpr (Nat.not_le.mp hover)
    have hle := hleast.2 hin
    omega
  · intro hzero
    rw [hrep]
    constructor
    · exact (hset m).mpr h3
    · intro d hd
      by_contra hlt
      by_cases hneg : d < -128
      · have hnone : (ds.countP fun s => s.toInt ≤ d) = 0 := by
          rw [List.countP_eq_zero]
          intro s hs
          have hb := hall s hs
          unfold InByte at hb
          simp only [decide_eq_true_eq]
          omega
        rw [Set.mem_ofPred_eq, hnone] at hd
        omega
      · obtain ⟨j, hj⟩ : ∃ j : Nat, d = (j : Int) - 128 := ⟨(d + 128).toNat, by omega⟩
        rw [hj] at hd
        have hover := (hset j).mp hd
        by_cases hj0 : j = 0
        · rw [hj0] at hover
          omega
        · exact hm.before j (by omega) (by omega) (.inr (by omega)) hover

theorem first_bin (hall : ∀ d ∈ ds, InByte d) : upTo ds 0 = ds.count (-128) := by
  have hb : InByte (-128) := by
    unfold InByte
    decide
  have hplace : place (-128) = 0 := by decide
  rw [upTo_zero, ← hplace, tally_eq hall hb]

/-- For every store whose samples have a bin, and at least one sample. -/
theorem hist_statistics_iff (h : ∀ d ∈ samples ls, -128 ≤ d.toInt ∧ d.toInt ≤ 126) (hne : samples ls ≠ []) :
    (∃ rep, logHist ls = .ok rep ∧ Statistics (samples ls) rep) ↔
      (samples ls).count (-128) ≤ (samples ls).length / 2 ∧ CountsFit (samples ls) := by
  have hall : ∀ d ∈ samples ls, InByte d := fun d hd => ⟨(h d hd).1, Int.le_trans (h d hd).2 (by decide)⟩
  have hplaces : ∀ d ∈ samples ls, place d < uint8Max := by
    intro d hd
    have hp := place_eq (hall d hd)
    have hb := h d hd
    unfold uint8Max
    omega
  rw [← first_bin hall]
  constructor
  · intro ⟨rep, hrep, hstat⟩
    obtain ⟨hfits, -, hsome⟩ := (logHist_returns ls).mp ⟨rep, hrep⟩
    obtain ⟨st, hfold⟩ := count_returns.mpr ⟨hplaces, hfits⟩
    have hcount : countLoop ls = .ok st := by rw [countLoop_eq, hfold]
    obtain ⟨rep', hrep', hr⟩ := logHist_reported hcount (tallied hfold) hplaces (hsome.resolve_left hne)
    cases hrep.symm.trans hrep'
    exact ⟨(hr.median_least_iff hall hplaces hne).mp hstat.median, hfits⟩
  · intro ⟨hhalf, hfits⟩
    have hsome : ∃ d ∈ samples ls, place d ≠ 0 := by
      by_contra hno
      have hfull : upTo (samples ls) 0 = (samples ls).length := by
        unfold upTo
        rw [List.countP_eq_length]
        intro d hd
        rw [decide_eq_true_iff]
        by_contra hpos
        exact hno ⟨d, hd, by omega⟩
      have hpos : 0 < (samples ls).length := List.length_pos_of_ne_nil hne
      omega
    obtain ⟨st, hfold⟩ := count_returns.mpr ⟨hplaces, hfits⟩
    have hcount : countLoop ls = .ok st := by rw [countLoop_eq, hfold]
    obtain ⟨rep, hrep, hr⟩ := logHist_reported hcount (tallied hfold) hplaces hsome
    refine ⟨rep, hrep, (hr.median_least_iff hall hplaces hne).mpr hhalf, hr.mode_least hall, ?_, fun s hs => hr.listed hall hs⟩
    intro row hrow
    obtain ⟨j, hdbm, -, hcum⟩ := hr.line hrow
    rw [hcum, hdbm, upTo_eq hall]

theorem hist_statistics_mid :
    ∃ ls rep, loadLog (dbmFile [-128, -60, -50, -60]) = .ok (some ls) ∧ logHist ls = .ok rep ∧ Statistics (samples ls) rep := by
  obtain ⟨ls, hload, hls⟩ := dbmFile_loads [-128, -60, -50, -60] (fun ls => decide (samples ls = [-128, -60, -50, -60]))
    (by decide +kernel)
  have hsam := of_decide_eq_true hls
  obtain ⟨rep, hrep, hstat⟩ := (@hist_statistics_iff ls (by rw [hsam]; decide +kernel) (by rw [hsam]; decide +kernel)).mpr
    (by rw [hsam]; decide +kernel)
  exact ⟨ls, rep, hload, hrep, hstat⟩

/-- Two of three are in the first bin. -/
theorem first_bin_breaks_median :
    ∃ ls rep, loadLog (dbmFile [-128, -128, -50]) = .ok (some ls) ∧ samples ls = [-128, -128, -50] ∧
      logHist ls = .ok rep ∧ ¬ Statistics (samples ls) rep := by
  obtain ⟨ls, hload, hls⟩ := dbmFile_loads [-128, -128, -50] (fun ls => decide (samples ls = [-128, -128, -50]))
    (by decide +kernel)
  have hsam := of_decide_eq_true hls
  have hall : ∀ d ∈ samples ls, InByte d ∧ place d < uint8Max := by
    rw [hsam]
    decide +kernel
  obtain ⟨st, hfold⟩ := count_returns.mpr ⟨fun d hd => (hall d hd).2, by rw [hsam]; decide +kernel⟩
  have hcount : countLoop ls = .ok st := by rw [countLoop_eq, hfold]
  obtain ⟨rep, hrep, hr⟩ := logHist_reported hcount (tallied hfold) (fun d hd => (hall d hd).2) (by rw [hsam]; decide +kernel)
  refine ⟨ls, rep, hload, hsam, hrep, ?_⟩
  intro hstat
  have hhalf := (hr.median_least_iff (fun d hd => (hall d hd).1) (fun d hd => (hall d hd).2) (by rw [hsam]; decide +kernel)).mp
    hstat.median
  rw [hsam] at hhalf
  exact absurd hhalf (by decide)

end WfbYa.Log
