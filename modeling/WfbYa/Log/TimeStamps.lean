/-
  WfbYa.Log.TimeStamps — the relative time stamps of the loaded values.

  `process_frame_header` takes the epoch from the first record it meets with seconds, not from
  the first record: a log that starts within the first second of its clock has an epoch that
  moves. Each record is its own epoch until one has seconds, and is stamped 0.

  - `sub_exact`: one subtraction, with its borrow.
  - `epochOf_steady`: when the epoch stays.
  - `stamps_relative_iff`: when every stamp is its clock value less one origin.
-/

import WfbYa.Log.Representation

namespace WfbYa.Log

/-! ## Clock values -/

/-- Normalised, and not negative. -/
structure TimeStamp.Normal (t : TimeStamp) : Prop where
  sec : 0 ≤ t.sec
  nsec : 0 ≤ t.nsec
  small : t.nsec < 1000000000

def TimeStamp.nanos (t : TimeStamp) : Int := t.sec.toInt * 1000000000 + t.nsec.toInt

variable {t u : TimeStamp}

theorem TimeStamp.Normal.ranges (h : t.Normal) :
    0 ≤ t.sec.toInt ∧ t.sec.toInt < 2 ^ 63 ∧ 0 ≤ t.nsec.toInt ∧ t.nsec.toInt < 1000000000 :=
  ⟨Int64.le_iff_toInt_le.mp h.sec, t.sec.toInt_lt, Int64.le_iff_toInt_le.mp h.nsec, Int64.lt_iff_toInt_lt.mp h.small⟩

theorem nanos_inj (ht : t.Normal) (hu : u.Normal) (h : t.nanos = u.nanos) : t = u := by
  obtain ⟨h1, -, h2, h3⟩ := ht.ranges
  obtain ⟨h4, -, h5, h6⟩ := hu.ranges
  unfold TimeStamp.nanos at h
  have hsec : t.sec = u.sec := Int64.toInt_inj.mp (by omega)
  have hnsec : t.nsec = u.nsec := Int64.toInt_inj.mp (by omega)
  calc t = ⟨t.sec, t.nsec⟩ := rfl
    _ = ⟨u.sec, u.nsec⟩ := by rw [hsec, hnsec]
    _ = u := rfl

theorem int64_sub {a b : Int64} (h : -2 ^ 63 ≤ a.toInt - b.toInt) (h' : a.toInt - b.toInt < 2 ^ 63) :
    (a - b).toInt = a.toInt - b.toInt := by
  rw [Int64.toInt_sub]
  exact Int.bmod_eq_of_le (by omega) (by omega)

theorem int64_add {a b : Int64} (h : -2 ^ 63 ≤ a.toInt + b.toInt) (h' : a.toInt + b.toInt < 2 ^ 63) :
    (a + b).toInt = a.toInt + b.toInt := by
  rw [Int64.toInt_add]
  exact Int.bmod_eq_of_le (by omega) (by omega)

theorem toInt_zero : (0 : Int64).toInt = 0 := rfl

theorem toInt_one : (1 : Int64).toInt = 1 := rfl

theorem toInt_billion : (1000000000 : Int64).toInt = 1000000000 := rfl

/-- With a borrow. -/
theorem sub_borrow (ht : t.Normal) (hu : u.Normal) (hle : u.nanos ≤ t.nanos) (h : t.nsec.toInt < u.nsec.toInt) :
    (t.sec - u.sec - 1).toInt = t.sec.toInt - u.sec.toInt - 1 ∧
      (t.nsec - u.nsec + 1000000000).toInt = t.nsec.toInt - u.nsec.toInt + 1000000000 := by
  obtain ⟨h1, h2, h3, h4⟩ := ht.ranges
  obtain ⟨h5, h6, h7, h8⟩ := hu.ranges
  unfold TimeStamp.nanos at hle
  have hsec := @int64_sub t.sec u.sec (by omega) (by omega)
  have hnsec := @int64_sub t.nsec u.nsec (by omega) (by omega)
  constructor
  · rw [int64_sub, hsec, toInt_one] <;> (rw [hsec, toInt_one]; omega)
  · rw [int64_add, hnsec, toInt_billion] <;> (rw [hnsec, toInt_billion]; omega)

theorem sub_exact (ht : t.Normal) (hu : u.Normal) (hle : u.nanos ≤ t.nanos) :
    (t.sub u).Normal ∧ (t.sub u).nanos = t.nanos - u.nanos := by
  obtain ⟨h1, h2, h3, h4⟩ := ht.ranges
  obtain ⟨h5, h6, h7, h8⟩ := hu.ranges
  have hsec := @int64_sub t.sec u.sec (by omega) (by omega)
  have hnsec := @int64_sub t.nsec u.nsec (by omega) (by omega)
  have hneg : t.nsec - u.nsec < 0 ↔ t.nsec.toInt < u.nsec.toInt := by
    rw [Int64.lt_iff_toInt_lt, hnsec, toInt_zero]
    omega
  unfold TimeStamp.sub
  dsimp only
  by_cases h : t.nsec.toInt < u.nsec.toInt
  · rw [if_pos (hneg.mpr h)]
    obtain ⟨hsec', hnsec'⟩ := sub_borrow ht hu hle h
    unfold TimeStamp.nanos at hle ⊢
    dsimp only
    rw [hsec', hnsec']
    refine ⟨⟨Int64.le_iff_toInt_le.mpr ?_, Int64.le_iff_toInt_le.mpr ?_, Int64.lt_iff_toInt_lt.mpr ?_⟩, by omega⟩
    · rw [hsec', toInt_zero]
      omega
    · rw [hnsec', toInt_zero]
      omega
    · rw [hnsec', toInt_billion]
      omega
  · rw [if_neg fun hn => h (hneg.mp hn)]
    unfold TimeStamp.nanos at hle ⊢
    dsimp only
    rw [hsec, hnsec]
    refine ⟨⟨Int64.le_iff_toInt_le.mpr ?_, Int64.le_iff_toInt_le.mpr ?_, Int64.lt_iff_toInt_lt.mpr ?_⟩, by omega⟩
    · rw [hsec, toInt_zero]
      omega
    · rw [hnsec, toInt_zero]
      omega
    · rw [hnsec, toInt_billion]
      omega

theorem sub_self_nanos (h : t.Normal) : (t.sub t).nanos = 0 := by
  rw [(sub_exact h h le_rfl).2]
  exact Int.sub_self _

/-! ## The epoch -/

/-- The clock value a record carries. -/
def Entry.clock (e : Entry) : TimeStamp := ⟨e.hd.tvSec.toInt64, e.hd.tvNsec.toInt64⟩

variable {past older : List Entry} {e first : Entry} {c : TimeStamp}

theorem epochOf_cons : epochOf (e :: past) = if (epochOf past).sec = 0 then e.clock else epochOf past := rfl

theorem epochOf_single : epochOf [e] = e.clock := rfl

/-- An epoch with seconds stays. -/
theorem epochOf_steady (hlast : past.getLast? = some first) (hsec : first.clock.sec ≠ 0) : epochOf past = first.clock := by
  induction past with
  | nil => cases hlast
  | cons e past ih =>
    cases past with
    | nil =>
      have he : e = first := Option.some.inj hlast
      rw [epochOf_single, he]
    | cons e' past =>
      rw [List.getLast?_cons_cons] at hlast
      rw [epochOf_cons, ih hlast, if_neg hsec]

/-- So does one that every record agrees on. -/
theorem epochOf_same (hne : past ≠ []) (hall : ∀ e ∈ past, e.clock = c) : epochOf past = c := by
  induction past with
  | nil => exact absurd rfl hne
  | cons e past ih =>
    by_cases hnil : past = []
    · rw [hnil, epochOf_single, hall e List.mem_cons_self]
    · rw [epochOf_cons, hall e List.mem_cons_self, ih hnil fun e' he' => hall e' (List.mem_cons_of_mem e he'), ite_self]

/-! ## The stamps -/

/-- The records with their values, in file order; `past` comes newest first. -/
def stamped (fecK : UInt8) (past : List Entry) : List (Entry × LogDataV) := past.reverse.zip (vsOf fecK past)

variable {fecK : UInt8}

theorem stamped_cons : stamped fecK (e :: past) = stamped fecK past ++ [(e, entryV fecK (epochOf (e :: past)) e)] := by
  unfold stamped
  rw [List.reverse_cons]
  exact List.zip_append (by simp)

theorem stamped_mem {p : Entry × LogDataV} (hp : p ∈ stamped fecK past) :
    ∃ older, (p.1 :: older) <:+ past ∧ p.2.ts = p.1.clock.sub (epochOf (p.1 :: older)) := by
  induction past with
  | nil => cases hp
  | cons e past ih =>
    rw [stamped_cons, List.mem_append] at hp
    rcases hp with hp | hp
    · obtain ⟨older, hsuf, hts⟩ := ih hp
      exact ⟨older, hsuf.trans (List.suffix_cons e past), hts⟩
    · rw [List.mem_singleton.mp hp]
      exact ⟨past, List.suffix_rfl, rfl⟩

/-- Stamps are as far apart as the clock values. -/
def Relative (ps : List (Entry × LogDataV)) : Prop :=
  ∀ p ∈ ps, ∀ q ∈ ps, q.2.ts.nanos - p.2.ts.nanos = q.1.clock.nanos - p.1.clock.nanos

theorem stamped_first (hlast : past.getLast? = some first) (hn : first.clock.Normal) :
    ∃ p ∈ stamped fecK past, p.1 = first ∧ p.2.ts.nanos = 0 := by
  induction past with
  | nil => cases hlast
  | cons e past ih =>
    rw [stamped_cons]
    cases past with
    | nil =>
      have he : e = first := Option.some.inj hlast
      subst he
      exact ⟨_, List.mem_append_right _ List.mem_cons_self, rfl, sub_self_nanos hn⟩
    | cons e' past =>
      rw [List.getLast?_cons_cons] at hlast
      obtain ⟨p, hp, h⟩ := ih hlast
      exact ⟨p, List.mem_append_left _ hp, h⟩

/-- While no record has seconds, each is stamped 0. -/
theorem stamped_still (hlast : past.getLast? = some first) (hzero : first.clock.sec = 0) (hn : ∀ e ∈ past, e.clock.Normal)
    (hrel : Relative (stamped fecK past)) : ∀ e ∈ past, e.clock = first.clock := by
  induction past with
  | nil => cases hlast
  | cons e past ih =>
    by_cases hnil : past = []
    · subst hnil
      have he : e = first := Option.some.inj hlast
      intro e' he'
      rw [List.mem_singleton.mp he', he]
    · have hlast' : past.getLast? = some first := by
        rw [← hlast]
        exact (List.getLast?_append_of_ne_nil [e] hnil).symm
      have hsame := ih hlast' (fun e' he' => hn e' (List.mem_cons_of_mem e he')) fun p hp q hq =>
        hrel p (stamped_cons ▸ List.mem_append_left _ hp) q (stamped_cons ▸ List.mem_append_left _ hq)
      have hfirst : first ∈ past := List.mem_of_getLast? hlast'
      have hfn : first.clock.Normal := hn first (List.mem_cons_of_mem e hfirst)
      obtain ⟨p, hp, hpf, hp0⟩ := @stamped_first past first fecK hlast' hfn
      have hepoch : epochOf (e :: past) = e.clock := by
        rw [epochOf_cons, epochOf_same hnil hsame, if_pos hzero]
      have hdiff : (entryV fecK (epochOf (e :: past)) e).ts.nanos - p.2.ts.nanos = e.clock.nanos - p.1.clock.nanos :=
        hrel p (stamped_cons ▸ List.mem_append_left _ hp) (e, _) (stamped_cons ▸ List.mem_append_right _ List.mem_cons_self)
      have hts : (entryV fecK (epochOf (e :: past)) e).ts.nanos = 0 := by
        rw [hepoch]
        exact sub_self_nanos (hn e List.mem_cons_self)
      rw [hts, hp0, hpf] at hdiff
      have heq : e.clock = first.clock := nanos_inj (hn e List.mem_cons_self) hfn (by omega)
      intro e' he'
      rcases List.mem_cons.mp he' with rfl | he'
      · exact heq
      · exact hsame e' he'

/-- Behind one epoch that is no later than any of them. -/
theorem stamped_exact (hn : ∀ e ∈ past, e.clock.Normal) (hc : c.Normal) (hle : ∀ e ∈ past, c.nanos ≤ e.clock.nanos)
    (hepoch : ∀ l, l ≠ [] → l <:+ past → epochOf l = c) {p : Entry × LogDataV} (hp : p ∈ stamped fecK past) :
    p.1 ∈ past ∧ p.2.ts.Normal ∧ p.2.ts.nanos = p.1.clock.nanos - c.nanos := by
  obtain ⟨older, hsuf, hts⟩ := stamped_mem hp
  have hmem : p.1 ∈ past := hsuf.subset List.mem_cons_self
  rw [hepoch _ (by simp) hsuf] at hts
  rw [hts]
  exact ⟨hmem, sub_exact (hn _ hmem) hc (hle _ hmem)⟩

/-! ## The file -/

/-- Clock values normalised, and in the order of the file. -/
structure Monotonic (es : List Entry) : Prop where
  normal : ∀ e ∈ es, e.clock.Normal
  sorted : es.Pairwise fun e e' => e.clock.nanos ≤ e'.clock.nanos

/-- What the stamps of the values `vs` of the records `es` should be. -/
structure StampsRelative (es : List Entry) (vs : List LogDataV) : Prop where
  each : vs.length = es.length
  normal : ∀ v ∈ vs, v.ts.Normal
  sorted : vs.Pairwise fun v v' => v.ts.nanos ≤ v'.ts.nanos
  apart : Relative (es.zip vs)

/-- The first record has seconds, or every record carries the same clock value. -/
def EpochStays (es : List Entry) : Prop := ∀ first ∈ es.head?, first.clock.sec ≠ 0 ∨ ∀ e ∈ es, e.clock = first.clock

instance (es : List Entry) : Decidable (EpochStays es) := inferInstanceAs (Decidable (∀ first ∈ es.head?, _))

variable {ls : LogStore} {file : Bytes}

theorem EpochStays.epochOf {rest : List Entry} (h : EpochStays (first :: rest)) {l : List Entry} (hne : l ≠ [])
    (hsuf : l <:+ (first :: rest).reverse) : epochOf l = first.clock := by
  rcases h first rfl with hsec | hall
  · have hlast : l.getLast? = some first := by
      obtain ⟨newer, happ⟩ := hsuf
      rw [← List.getLast?_append_of_ne_nil newer hne, happ, List.getLast?_reverse]
      rfl
    exact epochOf_steady hlast hsec
  · exact epochOf_same hne fun e he => hall e (List.mem_reverse.mp (hsuf.subset he))

theorem loaded_stamps_iff {es : List Entry} (hm : Monotonic es) : StampsRelative es (vsOf fecK es.reverse) ↔ EpochStays es := by
  have hzip : es.zip (vsOf fecK es.reverse) = stamped fecK es.reverse := by
    unfold stamped
    rw [List.reverse_reverse]
  constructor
  · intro hs first hf
    by_cases hzero : first.clock.sec = 0
    · right
      have hrel := hs.apart
      rw [hzip] at hrel
      have hall := stamped_still (List.getLast?_reverse.trans hf) hzero (fun e he => hm.normal e (List.mem_reverse.mp he)) hrel
      exact fun e he => hall e (List.mem_reverse.mpr he)
    · exact .inl hzero
  · intro hstay
    cases es with
    | nil =>
      exact ⟨rfl, fun v hv => absurd hv List.not_mem_nil, List.Pairwise.nil, fun p hp => absurd hp List.not_mem_nil⟩
    | cons first rest =>
      have hsorted := List.pairwise_cons.mp hm.sorted
      have hle : ∀ e ∈ (first :: rest).reverse, first.clock.nanos ≤ e.clock.nanos := by
        intro e he
        rcases List.mem_cons.mp (List.mem_reverse.mp he) with rfl | he
        · exact le_rfl
        · exact hsorted.1 e he
      have hexact : ∀ p ∈ (first :: rest).zip (vsOf fecK (first :: rest).reverse),
          p.2.ts.Normal ∧ p.2.ts.nanos = p.1.clock.nanos - first.clock.nanos := by
        intro p hp
        rw [hzip] at hp
        exact (stamped_exact (fun e he => hm.normal e (List.mem_reverse.mp he)) (hm.normal first List.mem_cons_self) hle
          (fun l hne hsuf => hstay.epochOf hne hsuf) hp).2
      generalize hvs : vsOf fecK (first :: rest).reverse = vs at hexact ⊢
      have hlen : vs.length = (first :: rest).length := by
        rw [← hvs, vsOf_length, List.length_reverse]
      generalize first :: rest = es at hm hlen hexact ⊢
      -- the value at an index stands for the record at that index
      have hat : ∀ (i : Nat) (hi : i < vs.length), vs[i].ts.Normal ∧ vs[i].ts.nanos = es[i].clock.nanos - first.clock.nanos := by
        intro i hi
        have hz : i < (es.zip vs).length := by
          rw [List.length_zip]
          omega
        have hmem : (es[i], vs[i]) ∈ es.zip vs := by
          rw [← List.getElem_zip (h := hz)]
          exact List.getElem_mem hz
        exact hexact (es[i], vs[i]) hmem
      refine ⟨hlen, ?_, ?_, ?_⟩
      · intro v hv
        obtain ⟨i, hi, rfl⟩ := List.getElem_of_mem hv
        exact (hat i hi).1
      · rw [List.pairwise_iff_getElem]
        intro i j hi hj hij
        have hsort := List.pairwise_iff_getElem.mp hm.sorted i j (by omega) (by omega) hij
        have h1 := (hat i hi).2
        have h2 := (hat j hj).2
        omega
      · intro p hp q hq
        have h1 := (hexact p hp).2
        have h2 := (hexact q hq).2
        omega

theorem stamps_relative_iff (h : loadLog file = .ok (some ls)) (hm : Monotonic (fileEntries file)) :
    StampsRelative (fileEntries file) ls.vs ↔ EpochStays (fileEntries file) := by
  obtain ⟨-, -, ep, hl⟩ := loadLog_some h
  rw [hl.loaded.vs]
  exact loaded_stamps_iff hm

/-! ## Two records a second apart -/

/-- A file of records with these clock values. -/
def clockFile (ts : List (UInt64 × UInt64)) : Bytes :=
  testFile ((ts.zipIdx.map fun p =>
    ({ testHeader frameTypeInet6 (UInt64.ofNat p.2) 0 8 with tvSec := p.1.1, tvNsec := p.1.2 }).raw).flatten)

instance : Decidable t.Normal :=
  decidable_of_iff (0 ≤ t.sec ∧ 0 ≤ t.nsec ∧ t.nsec < 1000000000)
    ⟨fun ⟨h1, h2, h3⟩ => ⟨h1, h2, h3⟩, fun ⟨h1, h2, h3⟩ => ⟨h1, h2, h3⟩⟩

instance (es : List Entry) : Decidable (Monotonic es) :=
  decidable_of_iff ((∀ e ∈ es, e.clock.Normal) ∧ es.Pairwise fun e e' => e.clock.nanos ≤ e'.clock.nanos)
    ⟨fun ⟨h1, h2⟩ => ⟨h1, h2⟩, fun ⟨h1, h2⟩ => ⟨h1, h2⟩⟩

example : (vsOf 1 (fileEntries (clockFile [(3, 900000000), (5, 100000000)])).reverse).map LogDataV.ts =
    [⟨0, 0⟩, ⟨1, 200000000⟩] := by
  decide +kernel

theorem stamps_relative_borrow :
    ∃ ls, loadLog (clockFile [(3, 900000000), (5, 100000000)]) = .ok (some ls) ∧
      StampsRelative (fileEntries (clockFile [(3, 900000000), (5, 100000000)])) ls.vs := by
  have hrun : ((loadLog (clockFile [(3, 900000000), (5, 100000000)])).toOption.bind id).isSome = true := by decide +kernel
  obtain ⟨ls, hls⟩ := Option.isSome_iff_exists.mp hrun
  have hload := load_of_toOption hls
  exact ⟨ls, hload, (stamps_relative_iff hload (by decide +kernel)).mpr (by decide +kernel)⟩

/-- The clock's first second ends between them. -/
theorem early_breaks_stamps :
    ∃ ls, loadLog (clockFile [(0, 500000000), (1, 200000000)]) = .ok (some ls) ∧
      Monotonic (fileEntries (clockFile [(0, 500000000), (1, 200000000)])) ∧
      ¬ StampsRelative (fileEntries (clockFile [(0, 500000000), (1, 200000000)])) ls.vs := by
  have hrun : ((loadLog (clockFile [(0, 500000000), (1, 200000000)])).toOption.bind id).isSome = true := by decide +kernel
  obtain ⟨ls, hls⟩ := Option.isSome_iff_exists.mp hrun
  have hload := load_of_toOption hls
  have hm : Monotonic (fileEntries (clockFile [(0, 500000000), (1, 200000000)])) := by decide +kernel
  obtain ⟨-, -, ep, hl⟩ := loadLog_some hload
  refine ⟨ls, hload, hm, fun hs => ?_⟩
  rw [hl.loaded.vs] at hs
  exact absurd ((loaded_stamps_iff hm).mp hs) (by decide +kernel)

end WfbYa.Log
