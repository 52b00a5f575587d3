/-
  WfbYa.Log.CsvText — the analysis program's table as the text it prints
  (`fprintfq`, `add_sep` and `add_nl` of `log_analysis/log_csv.c`), and reading it back.

  - `readAddr_inetNtop`: the text of an address tells the address.
  - `readValue_fields`: a line tells what it is about.
  - `csv_reads_back`: the table of a store.
-/

import WfbYa.Lib.Csv
import WfbYa.Lib.AddressText
import WfbYa.Log.Analysed
import WfbYa.Log.LogCsv

namespace WfbYa.Log

open WfbYa.Lib WfbYa.Lib.Csv WfbYa.Lib.Numerals WfbYa.Lib.AddressText

/-! ## The text -/

def csvMarks : Marks Char := ⟨Char.ofNat 34, ',', '\n', by decide, by decide, by decide⟩

def textFields (line : List (Option String)) : Row Char := line.map fun f => f.map String.toList

def csvText (ls : LogStore) : List Char := tableText csvMarks ((csvSerialize ls).map textFields)

/-! ## Reading it -/

/-- What a line is about. -/
structure CsvValue where
  key : Nat
  sec : Int
  nsec : Int
  blockIdx : Nat
  fragmentIdx : Nat
  rxSrc : Option (List Nat)
  freq : Option Nat
  dbm : Option Int
  size : Nat
  corrupt : Bool
  isParity : Bool
  deriving DecidableEq

def readStamp (cs : List Char) : Option (Int × Int) :=
  match cs.splitOn '.' with
  | [sec, nsec] => (readInt sec).bind fun s => (readInt nsec).map fun n => (s, n)
  | _ => none

def readFlag (cs : List Char) : Option Bool := if cs = ['0'] then some false else if cs = ['1'] then some true else none

/-- A field that may be missing. -/
def readCell {α : Type} (read : List Char → Option α) : Option (List Char) → Option (Option α)
  | none => some none
  | some cs => (read cs).map some

def readValue : Row Char → Option CsvValue
  | [some key, some stamp, some blk, some frag, src, freq, dbm, some size, some corrupt, some parity] => do
    let key ← readNat key
    let ts ← readStamp stamp
    let blk ← readNat blk
    let frag ← readNat frag
    let src ← readCell readAddr src
    let freq ← readCell readNat freq
    let dbm ← readCell readInt dbm
    let size ← readNat size
    let corrupt ← readFlag corrupt
    let parity ← readFlag parity
    return ⟨key, ts.1, ts.2, blk, frag, src, freq, dbm, size, corrupt, parity⟩
  | _ => none

/-- The lines below the header. -/
def readCsv (text : List Char) : Option (List CsvValue) :=
  match readTable csvMarks text with
  | some (hdr :: lines) => if hdr = textFields csvHdr then lines.mapM readValue else none
  | _ => none

/-! ## Numbers -/

variable {c : Char} {n : Nat} {x : Int}

theorem decText_toList (n : Nat) : (decText n).toList = Nat.toDigits 10 n := String.toList_ofList

theorem intText_toList (i : Int) : (intText i).toList = (if i < 0 then ['-'] else []) ++ Nat.toDigits 10 i.natAbs := by
  unfold intText
  split <;> simp [decText_toList]

theorem nsecText_toList (i : Int) : (nsecText i).toList = (if i < 0 then ['-'] else []) ++
    (List.replicate ((if i < 0 then 8 else 9) - (decText i.natAbs).length) '0' ++ Nat.toDigits 10 i.natAbs) := by
  unfold nsecText
  dsimp only
  split <;> simp [decText_toList]

theorem readInt_intText (i : Int) : readInt (intText i).toList = some i := by
  rw [intText_toList]
  split
  · next hi => exact readInt_neg hi (readNat_digits _)
  · next hi => exact readInt_nonneg hi (readNat_digits _)

theorem readInt_nsecText (i : Int) : readInt (nsecText i).toList = some i := by
  rw [nsecText_toList]
  split
  · next hi => exact readInt_neg hi (readNat_padded _ _)
  · next hi => exact readInt_nonneg hi (readNat_padded _ _)

/-- Neither a digit nor a sign. -/
def Foreign (c : Char) : Prop := c.isDigit = false ∧ c ≠ '-'

theorem not_mem_decText (h : Foreign c) : c ∉ (decText n).toList := by
  rw [decText_toList]
  exact not_mem_digits h.1

theorem not_mem_intText (h : Foreign c) : c ∉ (intText x).toList := by
  rw [intText_toList]
  split <;> simp [h.2, not_mem_digits h.1]

theorem not_mem_nsecText (h : Foreign c) : c ∉ (nsecText x).toList := by
  have hzero : c ≠ '0' := by
    rintro rfl
    exact absurd h.1 (by decide)
  rw [nsecText_toList]
  split <;> simp [h.2, hzero, not_mem_digits h.1]

theorem readStamp_text (sec nsec : Int) : readStamp (intText sec ++ "." ++ nsecText nsec).toList = some (sec, nsec) := by
  have hdot : Foreign '.' := ⟨by decide, by decide⟩
  have hsplit : (intText sec ++ "." ++ nsecText nsec).toList.splitOn '.' = [(intText sec).toList, (nsecText nsec).toList] := by
    rw [String.toList_append, String.toList_append, List.append_assoc, show ".".toList = ['.'] from rfl, List.singleton_append,
      List.splitOn_append_cons_of_beq _ _ (beq_self_eq_true '.'), List.splitOn_eq_singleton (not_mem_intText hdot),
      List.splitOn_eq_singleton (not_mem_nsecText hdot)]
    rfl
  unfold readStamp
  rw [hsplit]
  simp [readInt_intText, readInt_nsecText]

/-! ## Addresses -/

variable {a : In6Addr} {ws : List Nat}

theorem words_length (a : In6Addr) : a.words.length = 8 := by simp [In6Addr.words]

theorem hexText_join (ws : List Nat) : (String.intercalate ":" (ws.map hexText)).toList = hexJoin ws := by
  simp [String.toList_intercalate, hexJoin, hexText, Function.comp_def]

/-- The run that is left out is one of zeros. -/
theorem zeroRun_spec (ws : List Nat) :
    ∃ rest, ws.drop (zeroRun ws).1 = List.replicate (zeroRun ws).2 0 ++ rest := by
  refine List.foldlRecOn (motive := fun best : Nat × Nat => ∃ rest, ws.drop best.1 = List.replicate best.2 0 ++ rest)
    (List.range 8) _ ⟨ws, rfl⟩ fun best hbest i _ => ?_
  dsimp only
  split
  · refine ⟨(ws.drop i).dropWhile (· = 0), ?_⟩
    have hzeros : (ws.drop i).takeWhile (· = 0) = List.replicate ((ws.drop i).takeWhile (· = 0)).length 0 := by
      rw [List.eq_replicate_iff]
      exact ⟨rfl, fun w hw => by simpa using List.mem_takeWhile_imp hw⟩
    rw [← hzeros, List.takeWhile_append_dropWhile]
  · exact hbest

/-- The words around the run. -/
theorem words_zeroRun (h : ws.length = 8) : ws.take (zeroRun ws).1 ++ List.replicate (8 - (ws.take (zeroRun ws).1).length -
    (ws.drop ((zeroRun ws).1 + (zeroRun ws).2)).length) 0 ++ ws.drop ((zeroRun ws).1 + (zeroRun ws).2) = ws := by
  obtain ⟨rest, hrest⟩ := zeroRun_spec ws
  have hdrop : ws.drop ((zeroRun ws).1 + (zeroRun ws).2) = rest := by
    rw [← List.drop_drop, hrest]
    simp
  have hlen := congrArg List.length hrest
  simp only [List.length_drop, List.length_append, List.length_replicate] at hlen
  have hn : (zeroRun ws).2 = 8 - (ws.take (zeroRun ws).1).length - rest.length := by
    rw [List.length_take]
    omega
  rw [hdrop, ← hn, List.append_assoc, ← hrest, List.take_append_drop]

theorem last_bytes (a : In6Addr) : ∃ p q r s : UInt8, a.val.drop 12 = [p, q, r, s] ∧
    a.words.drop 6 = [p.toNat * 256 + q.toNat, r.toNat * 256 + s.toNat] := by
  have hlen : (a.val.drop 12).length = 4 := by rw [List.length_drop, a.property]
  have hget : ∀ k, a.val.getD (12 + k) 0 = (a.val.drop 12).getD k 0 :=
    fun k => by simp [List.getD_eq_getElem?_getD, List.getElem?_drop]
  have hwords : a.words.drop 6 = [(a.val.getD (12 + 0) 0).toNat * 256 + (a.val.getD (12 + 1) 0).toNat,
    (a.val.getD (12 + 2) 0).toNat * 256 + (a.val.getD (12 + 3) 0).toNat] := rfl
  rw [hwords, hget, hget, hget, hget]
  generalize a.val.drop 12 = last at hlen
  rcases last with _ | ⟨p, _ | ⟨q, _ | ⟨r, _ | ⟨s, _ | ⟨x, last⟩⟩⟩⟩⟩ <;> simp at hlen
  exact ⟨p, q, r, s, rfl, rfl⟩

theorem quad_toList (a : In6Addr) : a.quad.toList = ['.'].intercalate ((a.val.drop 12).map fun b => Nat.toDigits 10 b.toNat) := by
  simp [In6Addr.quad, String.toList_intercalate, Function.comp_def, decText_toList]

theorem quad_chars (h : c ∈ a.quad.toList) : c = '.' ∨ c.isDigit = true := by
  rw [quad_toList] at h
  rcases mem_join h with hdot | ⟨g, hg, hc⟩
  · exact .inl hdot
  · obtain ⟨b, -, rfl⟩ := List.mem_map.mp hg
    exact .inr (Nat.isDigit_of_mem_toDigits (by decide) (by decide) hc)

theorem quad_inAddress (h : c ∈ a.quad.toList) : InAddress c := by
  rcases quad_chars h with hdot | hdigit
  · exact .inr (.inr hdot)
  · exact .inl (by simp [hexValue, hdigit])

theorem colon_not_quad (a : In6Addr) : ':' ∉ a.quad.toList := by
  intro h
  rcases quad_chars h with hdot | hdigit
  · exact absurd hdot (by decide)
  · exact absurd hdigit (by decide)

theorem readGroup_quad (a : In6Addr) : a.quad.toList ≠ [] ∧ readGroup a.quad.toList = some (a.words.drop 6) := by
  obtain ⟨p, q, r, s, hbytes, hwords⟩ := last_bytes a
  have hsplit : a.quad.toList.splitOn '.' = [p, q, r, s].map fun b => Nat.toDigits 10 b.toNat := by
    rw [quad_toList, hbytes]
    refine List.splitOn_intercalate '.' (fun g hg => ?_) (by simp)
    obtain ⟨b, -, rfl⟩ := List.mem_map.mp hg
    exact not_mem_digits (by decide)
  have hmem : '.' ∈ a.quad.toList := by simp [quad_toList, hbytes]
  refine ⟨List.ne_nil_of_mem hmem, ?_⟩
  unfold readGroup readQuad
  rw [if_pos hmem, hsplit, hwords]
  simp [List.mapM_cons]

theorem readGroups_quad (a : In6Addr) : readGroups a.quad.toList = some (a.words.drop 6) := by
  obtain ⟨hne, hread⟩ := readGroup_quad a
  have hcolon := colon_not_quad a
  have h := @readGroups_joined [a.quad.toList] (by simp) (by simp [hne, hcolon])
  simpa [List.mapM_cons, hread] using h

theorem readGroups_mapped (a : In6Addr) : readGroups ("ffff:".toList ++ a.quad.toList) = some (65535 :: a.words.drop 6) := by
  obtain ⟨hne, hread⟩ := readGroup_quad a
  have hcolon := colon_not_quad a
  have hffff : readGroup ['f', 'f', 'f', 'f'] = some [65535] := by decide
  have h := @readGroups_joined [['f', 'f', 'f', 'f'], a.quad.toList] (by simp) (by simp [hne, hcolon])
  simpa [List.mapM_cons, hread, hffff] using h

/-- All groups, or a double colon where the zeros are. -/
theorem inetNtop_forms (a : In6Addr) : (inetNtop a).toList = hexJoin a.words ∨
    ∃ ws rest ws', (inetNtop a).toList = hexJoin ws ++ ':' :: ':' :: rest ∧ readGroups rest = some ws' ∧
      (∀ c ∈ rest, InAddress c) ∧ ws ++ List.replicate (8 - ws.length - ws'.length) 0 ++ ws' = a.words := by
  have hrun := words_zeroRun (words_length a)
  have hdouble : "::".toList = [':', ':'] := rfl
  rcases hbest : zeroRun a.words with ⟨s, n⟩
  rw [hbest] at hrun
  unfold inetNtop
  simp only [hbest]
  split
  · exact .inl (hexText_join _)
  · right
    split
    · next h =>
      obtain ⟨rfl, rfl⟩ := h
      exact ⟨[], a.quad.toList,
        _, by rw [String.toList_append, hdouble]; rfl, readGroups_quad a, fun c hc => quad_inAddress hc, hrun⟩
    · split
      · next h =>
        obtain ⟨rfl, rfl, hmapped⟩ := h
        have hdrop : a.words.drop 5 = 65535 :: a.words.drop 6 := by
          rw [List.drop_eq_getElem_cons (by rw [words_length]; decide), ← hmapped]
          simp [List.getD_eq_getElem?_getD, words_length]
        have hf : InAddress 'f' := .inl (by decide)
        have hcolon : InAddress ':' := .inr (.inl rfl)
        have hffff : ∀ c ∈ "ffff:".toList, InAddress c := by simp [hf, hcolon]
        refine ⟨[], "ffff:".toList ++ a.quad.toList,
          _, by rw [String.toList_append]; rfl, readGroups_mapped a, fun c hc => ?_, ?_⟩
        · rcases List.mem_append.mp hc with hc | hc
          · exact hffff c hc
          · exact quad_inAddress hc
        · rw [← hdrop]
          exact hrun
      · refine ⟨a.words.take s, hexJoin (a.words.drop (s + n)), _, ?_, readGroups_hex _, fun c hc => hexJoin_chars hc, hrun⟩
        rw [String.toList_append, String.toList_append, hexText_join, hexText_join, List.append_assoc, hdouble]
        rfl

theorem readAddr_inetNtop (a : In6Addr) : readAddr (inetNtop a).toList = some a.words := by
  rcases inetNtop_forms a with htext | ⟨ws, rest, ws', htext, hrest, -, hwords⟩
  · rw [htext]
    exact readAddr_join _
  · rw [htext, readAddr_double hrest, hwords]

theorem inetNtop_chars (h : c ∈ (inetNtop a).toList) : InAddress c := by
  rcases inetNtop_forms a with htext | ⟨ws, rest, ws', htext, -, hchars, -⟩
  · exact hexJoin_chars (htext ▸ h)
  · rw [htext] at h
    simp only [List.mem_append, List.mem_cons] at h
    rcases h with hws | hcolon | hcolon | hrest
    · exact hexJoin_chars hws
    · exact .inr (.inl hcolon)
    · exact .inr (.inl hcolon)
    · exact hchars c hrest

/-! ## Lines -/

variable {ls : LogStore} {past : List Entry} {i : Nat}

/-- What the line of a value is about. -/
def csvValue (key : Nat) (v : LogDataV) : CsvValue where
  key := key
  sec := v.ts.sec.toInt
  nsec := v.ts.nsec.toInt
  blockIdx := v.blockIdx.toNat
  fragmentIdx := v.fragmentIdx.toNat
  rxSrc := v.rxSrc.map In6Addr.words
  freq := if 0 < v.freq then some v.freq.toNat else none
  dbm := if dbmShown v.dbm then some v.dbm.toInt else none
  size := v.size.toNat
  corrupt := v.corrupt
  isParity := v.isParity

theorem readNat_decText (n : Nat) : readNat (decText n).toList = some n := by rw [decText_toList, readNat_digits]

theorem readFlag_text (b : Bool) : readFlag (if b = true then "1" else "0").toList = some b := by
  cases b <;> rfl

theorem readValue_fields (kv : LogDataKv) (v : LogDataV) :
    readValue (textFields (csvSerializeV kv v)) = some (csvValue kv.key v) := by
  have hsrc : readCell readAddr ((v.rxSrc.map inetNtop).map String.toList) = some (v.rxSrc.map In6Addr.words) := by
    cases v.rxSrc with
    | none => rfl
    | some a => simp [readCell, readAddr_inetNtop]
  have hfreq : readCell readNat ((if 0 < v.freq then some (decText v.freq.toNat) else none).map String.toList) =
      some (if 0 < v.freq then some v.freq.toNat else none) := by
    split <;> simp [readCell, readNat_decText]
  have hdbm : readCell readInt ((if dbmShown v.dbm then some (intText v.dbm.toInt) else none).map String.toList) =
      some (if dbmShown v.dbm then some v.dbm.toInt else none) := by
    split <;> simp [readCell, readInt_intText]
  unfold csvSerializeV textFields
  simp only [List.map_cons, List.map_nil, Option.map_some, readValue, readNat_decText, readStamp_text, readFlag_text, hsrc, hfreq,
    hdbm, Option.bind_eq_bind, Option.bind_some]
  rfl

theorem plain_fields {line : List (Option String)} (hne : line ≠ []) (h : ∀ f ∈ line, ∀ t ∈ f, csvMarks.quote ∉ t.toList) :
    Plain csvMarks (textFields line) := by
  refine ⟨by simpa [textFields] using hne, fun w hw => ?_⟩
  obtain ⟨f, hf, hfw⟩ := List.mem_map.mp hw
  cases f with
  | none => cases hfw
  | some t =>
    cases hfw
    exact h _ hf t rfl

theorem plain_line (kv : LogDataKv) (v : LogDataV) : Plain csvMarks (textFields (csvSerializeV kv v)) := by
  have hquote : Foreign csvMarks.quote := ⟨by decide, by decide⟩
  have hdec : ∀ n, csvMarks.quote ∉ (decText n).toList := fun n => not_mem_decText hquote
  have hint : ∀ i, csvMarks.quote ∉ (intText i).toList := fun i => not_mem_intText hquote
  have hdot : csvMarks.quote ≠ '.' := by decide
  have hflag : ∀ b : Bool, csvMarks.quote ∉ (if b = true then "1" else "0").toList := by decide
  refine plain_fields (by simp [csvSerializeV]) fun f hf t ht => ?_
  rw [Option.mem_def] at ht
  subst ht
  simp only [csvSerializeV, List.mem_cons, Option.some.injEq, List.not_mem_nil, or_false] at hf
  rcases hf with rfl | rfl | rfl | rfl | hsrc | hfreq | hdbm | rfl | rfl | rfl
  · exact hdec _
  · simp [hint, hdot, not_mem_nsecText hquote]
  · exact hdec _
  · exact hdec _
  · obtain ⟨a, -, rfl⟩ := Option.map_eq_some_iff.mp hsrc.symm
    exact fun hmem => absurd (inetNtop_chars hmem) (by decide)
  · split at hfreq
    · cases hfreq
      exact hdec _
    · cases hfreq
  · split at hdbm
    · cases hdbm
      exact hint _
    · cases hdbm
  · exact hdec _
  · exact hflag _
  · exact hflag _

/-! ## The table -/

/-- The values that are printed, in their order. -/
def LogStore.shown (ls : LogStore) : List Nat := (ls.listed .seq).filter fun i => !(ls.v i).filtered

/-- The same, each with the key whose line it is. -/
def LogStore.lines (ls : LogStore) : List (LogDataKv × Nat) :=
  ls.kvh.flatMap fun kv => (kv.vh.filter fun i => !(ls.v i).filtered).map fun i => (kv, i)

/-- The sequence number a value is under. -/
def LogDataV.seqNumber (v : LogDataV) : Nat := (v.kv.map KvRef.key).getD 0

/-- What the line of a value is about, if it is the one of its number. -/
def LogDataV.csvLine (v : LogDataV) : CsvValue := csvValue v.seqNumber v

theorem csvSerialize_lines (ls : LogStore) : csvSerialize ls = csvHdr :: ls.lines.map fun p => csvSerializeV p.1 (ls.v p.2) := by
  unfold csvSerialize LogStore.lines
  rw [List.map_flatMap]
  simp [Function.comp_def]

theorem lines_snd (ls : LogStore) : ls.lines.map Prod.snd = ls.shown := by
  unfold LogStore.lines LogStore.shown LogStore.listed
  rw [List.map_flatMap, List.filter_flatMap]
  simp [Function.comp_def, LogStore.kvs]

theorem Bones.line_key (h : Bones ls past) {p : LogDataKv × Nat} (hp : p ∈ ls.lines) :
    (ls.v p.2).seqNumber = p.1.key := by
  obtain ⟨kv, hkv, hline⟩ := List.mem_flatMap.mp hp
  obtain ⟨i, hi, rfl⟩ := List.mem_map.mp hline
  have href : (ls.v i).kv = some ⟨.seq, kv.key⟩ := h.vh_ref (t := .seq) hkv (List.mem_of_mem_filter hi)
  simp [LogDataV.seqNumber, href]

theorem read_lines {ps : List (LogDataKv × Nat)} (h : ∀ p ∈ ps, (ls.v p.2).seqNumber = p.1.key) :
    (ps.map fun p => textFields (csvSerializeV p.1 (ls.v p.2))).mapM readValue =
      some ((ps.map Prod.snd).map fun i => (ls.v i).csvLine) := by
  induction ps with
  | nil => rfl
  | cons p ps ih =>
    have hp := h p List.mem_cons_self
    have hps := ih fun q hq => h q (List.mem_cons_of_mem p hq)
    simp [List.mapM_cons, readValue_fields, LogDataV.csvLine, hp, hps]

theorem readTable_csvText (ls : LogStore) : readTable csvMarks (csvText ls) = some ((csvSerialize ls).map textFields) := by
  refine readTable_text fun row hrow => ?_
  obtain ⟨line, hline, rfl⟩ := List.mem_map.mp hrow
  rw [csvSerialize_lines] at hline
  rcases List.mem_cons.mp hline with rfl | hline
  · exact plain_fields (by decide) (by decide)
  · obtain ⟨p, -, rfl⟩ := List.mem_map.mp hline
    exact plain_line p.1 (ls.v p.2)

/-- A record's line is that of the value it was loaded as. -/
theorem Bones.csvLine (h : Bones ls past) (hi : i < ls.vs.length) :
    (ls.v i).csvLine = ((vsOf ls.fecK past).getD i .zero).csvLine := by
  have hget : ls.vs[i]? = some (ls.v i) := by simp [LogStore.v, List.getD_eq_getElem?_getD, hi]
  have hown : (vsOf ls.fecK past)[i]? = some (setFiltered false (ls.v i)) := by
    rw [← h.vs, List.getElem?_map, hget, Option.map_some]
  rw [List.getD_eq_getElem?_getD, hown]
  rfl

theorem Bones.mem_shown (h : Bones ls past) :
    i ∈ ls.shown ↔ ∃ e, past.reverse[i]? = some e ∧ e.isSeq = true ∧ (ls.v i).filtered = false := by
  unfold LogStore.shown
  rw [List.mem_filter, h.mem_listed (by decide)]
  constructor
  · intro ⟨⟨hlt, hseq⟩, hleft⟩
    rw [h.length, ← List.length_reverse] at hlt
    have he := List.getElem?_eq_getElem hlt
    rw [value_type h.vs he] at hseq
    exact ⟨_, he, hseq, by simpa using hleft⟩
  · intro ⟨e, he, hseq, hleft⟩
    have hlt : i < past.reverse.length := (List.getElem?_eq_some_iff.mp he).1
    rw [List.length_reverse, ← h.length] at hlt
    refine ⟨⟨hlt, ?_⟩, by simpa using hleft⟩
    rw [value_type h.vs he]
    exact hseq

/-- The text of the table has a line for each record that has a number and is not filtered,
    once, in the order of the numbers and, under one, of the file. -/
structure ReadsBack (file : Bytes) (ls : LogStore) : Prop where
  lines : readCsv (csvText ls) = some (ls.shown.map fun i => ((vsOf ls.fecK (fileEntries file).reverse).getD i .zero).csvLine)
  ordered : ls.shown.Pairwise (ls.precedes .seq)
  complete : ∀ i, i ∈ ls.shown ↔ ∃ e, (fileEntries file)[i]? = some e ∧ e.isSeq = true ∧ (ls.v i).filtered = false

/-- For every file and every sequence of filter commands. -/
theorem csv_reads_back {file : Bytes} {cs : List Int8} (h : CommandsGive file cs ls) : ReadsBack file ls := by
  obtain ⟨ls0, hload, hrun⟩ := h
  obtain ⟨-, -, ep, hl⟩ := loadLog_some hload
  have hb := hl.loaded.bones.commands hrun
  refine ⟨?_, (hb.traversal .seq).filter _, fun i => ?_⟩
  · have hlines := read_lines fun p hp => hb.line_key hp
    have hown : (ls.shown.map fun i => (ls.v i).csvLine) =
        ls.shown.map fun i => ((vsOf ls.fecK (fileEntries file).reverse).getD i .zero).csvLine := by
      refine List.map_congr_left fun i hi => hb.csvLine ?_
      exact ((hb.mem_listed (by decide)).mp (List.mem_of_mem_filter hi)).1
    rw [lines_snd, hown] at hlines
    unfold readCsv
    rw [readTable_csvText, csvSerialize_lines, List.map_cons, List.map_map]
    simpa [Function.comp_def] using hlines
  · rw [hb.mem_shown, List.reverse_reverse]

theorem twoBlocks_reads_back : ∃ ls, CommandsGive twoBlocks [-60] ls ∧ ls.shown = [1, 2, 0] ∧ ReadsBack twoBlocks ls := by
  obtain ⟨ls, hls, hrun⟩ := commands_run twoBlocks [-60] (fun ls => decide (ls.shown = [1, 2, 0])) (by decide +kernel)
  exact ⟨ls, hls, of_decide_eq_true hrun, csv_reads_back hls⟩

end WfbYa.Log
