/-
  WfbYa.Log.FreeLog — releasing a store (`free_kvh`, `free_log` in `log_analysis/log_raw.c`).

  A record is linked in the lists of up to two keys, by a field for each type of key, and
  points back at the keys. Each pass takes the records of one type of keys out of their
  lists; a record without any key left is freed. Every pass goes from record to record by
  `chain`, the field of the sequence numbers.

  - `freeLog`: what is unlinked and freed, in order, or the first access to freed memory.
  - `freeLog_inv`: what a record and a key keep, the whole run keeps.
  - `freeLog_ledger`: whatever is freed is freed once, behind its last unlinking.
-/

import WfbYa.Log.LogRaw
import WfbYa.Lib.Links
import WfbYa.Lib.Machine

namespace WfbYa.Log

open WfbYa.Lib WfbYa.Lib.Links

/-! ## Memory -/

inductive FreeFault where
  /-- Memory that has been freed is read, written or freed. -/
  | useAfterFree
  /-- A record is taken out of a list it is not in. -/
  | notLinked
  | endless
  deriving DecidableEq

inductive FreeEv where
  /-- `TAILQ_REMOVE` of a record, by the field of a type. -/
  | unlink (t : KvType) (v : Nat)
  | unlinkKv (r : KvRef)
  | freeBuf (v : Nat)
  | freeV (v : Nat)
  | freeKv (r : KvRef)
  | freeStore
  deriving DecidableEq

/-- The keys and records of a store, as far as they are freed or taken apart. -/
structure LogHeap where
  /-- The records linked in a key's list, by the field of the key's type. -/
  vh : KvRef → List Nat
  /-- The key in whose list a type's field links a record. -/
  linked : KvType → Nat → Option KvRef
  /-- `chain.tqe_next`, which stays when the record is taken out. -/
  next : Nat → Option Nat
  /-- `kv`, `block_kv` and `msg_kv`. -/
  ref : KvType → Nat → Option KvRef
  buf : Nat → Bool
  vFreed : Nat → Bool
  kvFreed : KvRef → Bool

def LogDataKv.ref (kv : LogDataKv) : KvRef := ⟨kv.type, kv.key⟩

/-- The key a record is listed under. -/
def LogStore.holder (ls : LogStore) (t : KvType) (v : Nat) : Option LogDataKv := (ls.kvs t).find? fun kv => v ∈ kv.vh

def LogDataV.backRef (v : LogDataV) : KvType → Option KvRef
  | .seq => v.kv
  | .blk => v.blockKv
  | .msg => v.msgKv

def LogStore.heap (ls : LogStore) : LogHeap where
  vh r := ((ls.kv? r).map LogDataKv.vh).getD []
  linked t v := (ls.holder t v).map LogDataKv.ref
  next v := (ls.holder .seq v).bind fun kv => after kv.vh v
  ref t v := (ls.v v).backRef t
  buf v := (ls.v v).buf.isSome
  vFreed _ := false
  kvFreed _ := false

/-! ## free_kvh, free_log -/

/-- One of the links that `TAILQ_REMOVE` writes is in freed memory: that of the predecessor,
    or the head of the list, or that of the successor. -/
def LogHeap.dangling (h : LogHeap) (r : KvRef) (v : Nat) : Bool :=
  (match before (h.vh r) v with
    | some u => h.vFreed u
    | none => h.kvFreed r) ||
  (after (h.vh r) v).any h.vFreed

/-- The predecessor's link leads to the successor. -/
def relink (next : Nat → Option Nat) (pred succ : Option Nat) : Nat → Option Nat :=
  match pred with
  | some u => Function.update next u succ
  | none => next

/-- What `TAILQ_REMOVE` by a type's field leaves, the pointer of that type cleared. -/
def LogHeap.without (h : LogHeap) (t : KvType) (r : KvRef) (v : Nat) : LogHeap :=
  { h with
    vh := Function.update h.vh r ((h.vh r).erase v)
    linked := Function.update h.linked t (Function.update (h.linked t) v none)
    next := if t = .seq then relink h.next (before (h.vh r) v) (after (h.vh r) v) else h.next
    ref := Function.update h.ref t (Function.update (h.ref t) v none) }

/-- `TAILQ_REMOVE(&kv->vh, v, ..)`: the list left is the one the record is in, whichever
    `kv` is named. -/
def LogHeap.unlink (h : LogHeap) (t : KvType) (v : Nat) : Except FreeFault LogHeap :=
  match h.linked t v with
  | none => .error .notLinked
  | some r => if h.dangling r v then .error .useAfterFree else .ok (h.without t r v)

/-- `!v->kv && !v->block_kv && !v->msg_kv`. -/
def LogHeap.bare (h : LogHeap) (v : Nat) : Bool :=
  (h.ref .seq v).isNone && (h.ref .blk v).isNone && (h.ref .msg v).isNone

/-- The body of the inner loop, for a key of type `t`. -/
def freeRecord (t : KvType) (v : Nat) (h : LogHeap) : Except FreeFault (LogHeap × List FreeEv) := do
  let h ← h.unlink t v
  if h.bare v then
    return ({ h with vFreed := Function.update h.vFreed v true },
      .unlink t v :: ((if h.buf v then [.freeBuf v] else []) ++ [.freeV v]))
  else return (h, [.unlink t v])

/-- `TAILQ_FOREACH_SAFE(v, &kv->vh, chain, vp)`, from a record on: the link is read before
    the body, and by `chain` for every type. -/
def freeVs (t : KvType) : Nat → Option Nat → LogHeap → Except FreeFault (LogHeap × List FreeEv)
  | _, none, h => .ok (h, [])
  | 0, some _, _ => .error .endless
  | n + 1, some v, h =>
    if h.vFreed v then .error .useAfterFree
    else do
      let p ← freeRecord t v h
      let q ← freeVs t n (h.next v) p.1
      return (q.1, p.2 ++ q.2)

/-- `free_kvh`, its inner loop granted `n` records. -/
def freeKvh (n : Nat) : List LogDataKv → LogHeap → Except FreeFault (LogHeap × List FreeEv)
  | [], h => .ok (h, [])
  | kv :: kvs, h => do
    let p ← freeVs kv.type n (h.vh kv.ref).head? h
    let q ← freeKvh n kvs { p.1 with kvFreed := Function.update p.1.kvFreed kv.ref true }
    return (q.1, p.2 ++ [.unlinkKv kv.ref, .freeKv kv.ref] ++ q.2)

def freeLog (ls : LogStore) : Except FreeFault (LogHeap × List FreeEv) := do
  let n := ls.vs.length + 1
  let a ← freeKvh n ls.kvh ls.heap
  let b ← freeKvh n ls.blockKvh a.1
  let c ← freeKvh n ls.msgKvh b.1
  return (c.1, a.2 ++ b.2 ++ c.2 ++ [.freeStore])

/-! ## What the body does -/

variable {t : KvType} {v : Nat} {h h' : LogHeap} {e evs : List FreeEv}

def LogHeap.freed (h : LogHeap) (v : Nat) : LogHeap := { h with vFreed := Function.update h.vFreed v true }

def bufEvs (h : LogHeap) (v : Nat) : List FreeEv := if h.buf v then [.freeBuf v] else []

/-- A record is taken out of its list, and then freed if no key is left. -/
theorem freeRecord_cases (hf : freeRecord t v h = .ok (h', e)) : ∃ r, h.linked t v = some r ∧ h.dangling r v = false ∧
    ((h.without t r v).bare v = true ∧ h' = (h.without t r v).freed v ∧ e = .unlink t v :: (bufEvs h v ++ [.freeV v]) ∨
      (h.without t r v).bare v = false ∧ h' = h.without t r v ∧ e = [.unlink t v]) := by
  obtain ⟨h1, hu, hrest⟩ := Machine.bind_ok_iff.mp hf
  unfold LogHeap.unlink at hu
  split at hu
  · cases hu
  · rename_i r hr
    split at hu
    · cases hu
    · rename_i hd
      cases hu
      refine ⟨r, hr, Bool.eq_false_iff.mpr hd, ?_⟩
      split at hrest
      · rename_i hb
        cases hrest
        exact .inl ⟨hb, rfl, rfl⟩
      · rename_i hb
        cases hrest
        exact .inr ⟨Bool.eq_false_iff.mpr hb, rfl, rfl⟩

theorem bare_iff : h.bare v = true ↔ ∀ t, h.ref t v = none := by
  unfold LogHeap.bare
  simp only [Bool.and_eq_true, Option.isNone_iff_eq_none]
  constructor
  · intro hb t
    cases t with
    | seq => exact hb.1.1
    | blk => exact hb.1.2
    | msg => exact hb.2
  · intro hb
    exact ⟨⟨hb .seq, hb .blk⟩, hb .msg⟩

theorem without_ref (r : KvRef) (t' : KvType) (u : Nat) :
    (h.without t r v).ref t' u = if t' = t ∧ u = v then none else h.ref t' u := by
  show Function.update h.ref t (Function.update (h.ref t) v none) t' u = _
  by_cases ht : t' = t
  · subst ht
    rw [Function.update_self]
    by_cases hu : u = v
    · rw [hu, Function.update_self, if_pos ⟨rfl, rfl⟩]
    · rw [Function.update_of_ne hu, if_neg fun hc => hu hc.2]
  · rw [Function.update_of_ne ht, if_neg fun hc => ht hc.1]

theorem without_linked (r : KvRef) (t' : KvType) (u : Nat) :
    (h.without t r v).linked t' u = if t' = t ∧ u = v then none else h.linked t' u := by
  show Function.update h.linked t (Function.update (h.linked t) v none) t' u = _
  by_cases ht : t' = t
  · subst ht
    rw [Function.update_self]
    by_cases hu : u = v
    · rw [hu, Function.update_self, if_pos ⟨rfl, rfl⟩]
    · rw [Function.update_of_ne hu, if_neg fun hc => hu hc.2]
  · rw [Function.update_of_ne ht, if_neg fun hc => ht hc.1]

/-! ## Runs -/

/-- What a record taken out of a list and a freed key keep of the heap and the events. -/
structure FreeRules (I : LogHeap → List FreeEv → Prop) : Prop where
  record : ∀ {t v h h' e evs}, I h evs → h.vFreed v = false → freeRecord t v h = .ok (h', e) → I h' (evs ++ e)
  key : ∀ {r h evs}, I h evs → h.kvFreed r = false →
    I { h with kvFreed := Function.update h.kvFreed r true } (evs ++ [.unlinkKv r, .freeKv r])

variable {I : LogHeap → List FreeEv → Prop} {n : Nat} {kvs : List LogDataKv}

theorem freeVs_inv (hr : FreeRules I) {o : Option Nat} (hi : I h evs) (hf : freeVs t n o h = .ok (h', e)) : I h' (evs ++ e) := by
  induction n generalizing o h evs e with
  | zero =>
    cases o with
    | none =>
      cases hf
      rwa [List.append_nil]
    | some v => cases hf
  | succ n ih =>
    cases o with
    | none =>
      cases hf
      rwa [List.append_nil]
    | some v =>
      unfold freeVs at hf
      split at hf
      · cases hf
      · rename_i hlive
        obtain ⟨p, hp, hrest⟩ := Machine.bind_ok_iff.mp hf
        obtain ⟨q, hq, he⟩ := Machine.bind_ok_iff.mp hrest
        cases he
        rw [← List.append_assoc]
        exact ih (hr.record hi (Bool.eq_false_iff.mpr hlive) hp) hq

theorem freeRecord_kvFreed (hf : freeRecord t v h = .ok (h', e)) : h'.kvFreed = h.kvFreed := by
  obtain ⟨r, -, -, ⟨-, rfl, -⟩ | ⟨-, rfl, -⟩⟩ := freeRecord_cases hf
  · rfl
  · rfl

theorem freeVs_kvFreed {o : Option Nat} (hf : freeVs t n o h = .ok (h', e)) : h'.kvFreed = h.kvFreed := by
  induction n generalizing o h e with
  | zero =>
    cases o with
    | none => cases hf; rfl
    | some v => cases hf
  | succ n ih =>
    cases o with
    | none => cases hf; rfl
    | some v =>
      unfold freeVs at hf
      split at hf
      · cases hf
      · obtain ⟨p, hp, hrest⟩ := Machine.bind_ok_iff.mp hf
        obtain ⟨q, hq, he⟩ := Machine.bind_ok_iff.mp hrest
        cases he
        exact (ih hq).trans (freeRecord_kvFreed hp)

/-- A pass frees its keys and no others. -/
theorem freeKvh_kvFreed (hf : freeKvh n kvs h = .ok (h', e)) (r : KvRef) :
    h'.kvFreed r = (h.kvFreed r || decide (r ∈ kvs.map LogDataKv.ref)) := by
  induction kvs generalizing h e with
  | nil =>
    cases hf
    simp
  | cons kv kvs ih =>
    obtain ⟨p, hp, hrest⟩ := Machine.bind_ok_iff.mp hf
    obtain ⟨q, hq, he⟩ := Machine.bind_ok_iff.mp hrest
    cases he
    rw [ih hq]
    show (Function.update p.1.kvFreed kv.ref true r || _) = _
    by_cases hr : r = kv.ref
    · rw [hr, Function.update_self]
      simp
    · rw [Function.update_of_ne hr, freeVs_kvFreed hp]
      simp [hr]

theorem freeKvh_inv (hr : FreeRules I) (hi : I h evs) (hnodup : (kvs.map LogDataKv.ref).Nodup)
    (hlive : ∀ r ∈ kvs.map LogDataKv.ref, h.kvFreed r = false) (hf : freeKvh n kvs h = .ok (h', e)) : I h' (evs ++ e) := by
  induction kvs generalizing h evs e with
  | nil =>
    cases hf
    rwa [List.append_nil]
  | cons kv kvs ih =>
    obtain ⟨p, hp, hrest⟩ := Machine.bind_ok_iff.mp hf
    obtain ⟨q, hq, he⟩ := Machine.bind_ok_iff.mp hrest
    cases he
    rw [List.map_cons, List.nodup_cons] at hnodup
    have hkv : p.1.kvFreed kv.ref = false := by
      rw [freeVs_kvFreed hp]
      exact hlive _ List.mem_cons_self
    have hkey := hr.key (freeVs_inv hr hi hp) hkv
    rw [← List.append_assoc, ← List.append_assoc]
    apply ih hkey hnodup.2 _ hq
    intro r hmem
    show Function.update p.1.kvFreed kv.ref true r = false
    have hne : r ≠ kv.ref := fun he => hnodup.1 (he ▸ hmem)
    rw [Function.update_of_ne hne, freeVs_kvFreed hp]
    exact hlive r (List.mem_cons_of_mem _ hmem)

theorem freeKvh_append {kvs' : List LogDataKv} : freeKvh n (kvs ++ kvs') h = .ok (h', e) ↔
    ∃ h1 e1 e2, freeKvh n kvs h = .ok (h1, e1) ∧ freeKvh n kvs' h1 = .ok (h', e2) ∧ e = e1 ++ e2 := by
  induction kvs generalizing h e with
  | nil =>
    constructor
    · intro hf
      exact ⟨h, [], e, rfl, hf, rfl⟩
    · rintro ⟨h1, e1, e2, h1', h2, rfl⟩
      cases h1'
      exact h2
  | cons kv kvs ih =>
    constructor
    · intro hf
      obtain ⟨p, hp, hrest⟩ := Machine.bind_ok_iff.mp hf
      obtain ⟨q, hq, he⟩ := Machine.bind_ok_iff.mp hrest
      cases he
      obtain ⟨h1, e1, e2, hq1, hq2, he⟩ := ih.mp hq
      refine ⟨h1, _, e2, Machine.bind_ok_iff.mpr ⟨p, hp, Machine.bind_ok_iff.mpr ⟨(h1, e1), hq1, rfl⟩⟩, hq2, ?_⟩
      rw [he, List.append_assoc _ e1 e2]
    · rintro ⟨h1, e1, e2, hf1, hf2, rfl⟩
      obtain ⟨p, hp, hrest⟩ := Machine.bind_ok_iff.mp hf1
      obtain ⟨q, hq, he⟩ := Machine.bind_ok_iff.mp hrest
      cases he
      have hq' := ih.mpr ⟨q.1, q.2, e2, hq, hf2, rfl⟩
      refine Machine.bind_ok_iff.mpr ⟨p, hp, Machine.bind_ok_iff.mpr ⟨(h', q.2 ++ e2), hq', ?_⟩⟩
      show Except.ok _ = Except.ok _
      rw [List.append_assoc _ q.2 e2]

/-- The keys, in the order in which they are freed. -/
def LogStore.allKvs (ls : LogStore) : List LogDataKv := ls.kvh ++ (ls.blockKvh ++ ls.msgKvh)

variable {ls : LogStore}

/-- The three passes as one. -/
theorem freeLog_ok : freeLog ls = .ok (h, evs) ↔
    ∃ e, freeKvh (ls.vs.length + 1) ls.allKvs ls.heap = .ok (h, e) ∧ evs = e ++ [.freeStore] := by
  unfold LogStore.allKvs
  constructor
  · intro hf
    obtain ⟨a, ha, hrest⟩ := Machine.bind_ok_iff.mp hf
    obtain ⟨b, hb, hrest⟩ := Machine.bind_ok_iff.mp hrest
    obtain ⟨c, hc, he⟩ := Machine.bind_ok_iff.mp hrest
    cases he
    refine ⟨a.2 ++ (b.2 ++ c.2), freeKvh_append.mpr ⟨a.1, a.2, _, ha, freeKvh_append.mpr ⟨b.1, b.2, c.2, hb, hc, rfl⟩, rfl⟩, ?_⟩
    rw [List.append_assoc a.2]
  · rintro ⟨e, hf, rfl⟩
    obtain ⟨h1, e1, e2, ha, hrest, rfl⟩ := freeKvh_append.mp hf
    obtain ⟨h2, e3, e4, hb, hc, rfl⟩ := freeKvh_append.mp hrest
    refine Machine.bind_ok_iff.mpr
      ⟨(h1, e1), ha, Machine.bind_ok_iff.mpr ⟨(h2, e3), hb, Machine.bind_ok_iff.mpr ⟨(h, e4), hc, ?_⟩⟩⟩
    show Except.ok _ = Except.ok _
    rw [List.append_assoc e1]

/-- What the steps keep, the whole run keeps. -/
theorem freeLog_inv (hr : FreeRules I) (h0 : I ls.heap []) (hnodup : (ls.allKvs.map LogDataKv.ref).Nodup)
    (hf : freeLog ls = .ok (h, evs)) : ∃ e, I h e ∧ evs = e ++ [.freeStore] := by
  obtain ⟨e, hrun, rfl⟩ := freeLog_ok.mp hf
  have hi := freeKvh_inv hr h0 hnodup (fun _ _ => rfl) hrun
  rw [List.nil_append] at hi
  exact ⟨e, hi, rfl⟩

/-! ## What is freed -/

/-- The trace frees what is freed, once, and behind the unlinking that freed it. -/
structure Ledger (h0 h : LogHeap) (evs : List FreeEv) : Prop where
  buf : h.buf = h0.buf
  values : ∀ v, evs.count (.freeV v) = (h.vFreed v).toNat
  bufs : ∀ v, evs.count (.freeBuf v) = (h.vFreed v && h.buf v).toNat
  keys : ∀ r, evs.count (.freeKv r) = (h.kvFreed r).toNat
  bare : ∀ v, h.vFreed v = true → ∀ t, h.ref t v = none
  unlinked : ∀ t v, h0.ref t v ≠ none → h.ref t v = none → .unlink t v ∈ evs
  valueLast : ∀ t v, h0.ref t v ≠ none → Preceded (.unlink t v) (.freeV v) evs
  bufLast : ∀ t v, h0.ref t v ≠ none → Preceded (.unlink t v) (.freeBuf v) evs
  keyLast : ∀ r, Preceded (.unlinkKv r) (.freeKv r) evs

theorem Ledger.start (h0 : LogHeap) (hv : ∀ v, h0.vFreed v = false) (hk : ∀ r, h0.kvFreed r = false) : Ledger h0 h0 [] where
  buf := rfl
  values := fun v => by rw [hv]; rfl
  bufs := fun v => by rw [hv]; rfl
  keys := fun r => by rw [hk]; rfl
  bare := fun v hf => by rw [hv] at hf; cases hf
  unlinked := fun _ _ h1 h2 => absurd h2 h1
  valueLast := fun _ _ _ => preceded_of_not_mem List.not_mem_nil
  bufLast := fun _ _ _ => preceded_of_not_mem List.not_mem_nil
  keyLast := fun _ => preceded_of_not_mem List.not_mem_nil

theorem mem_bufEvs {a : FreeEv} (ha : a ∈ bufEvs h v) : a = .freeBuf v := by
  unfold bufEvs at ha
  split at ha
  · exact List.mem_singleton.mp ha
  · cases ha

/-- A pointer that is cleared was unlinked just now, or before. -/
theorem Ledger.unlinked_without {h0 : LogHeap} (hi : Ledger h0 h evs) (r : KvRef) {t' : KvType}
    {u : Nat} (h1 : h0.ref t' u ≠ none)
    (h2 : (h.without t r v).ref t' u = none) : .unlink t' u ∈ evs ∨ t' = t ∧ u = v := by
  rw [without_ref] at h2
  by_cases hc : t' = t ∧ u = v
  · exact .inr hc
  · rw [if_neg hc] at h2
    exact .inl (hi.unlinked t' u h1 h2)

/-- A record taken out of one list, and left in another. -/
theorem Ledger.takenOut {h0 : LogHeap} (hi : Ledger h0 h evs) (t : KvType) (r : KvRef) (v : Nat) :
    Ledger h0 (h.without t r v) (evs ++ [.unlink t v]) := by
  refine ⟨hi.buf, ?_, ?_, ?_, ?_, ?_, ?_, ?_, ?_⟩
  · intro u
    rw [List.count_append, hi.values]
    rfl
  · intro u
    rw [List.count_append, hi.bufs]
    rfl
  · intro r'
    rw [List.count_append, hi.keys]
    rfl
  · intro u hu t'
    rw [without_ref, hi.bare u hu t', ite_self]
  · intro t' u h1 h2
    rcases hi.unlinked_without r h1 h2 with hm | ⟨rfl, rfl⟩
    · exact List.mem_append_left _ hm
    · exact List.mem_append_right _ (List.mem_singleton_self _)
  · exact fun t' u h1 => (hi.valueLast t' u h1).append (.inr (preceded_of_not_mem (by simp)))
  · exact fun t' u h1 => (hi.bufLast t' u h1).append (.inr (preceded_of_not_mem (by simp)))
  · exact fun r' => (hi.keyLast r').append (.inr (preceded_of_not_mem (by simp)))

/-- A record without keys is freed. -/
theorem Ledger.freed {h0 : LogHeap} (hi : Ledger h0 h evs) (hlive : h.vFreed v = false) (hb : h.bare v = true) :
    Ledger h0 (h.freed v) (evs ++ (bufEvs h v ++ [.freeV v])) := by
  have hbufs : ∀ u, (bufEvs h v).count (.freeV u) = 0 := fun u =>
    List.count_eq_zero.mpr fun hm => nomatch mem_bufEvs hm
  have hdone : ∀ t u, h0.ref t u ≠ none → u = v → FreeEv.unlink t u ∈ evs := by
    intro t u h1 hu
    subst hu
    exact hi.unlinked t u h1 (bare_iff.mp hb t)
  refine ⟨hi.buf, ?_, ?_, ?_, ?_, ?_, ?_, ?_, ?_⟩
  · intro u
    rw [List.count_append, List.count_append, hbufs, hi.values]
    show _ = (Function.update h.vFreed v true u).toNat
    by_cases hu : u = v
    · rw [hu, Function.update_self, hlive, List.count_cons_self]
      rfl
    · have hno : [FreeEv.freeV v].count (.freeV u) = 0 := List.count_eq_zero.mpr (by simpa using hu)
      rw [Function.update_of_ne hu, hno]
      rfl
  · intro u
    rw [List.count_append, List.count_append, hi.bufs]
    show _ = (Function.update h.vFreed v true u && h.buf u).toNat
    by_cases hu : u = v
    · rw [hu, Function.update_self, hlive]
      unfold bufEvs
      cases h.buf v <;> simp
    · have hno : (bufEvs h v).count (.freeBuf u) = 0 :=
        List.count_eq_zero.mpr fun hm => hu (FreeEv.freeBuf.inj (mem_bufEvs hm))
      rw [Function.update_of_ne hu, hno]
      rfl
  · intro r
    have hno : (bufEvs h v).count (.freeKv r) = 0 := List.count_eq_zero.mpr fun hm => nomatch mem_bufEvs hm
    rw [List.count_append, List.count_append, hno, hi.keys]
    rfl
  · intro u hu t
    by_cases he : u = v
    · rw [he]
      exact bare_iff.mp hb t
    · apply hi.bare u
      rwa [← Function.update_of_ne he true h.vFreed]
  · exact fun t u h1 h2 => List.mem_append_left _ (hi.unlinked t u h1 h2)
  · intro t u h1
    apply (hi.valueLast t u h1).append
    by_cases hu : u = v
    · exact .inl (hdone t u h1 hu)
    · refine .inr (preceded_of_not_mem fun hm => ?_)
      rcases List.mem_append.mp hm with hm | hm
      · exact nomatch mem_bufEvs hm
      · exact hu (FreeEv.freeV.inj (List.mem_singleton.mp hm))
  · intro t u h1
    apply (hi.bufLast t u h1).append
    by_cases hu : u = v
    · exact .inl (hdone t u h1 hu)
    · refine .inr (preceded_of_not_mem fun hm => ?_)
      rcases List.mem_append.mp hm with hm | hm
      · exact hu (FreeEv.freeBuf.inj (mem_bufEvs hm))
      · exact nomatch List.mem_singleton.mp hm
  · refine fun r => (hi.keyLast r).append (.inr (preceded_of_not_mem fun hm => ?_))
    rcases List.mem_append.mp hm with hm | hm
    · exact nomatch mem_bufEvs hm
    · exact nomatch List.mem_singleton.mp hm

/-- A freed key. -/
theorem Ledger.key {h0 : LogHeap} {r : KvRef} (hi : Ledger h0 h evs) (hlive : h.kvFreed r = false) :
    Ledger h0 { h with kvFreed := Function.update h.kvFreed r true } (evs ++ [.unlinkKv r, .freeKv r]) := by
  refine ⟨hi.buf, ?_, ?_, ?_, hi.bare, ?_, ?_, ?_, ?_⟩
  · intro u
    rw [List.count_append, hi.values]
    rfl
  · intro u
    rw [List.count_append, hi.bufs]
    rfl
  · intro r'
    rw [List.count_append, hi.keys]
    show _ = (Function.update h.kvFreed r true r').toNat
    by_cases he : r' = r
    · rw [he, Function.update_self, hlive]
      simp
    · have hno : [FreeEv.unlinkKv r, .freeKv r].count (.freeKv r') = 0 := List.count_eq_zero.mpr (by simpa using he)
      rw [Function.update_of_ne he, hno]
      rfl
  · exact fun t u h1 h2 => List.mem_append_left _ (hi.unlinked t u h1 h2)
  · exact fun t' u h1 => (hi.valueLast t' u h1).append (.inr (preceded_of_not_mem (by simp)))
  · exact fun t' u h1 => (hi.bufLast t' u h1).append (.inr (preceded_of_not_mem (by simp)))
  · intro r'
    apply (hi.keyLast r').append
    right
    by_cases he : r' = r
    · rw [he]
      exact preceded_cons (by simp) _
    · exact preceded_of_not_mem (by simpa using he)

theorem ledgerRules (h0 : LogHeap) : FreeRules (Ledger h0) where
  record := by
    intro t v h h' e evs hi hlive hf
    obtain ⟨r, -, -, ⟨hb, rfl, rfl⟩ | ⟨-, rfl, rfl⟩⟩ := freeRecord_cases hf
    · have hfreed := (hi.takenOut t r v).freed hlive hb
      rw [List.append_assoc] at hfreed
      exact hfreed
    · exact hi.takenOut t r v
  key := Ledger.key

/-- Whatever a run frees it frees once, behind the last list it is taken out of. -/
theorem freeLog_ledger (hnodup : (ls.allKvs.map LogDataKv.ref).Nodup) (hf : freeLog ls = .ok (h, evs)) :
    ∃ e, Ledger ls.heap h e ∧ evs = e ++ [.freeStore] :=
  freeLog_inv (ledgerRules ls.heap) (Ledger.start _ (fun _ => rfl) fun _ => rfl) hnodup hf

/-! ## Messages -/

/-- The record has a block's pointer, and is in no block's list. -/
def Kept (v : Nat) (h : LogHeap) (_ : List FreeEv) : Prop := h.ref .blk v ≠ none ∧ h.linked .blk v = none

/-- Such a record keeps its pointer. -/
theorem keptRules (v : Nat) : FreeRules (Kept v) where
  record := by
    intro t u h h' e evs hi _ hf
    obtain ⟨r, hl, -, hcase⟩ := freeRecord_cases hf
    have hne : ¬ (KvType.blk = t ∧ v = u) := by
      rintro ⟨rfl, rfl⟩
      rw [hi.2] at hl
      cases hl
    have hkept : Kept v (h.without t r u) (evs ++ e) := by
      unfold Kept
      rw [without_ref, without_linked, if_neg hne, if_neg hne]
      exact hi
    rcases hcase with ⟨-, rfl, -⟩ | ⟨-, rfl, -⟩
    · exact hkept
    · exact hkept
  key := fun hi _ => hi

end WfbYa.Log
