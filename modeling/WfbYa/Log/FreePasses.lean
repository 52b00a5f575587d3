/-
  WfbYa.Log.FreePasses — the passes of `free_log` over records that are all frames.

  The records are numbers below `n`; `key t` is the key of type `t` they are under. In the
  pass over the sequence numbers `chain` leads through the list at hand. In the pass over
  the blocks it leads from a block's first record through the rest of that record's
  sequence number.

  - `Lists`: the heap, with the records already taken out of the lists of each type.
  - `Clean`: between two blocks, what is freed is whole sequence numbers.
  - `Doomed`: a record is left that cannot be freed any more.
  - `blocks_freed_iff`: the pass over the blocks frees all records, exactly if the first
    records of the sequence numbers are in blocks of their own, the least ones.
-/

import WfbYa.Log.FreeLog

namespace WfbYa.Log

open WfbYa.Lib WfbYa.Lib.Links

variable {n m : Nat} {key : KvType → Nat → Nat} {Z : KvType → List Nat} {D : List KvRef} {h h' : LogHeap} {e : List FreeEv}
  {t : KvType} {v : Nat}

/-! ## The heap -/

/-- `Z t` have been taken out of the lists of type `t`. -/
structure Threads (n : Nat) (key : KvType → Nat → Nat) (Z : KvType → List Nat) (h : LogHeap) : Prop where
  vh : ∀ t k, h.vh ⟨t, k⟩ = (withKey n (key t) k).filter fun v => v ∉ Z t
  linked : ∀ t, ∀ v < n, h.linked t v = if v ∈ Z t then none else some ⟨t, key t v⟩
  next : ∀ v < n, h.next v = after (withKey n (key .seq) (key .seq v)) v
  ref : ∀ t, ∀ v < n, h.ref t v = none ↔ v ∈ Z t

/-- Those taken out of all lists are freed, and the keys `D`. -/
structure Lists (n : Nat) (key : KvType → Nat → Nat) (Z : KvType → List Nat) (D : List KvRef) (h : LogHeap) : Prop
    extends Threads n key Z h where
  freed : ∀ v < n, h.vFreed v = true ↔ ∀ t, v ∈ Z t
  keys : ∀ r, h.kvFreed r = true ↔ r ∈ D

theorem Lists.mem_vh (hl : Lists n key Z D h) {k : Nat} : v ∈ h.vh ⟨t, k⟩ ↔ v < n ∧ key t v = k ∧ v ∉ Z t := by
  rw [hl.vh, List.mem_filter, mem_withKey, decide_eq_true_eq, and_assoc]

theorem Lists.live (hl : Lists n key Z D h) (hv : v < n) (hz : v ∉ Z t) : h.vFreed v = false := by
  apply Bool.eq_false_iff.mpr
  intro hf
  exact hz ((hl.freed v hv).mp hf t)

/-- Nothing that taking a record out writes to is freed, as long as its key is not. -/
theorem Lists.not_dangling (hl : Lists n key Z D h) {k : Nat} (hd : (⟨t, k⟩ : KvRef) ∉ D) : h.dangling ⟨t, k⟩ v = false := by
  have hlive : ∀ u ∈ h.vh ⟨t, k⟩, h.vFreed u = false := by
    intro u hu
    obtain ⟨hn, -, hz⟩ := hl.mem_vh.mp hu
    exact hl.live hn hz
  have hkv : h.kvFreed ⟨t, k⟩ = false := Bool.eq_false_iff.mpr fun hf => hd ((hl.keys _).mp hf)
  unfold LogHeap.dangling
  rw [Bool.or_eq_false_iff]
  constructor
  · split
    · rename_i u hu
      exact hlive u (mem_of_before hu)
    · exact hkv
  · cases ha : after (h.vh ⟨t, k⟩) v with
    | none => rfl
    | some u => exact hlive u (mem_of_after ha)

theorem freeRecord_ok {r : KvRef} (hlinked : h.linked t v = some r) (hd : h.dangling r v = false) :
    ∃ h' e, freeRecord t v h = .ok (h', e) := by
  have hu : h.unlink t v = .ok (h.without t r v) := by
    unfold LogHeap.unlink
    rw [hlinked]
    simp only [hd]
    rfl
  cases hb : (h.without t r v).bare v with
  | true => exact ⟨_, _, Machine.bind_ok_iff.mpr ⟨_, hu, by rw [if_pos hb]; rfl⟩⟩
  | false => exact ⟨_, _, Machine.bind_ok_iff.mpr ⟨_, hu, by rw [if_neg (Bool.eq_false_iff.mp hb)]; rfl⟩⟩

theorem mem_taken (Z : KvType → List Nat) (t t' : KvType) (v u : Nat) :
    u ∈ Function.update Z t (v :: Z t) t' ↔ u ∈ Z t' ∨ t' = t ∧ u = v := by
  by_cases ht : t' = t
  · subst ht
    rw [Function.update_self, List.mem_cons]
    simp [or_comm]
  · rw [Function.update_of_ne ht]
    simp [ht]

/-- What `TAILQ_REMOVE` leaves, of a record that is at the front if `chain` links it. -/
theorem Threads.without (hl : Threads n key Z h) (hhead : t = .seq → before (h.vh ⟨t, key t v⟩) v = none) :
    Threads n key (Function.update Z t (v :: Z t)) (h.without t ⟨t, key t v⟩ v) := by
  refine ⟨?_, ?_, ?_, ?_⟩
  · intro t' k
    show Function.update h.vh ⟨t, key t v⟩ ((h.vh ⟨t, key t v⟩).erase v) ⟨t', k⟩ = _
    by_cases hr : (⟨t', k⟩ : KvRef) = ⟨t, key t v⟩
    · obtain ⟨rfl, rfl⟩ := KvRef.mk.inj hr
      have hnodup : (h.vh ⟨t', key t' v⟩).Nodup := by
        rw [hl.vh]
        exact (withKey_nodup ..).filter _
      rw [Function.update_self, Function.update_self, hnodup.erase_eq_filter, hl.vh, List.filter_filter]
      apply List.filter_congr
      intro u _
      by_cases he : u = v
      · simp [he]
      · simp [he]
    · rw [Function.update_of_ne hr, hl.vh]
      apply List.filter_congr
      intro u hu
      obtain ⟨-, hk⟩ := mem_withKey.mp hu
      rw [decide_eq_decide, mem_taken, not_or]
      refine ⟨fun hz => ⟨hz, ?_⟩, fun hz => hz.1⟩
      rintro ⟨rfl, rfl⟩
      exact hr (by rw [hk])
  · intro t' u hu
    rw [without_linked, hl.linked t' u hu]
    by_cases hc : t' = t ∧ u = v
    · rw [if_pos hc, if_pos ((mem_taken ..).mpr (.inr hc))]
    · rw [if_neg hc]
      by_cases hz : u ∈ Z t'
      · rw [if_pos hz, if_pos ((mem_taken ..).mpr (.inl hz))]
      · rw [if_neg hz, if_neg fun hm => ((mem_taken ..).mp hm).elim hz hc]
  · intro u hu
    rw [← hl.next u hu]
    show (if t = .seq then relink h.next (before (h.vh ⟨t, key t v⟩) v) (after (h.vh ⟨t, key t v⟩) v) else h.next) u = h.next u
    split
    · rename_i ht
      rw [hhead ht]
      rfl
    · rfl
  · intro t' u hu
    rw [without_ref, mem_taken]
    by_cases hc : t' = t ∧ u = v
    · simp [hc]
    · rw [if_neg hc, hl.ref t' u hu]
      simp [hc]

/-- Taking a record out of the list of one type. -/
theorem Lists.record (hl : Lists n key Z D h) (hv : v < n) (hz : v ∉ Z t) (hd : (⟨t, key t v⟩ : KvRef) ∉ D)
    (hhead : t = .seq → before (h.vh ⟨t, key t v⟩) v = none) :
    ∃ h' e, freeRecord t v h = .ok (h', e) ∧ Lists n key (Function.update Z t (v :: Z t)) D h' := by
  have hlinked : h.linked t v = some ⟨t, key t v⟩ := by rw [hl.linked t v hv, if_neg hz]
  obtain ⟨h', e, hf⟩ := freeRecord_ok hlinked (hl.not_dangling hd)
  refine ⟨h', e, hf, ?_⟩
  obtain ⟨r, hr, -, hcase⟩ := freeRecord_cases hf
  obtain rfl := Option.some.inj (hlinked.symm.trans hr)
  have hout := hl.toThreads.without hhead
  have hlive := hl.live hv hz
  have hbare : (h.without t ⟨t, key t v⟩ v).bare v = true ↔ ∀ t', v ∈ Function.update Z t (v :: Z t) t' := by
    rw [bare_iff]
    exact forall_congr' fun t' => hout.ref t' v hv
  have hothers : ∀ u < n, u ≠ v → (h.vFreed u = true ↔ ∀ t', u ∈ Function.update Z t (v :: Z t) t') := by
    intro u hu hne
    rw [hl.freed u hu]
    apply forall_congr'
    intro t'
    rw [mem_taken]
    simp [hne]
  rcases hcase with ⟨hb, rfl, -⟩ | ⟨hb, rfl, -⟩
  · refine ⟨⟨hout.vh, hout.linked, hout.next, hout.ref⟩, fun u hu => ?_, hl.keys⟩
    show Function.update h.vFreed v true u = true ↔ _
    by_cases he : u = v
    · rw [he]
      exact iff_of_true (Function.update_self ..) (hbare.mp hb)
    · rw [Function.update_of_ne he]
      exact hothers u hu he
  · refine ⟨hout, fun u hu => ?_, hl.keys⟩
    show h.vFreed u = true ↔ _
    by_cases he : u = v
    · rw [he, hlive]
      refine iff_of_false Bool.false_ne_true fun hall => ?_
      rw [hbare.mpr hall] at hb
      cases hb
    · exact hothers u hu he

/-! ## Following a list -/

/-- The loop goes through the rest of a sequence number. In the pass over the sequence
    numbers it goes through all of it. -/
theorem Lists.chase {s : Nat} {a l : List Nat} (hl : Lists n key Z D h) (hs : withKey n (key .seq) s = a ++ l)
    (hz : ∀ v ∈ l, v ∉ Z t) (hd : ∀ v ∈ l, (⟨t, key t v⟩ : KvRef) ∉ D) (hfront : t = .seq → ∀ u ∈ a, u ∈ Z .seq)
    (hm : l.length ≤ m) : ∃ h' e Z', freeVs t m l.head? h = .ok (h', e) ∧ Lists n key Z' D h' ∧ (∀ t' ≠ t, Z' t' = Z t') ∧
      ∀ v, v ∈ Z' t ↔ v ∈ Z t ∨ v ∈ l := by
  induction l generalizing a m Z h with
  | nil =>
    refine ⟨h, [], Z, ?_, hl, fun _ _ => rfl, fun v => by simp⟩
    cases m <;> rfl
  | cons v l ih =>
    obtain ⟨m, rfl⟩ : ∃ k, m = k + 1 := ⟨m - 1, by rw [List.length_cons] at hm; omega⟩
    have hmem : v ∈ withKey n (key .seq) s := by
      rw [hs]
      exact List.mem_append_right _ List.mem_cons_self
    obtain ⟨hv, rfl⟩ := mem_withKey.mp hmem
    have hnodup := withKey_nodup n (key .seq) (key .seq v)
    rw [hs] at hnodup
    have hna : v ∉ a := fun h => (List.nodup_append.mp hnodup).2.2 v h v List.mem_cons_self rfl
    have hnl : v ∉ l := (List.nodup_cons.mp (List.nodup_append.mp hnodup).2.1).1
    have hzv := hz v List.mem_cons_self
    have hnext : h.next v = l.head? := by rw [hl.next v hv, hs, after_append hna]
    obtain ⟨h1, e1, hrec, hl1⟩ := hl.record hv hzv (hd v List.mem_cons_self) fun ht => by
      subst ht
      have hout : a.filter (fun u => u ∉ Z .seq) = [] := by
        apply List.filter_eq_nil_iff.mpr
        intro u hu
        simp [hfront rfl u hu]
      rw [hl.vh, hs, List.filter_append, hout, List.filter_cons, if_pos (decide_eq_true hzv)]
      exact before_head v _
    obtain ⟨h', e, Z', hrun, hl', hsame, hZ⟩ := ih (a := a ++ [v]) (m := m) hl1
      (by rw [hs, List.append_assoc]; rfl)
      (fun u hu hc => by
        rcases (mem_taken ..).mp hc with hc | ⟨-, rfl⟩
        · exact hz u (List.mem_cons_of_mem v hu) hc
        · exact hnl hu)
      (fun u hu => hd u (List.mem_cons_of_mem v hu))
      (fun ht u hu => (mem_taken ..).mpr
        ((List.mem_append.mp hu).imp (hfront ht u) fun hu => ⟨ht.symm, List.mem_singleton.mp hu⟩))
      (by rw [List.length_cons] at hm; omega)
    refine ⟨h', e1 ++ e, Z', ?_, hl', fun t' ht => (hsame t' ht).trans (Function.update_of_ne ht ..), fun u => ?_⟩
    · show freeVs t (m + 1) (some v) h = _
      unfold freeVs
      rw [if_neg (by rw [hl.live hv hzv]; exact Bool.false_ne_true)]
      refine Machine.bind_ok_iff.mpr ⟨(h1, e1), hrec, Machine.bind_ok_iff.mpr ⟨(h', e), ?_, rfl⟩⟩
      rw [hnext]
      exact hrun
    · rw [hZ, mem_taken, List.mem_cons]
      simp [or_assoc]

/-- A key is freed. -/
theorem Lists.freeKey (hl : Lists n key Z D h) (r : KvRef) :
    Lists n key Z (r :: D) { h with kvFreed := Function.update h.kvFreed r true } := by
  refine ⟨⟨hl.vh, hl.linked, hl.next, hl.ref⟩, hl.freed, fun r' => ?_⟩
  show Function.update h.kvFreed r true r' = true ↔ _
  by_cases he : r' = r
  · rw [he]
    exact iff_of_true (Function.update_self ..) List.mem_cons_self
  · rw [Function.update_of_ne he, hl.keys, List.mem_cons]
    simp [he]

/-! ## The pass over the sequence numbers -/

theorem withKey_length_le (n : Nat) (key : Nat → Nat) (k : Nat) : (withKey n key k).length ≤ n := by
  have hle := List.length_filter_le (fun v => decide (key v = k)) (List.range n)
  rwa [List.length_range] at hle

/-- Every record is taken out of its sequence number's list, and every such key is freed. -/
theorem Lists.seqPass {kvs : List LogDataKv} (hl : Lists n key Z D h) (ht : ∀ kv ∈ kvs, kv.type = .seq)
    (hnodup : (kvs.map LogDataKv.key).Nodup) (hz : ∀ kv ∈ kvs, ∀ v < n, key .seq v = kv.key → v ∉ Z .seq)
    (hd : ∀ kv ∈ kvs, (⟨.seq, kv.key⟩ : KvRef) ∉ D) (hm : n ≤ m) :
    ∃ h' e Z' D', freeKvh m kvs h = .ok (h', e) ∧ Lists n key Z' D' h' ∧ (∀ t ≠ .seq, Z' t = Z t) ∧
      (∀ v < n, v ∈ Z' .seq ↔ v ∈ Z .seq ∨ key .seq v ∈ kvs.map LogDataKv.key) ∧
        ∀ b, (⟨.blk, b⟩ : KvRef) ∈ D' ↔ (⟨.blk, b⟩ : KvRef) ∈ D := by
  induction kvs generalizing Z D h with
  | nil => exact ⟨h, [], Z, D, rfl, hl, fun _ _ => rfl, fun v _ => by simp, fun _ => Iff.rfl⟩
  | cons kv kvs ih =>
    have hkt := ht kv List.mem_cons_self
    have hkz := hz kv List.mem_cons_self
    rw [List.map_cons, List.nodup_cons] at hnodup
    have href : kv.ref = ⟨.seq, kv.key⟩ := by unfold LogDataKv.ref; rw [hkt]
    have hvh : h.vh kv.ref = withKey n (key .seq) kv.key := by
      rw [href, hl.vh, List.filter_eq_self]
      intro v hv
      obtain ⟨hn, hk⟩ := mem_withKey.mp hv
      exact decide_eq_true (hkz v hn hk)
    obtain ⟨h1, e1, Z1, hrun1, hl1, hsame1, hZ1⟩ := @Lists.chase n m key Z D h .seq kv.key [] (withKey n (key .seq) kv.key) hl rfl
      (fun v hv => hkz v (mem_withKey.mp hv).1 (mem_withKey.mp hv).2)
      (fun v hv => by rw [(mem_withKey.mp hv).2]; exact hd kv List.mem_cons_self)
      (fun _ u hu => absurd hu List.not_mem_nil) (Nat.le_trans (withKey_length_le ..) hm)
    obtain ⟨h', e, Z', D', hrun, hl', hsame, hZ, hD⟩ := ih (hl1.freeKey kv.ref) (fun kv' hk => ht kv' (List.mem_cons_of_mem _ hk))
      hnodup.2
      (fun kv' hk v hv hkey hmem => by
        rcases (hZ1 v).mp hmem with hmem | hmem
        · exact hz kv' (List.mem_cons_of_mem _ hk) v hv hkey hmem
        · apply hnodup.1
          rw [← (mem_withKey.mp hmem).2, hkey]
          exact List.mem_map_of_mem hk)
      (fun kv' hk hmem => by
        rcases List.mem_cons.mp hmem with he | hmem
        · rw [href] at he
          exact hnodup.1 ((KvRef.mk.inj he).2 ▸ List.mem_map_of_mem hk)
        · exact hd kv' (List.mem_cons_of_mem _ hk) hmem)
    refine ⟨h', _, Z', D', Machine.bind_ok_iff.mpr ⟨(h1, e1), ?_, Machine.bind_ok_iff.mpr ⟨(h', e), hrun, rfl⟩⟩, hl',
      fun t ht' => (hsame t ht').trans (hsame1 t ht'), fun v hv => ?_, fun b => ?_⟩
    · rw [hkt, hvh]
      exact hrun1
    · rw [hZ v hv, hZ1, List.map_cons, List.mem_cons, mem_withKey]
      simp [hv, or_assoc]
    · rw [hD, List.mem_cons, href]
      simp

/-! ## Records that are lost -/

/-- A record is left whose `chain` leads to a freed record, or which heads a freed block's
    list. -/
inductive Doomed (n : Nat) (h : LogHeap) : Prop
  | stale {u v : Nat} : u < n → h.vFreed u = false → h.next u = some v → h.vFreed v = true → Doomed n h
  | orphan {u : Nat} {r : KvRef} {l : List Nat} : u < n → h.vFreed u = false → h.linked .blk u = some r → h.vh r = u :: l →
      h.kvFreed r = true → Doomed n h

theorem Doomed.left (hd : Doomed n h) : ∃ u < n, h.vFreed u = false := by
  cases hd with
  | stale hu hlive _ _ => exact ⟨_, hu, hlive⟩
  | orphan hu hlive _ _ _ => exact ⟨_, hu, hlive⟩

theorem Doomed.freeKey (hd : Doomed n h) (r : KvRef) : Doomed n { h with kvFreed := Function.update h.kvFreed r true } := by
  cases hd with
  | stale hu hlive hnext hv => exact .stale hu hlive hnext hv
  | @orphan u r' l hu hlive hlinked hvh hr =>
    refine .orphan hu hlive hlinked hvh ?_
    show Function.update h.kvFreed r true r' = true
    by_cases he : r' = r
    · rw [he, Function.update_self]
    · rw [Function.update_of_ne he]
      exact hr

theorem freeRecord_vFreed (hf : freeRecord t v h = .ok (h', e)) : (∀ u ≠ v, h'.vFreed u = h.vFreed u) ∧
    ∀ u, h.vFreed u = true → h'.vFreed u = true := by
  obtain ⟨r, -, -, ⟨-, rfl, -⟩ | ⟨-, rfl, -⟩⟩ := freeRecord_cases hf
  · refine ⟨fun u hne => Function.update_of_ne hne .., fun u hu => ?_⟩
    show Function.update h.vFreed v true u = true
    by_cases he : u = v
    · rw [he, Function.update_self]
    · rw [Function.update_of_ne he]
      exact hu
  · exact ⟨fun _ _ => rfl, fun _ hu => hu⟩

/-- The loop does not get past a freed record. -/
theorem freeVs_freed (hv : h.vFreed v = true) : freeVs t m (some v) h ≠ .ok (h', e) := by
  intro hf
  cases m with
  | zero => cases hf
  | succ m =>
    unfold freeVs at hf
    rw [if_pos hv] at hf
    cases hf

/-- Following a list in the pass over the blocks saves nothing. -/
theorem Doomed.chase {o : Option Nat} (hd : Doomed n h) (hf : freeVs .blk m o h = .ok (h', e)) : Doomed n h' := by
  induction m generalizing o h e with
  | zero =>
    cases o with
    | none =>
      cases hf
      exact hd
    | some c => cases hf
  | succ m ih =>
    cases o with
    | none =>
      cases hf
      exact hd
    | some c =>
      unfold freeVs at hf
      split at hf
      · cases hf
      · obtain ⟨p, hp, hrest⟩ := Machine.bind_ok_iff.mp hf
        obtain ⟨q, hq, he⟩ := Machine.bind_ok_iff.mp hrest
        cases he
        obtain ⟨hothers, hmono⟩ := freeRecord_vFreed hp
        obtain ⟨r', hlinked', hdang, hcase⟩ := freeRecord_cases hp
        have hheap : p.1.next = h.next ∧ p.1.linked = (h.without .blk r' c).linked ∧
            p.1.vh = Function.update h.vh r' ((h.vh r').erase c) ∧ p.1.kvFreed = h.kvFreed := by
          rcases hcase with ⟨-, he, -⟩ | ⟨-, he, -⟩
          · rw [he]
            exact ⟨rfl, rfl, rfl, rfl⟩
          · rw [he]
            exact ⟨rfl, rfl, rfl, rfl⟩
        obtain ⟨hnext', hlinks, hvh', hkeys⟩ := hheap
        cases hd with
        | @stale u v hu hlive hnext hv =>
          by_cases hc : c = u
          · -- the loop goes on to the freed record
            rw [hc, hnext] at hq
            exact absurd hq (freeVs_freed (hmono v hv))
          · refine ih (.stale hu ?_ (by rw [hnext']; exact hnext) (hmono v hv)) hq
            rw [hothers u (Ne.symm hc)]
            exact hlive
        | @orphan u r l hu hlive hlinked hvh hr =>
          by_cases hc : c = u
          · -- the head of a freed list is written
            subst hc
            obtain rfl := Option.some.inj (hlinked.symm.trans hlinked')
            unfold LogHeap.dangling at hdang
            rw [hvh, before_head, Bool.or_eq_false_iff] at hdang
            exact absurd hr (Bool.eq_false_iff.mp hdang.1)
          · have hlist : ∃ l', p.1.vh r = u :: l' := by
              rw [hvh']
              by_cases hr' : r = r'
              · subst hr'
                refine ⟨l.erase c, ?_⟩
                rw [Function.update_self, hvh, List.erase_cons_tail (by simpa using Ne.symm hc)]
              · exact ⟨l, by rw [Function.update_of_ne hr', hvh]⟩
            obtain ⟨l', hl'⟩ := hlist
            refine ih (.orphan hu ?_ ?_ hl' (by rw [hkeys]; exact hr)) hq
            · rw [hothers u (Ne.symm hc)]
              exact hlive
            · rw [hlinks, without_linked, if_neg fun he => hc he.2.symm]
              exact hlinked

theorem Doomed.pass {kvs : List LogDataKv} (hd : Doomed n h) (ht : ∀ kv ∈ kvs, kv.type = .blk)
    (hf : freeKvh m kvs h = .ok (h', e)) : Doomed n h' := by
  induction kvs generalizing h e with
  | nil =>
    cases hf
    exact hd
  | cons kv kvs ih =>
    obtain ⟨p, hp, hrest⟩ := Machine.bind_ok_iff.mp hf
    obtain ⟨q, hq, he⟩ := Machine.bind_ok_iff.mp hrest
    cases he
    rw [ht kv List.mem_cons_self] at hp
    exact ih ((hd.chase hp).freeKey kv.ref) (fun kv' hk => ht kv' (List.mem_cons_of_mem _ hk)) hq

/-! ## The pass over the blocks -/

/-- The first record of its sequence number. -/
def Leader (n : Nat) (key : KvType → Nat → Nat) (v : Nat) : Prop := v < n ∧ ∀ u < v, key .seq u ≠ key .seq v

/-- The first records of the sequence numbers are in blocks of their own, the least ones. -/
structure Apart (n : Nat) (key : KvType → Nat → Nat) : Prop where
  least : ∀ v, Leader n key v → ∀ w < n, key .seq w = key .seq v → key .blk v ≤ key .blk w
  apart : ∀ v w, Leader n key v → Leader n key w → key .blk v = key .blk w → key .seq v = key .seq w

theorem exists_leader (hv : v < n) : ∃ u, Leader n key u ∧ key .seq u = key .seq v ∧ u ≤ v := by
  induction v using Nat.strongRecOn with
  | ind v ih =>
    by_cases hl : ∀ u < v, key .seq u ≠ key .seq v
    · exact ⟨v, ⟨hv, hl⟩, rfl, Nat.le_refl v⟩
    · simp only [not_forall, not_not] at hl
      obtain ⟨u, hu, he⟩ := hl
      obtain ⟨w, hw, hws, hle⟩ := ih u hu (Nat.lt_trans hu hv)
      exact ⟨w, hw, hws.trans he, Nat.le_trans hle (Nat.le_of_lt hu)⟩

/-- Between two blocks: `X` are freed, and the blocks `B`. -/
structure Clean (n : Nat) (key : KvType → Nat → Nat) (X B : List Nat) : Prop where
  closed : ∀ v ∈ X, ∀ w < n, key .seq w = key .seq v → w ∈ X
  done : ∀ v < n, key .blk v ∈ B → v ∈ X
  least : ∀ v ∈ X, Leader n key v → key .blk v ∈ B ∧ ∀ w < n, key .seq w = key .seq v → key .blk v ≤ key .blk w
  apart : ∀ v ∈ X, ∀ w ∈ X, Leader n key v → Leader n key w → key .blk v = key .blk w → key .seq v = key .seq w

variable {X X' B : List Nat} {b : Nat}

/-- A block that has nothing left. -/
theorem Clean.empty (hc : Clean n key X B) (hall : ∀ v < n, key .blk v = b → v ∈ X) : Clean n key X (b :: B) where
  closed := hc.closed
  done := by
    intro v hv hb
    rcases List.mem_cons.mp hb with hb | hb
    · exact hall v hv hb
    · exact hc.done v hv hb
  least := fun v hv hl => ⟨List.mem_cons_of_mem b (hc.least v hv hl).1, (hc.least v hv hl).2⟩
  apart := hc.apart

/-- A block that is freed with one sequence number. -/
theorem Clean.grown (hc : Clean n key X B) (hlead : Leader n key v) (hb : key .blk v ∉ B)
    (hahead : ∀ w < n, key .blk w ∈ B ∨ key .blk v ≤ key .blk w) (hv : v ∉ X)
    (hX : ∀ w, w ∈ X' ↔ w ∈ X ∨ w < n ∧ key .seq w = key .seq v) (hall : ∀ w < n, key .blk w = key .blk v → w ∈ X') :
    Clean n key X' (key .blk v :: B) := by
  have hnew : ∀ w < n, key .seq w = key .seq v → key .blk v ≤ key .blk w := by
    intro w hw hs
    apply (hahead w hw).resolve_left
    intro hm
    exact hv (hc.closed w (hc.done w hw hm) v hlead.1 hs.symm)
  have hone : ∀ w, Leader n key w → key .seq w = key .seq v → w = v := by
    intro w hw hs
    rcases Nat.lt_trichotomy w v with hlt | he | hlt
    · exact absurd hs (hlead.2 w hlt)
    · exact he
    · exact absurd hs.symm (hw.2 v hlt)
  refine ⟨?_, ?_, ?_, ?_⟩
  · intro w hw u hu hs
    rcases (hX w).mp hw with hw | ⟨-, hw⟩
    · exact (hX u).mpr (.inl (hc.closed w hw u hu hs))
    · exact (hX u).mpr (.inr ⟨hu, hs.trans hw⟩)
  · intro w hw hm
    rcases List.mem_cons.mp hm with hm | hm
    · exact hall w hw hm
    · exact (hX w).mpr (.inl (hc.done w hw hm))
  · intro w hw hl
    rcases (hX w).mp hw with hw | ⟨-, hs⟩
    · exact ⟨List.mem_cons_of_mem _ (hc.least w hw hl).1, (hc.least w hw hl).2⟩
    · obtain rfl := hone w hl hs
      exact ⟨List.mem_cons_self, hnew⟩
  · intro w hw u hu hlw hlu he
    rcases (hX w).mp hw with hw | ⟨-, hsw⟩
    · rcases (hX u).mp hu with hu | ⟨-, hsu⟩
      · exact hc.apart w hw u hu hlw hlu he
      · rw [hone u hlu hsu] at he
        exact absurd (hc.least w hw hlw).1 (he ▸ hb)
    · rcases (hX u).mp hu with hu | ⟨-, hsu⟩
      · rw [hone w hlw hsw] at he
        exact absurd (hc.least u hu hlu).1 (he ▸ hb)
      · exact hsw.trans hsu.symm

/-- If the first records are apart, those of the sequence numbers left in the next block are
    in it. -/
theorem Clean.leader (hc : Clean n key X B) (ha : Apart n key) (hahead : ∀ w < n, key .blk w ∈ B ∨ b ≤ key .blk w) (hv : v < n)
    (hb : key .blk v = b) (hx : v ∉ X) :
    ∃ u, Leader n key u ∧ key .seq u = key .seq v ∧ u ≤ v ∧ key .blk u = b ∧ u ∉ X := by
  obtain ⟨u, hu, hs, hle⟩ := @exists_leader n key v hv
  have hux : u ∉ X := fun hm => hx (hc.closed u hm v hv hs.symm)
  refine ⟨u, hu, hs, hle, ?_, hux⟩
  have h1 := ha.least u hu v hv hs.symm
  have h2 := (hahead u hu.1).resolve_left fun hm => hux (hc.done u hu.1 hm)
  omega

/-- In the pass: the blocks `B` are behind, those of `kvs` are ahead. -/
structure BlkPass (n : Nat) (key : KvType → Nat → Nat) (Z : KvType → List Nat) (D : List KvRef)
    (B : List Nat) (kvs : List LogDataKv)
    (h : LogHeap) : Prop where
  lists : Lists n key Z D h
  clean : Clean n key (Z .blk) B
  others : ∀ t ≠ .blk, ∀ v < n, v ∈ Z t
  dead : ∀ b, (⟨.blk, b⟩ : KvRef) ∈ D ↔ b ∈ B
  types : ∀ kv ∈ kvs, kv.type = .blk
  sorted : (kvs.map LogDataKv.key).Pairwise (· < ·)
  all : ∀ v < n, key .blk v ∈ B ∨ key .blk v ∈ kvs.map LogDataKv.key
  fresh : ∀ k ∈ kvs.map LogDataKv.key, k ∉ B

variable {kv : LogDataKv} {kvs : List LogDataKv} {Z' : KvType → List Nat}

theorem BlkPass.ref (hp : BlkPass n key Z D B (kv :: kvs) h) : kv.ref = ⟨.blk, kv.key⟩ := by
  unfold LogDataKv.ref
  rw [hp.types kv List.mem_cons_self]

theorem BlkPass.ahead (hp : BlkPass n key Z D B (kv :: kvs) h) : ∀ w < n, key .blk w ∈ B ∨ kv.key ≤ key .blk w := by
  intro w hw
  rcases hp.all w hw with hb | hb
  · exact .inl hb
  · right
    rcases List.mem_cons.mp hb with he | hb
    · exact Nat.le_of_eq he.symm
    · exact Nat.le_of_lt (List.rel_of_pairwise_cons hp.sorted hb)

/-- The pass goes on behind the block. -/
theorem BlkPass.next (hp : BlkPass n key Z D B (kv :: kvs) h) (hl : Lists n key Z' D h') (hsame : ∀ t ≠ .blk, Z' t = Z t)
    (hc : Clean n key (Z' .blk) (kv.key :: B)) :
    BlkPass n key Z' (kv.ref :: D) (kv.key :: B) kvs { h' with kvFreed := Function.update h'.kvFreed kv.ref true } where
  lists := hl.freeKey kv.ref
  clean := hc
  others := by
    intro t ht v hv
    rw [hsame t ht]
    exact hp.others t ht v hv
  dead := by
    intro b
    rw [List.mem_cons, List.mem_cons, hp.dead, hp.ref]
    simp
  types := fun kv' hk => hp.types kv' (List.mem_cons_of_mem kv hk)
  sorted := (List.pairwise_cons.mp hp.sorted).2
  all := by
    intro v hv
    rcases hp.all v hv with hb | hb
    · exact .inl (List.mem_cons_of_mem _ hb)
    · rcases List.mem_cons.mp hb with he | hb
      · exact .inl (List.mem_cons.mpr (.inl he))
      · exact .inr hb
  fresh := by
    intro k hk hm
    rcases List.mem_cons.mp hm with he | hm
    · exact absurd (List.rel_of_pairwise_cons hp.sorted hk) (he ▸ Nat.lt_irrefl k)
    · exact hp.fresh k (List.mem_cons_of_mem _ hk) hm

/-- What the loop frees of a block that has records left. -/
structure Chased (n : Nat) (key : KvType → Nat → Nat) (Z Z' : KvType → List Nat) (D : List KvRef) (v : Nat) (a l : List Nat)
    (h' : LogHeap) : Prop where
  split : withKey n (key .seq) (key .seq v) = a ++ v :: l
  lists : Lists n key Z' D h'
  same : ∀ t ≠ .blk, Z' t = Z t
  taken : ∀ w, w ∈ Z' .blk ↔ w ∈ Z .blk ∨ w ∈ v :: l

theorem BlkPass.chase {R : List Nat} (hp : BlkPass n key Z D B (kv :: kvs) h) (hR : h.vh kv.ref = v :: R) (hm : n ≤ m) :
    ∃ h' e Z' a l, freeVs kv.type m (h.vh kv.ref).head? h = .ok (h', e) ∧ Chased n key Z Z' D v a l h' := by
  have hv : v ∈ h.vh ⟨.blk, kv.key⟩ := by
    rw [← hp.ref, hR]
    exact List.mem_cons_self
  obtain ⟨hn, -, hx⟩ := hp.lists.mem_vh.mp hv
  obtain ⟨a, l, hs⟩ := List.append_of_mem (mem_withKey.mpr ⟨hn, rfl⟩ : v ∈ withKey n (key .seq) (key .seq v))
  have hmem : ∀ w ∈ v :: l, w < n ∧ w ∉ Z .blk := by
    intro w hw
    have hw' : w ∈ withKey n (key .seq) (key .seq v) := by
      rw [hs]
      exact List.mem_append_right a hw
    obtain ⟨hwn, hws⟩ := mem_withKey.mp hw'
    exact ⟨hwn, fun hwx => hx (hp.clean.closed w hwx v hn hws.symm)⟩
  have hlen : (v :: l).length ≤ m := by
    have hle := withKey_length_le n (key .seq) (key .seq v)
    rw [hs, List.length_append] at hle
    omega
  obtain ⟨h', e, Z', hrun, hl, hsame, hZ⟩ := hp.lists.chase hs (fun w hw => (hmem w hw).2)
    (fun w hw hd => (hmem w hw).2 (hp.clean.done w (hmem w hw).1 ((hp.dead _).mp hd))) (fun ht => nomatch ht) hlen
  refine ⟨h', e, Z', a, l, ?_, hs, hl, hsame, hZ⟩
  rw [hp.types kv List.mem_cons_self, hR]
  exact hrun

/-- The loop has freed the sequence number and the block. -/
def Fine (n : Nat) (key : KvType → Nat → Nat) (Z' : KvType → List Nat) (b : Nat) (a : List Nat) : Prop :=
  a = [] ∧ ∀ w < n, key .blk w = b → w ∈ Z' .blk

variable {R a l : List Nat}

theorem Chased.mem_seq (hch : Chased n key Z Z' D v a l h') {w : Nat} (hw : w < n) (hs : key .seq w = key .seq v) :
    w ∈ a ∨ w ∈ v :: l := by
  rw [← List.mem_append, ← hch.split]
  exact mem_withKey.mpr ⟨hw, hs⟩

/-- The sequence number's records in front of the first one are older. -/
theorem Chased.front (hch : Chased n key Z Z' D v a l h') {u : Nat} (hu : u ∈ a) : u < n ∧ key .seq u = key .seq v ∧ u < v := by
  have hm : u ∈ withKey n (key .seq) (key .seq v) := by
    rw [hch.split]
    exact List.mem_append_left _ hu
  have hsorted := withKey_sorted n (key .seq) (key .seq v)
  rw [hch.split] at hsorted
  exact ⟨(mem_withKey.mp hm).1, (mem_withKey.mp hm).2, (List.pairwise_append.mp hsorted).2.2 u hu v List.mem_cons_self⟩

theorem BlkPass.grown (hp : BlkPass n key Z D B (kv :: kvs) h) (hR : h.vh kv.ref = v :: R) (hch : Chased n key Z Z' D v a l h')
    (hf : Fine n key Z' kv.key a) : Clean n key (Z' .blk) (kv.key :: B) := by
  have hv : v ∈ h.vh ⟨.blk, kv.key⟩ := by
    rw [← hp.ref, hR]
    exact List.mem_cons_self
  obtain ⟨hn, hb, hx⟩ := hp.lists.mem_vh.mp hv
  obtain ⟨rfl, hall⟩ := hf
  have hsplit := hch.split
  rw [List.nil_append] at hsplit
  have hlead : Leader n key v := by
    refine ⟨hn, fun u hu hs => ?_⟩
    have hm := mem_withKey.mpr ⟨Nat.lt_trans hu hn, hs⟩
    have hsorted := withKey_sorted n (key .seq) (key .seq v)
    rw [hsplit] at hm hsorted
    rcases List.mem_cons.mp hm with he | hm
    · exact absurd hu (he ▸ Nat.lt_irrefl u)
    · exact absurd hu (Nat.not_lt_of_gt (List.rel_of_pairwise_cons hsorted hm))
  rw [← hb]
  refine hp.clean.grown hlead ?_ ?_ hx (fun w => ?_) ?_
  · rw [hb]
    exact hp.fresh _ List.mem_cons_self
  · rw [hb]
    exact hp.ahead
  · rw [hch.taken, ← hsplit, mem_withKey]
  · rw [hb]
    exact hall

/-- Otherwise a record is left that cannot be freed any more. -/
theorem BlkPass.doomed (hp : BlkPass n key Z D B (kv :: kvs) h) (hR : h.vh kv.ref = v :: R) (hch : Chased n key Z Z' D v a l h')
    (hf : ¬ Fine n key Z' kv.key a) : Doomed n { h' with kvFreed := Function.update h'.kvFreed kv.ref true } := by
  have hv : v ∈ h.vh ⟨.blk, kv.key⟩ := by
    rw [← hp.ref, hR]
    exact List.mem_cons_self
  obtain ⟨hn, hb, hx⟩ := hp.lists.mem_vh.mp hv
  rcases List.eq_nil_or_concat a with ha | ⟨a', u, ha⟩
  · -- a record of the block is left in its list
    have hleft : ∃ w < n, key .blk w = kv.key ∧ w ∉ Z' .blk := by
      by_contra hno
      apply hf
      refine ⟨ha, fun w hw hk => ?_⟩
      by_contra hz
      exact hno ⟨w, hw, hk, hz⟩
    obtain ⟨w, hw, hk, hz⟩ := hleft
    have hmem : w ∈ h'.vh kv.ref := by
      rw [hp.ref]
      exact hch.lists.mem_vh.mpr ⟨hw, hk, hz⟩
    obtain ⟨u, l', hul⟩ := List.exists_cons_of_ne_nil (List.ne_nil_of_mem hmem)
    have hu : u ∈ h'.vh ⟨.blk, kv.key⟩ := by
      rw [← hp.ref, hul]
      exact List.mem_cons_self
    obtain ⟨hun, huk, huz⟩ := hch.lists.mem_vh.mp hu
    refine .orphan hun (hch.lists.live hun huz) (r := kv.ref) ?_ hul (Function.update_self ..)
    show h'.linked .blk u = some kv.ref
    rw [hch.lists.linked .blk u hun, if_neg huz, huk, hp.ref]
  · -- the record in front of the first one leads to it
    have hsplit := hch.split
    rw [List.concat_eq_append] at ha
    rw [ha, List.append_assoc] at hsplit
    obtain ⟨hun, hus, -⟩ := hch.front (show u ∈ a by rw [ha]; exact List.mem_append_right _ (List.mem_singleton_self u))
    have hnodup := withKey_nodup n (key .seq) (key .seq v)
    rw [hsplit] at hnodup
    have hfront : u ∉ a' := fun hm => (List.nodup_append.mp hnodup).2.2 u hm u List.mem_cons_self rfl
    have hback : u ∉ v :: l := (List.nodup_cons.mp (List.nodup_append.mp hnodup).2.1).1
    have hlive : u ∉ Z' .blk := by
      intro hm
      rcases (hch.taken u).mp hm with hm | hm
      · exact hx (hp.clean.closed u hm v hn hus.symm)
      · exact hback hm
    refine .stale (v := v) hun (hch.lists.live hun hlive) ?_ ?_
    · show h'.next u = some v
      rw [hch.lists.next u hun, hus, hsplit]
      exact after_append hfront _
    · refine (hch.lists.freed v hn).mpr fun t => ?_
      by_cases ht : t = .blk
      · rw [ht]
        exact (hch.taken v).mpr (.inr List.mem_cons_self)
      · rw [hch.same t ht]
        exact hp.others t ht v hn

/-- If the first records are apart, the loop frees the block. -/
theorem BlkPass.fine (hp : BlkPass n key Z D B (kv :: kvs) h) (hR : h.vh kv.ref = v :: R) (hch : Chased n key Z Z' D v a l h')
    (ha : Apart n key) : Fine n key Z' kv.key a := by
  have hv : v ∈ h.vh ⟨.blk, kv.key⟩ := by
    rw [← hp.ref, hR]
    exact List.mem_cons_self
  obtain ⟨hn, hb, hx⟩ := hp.lists.mem_vh.mp hv
  have hsorted : (h.vh ⟨.blk, kv.key⟩).Pairwise (· < ·) := by
    rw [hp.lists.vh]
    exact (withKey_sorted ..).filter _
  rw [← hp.ref, hR] at hsorted
  have hlead : Leader n key v := by
    obtain ⟨u, hu, hs, hle, hub, hux⟩ := hp.clean.leader ha hp.ahead hn hb hx
    have hmem : u ∈ h.vh kv.ref := by
      rw [hp.ref]
      exact hp.lists.mem_vh.mpr ⟨hu.1, hub, hux⟩
    rw [hR] at hmem
    rcases List.mem_cons.mp hmem with he | hmem
    · rwa [he] at hu
    · exact absurd hle (Nat.not_le_of_gt (List.rel_of_pairwise_cons hsorted hmem))
  have hnil : a = [] := by
    apply List.eq_nil_iff_forall_not_mem.mpr
    intro u hu
    obtain ⟨-, hs, hlt⟩ := hch.front hu
    exact hlead.2 u hlt hs
  refine ⟨hnil, fun w hw hk => (hch.taken w).mpr ?_⟩
  by_cases hwx : w ∈ Z .blk
  · exact .inl hwx
  · obtain ⟨u, hu, hs, -, hub, -⟩ := hp.clean.leader ha hp.ahead hw hk hwx
    have hseq := ha.apart u v hu hlead (hub.trans hb.symm)
    rcases hch.mem_seq hw (hs.symm.trans hseq) with hm | hm
    · rw [hnil] at hm
      cases hm
    · exact .inr hm

/-- A pass that goes on behind its first key. -/
theorem freeKvh_cons {P : LogHeap → Prop} {h1 : LogHeap} {e1 : List FreeEv}
    (hf : freeVs kv.type m (h.vh kv.ref).head? h = .ok (h1, e1)) :
    (∃ h' e, freeKvh m (kv :: kvs) h = .ok (h', e) ∧ P h') ↔
      ∃ h' e, freeKvh m kvs { h1 with kvFreed := Function.update h1.kvFreed kv.ref true } = .ok (h', e) ∧ P h' := by
  constructor
  · rintro ⟨h', e, hr, hp⟩
    obtain ⟨p, hp1, hrest⟩ := Machine.bind_ok_iff.mp hr
    obtain ⟨q, hq, he⟩ := Machine.bind_ok_iff.mp hrest
    cases he
    obtain rfl : p = (h1, e1) := Except.ok.inj (hp1.symm.trans hf)
    exact ⟨q.1, q.2, hq, hp⟩
  · rintro ⟨h', e, hr, hp⟩
    exact ⟨h', _, Machine.bind_ok_iff.mpr ⟨(h1, e1), hf, Machine.bind_ok_iff.mpr ⟨(h', e), hr, rfl⟩⟩, hp⟩

theorem blocks_freed_iff (hp : BlkPass n key Z D B kvs h) (hm : n ≤ m) :
    (∃ h' e, freeKvh m kvs h = .ok (h', e) ∧ ∀ v < n, h'.vFreed v = true) ↔ Apart n key := by
  induction kvs generalizing Z D B h with
  | nil =>
    have hall : ∀ v < n, v ∈ Z .blk := fun v hv => hp.clean.done v hv ((hp.all v hv).resolve_right List.not_mem_nil)
    refine iff_of_true ⟨h, [], rfl, fun v hv => (hp.lists.freed v hv).mpr fun t => ?_⟩ ⟨?_, ?_⟩
    · by_cases ht : t = .blk
      · rw [ht]
        exact hall v hv
      · exact hp.others t ht v hv
    · exact fun v hv => (hp.clean.least v (hall v hv.1) hv).2
    · exact fun v w hv hw => hp.clean.apart v (hall v hv.1) w (hall w hw.1) hv hw
  | cons kv kvs ih =>
    cases hR : h.vh kv.ref with
    | nil =>
      have hrun : freeVs kv.type m (h.vh kv.ref).head? h = .ok (h, []) := by
        rw [hR]
        cases m <;> rfl
      have hempty : ∀ v < n, key .blk v = kv.key → v ∈ Z .blk := by
        intro v hv hk
        by_contra hz
        have hmem := hp.lists.mem_vh.mpr ⟨hv, hk, hz⟩
        rw [← hp.ref, hR] at hmem
        cases hmem
      rw [freeKvh_cons hrun]
      exact ih (hp.next hp.lists (fun _ _ => rfl) (hp.clean.empty hempty))
    | cons v R =>
      obtain ⟨h1, e1, Z1, a, l, hrun, hch⟩ := hp.chase hR hm
      rw [freeKvh_cons hrun]
      by_cases hf : Fine n key Z1 kv.key a
      · exact ih (hp.next hch.lists hch.same (hp.grown hR hch hf))
      · refine iff_of_false ?_ fun ha => hf (hp.fine hR hch ha)
        rintro ⟨h', e, hr, hall⟩
        obtain ⟨u, hu, hlive⟩ := ((hp.doomed hR hch hf).pass (fun kv' hk => hp.types kv' (List.mem_cons_of_mem kv hk)) hr).left
        rw [hall u hu] at hlive
        cases hlive

end WfbYa.Log
