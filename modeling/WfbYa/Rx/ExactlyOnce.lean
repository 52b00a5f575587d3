/-
  WfbYa.Rx.ExactlyOnce — a stored primary is handed over once, before its slot is used again.

  A slot is an account: storing a primary incurs a debt, handing it over settles it,
  freeing or allocating the slot closes the account. What is owed is what the block on the
  desk holds from `fragment_to_send` on.

  - `DeskStep.books`: a step of the desk keeps the books.
  - `exactly_once`: in a session in which no block is skipped and no plaintext is empty the
    ledger balances, and nothing is handed over twice.
  - `gap_breaks_once`: after a skipped block a block is dropped with a fragment it holds.
-/

import WfbYa.Rx.InOrder
import WfbYa.Rx.Release
import WfbYa.Lib.Ledger

namespace WfbYa.Rx

open WfbYa.Frame WfbYa.Ring WfbYa.Lib WfbYa.Lib.Ledger

/-! ## The ledger of a trace -/

def entry (k : Nat) : Ev → Option (Entry Nat Frag)
  | .store s b f _ => if f < k then some (.incur s (frag b f)) else none
  | .send b f _ _ => some (.settle (frag b f))
  | .ring (.free s _ _ _) => some (.close s)
  | .ring (.alloc s _) => some (.close s)
  | _ => none

/-- Primaries stored, fragments handed over, and slots freed or allocated. -/
def ledger (k : Nat) (evs : List Ev) : List (Entry Nat Frag) := evs.filterMap (entry k)

@[simp] theorem ledger_append (k : Nat) (a b : List Ev) : ledger k (a ++ b) = ledger k a ++ ledger k b :=
  List.filterMap_append ..

theorem ledger_effects (k : Nat) (evs : List Ev) : ledger k (effects evs) = ledger k evs :=
  filterMap_effects (fun _ _ => rfl) evs

theorem ledger_flatMap (k : Nat) (ctx : RxContext) (blk : RbufBlock) (is : List Nat) :
    ledger k (is.flatMap (handOver ctx blk)) = (is.map (frag blk.index)).map .settle := by
  induction is with
  | nil => rfl
  | cons i is ih =>
    have hone : ledger k (handOver ctx blk i) = [.settle (frag blk.index i)] :=
      filterMap_handOver (p := entry k) (fun _ _ => rfl) (fun _ _ _ _ _ => rfl) (fun _ _ _ => rfl) ctx blk i
    rw [List.flatMap_cons, ledger_append, hone, ih]
    rfl

/-! ## What is owed -/

/-- The primaries a block in slot `s` holds and has still to hand over. -/
def owes (k s : Nat) (blk : RbufBlock) (t : Nat) (g : Frag) : Prop :=
  t = s ∧ ∃ f, g = frag blk.index f ∧ blk.fragmentToSend ≤ f ∧ f < k ∧ blk.fragmentLen f ≠ 0

/-- What is owed on a desk. -/
def deskOwes (k s : Nat) (o : Option RbufBlock) (t : Nat) (g : Frag) : Prop := ∃ blk, o = some blk ∧ owes k s blk t g

/-- Everything below the cursor of a block is held. -/
def Dense (blk : RbufBlock) : Prop := ∀ i < blk.fragmentToSend, blk.fragmentLen i ≠ 0

variable {x : Externals} {ctx : RxContext} {k s : Nat} {blk : RbufBlock} {L : List (Entry Nat Frag)}

theorem deskOwes_some : deskOwes k s (some blk) = owes k s blk := by
  funext t g
  exact propext ⟨fun ⟨_, h, h'⟩ => by cases h; exact h', fun h => ⟨blk, rfl, h⟩⟩

theorem owes_done (h : k ≤ blk.fragmentToSend) (t : Nat) (g : Frag) : ¬ owes k s blk t g := by
  rintro ⟨-, f, -, h1, h2, -⟩
  omega

/-- What is owed after a call of `send_data_any`. -/
theorem owes_sendRun {t : Nat} {g : Frag} {stale recovered : Bool} (h : owes k s blk t g)
    (hn : g ∉ (sendRun ctx blk stale recovered).1.map (frag blk.index)) :
    owes k s { blk with fragmentToSend := (sendRun ctx blk stale recovered).2 } t g := by
  obtain ⟨ht, f, rfl, h1, h2, h3⟩ := h
  refine ⟨ht, f, rfl, ?_, h2, h3⟩
  have hs := sendPlan_spec blk.fragmentLen stale recovered (ctx.fecK - blk.fragmentToSend) blk.fragmentToSend
  by_contra hlt
  exact hn (List.mem_map.mpr ⟨f, (hs.mem f).mpr ⟨⟨h1, Nat.not_le.mp hlt⟩, .inl (Nat.pos_of_ne_zero h3)⟩, rfl⟩)

theorem FecBlock.books {o : Option RbufBlock} {e : List Ev} (h : FecBlock x ctx s blk o e) (hk : ctx.fecK = k)
    (hto : blk.fragmentToSend ≤ k) (hb : Books L (owes k s blk)) : Books (L ++ ledger k e) (deskOwes k s o) := by
  cases h with
  | waits _ =>
    rw [deskOwes_some]
    exact (List.append_nil L).symm ▸ hb
  | @done blk' e _ hrec =>
    obtain ⟨hidx, -, hcur, hlen, -⟩ := hrec.keeps
    have hquiet : ledger k (effects e) = [] := by
      cases hrec with
      | complete _ => rfl
      | decoded _ _ _ => rfl
    -- everything the block holds from its cursor on is sent
    have hall : ∀ t g, owes k s blk t g → g ∉ (sendRun ctx blk' false true).1.map (frag blk'.index) → False := by
      intro t g ho hn
      have ho' : owes k s blk' t g := by
        obtain ⟨ht, f, hg, h1, h2, h3⟩ := ho
        exact ⟨ht, f, by rw [hidx]; exact hg, by rw [hcur]; exact h1, h2, by rw [hlen]; exact h3⟩
      refine owes_done ?_ t g (owes_sendRun ho' hn)
      show k ≤ (sendRun ctx blk' false true).2
      rw [sendRun_recovered (by rw [hcur, hk]; exact hto), hk]
    rw [ledger_append, ledger_append, hquiet, List.nil_append, ← List.append_assoc]
    show Books (L ++ ledger k (rest ctx blk') ++ [.close s]) _
    unfold rest
    rw [ledger_flatMap]
    exact ((hb.settle hall).close fun _ h => h).mono fun _ _ h => h.elim

theorem AddBlock.books {o : Option RbufBlock} {e : List Ev} (h : AddBlock x ctx s blk o e) (hk : ctx.fecK = k)
    (hto : blk.fragmentToSend ≤ k) (hb : Books L (owes k s blk)) : Books (L ++ ledger k e) (deskOwes k s o) := by
  have hcut : Books (L ++ ledger k (cut ctx blk)) (owes k s { blk with fragmentToSend := (sendRun ctx blk false false).2 }) := by
    unfold cut
    rw [ledger_flatMap]
    exact hb.settle fun _ _ => owes_sendRun
  cases h with
  | complete hend =>
    have hnone : ∀ t g, ¬ owes k s { blk with fragmentToSend := (sendRun ctx blk false false).2 } t g :=
      owes_done (by show k ≤ (sendRun ctx blk false false).2; omega)
    rw [ledger_append, ← List.append_assoc]
    exact (hcut.close fun g => hnone s g).mono fun t g h => (hnone t g h).elim
  | partly hne hfec =>
    rw [ledger_append, ← List.append_assoc]
    refine hfec.books hk ?_ hcut
    have := (sendPlan_spec blk.fragmentLen false false (ctx.fecK - blk.fragmentToSend) blk.fragmentToSend).bounds
    show (sendPlan _ _ _ _ _).2 ≤ k
    omega

/-- Filing a fragment incurs its debt. -/
theorem books_store {o q : Nat → Frag → Prop} {b f m : Nat} (hb : Books L o) (ho : ∀ t g, o t g → q t g)
    (hnew : f < k → q s (frag b f)) : Books (L ++ ledger k [.store s b f m]) q := by
  by_cases hf : f < k
  · rw [show ledger k [.store s b f m] = [.incur s (frag b f)] by simp [ledger, entry, hf]]
    exact (hb.mono ho).incur (hnew hf)
  · rw [show ledger k [.store s b f m] = [] by simp [ledger, entry, hf], List.append_nil]
    exact hb.mono ho

theorem owes_withFragment {plain : Bytes} (hp : plain ≠ []) {t : Nat} {g : Frag} (h : owes k s blk t g) :
    owes k s (withFragment ctx blk plain) t g := by
  obtain ⟨ht, f, hg, h1, h2, h3⟩ := h
  refine ⟨ht, f, by rw [withFragment_index]; exact hg, by rw [withFragment_toSend]; exact h1, h2, ?_⟩
  rw [withFragment_len]
  by_cases e : f = ctx.wfb.fragmentIdx
  · subst e
    rw [Function.update_self]
    exact fun h0 => hp (List.length_eq_zero_iff.mp h0)
  · rwa [Function.update_of_ne e]

/-- The fragment just filed is owed, unless the cursor is past it. -/
theorem owes_new {plain : Bytes} (hp : plain ≠ []) (hf : ctx.wfb.fragmentIdx < k)
    (hto : blk.fragmentToSend ≤ ctx.wfb.fragmentIdx) :
    owes k s (withFragment ctx blk plain) s (frag blk.index ctx.wfb.fragmentIdx) := by
  refine ⟨rfl, ctx.wfb.fragmentIdx, by rw [withFragment_index], by rw [withFragment_toSend]; exact hto, hf, ?_⟩
  rw [withFragment_len, Function.update_self]
  exact fun h0 => hp (List.length_eq_zero_iff.mp h0)

/-! ## Steps -/

theorem Dense.sendRun (h : Dense blk) : Dense { blk with fragmentToSend := (WfbYa.Rx.sendRun ctx blk false false).2 } := by
  intro i hi
  have hs := sendPlan_spec blk.fragmentLen false false (ctx.fecK - blk.fragmentToSend) blk.fragmentToSend
  by_cases hlt : i < blk.fragmentToSend
  · exact h i hlt
  · have := hs.dense rfl i (Nat.not_lt.mp hlt) hi
    simp only [Bool.false_eq_true, or_false] at this
    exact Nat.pos_iff_ne_zero.mp this

theorem Dense.withFragment {plain : Bytes} (h : Dense blk) (h0 : blk.fragmentLen ctx.wfb.fragmentIdx = 0) :
    Dense (withFragment ctx blk plain) := by
  intro i hi
  rw [withFragment_toSend] at hi
  have hne : i ≠ ctx.wfb.fragmentIdx := fun e => h i hi (e ▸ h0)
  rw [withFragment_len, Function.update_of_ne hne]
  exact h i hi

theorem FecBlock.dense {o : Option RbufBlock} {e : List Ev} (h : FecBlock x ctx s blk o e) (hd : Dense blk) :
    ∀ b, o = some b → Dense b := by
  cases h with
  | waits _ => exact fun b hb => by cases hb; exact hd
  | done _ _ => exact fun b hb => (nomatch hb)

theorem AddBlock.dense {o : Option RbufBlock} {e : List Ev} (h : AddBlock x ctx s blk o e) (hd : Dense blk) :
    ∀ b, o = some b → Dense b := by
  cases h with
  | complete _ => exact fun b hb => (nomatch hb)
  | partly _ hfec => exact hfec.dense hd.sendRun

theorem dense_renew (old : RbufBlock) (b : Nat) : Dense (old.renew b) := fun i hi => absurd hi (Nat.not_lt_zero i)

theorem DeskStep.dense {d d' : Desk} {e : List Ev} (h : DeskStep x ctx d d' e) (hd : ∀ b, d.cur = some b → Dense b) :
    ∀ b, d'.cur = some b → Dense b := by
  cases h with
  | old _ _ _ => exact hd
  | duplicate hc _ _ =>
    intro b hb
    cases hb
    intro i hi
    rw [raiseRssi_toSend] at hi
    rw [raiseRssi_len]
    exact hd _ hc i hi
  | again hc _ h0 _ _ hadd => exact hadd.dense ((hd _ hc).withFragment h0)
  | first _ _ _ _ hadd => exact hadd.dense ((dense_renew _ _).withFragment rfl)
  | next _ _ _ _ hfec => exact hfec.dense ((dense_renew _ _).withFragment rfl)

theorem deskOwes_slot {d : Desk} {t : Nat} {g : Frag} (h : deskOwes k d.front d.cur t g) : t = d.front ∧ d.cur.isSome := by
  obtain ⟨blk, hc, ht, -⟩ := h
  exact ⟨ht, by rw [hc]; rfl⟩

/-- A step of the desk keeps the books. -/
theorem DeskStep.books {d d' : Desk} {e : List Ev} (h : DeskStep x ctx d d' e) (hk : ctx.fecK = k)
    (hcur : ∀ blk, d.cur = some blk → blk.index = d.last ∧ blk.fragmentToSend ≤ k ∧ Dense blk)
    (hfill : ∀ plain, decrypted x ctx.crypto ctx.wfb = .ok (.ok plain) → plain ≠ [])
    (hb : Books L (deskOwes k d.front d.cur)) : Books (L ++ ledger k e) (deskOwes k d'.front d'.cur) := by
  obtain ⟨f, l, cur⟩ := d
  cases h with
  | old _ _ _ => exact (List.append_nil L).symm ▸ hb
  | @duplicate blk hc _ _ =>
    cases hc
    refine (List.append_nil L).symm ▸ hb.mono fun t g h => ?_
    rw [deskOwes_some] at h ⊢
    obtain ⟨ht, i, hg, h1, h2, h3⟩ := h
    exact ⟨ht, i, by rw [raiseRssi_index]; exact hg, by rw [raiseRssi_toSend]; exact h1, h2, by rw [raiseRssi_len]; exact h3⟩
  | @again blk plain o e hc hbi h0 hdec _ hadd =>
    cases hc
    obtain ⟨hi, hto, hdense⟩ := hcur blk rfl
    have hp := hfill plain hdec
    have hkeep : ∀ t g, owes k f blk t g → owes k f (withFragment ctx blk plain) t g := fun t g => owes_withFragment hp
    rw [deskOwes_some] at hb
    have hst := books_store (k := k) (s := f) (b := ctx.wfb.blockIdx) (f := ctx.wfb.fragmentIdx) (m := plain.length) hb hkeep
      fun hf => by
        have : owes k f (withFragment ctx blk plain) f (frag blk.index ctx.wfb.fragmentIdx) :=
          owes_new hp hf (Nat.not_lt.mp fun hlt => hdense _ hlt h0)
        rwa [hi, ← hbi] at this
    show Books (L ++ ledger k ([storedEv ctx f plain] ++ e)) _
    rw [ledger_append, ← List.append_assoc]
    exact hadd.books hk (by rw [withFragment_toSend]; exact hto) hst
  | @first old plain o e hc hnew hdec _ hadd =>
    cases hc
    have hp := hfill plain hdec
    have hnone : ∀ t g, ¬ deskOwes k f none t g := fun t g ⟨_, h, _⟩ => nomatch h
    have hst := books_store (k := k) (s := f) (b := ctx.wfb.blockIdx) (f := ctx.wfb.fragmentIdx) (m := plain.length)
      (q := owes k f (withFragment ctx (old.renew ctx.wfb.blockIdx) plain)) (hb.close fun g => hnone f g)
      (fun t g h => (hnone t g h).elim) fun hf => owes_new hp hf (Nat.zero_le _)
    show Books (L ++ ([.close f] ++ ledger k ([storedEv ctx f plain] ++ e))) _
    rw [ledger_append, ← List.append_assoc, ← List.append_assoc]
    exact hadd.books hk (by rw [withFragment_toSend]; exact Nat.zero_le _) hst
  | @next blk old plain o e hc hnew hdec _ hfec =>
    cases hc
    obtain ⟨hi, hto, -⟩ := hcur blk rfl
    have hp := hfill plain hdec
    rw [deskOwes_some] at hb
    have hst := books_store (k := k) (s := beyond f) (b := ctx.wfb.blockIdx) (f := ctx.wfb.fragmentIdx) (m := plain.length)
      (q := fun t g => owes k f blk t g ∨ owes k (beyond f) (withFragment ctx (old.renew ctx.wfb.blockIdx) plain) t g)
      (hb.close fun g h => beyond_ne f h.1) (fun t g => .inl) fun hf =>
        .inr (owes_new hp hf (Nat.zero_le _))
    -- flushing settles what is owed for the old block
    have hend : k ≤ (sendRun ctx blk true false).2 := by rw [sendRun_stale (by omega), hk]
    have hleft : ∀ t g, (owes k f blk t g ∨ owes k (beyond f) (withFragment ctx (old.renew ctx.wfb.blockIdx) plain) t g) →
        g ∉ (sendRun ctx blk true false).1.map (frag blk.index) →
          owes k (beyond f) (withFragment ctx (old.renew ctx.wfb.blockIdx) plain) t g := by
      rintro t g (h | h) hn
      · exact (owes_done hend t g (owes_sendRun h hn)).elim
      · exact h
    have hflush := hst.settle hleft
    rw [← ledger_flatMap k ctx] at hflush
    have := hfec.books hk (by rw [withFragment_toSend]; exact Nat.zero_le _) (hflush.close fun g h => beyond_ne f h.1.symm)
    show Books (L ++ ([.close (beyond f)] ++ ledger k ([storedEv ctx (beyond f) plain] ++
      (flush ctx blk ++ .ring (.free f blk.index 2 1) :: .purged (beyond f) 2 [blk.index] :: e)))) _
    rw [ledger_append, ledger_append, ← List.append_assoc, ← List.append_assoc, ← List.append_assoc]
    show Books (_ ++ ([.close f] ++ ledger k e)) _
    rw [← List.append_assoc]
    exact this

/-! ## Runs -/

theorem DeskInv.toSend_le {ctx0 ctx : RxContext} {d : Desk} (h : DeskInv ctx0 ctx d) :
    ∀ blk, d.cur = some blk → blk.fragmentToSend ≤ ctx.fecK := by
  obtain ⟨r, hr, hd⟩ := h.desk
  intro blk hb
  rw [← (hd.cur blk hb).1]
  exact h.session.cursor r hr d.front

theorem bookRules (x : Externals) (ctx0 : RxContext) :
    DeskRules x (Sound x) ctx0
      (fun d tr => Books (ledger ctx0.fecK tr) (deskOwes ctx0.fecK d.front d.cur) ∧ ∀ b, d.cur = some b → Dense b)
      (fun tr => Balanced (ledger ctx0.fecK tr)) where
  guard := fun _ _ h => h.1
  start := ⟨.empty, fun _ h => (nomatch h)⟩
  step := fun ctx d d' f w tr e hd hg hp ht hj hst => by
    refine ⟨?_, hst.dense hj.2⟩
    rw [ledger_append]
    refine hst.books hd.fecK (fun blk hc => ⟨(hd.index blk hc).1, ?_, hj.2 blk hc⟩) (fun plain hpl h => ?_) hj.1
    · rw [← hd.fecK]
      exact hd.toSend_le blk hc
    · subst h
      exact hg.2 (plaintext?_data hp ht hpl)
  lost := fun ctx d f w tr e _ hj hl => by
    rw [ledger_append]
    cases hl with
    | again _ _ _ _ => exact (List.append_nil (ledger _ tr)).symm ▸ hj.1.balanced
    | opened _ _ =>
      refine (hj.1.close fun g h => ?_).balanced
      -- the slot a new block gets is not the one on the desk
      obtain ⟨ht, hs⟩ := deskOwes_slot h
      unfold Desk.slot at ht
      rw [if_pos hs] at ht
      exact beyond_ne _ ht
  keep := fun _ _ h => h.1.balanced

/-- In a session in which no block is skipped and no plaintext is empty, every primary
    stored is handed over before its slot is freed or allocated, and none is handed over
    twice. -/
theorem exactly_once {ctx0 ctx : RxContext} (h0 : Opened x ctx0) {is : List Input} {tr : List Ev}
    (h : Machine.Run (rxStep x) (Sound x) ctx0 is ctx tr) : Balanced (ledger ctx0.fecK tr) ∧ (sent tr).Nodup := by
  have hb := ((bookRules x ctx0).run h0 h).keep (bookRules x ctx0)
  rw [ledger_effects] at hb
  exact ⟨hb, (Steady.sorted (fun _ _ h => h.1) h0 h).imp fun hlt => ne_of_lt hlt⟩

theorem exactly_once_run : ∃ ctx0 ctx tr, Opened (numbered 2 2).externals ctx0 ∧ Machine.Run (rxStep (numbered 2 2).externals)
    (Sound (numbered 2 2).externals) ctx0 [(numbered 2 2).input 7 1, (numbered 2 2).input 8 1, (numbered 2 2).input 8 0] ctx tr ∧
      Balanced (ledger ctx0.fecK tr) ∧ (sent tr).Nodup := by
  obtain ⟨ctx0, ctx, tr, h0, hrun, -⟩ := (numbered 2 2).exists_session (Sound (numbered 2 2).externals)
    [(numbered 2 2).input 7 1, (numbered 2 2).input 8 1, (numbered 2 2).input 8 0] (fun _ _ => true) (by decide +kernel)
  exact ⟨ctx0, ctx, tr, h0, hrun, exactly_once h0 hrun⟩

/-- The frame's block is less than a ring ahead of the last one. -/
def Near (ctx : RxContext) (i : Input) : Prop :=
  ∀ p ∈ asked? ctx i, p.1.lastBlock = blockInval ∨ p.2 < p.1.lastBlock + rxRingSize

instance (ctx : RxContext) (i : Input) : Decidable (Near ctx i) := by unfold Near; infer_instance

example : Entry.settle (frag 7 1) ∈ ledger 2 ((numbered 2 2).report [(numbered 2 2).input 7 1, (numbered 2 2).input 8 1]) := by
  decide +kernel

/-- After blocks 0 and 22, block 33 drops block 22 with its fragment 1. -/
theorem gap_breaks_once : ¬ ∀ (x : Externals) (ctx0 ctx : RxContext) (is : List Input) (tr : List Ev), Opened x ctx0 →
    Machine.Run (rxStep x) (fun ctx i => Authentic x ctx i ∧ Near ctx i) ctx0 is ctx tr →
      Balanced (ledger ctx0.fecK tr) ∧ (sent tr).Nodup := by
  intro hclaim
  obtain ⟨ctx0, ctx, tr, h0, hrun, hq⟩ := (numbered 2 2).exists_session
    (fun ctx i => Authentic (numbered 2 2).externals ctx i ∧ Near ctx i)
    [(numbered 2 2).input 0 1, (numbered 2 2).input 22 1, (numbered 2 2).input 33 0]
    (fun ctx0 p => decide ((ledger ctx0.fecK p.2)[49]? = some (Entry.close 3)) &&
      decide (Entry.incur 3 (frag 22 1) ∈ (ledger ctx0.fecK p.2).take 49) &&
        decide (Entry.settle (frag 22 1) ∉ (ledger ctx0.fecK p.2).take 49)) (by decide +kernel)
  simp only [Bool.and_eq_true, decide_eq_true_eq] at hq
  exact hq.2 ((hclaim _ _ _ _ _ h0 hrun).1.take hq.1.1 hq.1.2)

end WfbYa.Rx
