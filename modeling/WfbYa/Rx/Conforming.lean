/-
  WfbYa.Rx.Conforming — a conforming sender's blocks in the receiver's slots.

  A conforming sender's primaries are a header and a payload; its parities are made of the
  primaries padded to the longest. A slot stores such a block when every fragment it holds
  is the sender's, padded to the fragment size.

  - `Recovery.carries`: recovery leaves every primary still to be sent with the sender's
    bytes at its start, if the codec decodes.
  - `handOver_carries`: handing such a primary over hands over the sender's payload.
-/

import WfbYa.Rx.Planning
import WfbYa.Rx.SessionInv
import WfbYa.Rx.Sender
import WfbYa.Lib.Erasure

namespace WfbYa.Rx

open WfbYa.Frame WfbYa.Ring WfbYa.Lib WfbYa.Lib.BigEndian

/-- An encoder for each `(k, n)`. -/
abbrev Encoder := Nat → Nat → List Bytes → Nat → Bytes

/-- The length a block's primaries are padded to. -/
def Sender.blockLen (S : Sender) (key : Bytes) (b : Nat) : Nat := Erasure.longest (S.plain key b) (S.fecK key)

theorem Sender.le_blockLen {S : Sender} {key : Bytes} {b i : Nat} (h : i < S.fecK key) :
    (S.plain key b i).length ≤ S.blockLen key b := Erasure.le_longest h

structure Conforming (S : Sender) (enc : Encoder) (payload : Bytes → Nat → Nat → Bytes) (key : Bytes) : Prop where
  primary : ∀ b i, i < S.fecK key →
    (payload key b i).length ≤ maxPayloadSize ∧ ∃ flags, S.plain key b i = withHdr flags (payload key b i)
  parity : ∀ b i, S.fecK key ≤ i → i < S.fecN key → (S.plain key b i).length = S.blockLen key b ∧
    S.plain key b i = Erasure.fragment (enc (S.fecK key) (S.fecN key)) (S.fecK key)
      (fun m => Erasure.pad 0 (S.blockLen key b) (S.plain key b m)) i

/-! ## Headers -/

theorem slice_append (a rest : Bytes) {off len : Nat} (h : off + len ≤ a.length) :
    slice (a ++ rest) off len = (a.drop off).take len := by
  refine List.ext_getElem (by simp; omega) fun i h1 h2 => ?_
  have hi : i < len := by simpa using h1
  simp only [slice, List.getElem_map, List.getElem_range, List.getElem_take, List.getElem_drop]
  rw [List.getD_eq_getElem?_getD, List.getElem?_append_left (by omega), List.getElem?_eq_getElem (by omega)]
  rfl

/-- A buffer that starts with a header and a payload is read back as that payload. -/
theorem packetData_withHdr (flags : UInt8) {payload : Bytes} (rest : Bytes) (hl : payload.length ≤ maxPayloadSize) :
    packetSize (withHdr flags payload ++ rest) = payload.length ∧ packetData (withHdr flags payload ++ rest) = payload := by
  have hl' : payload.length < 256 ^ 2 := by
    unfold maxPayloadSize maxFecPayload wifiMtu at hl
    omega
  have hlen : (be 2 payload.length).length = 2 := be_length 2 _
  have hsz : packetSize (withHdr flags payload ++ rest) = payload.length := by
    unfold packetSize
    rw [slice_append _ _ (by simp [withHdr])]
    have : ((withHdr flags payload).drop 1).take 2 = be 2 payload.length := by
      rw [withHdr, List.cons_append, List.drop_succ_cons, List.drop_zero, List.take_append, hlen,
        List.take_of_length_le (by omega)]
      simp
    rw [this, ofBe_be hl']
  refine ⟨hsz, ?_⟩
  have hdrop : (withHdr flags payload ++ rest).drop wfbDataHdrlen = payload ++ rest := by
    rw [withHdr, List.cons_append, List.cons_append, show wfbDataHdrlen = 2 + 1 from rfl, List.drop_succ_cons,
      List.append_assoc, List.drop_append, hlen, List.drop_of_length_le (by omega)]
    rfl
  unfold packetData
  rw [hsz, hdrop, List.take_append_of_le_length (le_refl _), List.take_length]

/-- What is put out of fragment `f` of block `b` is the header and payload given. -/
def PutsOut (b f : Nat) (hdr payload : Bytes) : Ev → Prop
  | .send b' f' h d => b' = b ∧ f' = f ∧ h = hdr ∧ d = payload
  | .decode _ b' f' _ d => b' = b ∧ f' = f ∧ d = payload
  | .logDecode b' f' d => b' = b ∧ f' = f ∧ d = payload
  | _ => False

theorem handOver_putsOut (ctx : RxContext) (blk : RbufBlock) (i : Nat) :
    ∀ e ∈ handOver ctx blk i,
      PutsOut blk.index i ((blk.fragment i).take wfbDataHdrlen) (packetData (blk.fragment i)) e := by
  intro e he
  rcases List.mem_cons.mp he with rfl | he
  · exact ⟨rfl, rfl, rfl, rfl⟩
  · obtain ⟨hm, hmsg⟩ := mem_effects.mp he
    unfold deliver at hm
    dsimp only at hm
    split at hm
    · cases hm
    · split at hm
      · rw [List.mem_singleton] at hm; subst hm; cases hmsg
      · rcases List.mem_append.mp hm with hm | hm
        · split at hm
          · rw [List.mem_singleton] at hm; subst hm; cases hmsg
          · obtain ⟨a, -, rfl⟩ := List.mem_map.mp hm; exact ⟨rfl, rfl, rfl⟩
        · rw [List.mem_singleton] at hm; subst hm; exact ⟨rfl, rfl, rfl⟩

/-! ## Stored blocks -/

/-- The buffer of fragment `i` starts with what the sender put into it. -/
def Carries (S : Sender) (key : Bytes) (b : Nat) (blk : RbufBlock) (i : Nat) : Prop :=
  ∃ rest, blk.fragment i = S.plain key b i ++ rest

theorem handOver_carries {S : Sender} {enc : Encoder} {payload : Bytes → Nat → Nat → Bytes} {key : Bytes}
    (hc : Conforming S enc payload key) {ctx : RxContext} {blk : RbufBlock} {b i : Nat} (hb : blk.index = b)
    (hi : i < S.fecK key) (h : Carries S key b blk i) :
    ∀ e ∈ handOver ctx blk i, PutsOut b i ((S.plain key b i).take wfbDataHdrlen) (payload key b i) e := by
  obtain ⟨rest, hr⟩ := h
  obtain ⟨hl, flags, hp⟩ := hc.primary b i hi
  have h1 : packetData (blk.fragment i) = payload key b i := by rw [hr, hp]; exact (packetData_withHdr flags rest hl).2
  have h2 : (blk.fragment i).take wfbDataHdrlen = (S.plain key b i).take wfbDataHdrlen := by
    rw [hr, List.take_append_of_le_length]
    rw [hp]
    simp [withHdr, wfbDataHdrlen]
  have := handOver_putsOut ctx blk i
  rwa [hb, h1, h2] at this

/-- Every fragment held is the sender's, padded to the fragment size. -/
def Stored (S : Sender) (key : Bytes) (b n sz : Nat) (blk : RbufBlock) : Prop :=
  ∀ f < n, blk.fragmentLen f ≠ 0 → blk.fragmentLen f = (S.plain key b f).length ∧ (S.plain key b f).length ≤ sz ∧
    blk.fragment f = Erasure.pad 0 sz (S.plain key b f)

theorem Stored.carries {S : Sender} {key : Bytes} {b n sz : Nat} {blk : RbufBlock} (h : Stored S key b n sz blk) {f : Nat}
    (hf : f < n) (hl : blk.fragmentLen f ≠ 0) : Carries S key b blk f :=
  ⟨_, (h f hf hl).2.2⟩

theorem Stored.store {S : Sender} {key : Bytes} {b n sz f : Nat} {blk : RbufBlock} (h : Stored S key b n sz blk)
    (hl : (S.plain key b f).length ≤ sz) : Stored S key b n sz (storeFragment blk f sz (S.plain key b f)) := by
  intro g hg hlen
  by_cases e : g = f
  · subst e
    refine ⟨?_, hl, ?_⟩
    · exact Function.update_self ..
    · exact Function.update_self ..
  · simp only [storeFragment, Function.update_of_ne e] at hlen ⊢
    exact h g hg hlen

theorem Stored.leftover {S : Sender} {key : Bytes} {b n sz f : Nat} {blk : RbufBlock} {left : Bytes}
    (h : Stored S key b n sz blk) (h0 : blk.fragmentLen f = 0) : Stored S key b n sz (putFragment blk f left) := by
  intro g hg hlen
  have hne : g ≠ f := fun e => hlen (e ▸ h0)
  simp only [putFragment, Function.update_of_ne hne]
  exact h g hg hlen

/-! ## Recovery -/

theorem putAll_fragment {blk : RbufBlock} {out : List Nat} (hn : out.Nodup) (word : Nat → Bytes) (i : Nat) :
    (putAll blk (out.zip (out.map word))).fragment i =
      if i ∈ out then word i ++ (blk.fragment i).drop (word i).length else blk.fragment i := by
  induction out generalizing blk with
  | nil => rfl
  | cons o out ih =>
    obtain ⟨ho, hn⟩ := List.nodup_cons.mp hn
    show (putAll (putFragment blk o (word o)) (out.zip (out.map word))).fragment i = _
    rw [ih hn]
    by_cases e : i = o
    · subst e
      rw [if_neg ho, if_pos List.mem_cons_self]
      exact Function.update_self ..
    · have hi : (putFragment blk o (word o)).fragment i = blk.fragment i := Function.update_of_ne e ..
      rw [hi]
      simp only [List.mem_cons, e, false_or]

/-- A codec that is right about its encoder gives the primaries a plan is for. -/
theorem plan_decodes {enc : List Bytes → Nat → Bytes} {dec : List Bytes → List Nat → Nat → List Bytes} {k n len : Nat}
    {blk : RbufBlock} {p : Plan} {word : Nat → Bytes} (hdec : Erasure.Decodes enc dec k n) (hk : k ≤ n)
    (hp : planLoop blk n k 0 k 0 = .ok p) (hpos : 0 < len) (hword : ∀ i < k, (word i).length = len) :
    dec (p.index.map (Erasure.fragment enc k word)) p.index len = p.out.map word := by
  have h := planLoop_spec hp
  have hlt : ∀ c ∈ p.index, c < n := by
    intro c hc
    have := (h.held c hc).2
    omega
  have hown : ∀ a c, p.index[a]? = some c → c < k → c = a := by
    intro a c hac hck
    have ha : a < k := by
      have := (List.getElem?_eq_some_iff.mp hac).1
      rwa [h.length] at this
    by_cases hl : blk.fragmentLen (0 + a) = 0
    · obtain ⟨d, hd, hle⟩ := h.parity a ha hl
      rw [hac] at hd
      cases hd
      omega
    · have := h.own a ha hl
      rw [hac] at this
      cases this
      omega
  rw [hdec word len p.index hpos hword h.length (h.nodup (by omega)) hlt hown, h.out, ← List.range_eq_range']
  congr 1
  apply List.filter_congr
  intro m hm
  rw [List.mem_range] at hm
  have hiff : m ∉ p.index ↔ blk.fragmentLen m = 0 := by
    constructor
    · intro hnot
      by_contra hl
      have := h.own m hm (by rwa [Nat.zero_add])
      rw [Nat.zero_add] at this
      exact hnot (List.mem_of_getElem? this)
    · exact fun h0 hin => (h.held m hin).1 h0
  simp [hiff]

variable {S : Sender} {enc : Encoder} {payload : Bytes → Nat → Nat → Bytes} {key : Bytes} {x : Externals} {ctx : RxContext}
  {b sz : Nat} {blk : RbufBlock}

/-- The codec is handed fragments of one block, as its encoder made them. -/
theorem inpkts_eq (hc : Conforming S enc payload key) (hs : Stored S key b (S.fecN key) sz blk) {p : Plan}
    (hp : planLoop blk (S.fecN key) (S.fecK key) 0 (S.fecK key) 0 = .ok p) (hk : S.fecK key ≤ S.fecN key) (hout : p.out ≠ []) :
    p.pktsiz = S.blockLen key b ∧ S.blockLen key b ≤ sz ∧ (p.index.map blk.fragment).map (List.take p.pktsiz) =
      p.index.map (Erasure.fragment (enc (S.fecK key) (S.fecN key)) (S.fecK key)
        fun m => Erasure.pad 0 (S.blockLen key b) (S.plain key b m)) := by
  have h := planLoop_spec hp
  have hlt : ∀ c ∈ p.index, c < S.fecN key := fun c hcm => by
    have := (h.held c hcm).2
    omega
  obtain ⟨c, hcm, hkc, hsz⟩ := h.sz_of.resolve_left (Nat.pos_iff_ne_zero.mp (h.sz_pos hout))
  obtain ⟨h1, h2, -⟩ := hs c (hlt c hcm) (h.held c hcm).1
  have hL := (hc.parity b c hkc (hlt c hcm)).1
  have hpk : p.pktsiz = S.blockLen key b := by omega
  refine ⟨hpk, by omega, ?_⟩
  rw [List.map_map]
  refine List.map_congr_left fun d hd => ?_
  obtain ⟨-, hle, hfr⟩ := hs d (hlt d hd) (h.held d hd).1
  show (blk.fragment d).take p.pktsiz = _
  rw [hfr, hpk]
  by_cases hdk : d < S.fecK key
  · rw [Erasure.fragment, if_pos hdk, Erasure.take_pad (Sender.le_blockLen hdk) (by omega)]
  · obtain ⟨hdl, hde⟩ := hc.parity b d (Nat.not_lt.mp hdk) (hlt d hd)
    rw [← hde, Erasure.take_pad (le_of_eq hdl) (by omega), Erasure.pad, ← hdl, Nat.sub_self]
    simp

theorem Recovery.carries {blk' : RbufBlock} {evs : List Ev} (hc : Conforming S enc payload key)
    (hdec : Erasure.Decodes (enc (S.fecK key) (S.fecN key)) (x.fecDecode (S.fecK key) (S.fecN key)) (S.fecK key) (S.fecN key))
    (hok : SessionOk ctx) (hk : ctx.fecK = S.fecK key) (hn : ctx.fecN = S.fecN key)
    (hs : Stored S key b (S.fecN key) sz blk) (h : Recovery x ctx ctx.fecN blk blk' evs) :
    ∀ i, blk.fragmentToSend ≤ i → i < S.fecK key → Carries S key b blk' i := by
  have hkn : S.fecK key ≤ S.fecN key := by have := hok.fecK.2; omega
  intro i hi hik
  cases h with
  | complete h0 =>
    refine hs.carries (by omega) fun hl => ?_
    have := List.countP_eq_zero.mp h0 i (by rw [List.mem_range'_1]; omega)
    simp [hl] at this
  | @decoded p outpkts hcount hp ho =>
    rw [hk, hn] at hp
    have hpl := planLoop_spec hp
    have hmem : ∀ m, m ∈ p.out ↔ m < S.fecK key ∧ blk.fragmentLen m = 0 := fun m => by
      rw [hpl.out, List.mem_filter, List.mem_range'_1]
      simp
    obtain ⟨j, -, hj, hj0⟩ := fecCount_missing hcount
    have hout : p.out ≠ [] := List.ne_nil_of_mem ((hmem j).mpr ⟨by omega, hj0⟩)
    obtain ⟨hpk, hle, hin⟩ := inpkts_eq hc hs hp hkn hout
    have hpos := hpl.sz_pos hout
    -- the codec returns the missing primaries, padded
    have hres : outpkts = p.out.map fun m => Erasure.pad 0 (S.blockLen key b) (S.plain key b m) := by
      unfold fecWfbApply at ho
      rw [if_neg (by omega), hok.fec, if_pos rfl] at ho
      cases ho
      rw [hk, hn, hin, hpk]
      exact plan_decodes hdec hkn hp (by omega) fun i hi => Erasure.pad_length (Sender.le_blockLen hi)
    subst hres
    have hnd : p.out.Nodup := by
      rw [hpl.out]
      exact (List.nodup_range' 1).filter _
    unfold Carries
    rw [putAll_fragment hnd]
    by_cases hl : blk.fragmentLen i = 0
    · rw [if_pos ((hmem i).mpr ⟨hik, hl⟩)]
      exact Erasure.pad_prefix 0 _ _ _
    · rw [if_neg fun hm => hl ((hmem i).mp hm).2]
      exact hs.carries (by omega) hl

end WfbYa.Rx
