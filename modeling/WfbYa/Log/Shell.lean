/-
  WfbYa.Log.Shell — how the analysis shell reads a line and cuts it into tokens (`shell.c`).

  `shell_read` stores each character with a NUL behind it, and looks whether there is room for
  the character only: the line that fills `buf` has its NUL behind `buf`. Pointers into `buf`
  are offsets in it; a write outside an array is a fault.

  - `readLoop_held`: the loop, character by character.
  - `lexFrom_runs`: the tokens.
  - `shell_reads_iff`: when a line is read as it should.
-/

import WfbYa.Params
import WfbYa.Lib.Words

namespace WfbYa.Log

open WfbYa.Lib.Words

/-! ## struct shell_token -/

def maxToken : Nat := 10

structure ShellToken where
  buf : Bytes
  cur : Option Nat
  curIdx : Nat
  query : Bool
  system : Bool
  tok : List (Option Nat)
  deriving DecidableEq

def ShellToken.putBuf (t : ShellToken) (i : Nat) (c : UInt8) : Except Fault ShellToken :=
  if i < bufsiz then .ok { t with buf := t.buf.set i c } else .error .outOfBounds

def ShellToken.putTok (t : ShellToken) (i p : Nat) : Except Fault ShellToken :=
  if i < maxToken then .ok { t with tok := t.tok.set i (some p) } else .error .outOfBounds

/-- `token_reset`. -/
def ShellToken.reset (t : ShellToken) : ShellToken := { t with curIdx := 0, cur := t.tok.getD 0 none }

/-- A string in `buf`. -/
def cString (buf : Bytes) (p : Nat) : Bytes := (buf.drop p).takeWhile fun c => c ≠ 0

/-- The tokens, up to the first pointer that is NULL. -/
def ShellToken.tokens (t : ShellToken) : List Bytes := ((t.tok.takeWhile Option.isSome).filterMap id).map (cString t.buf)

/-! ## shell_lex -/

def charSpace : UInt8 := 32
def charNewline : UInt8 := 10
def charBang : UInt8 := 33
def charQuery : UInt8 := 63

/-- `strtok_r` from `p` on: where the next token starts and ends. -/
def strtok (buf : Bytes) (p : Nat) : Option (Nat × Nat) :=
  let start := p + ((buf.drop p).takeWhile fun c => c = charSpace).length
  let len := ((buf.drop start).takeWhile fun c => c ≠ charSpace ∧ c ≠ 0).length
  if len = 0 then none else some (start, start + len)

/-- The NUL that `strtok_r` puts behind a token, and where it goes on. -/
def ShellToken.endToken (t : ShellToken) (stop : Nat) : Except Fault (ShellToken × Nat) :=
  if t.buf.getD stop 0 = 0 then .ok (t, stop) else (t.putBuf stop 0).map fun t => (t, stop + 1)

/-- The loop over the tokens; `n` is how many there is room for. -/
def lexFrom : Nat → Nat → ShellToken → Except Fault ShellToken
  | 0, _, t => .ok t
  | n + 1, p, t =>
    match strtok t.buf p with
    | none => .ok t
    | some (start, stop) => do
      let r ← t.endToken stop
      let t ← r.1.putTok r.1.curIdx start
      lexFrom n r.2 { t with curIdx := t.curIdx + 1 }

/-- `strchr(token->buf, '\n')`. -/
def ShellToken.cutNewline (t : ShellToken) : Except Fault ShellToken :=
  match (cString t.buf 0).idxOf? charNewline with
  | some i => t.putBuf i 0
  | none => .ok t

def shellLex (t : ShellToken) : Except Fault ShellToken := do
  let t ← t.cutNewline
  let t ← lexFrom (maxToken - t.curIdx) 0 t
  return t.reset

/-! ## shell_read -/

/-- `token` before the first character. -/
def ShellToken.start : ShellToken :=
  ⟨List.replicate bufsiz 0, none, 0, false, false, (List.replicate maxToken none).set 0 (some 0)⟩

/-- `*bufp++ = ch; *bufp = '\0';` -/
def ShellToken.store (t : ShellToken) (n : Nat) (ch : UInt8) : Except Fault ShellToken := do
  let t ← t.putBuf n ch
  t.putBuf (n + 1) 0

/-- At the end of the line: a trailing `?` is taken off. -/
def ShellToken.endLine (t : ShellToken) (n : Nat) : Except Fault ShellToken := if t.query then t.putBuf (n - 1) 0 else .ok t

/-- The loop; `n` is `bufp - token.buf`. No token at the end of the input. -/
def readLoop : Bytes → Nat → ShellToken → Except Fault (Option ShellToken × Bytes)
  | [], n, t => .ok (if n < bufsiz then none else some t, [])
  | ch :: rest, n, t =>
    if ch = 0 ∨ bufsiz ≤ n then .ok (some t, rest)
    else if ch = charNewline then (t.endLine n).map fun t => (some t, rest)
    else if t.system then (t.store n ch).bind (readLoop rest (n + 1))
    else if n = 0 ∧ ch = charBang then readLoop rest n { t with system := true }
    else (ShellToken.store { t with query := decide (ch = charQuery) } n ch).bind (readLoop rest (n + 1))

/-- What follows the loop: a command line is run by `system`, another one cut. -/
def finishLine (t : ShellToken) : Except Fault ShellToken := if t.system ∧ t.buf.getD 0 0 ≠ 0 then .ok t else shellLex t

/-- The token, unless the input ends; and what is left of the input. -/
def shellRead (input : Bytes) : Except Fault (Option ShellToken × Bytes) := do
  let r ← readLoop input 0 .start
  match r.1 with
  | none => return (none, r.2)
  | some t => do
    let t ← finishLine t
    return (some t, r.2)

/-! ## The tokens -/

variable {t : ShellToken} {n : Nat} {pre text tail line : Bytes} {ch : UInt8}

theorem cString_append {w : Bytes} (hw : (0 : UInt8) ∉ w) (pre tail : Bytes) :
    cString (pre ++ (w ++ 0 :: tail)) pre.length = w := by
  unfold cString
  rw [List.drop_left, List.takeWhile_append_of_pos]
  · simp
  · intro c hc
    exact decide_eq_true fun h0 => hw (h0 ▸ hc)

theorem strtok_blank {lead : Bytes} (hlead : ∀ c ∈ lead, c = charSpace) (pre tail : Bytes) :
    strtok (pre ++ (lead ++ 0 :: tail)) pre.length = none := by
  unfold strtok
  rw [List.drop_left, List.takeWhile_append_of_pos fun c hc => decide_eq_true (hlead c hc)]
  have hzero : ¬ (0 : UInt8) = charSpace := by decide
  simp only [List.takeWhile_cons, hzero, decide_false, Bool.false_eq_true, if_false, List.append_nil]
  rw [← List.length_append, ← List.append_assoc, List.drop_left]
  simp

theorem strtok_word {lead w rest : Bytes} (hlead : ∀ c ∈ lead, c = charSpace) (hw : w ≠ []) (hsep : charSpace ∉ w)
    (hnul : (0 : UInt8) ∉ w) (hrest : ∃ c rest', rest = c :: rest' ∧ (c = 0 ∨ c = charSpace)) (pre : Bytes) :
    strtok (pre ++ (lead ++ (w ++ rest))) pre.length = some (pre.length + lead.length, pre.length + lead.length + w.length) := by
  have hall : ∀ c ∈ w, decide (c ≠ charSpace ∧ c ≠ 0) = true :=
    fun c hc => decide_eq_true ⟨fun h => hsep (h ▸ hc), fun h => hnul (h ▸ hc)⟩
  obtain ⟨c, rest', rfl, hc⟩ := hrest
  have hstop : decide (c ≠ charSpace ∧ c ≠ 0) = false := by
    rcases hc with rfl | rfl <;> decide
  have hspaces : (w ++ c :: rest').takeWhile (fun c => decide (c = charSpace)) = [] := by
    cases w with
    | nil => exact absurd rfl hw
    | cons a w =>
      have ha : ¬ a = charSpace := fun h => hsep (h ▸ List.mem_cons_self)
      simp [ha]
  unfold strtok
  rw [List.drop_left, List.takeWhile_append_of_pos fun c hc => decide_eq_true (hlead c hc), hspaces, List.append_nil,
    ← List.length_append, ← List.append_assoc]
  dsimp only
  rw [List.drop_left, List.takeWhile_append_of_pos hall, List.takeWhile_cons, hstop]
  have hlen : w.length ≠ 0 := fun h => hw (List.length_eq_zero_iff.mp h)
  simp [hlen]

/-- What the loop leaves: the tokens' places, from `curIdx` on, and `buf` as it was in front. -/
structure Lexed (t : ShellToken) (n p : Nat) (text : Bytes) (t' : ShellToken) (offs : List Nat) : Prop where
  front : t'.buf.take p = t.buf.take p
  length : t'.buf.length = t.buf.length
  blank : runs charSpace text = [] → t' = t
  tok : t'.tok = t.tok.take t.curIdx ++ (offs.map some ++ t.tok.drop (t.curIdx + offs.length))
  words : offs.map (cString t'.buf) = (runs charSpace text).take n
  query : t'.query = t.query
  system : t'.system = t.system

theorem Lexed.none {p : Nat} (h : (runs charSpace text).take n = []) : Lexed t n p text t [] :=
  ⟨rfl, rfl, fun _ => rfl, by simp, by simp [h], rfl, rfl⟩

/-- A token's place noted. -/
def ShellToken.noted (t : ShellToken) (start : Nat) : ShellToken :=
  { t with tok := t.tok.set t.curIdx (some start), curIdx := t.curIdx + 1 }

theorem lexFrom_step {t1 : ShellToken} {p start stop next : Nat} (hs : strtok t.buf p = some (start, stop))
    (he : t.endToken stop = .ok (t1, next)) (hidx : t1.curIdx < maxToken) :
    lexFrom (n + 1) p t = lexFrom n next (t1.noted start) := by
  rw [lexFrom, hs]
  show (t.endToken stop).bind (fun r => (r.1.putTok r.1.curIdx start).bind fun t => lexFrom n r.2
    { t with curIdx := t.curIdx + 1 }) = _
  rw [he]
  show (t1.putTok t1.curIdx start).bind _ = _
  unfold ShellToken.putTok
  rw [if_pos hidx]
  rfl

theorem set_at {tok : List (Option Nat)} {i : Nat} (h : i < tok.length) (o : Option Nat) :
    tok.set i o = tok.take i ++ (o :: tok.drop (i + 1)) := List.set_eq_take_append_cons_drop.trans (if_pos h)

/-- The last token: its NUL is there. -/
theorem lexed_last {lead w : Bytes} (hbuf : t.buf = pre ++ (lead ++ (w ++ 0 :: tail))) (hlead : ∀ c ∈ lead, c = charSpace)
    (hw : w ≠ []) (hsep : charSpace ∉ w) (hnul : (0 : UInt8) ∉ w) (hidx : t.curIdx < t.tok.length) :
    Lexed t (n + 1) pre.length (lead ++ w) (t.noted (pre.length + lead.length)) [pre.length + lead.length] where
  front := rfl
  length := rfl
  blank := fun hnil => by
    rw [runs_lead hlead, runs_last hw hsep] at hnil
    cases hnil
  tok := set_at hidx _
  words := by
    have hstr : cString t.buf (pre.length + lead.length) = w := by
      rw [hbuf, ← List.length_append, ← List.append_assoc]
      exact cString_append hnul ..
    rw [runs_lead hlead, runs_last hw hsep]
    show [cString t.buf (pre.length + lead.length)] = _
    rw [hstr, List.take_succ_cons, List.take_nil]
  query := rfl
  system := rfl

/-- A token with others behind it. -/
theorem lexed_more {lead w rest buf : Bytes} {t' : ShellToken} {offs : List Nat}
    (hbuf : t.buf = pre ++ (lead ++ (w ++ charSpace :: (rest ++ 0 :: tail))))
    (hcut : buf = pre ++ (lead ++ (w ++ 0 :: (rest ++ 0 :: tail)))) (hlead : ∀ c ∈ lead, c = charSpace) (hw : w ≠ [])
    (hsep : charSpace ∉ w) (hnul : (0 : UInt8) ∉ w) (hidx : t.curIdx < t.tok.length)
    (h : Lexed ({ t with buf := buf }.noted (pre.length + lead.length)) n (pre.length + lead.length + w.length + 1)
    rest t' offs) :
    Lexed t (n + 1) pre.length (lead ++ (w ++ charSpace :: rest)) t' ((pre.length + lead.length) :: offs) := by
  have hfront : t'.buf.take (pre.length + lead.length + w.length + 1) = (pre ++ lead) ++ (w ++ [0]) := by
    have hf := h.front
    show _ = _
    rw [hf]
    show buf.take _ = _
    rw [hcut]
    have hsplit : pre ++ (lead ++ (w ++ 0 :: (rest ++ 0 :: tail))) = ((pre ++ lead) ++ (w ++ [0])) ++
      (rest ++ 0 :: tail) := by simp
    rw [hsplit]
    exact List.take_left' (by simp [Nat.add_assoc])
  have hwhole := List.take_append_drop (pre.length + lead.length + w.length + 1) t'.buf
  rw [hfront] at hwhole
  refine ⟨?_, ?_, ?_, ?_, ?_, h.query, h.system⟩
  · rw [← hwhole, hbuf, List.append_assoc, List.append_assoc, List.take_left' rfl, List.take_left' rfl]
  · rw [h.length]
    show buf.length = _
    rw [hcut, hbuf]
    simp
  · intro hnil
    rw [runs_lead hlead, runs_word hw hsep] at hnil
    cases hnil
  · have htok := h.tok
    show t'.tok = _
    rw [htok]
    show (t.tok.set t.curIdx _).take (t.curIdx + 1) ++ (_ ++ (t.tok.set t.curIdx _).drop (t.curIdx + 1 + offs.length)) = _
    rw [List.drop_set_of_lt (by omega), set_at hidx]
    have hlen : (t.tok.take t.curIdx).length = t.curIdx := by
      rw [List.length_take]
      omega
    have htake : (t.tok.take t.curIdx ++ (some (pre.length + lead.length) :: t.tok.drop (t.curIdx + 1))).take (t.curIdx + 1) =
        t.tok.take t.curIdx ++ [some (pre.length + lead.length)] := by
      rw [List.take_append, hlen, Nat.add_sub_cancel_left, List.take_of_length_le (by omega)]
      rfl
    rw [htake, List.map_cons, List.length_cons, List.append_assoc]
    simp [Nat.add_comm, Nat.add_left_comm]
  · have hstr : cString t'.buf (pre.length + lead.length) = w := by
      rw [← hwhole, ← List.length_append, List.append_assoc, List.append_assoc w]
      exact cString_append hnul (pre ++ lead) _
    rw [runs_lead hlead, runs_word hw hsep, List.map_cons, hstr, h.words]
    rfl

theorem lexFrom_runs (hbuf : t.buf = pre ++ (text ++ 0 :: tail)) (hlen : t.buf.length = bufsiz) (hnul : (0 : UInt8) ∉ text)
    (hroom : t.curIdx + n ≤ maxToken) (htok : t.tok.length = maxToken) :
    ∃ t' offs, lexFrom n pre.length t = .ok t' ∧ Lexed t n pre.length text t' offs := by
  induction n generalizing t pre text with
  | zero => exact ⟨t, [], rfl, .none rfl⟩
  | succ n ih =>
    have hidx : t.curIdx < t.tok.length := by omega
    rcases first_run charSpace text with hall | ⟨lead, w, rest, rfl, hlead, hw, hsep, hrest⟩
    · refine ⟨t, [], ?_, .none ?_⟩
      · rw [lexFrom, hbuf, strtok_blank hall]
      · rw [runs_eq_nil_iff.mpr hall]
        rfl
    · have hnulw : (0 : UInt8) ∉ w := fun h => hnul (List.mem_append_right _ (List.mem_append_left _ h))
      rcases hrest with rfl | ⟨rest, rfl⟩
      · rw [List.append_nil] at hbuf hnul ⊢
        have hbuf' : t.buf = pre ++ (lead ++ (w ++ 0 :: tail)) := by rw [hbuf, List.append_assoc]
        have hs : strtok t.buf pre.length = some (pre.length + lead.length, pre.length + lead.length + w.length) := by
          rw [hbuf']
          exact strtok_word hlead hw hsep hnulw ⟨0, tail, rfl, .inl rfl⟩ pre
        have hzero : t.buf.getD (pre.length + lead.length + w.length) 0 = 0 := by
          rw [hbuf', ← List.append_assoc, ← List.append_assoc, ← List.length_append, ← List.length_append]
          simp
        have he : t.endToken (pre.length + lead.length + w.length) = .ok (t, pre.length + lead.length + w.length) := if_pos hzero
        have hpre : pre.length + lead.length + w.length = (pre ++ (lead ++ w)).length := by simp [Nat.add_assoc]
        obtain ⟨t', offs, hrun, hlexed⟩ := @ih (t.noted (pre.length + lead.length)) (pre ++ (lead ++ w)) []
          (by rw [List.append_assoc, List.append_assoc]; exact hbuf') hlen List.not_mem_nil
          (by show t.curIdx + 1 + n ≤ _; omega) (by show (t.tok.set _ _).length = _; rw [List.length_set, htok])
        rw [hlexed.blank runs_nil] at hrun
        refine ⟨_, _, ?_, lexed_last hbuf' hlead hw hsep hnulw hidx⟩
        rw [lexFrom_step hs he (by omega), hpre]
        exact hrun
      · have hbuf' : t.buf = pre ++ (lead ++ (w ++ charSpace :: (rest ++ 0 :: tail))) := by
          rw [hbuf]
          simp
        have hs : strtok t.buf pre.length = some (pre.length + lead.length, pre.length + lead.length + w.length) := by
          rw [hbuf']
          exact strtok_word hlead hw hsep hnulw ⟨charSpace, _, rfl, .inr rfl⟩ pre
        have hsplit : t.buf = (pre ++ (lead ++ w)) ++ charSpace :: (rest ++ 0 :: tail) := by
          rw [hbuf']
          simp
        have hpre : pre.length + lead.length + w.length = (pre ++ (lead ++ w)).length := by simp [Nat.add_assoc]
        have hget : ¬ t.buf.getD (pre.length + lead.length + w.length) 0 = 0 := by
          rw [hsplit, hpre]
          simp [charSpace]
        have hstop : pre.length + lead.length + w.length < bufsiz := by
          rw [hpre, ← hlen, hsplit, @List.length_append _ (pre ++ (lead ++ w)), List.length_cons]
          omega
        have hset : t.buf.set (pre.length + lead.length + w.length) 0 = pre ++ (lead ++ (w ++ 0 :: (rest ++ 0 :: tail))) := by
          rw [hsplit, hpre, List.set_append_right _ _ (Nat.le_refl _), Nat.sub_self, List.set_cons_zero]
          simp
        have he : t.endToken (pre.length + lead.length + w.length) =
            .ok ({ t with buf := pre ++ (lead ++ (w ++ 0 :: (rest ++ 0 :: tail))) },
              pre.length + lead.length + w.length + 1) := by
          unfold ShellToken.endToken ShellToken.putBuf
          rw [if_neg hget, if_pos hstop, hset]
          rfl
        obtain ⟨t', offs, hrun, hlexed⟩ :=
          @ih (({ t with buf := pre ++ (lead ++ (w ++ 0 :: (rest ++ 0 :: tail))) } : ShellToken).noted
            (pre.length + lead.length)) (pre ++ (lead ++ (w ++ [0]))) rest
          (by simp [ShellToken.noted]) (by rw [← hlen, hbuf']; simp [ShellToken.noted])
          (fun h => hnul (by simp [h])) (by show t.curIdx + 1 + n ≤ _; omega)
          (by show (t.tok.set _ _).length = _; rw [List.length_set, htok])
        have hpre' : (pre ++ (lead ++ (w ++ [0]))).length = pre.length + lead.length + w.length + 1 := by simp [Nat.add_assoc]
        rw [hpre'] at hrun hlexed
        refine ⟨t', _, ?_, lexed_more hbuf' rfl hlead hw hsep hnulw hidx hlexed⟩
        rw [lexFrom_step hs he (by show t.curIdx < _; omega)]
        exact hrun

theorem takeWhile_some (l : List Nat) (m : Nat) :
    ((l.map some ++ List.replicate m none).takeWhile Option.isSome).filterMap id = l := by
  induction l with
  | nil => cases m <;> rfl
  | cons a l ih =>
    rw [List.map_cons, List.cons_append, List.takeWhile_cons]
    exact congrArg (a :: ·) ih

/-- The tokens cut from `text`; the first pointer is that of the whole text if there are none. -/
theorem shellLex_tokens (hbuf : t.buf = text ++ 0 :: tail) (hlen : t.buf.length = bufsiz) (hnul : (0 : UInt8) ∉ text)
    (hnl : charNewline ∉ text) (hidx : t.curIdx = 0) (htok : t.tok = (List.replicate maxToken none).set 0 (some 0)) :
    ∃ t', shellLex t = .ok t' ∧ t'.query = t.query ∧
      t'.tokens = if runs charSpace text = [] then [text] else (runs charSpace text).take maxToken := by
  have hstr : cString t.buf 0 = text := by
    rw [hbuf]
    exact @cString_append text hnul [] tail
  have hcut : t.cutNewline = .ok t := by
    unfold ShellToken.cutNewline
    rw [hstr, List.idxOf?_eq_none_iff.mpr hnl]
  obtain ⟨t', offs, hrun, hl⟩ := @lexFrom_runs t maxToken [] text tail hbuf hlen hnul (by rw [hidx, Nat.zero_add])
    (by simp [htok])
  refine ⟨t'.reset, ?_, hl.query, ?_⟩
  · unfold shellLex
    rw [hcut]
    show (lexFrom (maxToken - t.curIdx) 0 t).bind _ = _
    rw [hidx, Nat.sub_zero, show lexFrom maxToken 0 t = _ from hrun]
    rfl
  · show ((t'.tok.takeWhile Option.isSome).filterMap id).map (cString t'.buf) = _
    by_cases hnone : runs charSpace text = []
    · rw [hl.blank hnone, htok, if_pos hnone]
      show [cString t.buf 0] = [text]
      rw [hstr]
    · rw [if_neg hnone, ← hl.words, hl.tok, hidx, htok, List.take_zero, List.nil_append, Nat.zero_add]
      have hne : offs ≠ [] := by
        intro hnil
        have hwords := hl.words
        rw [hnil] at hwords
        rcases List.take_eq_nil_iff.mp hwords.symm with h0 | h
        · cases h0
        · exact hnone h
      have hrest : ((List.replicate maxToken (none : Option Nat)).set 0 (some 0)).drop offs.length =
          List.replicate (maxToken - offs.length) none := by
        rw [List.drop_set_of_lt (List.length_pos_iff.mpr hne), List.drop_replicate]
      rw [hrest, takeWhile_some]

/-! ## The line -/

/-- The token with `line` stored; `system` once the line began with `!`. -/
def ShellToken.held (system : Bool) (line : Bytes) : ShellToken :=
  { ShellToken.start with
    buf := line ++ List.replicate (bufsiz - line.length) 0
    query := !system && decide (line.getLast? = some charQuery)
    system := system }

@[simp] theorem held_system (system : Bool) (line : Bytes) : (ShellToken.held system line).system = system := rfl

theorem start_held : ShellToken.start = .held false [] := by
  unfold ShellToken.held ShellToken.start
  simp

theorem store_ok (hbuf : t.buf = line ++ List.replicate (bufsiz - line.length) 0)
    (hroom : line.length + 1 < bufsiz) (ch : UInt8) :
    t.store line.length ch = .ok { t with buf := (line ++ [ch]) ++ List.replicate (bufsiz - (line ++ [ch]).length) 0 } := by
  obtain ⟨k, hk⟩ : ∃ k, bufsiz - line.length = k + 2 := ⟨bufsiz - line.length - 2, by omega⟩
  have hk' : bufsiz - (line ++ [ch]).length = k + 1 := by
    rw [List.length_append, List.length_singleton]
    omega
  have hlen : line.length + 1 = (line ++ [ch]).length := by simp
  have hfirst : t.buf.set line.length ch = (line ++ [ch]) ++ List.replicate (k + 1) 0 := by
    rw [hbuf, hk, List.set_append_right _ _ (Nat.le_refl _), Nat.sub_self, List.replicate_succ, List.set_cons_zero]
    simp
  have hsecond : ((line ++ [ch]) ++ List.replicate (k + 1) 0).set (line.length + 1) 0 = (line ++ [ch]) ++
    List.replicate (k + 1) 0 := by
    rw [hlen, List.set_append_right _ _ (Nat.le_refl _), Nat.sub_self, List.replicate_succ, List.set_cons_zero]
  unfold ShellToken.store ShellToken.putBuf
  rw [if_pos (by omega), hfirst, hk']
  show (if line.length + 1 < bufsiz then _ else _) = _
  rw [if_pos hroom, hsecond]

theorem store_over {n : Nat} (hover : bufsiz ≤ n + 1) (ch : UInt8) : t.store n ch = .error .outOfBounds := by
  unfold ShellToken.store ShellToken.putBuf
  by_cases h : n < bufsiz
  · rw [if_pos h]
    exact if_neg (by omega)
  · rw [if_neg h]
    rfl

/-- The NUL behind the character is a fault when the character is the last that has room. -/
theorem readLoop_step {system : Bool} {rest : Bytes} (hch : ch ≠ 0) (hnl : ch ≠ charNewline)
    (hplain : system = true ∨ line ≠ [] ∨ ch ≠ charBang) (hlen : line.length < bufsiz) :
    readLoop (ch :: rest) line.length (.held system line) =
      if line.length + 1 < bufsiz then readLoop rest (line ++ [ch]).length (.held system (line ++ [ch]))
        else .error .outOfBounds := by
  have hstop : ¬ (ch = 0 ∨ bufsiz ≤ line.length) := by
    rw [not_or]
    exact ⟨hch, Nat.not_le.mpr hlen⟩
  rw [readLoop, if_neg hstop, if_neg hnl, List.length_append, List.length_singleton]
  cases system with
  | true =>
    rw [held_system, if_pos rfl]
    by_cases hroom : line.length + 1 < bufsiz
    · rw [if_pos hroom, store_ok rfl hroom]
      rfl
    · rw [if_neg hroom, store_over (Nat.not_lt.mp hroom)]
      rfl
  | false =>
    have hbang : ¬ (line.length = 0 ∧ ch = charBang) := by
      intro ⟨h0, hb⟩
      rcases hplain with h | h | h
      · cases h
      · exact h (List.length_eq_zero_iff.mp h0)
      · exact h hb
    rw [held_system, if_neg Bool.false_ne_true, if_neg hbang]
    by_cases hroom : line.length + 1 < bufsiz
    · have hstore := @store_ok ⟨(ShellToken.held false line).buf, (ShellToken.held false line).cur,
        (ShellToken.held false line).curIdx,
        decide (ch = charQuery), false, (ShellToken.held false line).tok⟩ line rfl hroom ch
      rw [if_pos hroom, hstore]
      show readLoop rest _ _ = _
      congr 1
      unfold ShellToken.held
      simp
    · rw [if_neg hroom, store_over (Nat.not_lt.mp hroom)]
      rfl

theorem readLoop_held {system : Bool} {rest : Bytes} (hnul : (0 : UInt8) ∉ text) (hnl : charNewline ∉ text)
    (hplain : system = true ∨ line ≠ [] ∨ text.head? ≠ some charBang) (hlen : line.length < bufsiz) :
    readLoop (text ++ rest) line.length (.held system line) =
      if line.length + text.length < bufsiz then readLoop rest (line ++ text).length (.held system (line ++ text))
      else .error .outOfBounds := by
  induction text generalizing line with
  | nil =>
    rw [List.append_nil, List.nil_append, List.length_nil, Nat.add_zero, if_pos hlen]
  | cons ch text ih =>
    rw [List.mem_cons, not_or] at hnul hnl
    have hplain' : system = true ∨ line ≠ [] ∨ ch ≠ charBang := by
      rcases hplain with h | h | h
      · exact .inl h
      · exact .inr (.inl h)
      · exact .inr (.inr fun hb => h (by rw [hb]; rfl))
    rw [List.cons_append, readLoop_step (Ne.symm hnul.1) (Ne.symm hnl.1) hplain' hlen, List.length_cons]
    by_cases hroom : line.length + 1 < bufsiz
    · rw [if_pos hroom, ih hnul.2 hnl.2 (.inr (.inl (by simp))) (by simpa using hroom)]
      simp [Nat.add_comm, Nat.add_left_comm]
    · rw [if_neg hroom, if_neg (by omega)]

/-- A line that begins with `!` is for `system`. -/
def bang (line : Bytes) : Bool := decide (line.head? = some charBang)

/-- What is stored of a line. -/
def kept (line : Bytes) : Bytes := if bang line then line.tail else line

/-- The line ends with `?`. -/
def asked (line : Bytes) : Bool := decide (line.getLast? = some charQuery)

/-- The line without it. -/
def askOff (line : Bytes) : Bytes := if asked line then line.dropLast else line

variable {rest : Bytes}

theorem readLoop_kept (hnul : (0 : UInt8) ∉ line) (hnl : charNewline ∉ line) :
    readLoop (line ++ rest) 0 .start =
      if (kept line).length < bufsiz then readLoop rest (kept line).length (.held (bang line) (kept line))
        else .error .outOfBounds := by
  have hpos : 0 < bufsiz := by decide
  rw [start_held]
  unfold kept
  cases hb : bang line with
  | false =>
    have hhead : line.head? ≠ some charBang := of_decide_eq_false hb
    have hrun := @readLoop_held line [] false rest hnul hnl (.inr (.inr hhead)) hpos
    rwa [List.length_nil, Nat.zero_add] at hrun
  | true =>
    have hhead : line.head? = some charBang := of_decide_eq_true hb
    obtain ⟨cmd, rfl⟩ : ∃ cmd, line = charBang :: cmd := by
      cases line with
      | nil => cases hhead
      | cons c cmd => exact ⟨cmd, by rw [Option.some.inj hhead]⟩
    rw [List.mem_cons, not_or] at hnul hnl
    have hstop : ¬ (charBang = 0 ∨ bufsiz ≤ 0) := by decide
    have hswitch : { ShellToken.held false [] with system := true } = ShellToken.held true [] := by simp [ShellToken.held]
    rw [List.cons_append, readLoop, if_neg hstop, if_neg (by decide : ¬ charBang = charNewline),
      if_neg (show ¬ (ShellToken.held false []).system = true from Bool.false_ne_true), if_pos ⟨rfl, rfl⟩, hswitch]
    have hrun := @readLoop_held cmd [] true rest hnul.2 hnl.2 (.inl rfl) hpos
    rwa [List.length_nil, Nat.zero_add] at hrun

/-- What is cut into tokens, or run. -/
theorem endLine_held (system : Bool) (hlen : line.length < bufsiz) :
    ∃ t, (ShellToken.held system line).endLine line.length = .ok t ∧
    t.buf = (if system then line else askOff line) ++ List.replicate (bufsiz - (if system then line else askOff line).length) 0 ∧
    t.query = (!system && asked line) ∧ t.system = system ∧ t.curIdx = 0 ∧
    t.tok = (List.replicate maxToken none).set 0 (some 0) := by
  unfold ShellToken.endLine askOff
  cases system with
  | true => exact ⟨_, rfl, rfl, rfl, rfl, rfl, rfl⟩
  | false =>
    cases ha : asked line with
    | false =>
      have hq : (ShellToken.held false line).query = false := ha
      rw [hq, if_neg Bool.false_ne_true]
      exact ⟨_, rfl, rfl, ha, rfl, rfl, rfl⟩
    | true =>
      have hq : (ShellToken.held false line).query = true := ha
      obtain ⟨l, rfl⟩ := List.getLast?_eq_some_iff.mp (of_decide_eq_true ha)
      rw [hq, if_pos rfl]
      unfold ShellToken.putBuf
      rw [List.length_append, List.length_singleton, Nat.add_sub_cancel, if_pos (by rw [List.length_append] at hlen; omega)]
      refine ⟨_, rfl, ?_, ha, rfl, rfl, rfl⟩
      show ((l ++ [charQuery]) ++ List.replicate (bufsiz - (l ++ [charQuery]).length) 0).set l.length 0 = _
      rw [List.length_append, List.length_singleton] at hlen ⊢
      obtain ⟨k, hk⟩ : ∃ k, bufsiz - (l.length + 1) = k := ⟨_, rfl⟩
      have hk' : bufsiz - l.length = k + 1 := by omega
      rw [hk, List.append_assoc, List.set_append_right _ _ (Nat.le_refl _), Nat.sub_self]
      simp [hk', List.replicate_succ]

/-- A line that has room, read to its end. -/
theorem shellRead_line (hnul : (0 : UInt8) ∉ line) (hnl : charNewline ∉ line) (hlen : (kept line).length < bufsiz) :
    ∃ t, shellRead (line ++ charNewline :: rest) = .ok (some t, rest) ∧ (line.head? ≠ some charBang → t.query = asked line ∧
      t.tokens = if runs charSpace (askOff line) = [] then [askOff line] else (runs charSpace (askOff line)).take maxToken) := by
  obtain ⟨t, hend, hbuf, hquery, hsys, hidx, htok⟩ := endLine_held (bang line) hlen
  have hstop : ¬ (charNewline = 0 ∨ bufsiz ≤ (kept line).length) := by
    rw [not_or]
    exact ⟨by decide, Nat.not_le.mpr hlen⟩
  have hloop : readLoop (line ++ charNewline :: rest) 0 .start = .ok (some t, rest) := by
    rw [readLoop_kept hnul hnl, if_pos hlen, readLoop, if_neg hstop, if_pos rfl, hend]
    rfl
  have hshell : shellRead (line ++ charNewline :: rest) = (finishLine t).map fun t => (some t, rest) := by
    unfold shellRead
    rw [hloop]
    rfl
  have hsub : ∀ c ∈ (if bang line then kept line else askOff (kept line)), c ∈ line := by
    intro c hc
    unfold kept askOff at hc
    cases hb : bang line with
    | true =>
      rw [hb, if_pos rfl, if_pos rfl] at hc
      exact List.mem_of_mem_tail hc
    | false =>
      rw [hb] at hc
      simp only [Bool.false_eq_true, if_false] at hc
      split at hc
      · exact (List.dropLast_sublist _).subset hc
      · exact hc
  generalize htext : (if bang line then kept line else askOff (kept line)) = text at hbuf hsub
  have htextlen : text.length < bufsiz := by
    rw [← htext]
    unfold askOff
    split
    · exact hlen
    · split
      · rw [List.length_dropLast]
        omega
      · exact hlen
  obtain ⟨k, hk⟩ : ∃ k, bufsiz - text.length = k + 1 := ⟨bufsiz - text.length - 1, by omega⟩
  rw [hk, List.replicate_succ] at hbuf
  have hbuflen : t.buf.length = bufsiz := by
    rw [hbuf]
    simp
    omega
  obtain ⟨t', hlex, hq, htokens⟩ := shellLex_tokens hbuf hbuflen (fun h => hnul (hsub _ h)) (fun h => hnl (hsub _ h)) hidx htok
  rw [hshell]
  unfold finishLine
  by_cases hcmd : t.system = true ∧ t.buf.getD 0 0 ≠ 0
  · rw [if_pos hcmd]
    refine ⟨t, rfl, fun hhead => ?_⟩
    rw [hsys] at hcmd
    exact absurd (of_decide_eq_true hcmd.1) hhead
  · rw [if_neg hcmd, hlex]
    refine ⟨t', rfl, fun hhead => ?_⟩
    have hb : bang line = false := decide_eq_false hhead
    have hkept : kept line = line := by
      unfold kept
      rw [hb]
      rfl
    rw [hb, hkept] at htext
    rw [hb, hkept] at hquery
    rw [← htext] at htokens
    exact ⟨hq.trans hquery, htokens⟩

/-! ## The whole input -/

/-- The first line of the input; the input may end behind it. -/
def lineOf (input : Bytes) : Bytes := input.takeWhile fun c => c ≠ charNewline

theorem lineOf_split (input : Bytes) : charNewline ∉ lineOf input ∧
    (charNewline ∉ input ∧ input = lineOf input ∨ charNewline ∈ input ∧ ∃ rest, input = lineOf input ++ charNewline :: rest) := by
  obtain ⟨w, rest, rfl, hw, hrest⟩ := first_word charNewline input
  have hall : ∀ c ∈ w, decide (c ≠ charNewline) = true := fun c hc => decide_eq_true fun h => hw (h ▸ hc)
  unfold lineOf
  rw [List.takeWhile_append_of_pos hall]
  rcases hrest with rfl | ⟨rest', rfl⟩
  · rw [List.takeWhile_nil, List.append_nil]
    exact ⟨hw, .inl ⟨hw, rfl⟩⟩
  · have hstop : (charNewline :: rest').takeWhile (fun c => decide (c ≠ charNewline)) = [] := by simp
    rw [hstop, List.append_nil]
    exact ⟨hw, .inr ⟨List.mem_append_right _ List.mem_cons_self, rest', rfl⟩⟩

/-- No write outside an array; and a whole line, not blank and not for `system`, gives its
    tokens. -/
structure ShellReads (input : Bytes) : Prop where
  inside : ∃ r, shellRead input = .ok r
  tokens : charNewline ∈ input → (lineOf input).length < bufsiz → runs charSpace (lineOf input) ≠ [] →
    (lineOf input).head? ≠ some charBang →
    ∃ t rest, shellRead input = .ok (some t, rest) ∧ t.query = asked (lineOf input) ∧
      t.tokens = (runs charSpace (askOff (lineOf input))).take maxToken

/-- A line of spaces and one `?`. -/
def OnlyAsked (line : Bytes) : Prop := asked line = true ∧ runs charSpace (askOff line) = []

theorem onlyAsked_line (h : OnlyAsked line) : runs charSpace line ≠ [] ∧ line.head? ≠ some charBang := by
  obtain ⟨ha, hruns⟩ := h
  obtain ⟨l, rfl⟩ := List.getLast?_eq_some_iff.mp (of_decide_eq_true ha)
  have hoff : askOff (l ++ [charQuery]) = l := by
    unfold askOff
    rw [ha, if_pos rfl, List.dropLast_concat]
  rw [hoff] at hruns
  have hall := runs_eq_nil_iff.mp hruns
  constructor
  · intro hnil
    exact absurd (runs_eq_nil_iff.mp hnil charQuery (List.mem_append_right _ List.mem_cons_self)) (by decide)
  · cases l with
    | nil => decide
    | cons c l =>
      rw [List.cons_append, List.head?_cons, hall c List.mem_cons_self]
      decide

theorem kept_plain (h : line.head? ≠ some charBang) : kept line = line := by
  unfold kept bang
  rw [decide_eq_false h]
  rfl

theorem shellRead_over (hnul : (0 : UInt8) ∉ line) (hnl : charNewline ∉ line) (hover : bufsiz ≤ (kept line).length) :
    shellRead (line ++ rest) = .error .outOfBounds := by
  unfold shellRead
  rw [readLoop_kept hnul hnl, if_neg (Nat.not_lt.mpr hover)]
  rfl

theorem shellRead_end (hnul : (0 : UInt8) ∉ line) (hnl : charNewline ∉ line) (hlen : (kept line).length < bufsiz) :
    shellRead line = .ok (none, []) := by
  have hloop := @readLoop_kept line [] hnul hnl
  rw [List.append_nil, if_pos hlen, readLoop, if_pos hlen] at hloop
  unfold shellRead
  rw [hloop]
  rfl

theorem shell_reads_iff {input : Bytes} (hnul : (0 : UInt8) ∉ lineOf input) :
    ShellReads input ↔ (kept (lineOf input)).length < bufsiz ∧ ¬ (charNewline ∈ input ∧ OnlyAsked (lineOf input)) := by
  obtain ⟨hnl, hend⟩ := lineOf_split input
  constructor
  · intro h
    have hlen : (kept (lineOf input)).length < bufsiz := by
      by_contra hover
      obtain ⟨r, hr⟩ := h.inside
      have hfault : shellRead input = .error .outOfBounds := by
        rcases hend with ⟨-, hinput⟩ | ⟨-, rest, hinput⟩
        · have hover' := @shellRead_over (lineOf input) [] hnul hnl (Nat.not_lt.mp hover)
          rwa [List.append_nil, ← hinput] at hover'
        · have hover' := @shellRead_over (lineOf input) (charNewline :: rest) hnul hnl (Nat.not_lt.mp hover)
          rwa [← hinput] at hover'
      rw [hfault] at hr
      cases hr
    refine ⟨hlen, fun ⟨hin, hask⟩ => ?_⟩
    obtain ⟨hruns, hhead⟩ := onlyAsked_line hask
    rcases hend with ⟨hnot, -⟩ | ⟨-, rest, hinput⟩
    · exact hnot hin
    · obtain ⟨t, rest', hread, -, htok⟩ := h.tokens hin (kept_plain hhead ▸ hlen) hruns hhead
      obtain ⟨t', hread', htokens⟩ := @shellRead_line (lineOf input) rest hnul hnl hlen
      rw [← hinput] at hread'
      cases hread'.symm.trans hread
      have hone := (htokens hhead).2
      rw [if_pos hask.2, htok, hask.2] at hone
      cases hone
  · intro ⟨hlen, hno⟩
    rcases hend with ⟨hnot, hinput⟩ | ⟨hin, rest, hinput⟩
    · refine ⟨?_, fun hin => absurd hin hnot⟩
      have hread := shellRead_end hnul hnl hlen
      rw [← hinput] at hread
      exact ⟨_, hread⟩
    · obtain ⟨t, hread, htokens⟩ := @shellRead_line (lineOf input) rest hnul hnl hlen
      rw [← hinput] at hread
      refine ⟨⟨_, hread⟩, fun _ _ hruns hhead => ⟨t, rest, hread, (htokens hhead).1, ?_⟩⟩
      have hne : runs charSpace (askOff (lineOf input)) ≠ [] := by
        intro hnil
        by_cases ha : asked (lineOf input) = true
        · exact hno ⟨hin, ha, hnil⟩
        · unfold askOff at hnil
          rw [if_neg ha] at hnil
          exact hruns hnil
      rw [(htokens hhead).2, if_neg hne]

/-! ## A line that fills the buffer -/

/-- `set dbm ?` with more spaces. -/
theorem shell_reads_query : ShellReads [115, 101, 116, 32, 32, 100, 98, 109, 32, 63, 10, 120] :=
  (shell_reads_iff (by decide)).mpr ⟨by decide, fun ⟨_, h⟩ => absurd h.2 (by decide)⟩

theorem full_line_breaks_shell : ¬ ShellReads (List.replicate bufsiz 97 ++ [charNewline]) := by
  intro h
  obtain ⟨r, hr⟩ := h.inside
  have hnul : (0 : UInt8) ∉ List.replicate bufsiz 97 := fun hmem => absurd (List.eq_of_mem_replicate hmem) (by decide)
  have hnl : charNewline ∉ List.replicate bufsiz 97 := fun hmem => absurd (List.eq_of_mem_replicate hmem) (by decide)
  have hhead : (List.replicate bufsiz (97 : UInt8)).head? ≠ some charBang := by
    rw [List.head?_replicate]
    decide
  have hover : bufsiz ≤ (kept (List.replicate bufsiz 97)).length := by
    rw [kept_plain hhead, List.length_replicate]
  rw [shellRead_over hnul hnl hover] at hr
  cases hr

end WfbYa.Log
