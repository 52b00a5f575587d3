/-
  WfbYa.Log.ShellTokens — the words that a command finds through its token.

  `shellRead_read`: of a line for which there is room, `cur` and the pointers behind it are
  those of the words, whatever is typed behind the line.
-/

import WfbYa.Log.ShellCommands

namespace WfbYa.Log

open WfbYa.Lib.Words

variable {t : ShellToken} {line : Bytes} {ws : List Bytes}

/-- The pointers are to these words, and `cur` is one of the pointers. -/
structure Points (t : ShellToken) (ws : List Bytes) : Prop where
  tok : ∀ i, (t.tok.getD i none).map (cString t.buf) = ws[i]?
  length : t.tok.length = maxToken
  cur : t.cur = t.tok.getD t.curIdx none

theorem Points.word (h : Points t ws) : t.word = ws[t.curIdx]? := by
  unfold ShellToken.word
  rw [h.cur]
  exact h.tok _

theorem Points.next (h : Points t ws) : Points t.next ws := by
  unfold ShellToken.next
  split
  · refine ⟨h.tok, h.length, ?_⟩
    show none = t.tok.getD maxToken none
    rw [List.getD_eq_getElem?_getD, List.getElem?_eq_none (Nat.le_of_eq h.length)]
    rfl
  · exact ⟨h.tok, h.length, rfl⟩

theorem next_idx (h : t.curIdx + 1 < maxToken) : t.next.curIdx = t.curIdx + 1 := by
  unfold ShellToken.next
  rw [if_neg (Nat.not_le.mpr h)]

/-- The pointers, and behind them NULL. -/
structure Packed (t : ShellToken) (offs : List Nat) : Prop where
  tok : t.tok = offs.map some ++ List.replicate (maxToken - offs.length) none
  length : offs.length ≤ maxToken

theorem Packed.tokens {offs : List Nat} (h : Packed t offs) : t.tokens = offs.map (cString t.buf) := by
  unfold ShellToken.tokens
  rw [h.tok, takeWhile_some]

theorem Packed.points {offs : List Nat} (h : Packed t offs) (hcur : t.cur = t.tok.getD t.curIdx none) : Points t t.tokens := by
  refine ⟨fun i => ?_, ?_, hcur⟩
  · rw [h.tokens, h.tok, List.getD_eq_getElem?_getD]
    by_cases hi : i < offs.length
    · rw [List.getElem?_append_left (by simpa using hi)]
      simp [hi]
    · have hle := Nat.not_lt.mp hi
      have hnone : (offs.map (cString t.buf))[i]? = none := List.getElem?_eq_none (by simpa using hle)
      rw [List.getElem?_append_right (by simpa using hle), List.getElem?_replicate, hnone]
      split <;> rfl
  · rw [h.tok]
    have := h.length
    simp
    omega

/-- What cutting leaves as it was, and where it leaves the pointers. -/
theorem shellLex_packed {text tail : Bytes} (hbuf : t.buf = text ++ 0 :: tail) (hlen : t.buf.length = bufsiz)
    (hnul : (0 : UInt8) ∉ text)
    (hnl : charNewline ∉ text) (hidx : t.curIdx = 0) (htok : t.tok = (List.replicate maxToken none).set 0 (some 0)) :
    ∃ t' offs, shellLex t = .ok t' ∧ t'.system = t.system ∧ t'.curIdx = 0 ∧ t'.cur = t'.tok.getD t'.curIdx none ∧
    Packed t' offs := by
  have hcut : t.cutNewline = .ok t := by
    have hstr : cString t.buf 0 = text := by
      rw [hbuf]
      exact @cString_append text hnul [] tail
    unfold ShellToken.cutNewline
    rw [hstr, List.idxOf?_eq_none_iff.mpr hnl]
  obtain ⟨t', offs, hrun, hl⟩ := @lexFrom_runs t maxToken [] text tail hbuf hlen hnul (by rw [hidx, Nat.zero_add])
    (by simp [htok])
  have hlex : shellLex t = .ok t'.reset := by
    unfold shellLex
    rw [hcut]
    show (lexFrom (maxToken - t.curIdx) 0 t).bind _ = _
    rw [hidx, Nat.sub_zero, show lexFrom maxToken 0 t = _ from hrun]
    rfl
  have hcount : offs.length ≤ maxToken := by
    have hwords := congrArg List.length hl.words
    rw [List.length_map, List.length_take] at hwords
    omega
  have htoks := hl.tok
  rw [htok, hidx, List.take_zero, List.nil_append, Nat.zero_add] at htoks
  cases offs with
  | nil => exact ⟨t'.reset, [0], hlex, hl.system, rfl, rfl, htoks, by decide⟩
  | cons o offs =>
    rw [List.drop_set_of_lt (show 0 < (o :: offs).length from Nat.succ_pos _), List.drop_replicate] at htoks
    exact ⟨t'.reset, o :: offs, hlex, hl.system, rfl, rfl, htoks, hcount⟩

/-- A line of text, for which there is room. -/
structure Typed (line : Bytes) : Prop where
  nul : (0 : UInt8) ∉ line
  newline : charNewline ∉ line
  room : (kept line).length < bufsiz

/-- The words of a line that orders something. -/
def wordsOf (line : Bytes) : List Bytes := if runs charSpace line = [] then [line] else (runs charSpace line).take maxToken

structure ReadAs (line : Bytes) (t : ShellToken) : Prop where
  system : t.system = bang line
  query : bang line = false → t.query = asked line
  tokens : bang line = false → asked line = false → t.tokens = wordsOf line
  points : bang line = false → asked line = false → Points t (wordsOf line)
  first : t.curIdx = 0

/-- The token of a line, whatever is behind it. -/
theorem shellRead_read (h : Typed line) :
    ∃ t, (∀ rest, shellRead (line ++ charNewline :: rest) = .ok (some t, rest)) ∧ ReadAs line t := by
  obtain ⟨t, hend, hbuf, hquery, hsys, hidx, htok⟩ := endLine_held (bang line) h.room
  have hstop : ¬ (charNewline = 0 ∨ bufsiz ≤ (kept line).length) := by
    rw [not_or]
    exact ⟨by decide, Nat.not_le.mpr h.room⟩
  have hread : ∀ rest, shellRead (line ++ charNewline :: rest) = (finishLine t).map fun t => (some t, rest) := by
    intro rest
    unfold shellRead
    rw [readLoop_kept h.nul h.newline, if_pos h.room, readLoop, if_neg hstop, if_pos rfl, hend]
    rfl
  have hsub : ∀ c ∈ (if bang line then kept line else askOff (kept line)), c ∈ line := by
    intro c hc
    unfold kept askOff at hc
    cases hb : bang line with
    | true =>
      rw [hb, if_pos rfl, if_pos rfl] at hc
      exact List.mem_of_mem_tail hc
    | false =>
      rw [hb] at hc
      simp only [Bool.false_eq_true, if_false] at hc
      split at hc
      · exact (List.dropLast_sublist _).subset hc
      · exact hc
  have hshort : (if bang line then kept line else askOff (kept line)).length < bufsiz := by
    have hroom := h.room
    unfold askOff
    split
    · exact hroom
    · split
      · rw [List.length_dropLast]
        omega
      · exact hroom
  obtain ⟨k, hk⟩ : ∃ k, bufsiz - (if bang line then kept line else askOff (kept line)).length = k + 1 :=
    ⟨_, (Nat.sub_add_cancel (Nat.sub_pos_of_lt hshort)).symm⟩
  rw [hk, List.replicate_succ] at hbuf
  have hlen : t.buf.length = bufsiz := by
    rw [hbuf, List.length_append, List.length_cons, List.length_replicate]
    omega
  obtain ⟨t', offs, hlex, hsys', hidx', hcur', hpacked⟩ := shellLex_packed hbuf hlen (fun hc => h.nul (hsub _ hc))
    (fun hc => h.newline (hsub _ hc)) hidx htok
  by_cases hrun : t.system = true ∧ t.buf.getD 0 0 ≠ 0
  · have hfin : finishLine t = .ok t := if_pos hrun
    have hbang : bang line = true := hsys.symm.trans hrun.1
    have hno : bang line ≠ false := by
      rw [hbang]
      simp
    exact ⟨t, fun rest => (by rw [hread, hfin]; rfl), hsys, fun hb => absurd hb hno, fun hb => absurd hb hno,
      fun hb => absurd hb hno, hidx⟩
  · have hfin : finishLine t = .ok t' := (if_neg hrun).trans hlex
    have htokens : bang line = false → t'.query = asked line ∧
        t'.tokens = if runs charSpace (askOff line) = [] then [askOff line] else
          (runs charSpace (askOff line)).take maxToken := by
      intro hb
      obtain ⟨t'', hread', htokens⟩ := @shellRead_line line [] h.nul h.newline h.room
      rw [hread, hfin] at hread'
      cases hread'
      exact htokens (of_decide_eq_false hb)
    have hwords : bang line = false → asked line = false → t'.tokens = wordsOf line := by
      intro hb ha
      have hoff : askOff line = line := by
        unfold askOff
        rw [ha]
        rfl
      have htok := (htokens hb).2
      rw [hoff] at htok
      exact htok
    exact ⟨t', fun rest => (by rw [hread, hfin]; rfl), hsys'.trans hsys, fun hb => (htokens hb).1, hwords,
      fun hb ha => hwords hb ha ▸ hpacked.points hcur', hidx'⟩

end WfbYa.Log
