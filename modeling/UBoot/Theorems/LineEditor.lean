import UBoot.CmdLine
import UBoot.Lib.LineEditor

/-!
# The line editor edits a line

What `cread_line` keeps is a text with a cursor. A sequence `ESC [ x` that is none of its own is typed into the line; of `ESC x`, only the
`ESC` is.
-/

namespace UBoot

open Lib List Option

/-! ## Keys and commands -/

/-- How much of an escape sequence has been seen. -/
inductive EscState where
  | idle | esc | bracket

/-- What a key means: a command, or a line of the history. -/
inductive LineKey where
  | edit (c : EditCommand UInt8)
  | recall (key : RecallKey)

/-- A key outside an escape sequence. -/
def plainKey (c : UInt8) : LineKey :=
  if c = CTL_CH 0x61 then .edit .home
  else if c = CTL_CH 0x66 then .edit .right
  else if c = CTL_CH 0x62 then .edit .left
  else if c = CTL_CH 0x64 then .edit .delete
  else if c = CTL_CH 0x6b then .edit .kill
  else if c = CTL_CH 0x65 then .edit .toEnd
  else if c = CTL_CH 0x6f then .edit .toggleInsert
  else if c = CTL_CH 0x78 ∨ c = CTL_CH 0x75 then .edit .clear
  else if c = DEL ∨ c = DEL7 ∨ c = CTL_BACKSPACE then .edit .backspace
  else if c = CTL_CH 0x70 then .recall .prev
  else if c = CTL_CH 0x6e then .recall .next
  else .edit (.type [c])

/-- The last key of an escape sequence that began with `ESC [`. -/
def bracketKey (c : UInt8) : LineKey :=
  if c = 0x44 then .edit .left
  else if c = 0x43 then .edit .right
  else if c = 0x48 then .edit .home
  else if c = 0x41 then .recall .prev
  else if c = 0x42 then .recall .next
  else .edit (.type [chEscape, 0x5b, c])

/-- One key: the state after it, and what it means, if it completes something. -/
def decodeKey : EscState → UInt8 → EscState × Option LineKey
  | .idle, c => if c = chEscape then (.esc, none) else (.idle, some (plainKey c))
  | .esc, c => if c = 0x5b then (.bracket, none) else (.idle, some (.edit (.type [chEscape])))
  | .bracket, c => (.idle, some (bracketKey c))

/-- The abstract editor: a line with a cursor, the escape sequence, and the history. -/
structure EditState (len : Nat) where
  line : LineEditor UInt8 len
  esc : EscState
  hist : History

/-- What a key means is done; a recalled line replaces the line, and where the history has none, nothing happens. -/
def EditState.perform {len : Nat} (t : EditState len) : LineKey → EditState len
  | .edit c => { t with line := t.line.apply c }
  | .recall key =>
    match histPress t.hist key with
    | some (some l, hist) => { t with line := t.line.apply (.replace l.bytes), hist := hist }
    | some (none, hist) => { t with hist := hist }
    | none => t

def EditState.key {len : Nat} (t : EditState len) (c : UInt8) : EditState len :=
  match decodeKey t.esc c with
  | (state, none) => { t with esc := state }
  | (state, some k) => { t with esc := state }.perform k

/-! ## The relation -/

/-- The indices of the history are inside `hist_list`, and its lines fit into a line. -/
structure History.Fits (h : History) (len : Nat) : Prop where
  rows : h.histLines.length = HIST_MAX
  max_lt : h.histMax < HIST_MAX
  max_nonneg : 0 ≤ h.histMax
  add_lt : h.histAddIdx < HIST_MAX
  add_nonneg : 0 ≤ h.histAddIdx
  cur_lt : h.histCur < HIST_MAX
  lines : ∀ l ∈ h.histLines, l.bytes.length ≤ len

/-- The buffer of `len + 1` bytes shows the line: its text from the start on, and its cursor. -/
structure Shows {len : Nat} (b : CreadBuf) (e : LineEditor UInt8 len) : Prop where
  num_eq : b.num = e.cursor
  eol_eq : b.eolNum = e.text.length
  buf_eq : ∃ rest, b.buf = e.text ++ rest
  size : b.buf.length = len + 1

/-- The bytes of `esc_save` for a state. -/
def EscState.saved : EscState → List UInt8
  | .idle => []
  | .esc => [chEscape]
  | .bracket => [chEscape, 0x5b]

/-- `cread_line` between two keys is the abstract editor. -/
structure Edits {len : Nat} (s : CreadLine) (t : EditState len) : Prop where
  line : Shows s.line t.line
  insert : s.insert = t.line.insert
  esc : s.escSave = t.esc.saved
  hist : s.hist = t.hist
  fits : t.hist.Fits len

namespace LineEditorAux

variable {len : Nat} {b : CreadBuf} {e : LineEditor UInt8 len} {A B rest : List UInt8}
variable {h : History} {line : List UInt8 → CreadBuf} {c : UInt8}

theorem shows_cut (h : Shows b e) : ∃ A B rest, e.Cut A B ∧ b = ⟨A.length, A.length + B.length, A ++ B ++ rest⟩ ∧
    A.length + B.length + rest.length = len + 1 := by
  obtain ⟨rest, hbuf⟩ := h.buf_eq
  have hcut := e.cut_take_drop
  have hlen := hcut.length_eq
  have hsize := h.size
  rw [hbuf, length_append] at hsize
  refine ⟨_, _, rest, hcut, ?_, by omega⟩
  cases b with
  | mk num eolNum buf =>
    rw [CreadBuf.mk.injEq, ← hlen, ← hcut.text_eq, ← hcut.cursor_eq]
    exact ⟨h.num_eq, h.eol_eq, hbuf⟩

theorem shows_of_cut (rest : List UInt8) (h : e.Cut A B) (hsize : A.length + B.length + rest.length = len + 1) :
    Shows ⟨A.length, A.length + B.length, A ++ B ++ rest⟩ e where
  num_eq := h.cursor_eq.symm
  eol_eq := h.length_eq.symm
  buf_eq := ⟨rest, by rw [h.text_eq]⟩
  size := by
    rw [length_append, length_append]
    exact hsize

/-! ## Typing -/

/-- A character that makes the text grow. -/
theorem creadAddChar_grow (h0 : 0 < len) (hlt : len < 2 ^ 32) (insert : Bool) (hins : insert = true ∨ B = []) (c x : UInt8)
    (hroom : A.length + B.length < len) :
    creadAddChar c insert len ⟨A.length, A.length + B.length, A ++ B ++ x :: rest⟩ =
      some ⟨(A ++ [c]).length, (A ++ [c]).length + B.length, A ++ [c] ++ B ++ rest⟩ := by
  have hgrow : insert = true ∨ A.length = A.length + B.length := hins.imp_right fun hB => by rw [hB]; rfl
  have hcount : (A ++ [c]).length + B.length = A.length + B.length + 1 := by
    rw [length_append, length_singleton]
    omega
  unfold creadAddChar
  simp only [hgrow, true_and, if_true, sub32_of_le h0 hlt]
  rw [if_neg (by omega), hcount, length_append, length_singleton]
  by_cases hB : B = []
  · have hput := putByte_append A rest x c
    subst hB
    cases insert <;> simp [hput]
  · have hpos := length_pos_of_ne_nil hB
    obtain rfl : insert = true := hins.resolve_right hB
    obtain ⟨y, hmove⟩ := memmove_up A B rest x
    have hput := putByte_append A (B ++ rest) y c
    have hwlen : A.length + B.length + 1 - A.length = B.length + 1 := by omega
    rw [if_pos rfl, hwlen]
    simp only [show B.length + 1 > 1 by omega, if_true, Nat.add_sub_cancel, hmove, bind_some, hput]
    simp

theorem shows_typeChar (h : Shows b e) (h0 : 0 < len) (hlt : len < 2 ^ 32) (c : UInt8) :
    ∃ b', creadAddChar c e.insert len b = some b' ∧ Shows b' (e.typeChar c) := by
  obtain ⟨A, B, rest, hcut, rfl, hsize⟩ := shows_cut h
  by_cases hins : e.insert = true ∨ B = []
  · by_cases hroom : A.length + B.length < len
    · obtain ⟨x, rest, rfl⟩ : ∃ x rest', rest = x :: rest' := exists_cons_of_length_pos (by omega)
      refine ⟨_, creadAddChar_grow h0 hlt e.insert hins c x hroom, shows_of_cut _ (hcut.typeChar_grow c hins hroom) ?_⟩
      simp only [length_append, length_cons, length_nil] at hsize ⊢
      omega
    · have hfull : A.length + B.length = len := by
        have := e.length_le
        rw [hcut.length_eq] at this
        omega
      have hgrow : e.insert = true ∨ A.length = A.length + B.length := hins.imp_right fun hB => by rw [hB]; rfl
      refine ⟨⟨A.length, A.length + B.length, A ++ B ++ rest⟩, ?_, ?_⟩
      · unfold creadAddChar
        rw [sub32_of_le h0 hlt, if_pos ⟨hgrow, by show A.length + B.length > len - 1; omega⟩]
      · rw [hcut.typeChar_full c hins hfull]
        exact shows_of_cut _ hcut hsize
  · obtain ⟨hover, hB⟩ := not_or.1 hins
    obtain ⟨x, B, rfl⟩ := exists_cons_of_ne_nil hB
    have hover : e.insert = false := by simpa using hover
    have hput := putByte_append A (B ++ rest) x c
    refine ⟨⟨(A ++ [c]).length, (A ++ [c]).length + B.length, A ++ [c] ++ B ++ rest⟩, ?_, ?_⟩
    · have hne : A.length ≠ A.length + (x :: B).length := by simp
      unfold creadAddChar
      simp only [hover, hne, false_or, false_and, if_false, Bool.false_eq_true]
      rw [append_assoc A, cons_append, hput]
      simp only [map_some, length_append, length_cons, length_nil, append_assoc, cons_append,
        nil_append, some.injEq, CreadBuf.mk.injEq, true_and, and_true]
      omega
    · refine shows_of_cut _ (hcut.typeChar_over c hover) ?_
      simp only [length_append, length_cons, length_nil] at hsize ⊢
      omega

theorem shows_typeChars (h0 : 0 < len) (hlt : len < 2 ^ 32) (cs : List UInt8)
    (h : Shows b e) : ∃ b', creadAddStr e.insert len cs b = some b' ∧ Shows b' (e.typeChars cs) := by
  induction cs generalizing b e with
  | nil => exact ⟨b, rfl, h⟩
  | cons c cs ih =>
    obtain ⟨b₁, h1, hs₁⟩ := shows_typeChar h h0 hlt c
    obtain ⟨b₂, h2, hs₂⟩ := ih hs₁
    rw [LineEditor.insert_typeChar] at h2
    exact ⟨b₂, by rw [creadAddStr, h1, bind_some]; exact h2, hs₂⟩

/-! ## The other commands -/

theorem shows_home (h : Shows b e) : Shows b.beginningOfLine (e.apply .home) := by
  obtain ⟨A, B, rest, hcut, rfl, hsize⟩ := shows_cut h
  have hs := shows_of_cut rest hcut.home (by simpa using hsize)
  simpa [CreadBuf.beginningOfLine] using hs

theorem shows_toEnd (h : Shows b e) : Shows b.refreshToEol (e.apply .toEnd) := by
  obtain ⟨A, B, rest, hcut, rfl, hsize⟩ := shows_cut h
  have hs := shows_of_cut rest hcut.toEnd (by simpa using hsize)
  have hnum : CreadBuf.refreshToEol ⟨A.length, A.length + B.length, A ++ B ++ rest⟩ =
      ⟨A.length + B.length, A.length + B.length, A ++ B ++ rest⟩ := by
    unfold CreadBuf.refreshToEol
    cases B with
    | nil => simp
    | cons x B => simp
  rw [hnum]
  simpa using hs

theorem shows_kill (h : Shows b e) : Shows b.eraseToEol (e.apply .kill) := by
  obtain ⟨A, B, rest, hcut, rfl, hsize⟩ := shows_cut h
  have hs := shows_of_cut (B ++ rest) hcut.kill (by simp only [length_append, length_nil]; omega)
  have heol : CreadBuf.eraseToEol ⟨A.length, A.length + B.length, A ++ B ++ rest⟩ = ⟨A.length, A.length, A ++ B ++ rest⟩ := by
    unfold CreadBuf.eraseToEol
    cases B with
    | nil => simp
    | cons x B => simp
  rw [heol]
  simpa using hs

theorem shows_clear (h : Shows b e) : Shows b.beginningOfLine.eraseToEol (e.apply .clear) := by
  have hs := shows_kill (shows_home h)
  obtain ⟨rest, hbuf⟩ := hs.buf_eq
  exact ⟨hs.num_eq, hs.eol_eq, ⟨rest, hbuf⟩, hs.size⟩

theorem shows_right (h : Shows b e) : Shows (if b.num < b.eolNum then { b with num := b.num + 1 } else b) (e.apply .right) := by
  obtain ⟨A, B, rest, hcut, rfl, hsize⟩ := shows_cut h
  cases B with
  | nil =>
    have hend : ¬e.cursor < e.text.length := by
      rw [hcut.length_eq, hcut.cursor_eq, length_nil]
      omega
    rw [if_neg (by simp), LineEditor.apply, dif_neg hend]
    exact shows_of_cut _ hcut hsize
  | cons x B =>
    have hs := shows_of_cut rest hcut.right (by simp only [length_append, length_cons, length_nil] at hsize ⊢; omega)
    rw [if_pos (by simp)]
    simpa [Nat.add_comm, Nat.add_left_comm] using hs

theorem shows_left (h : Shows b e) : Shows (if 0 < b.num then { b with num := b.num - 1 } else b) (e.apply .left) := by
  obtain ⟨A, B, rest, hcut, rfl, hsize⟩ := shows_cut h
  rcases eq_nil_or_concat A with rfl | ⟨A, x, rfl⟩
  · rw [if_neg (by simp), hcut.left_nil]
    exact shows_of_cut _ hcut hsize
  · rw [concat_eq_append] at hcut hsize ⊢
    have hs := shows_of_cut rest hcut.left (by simp only [length_append, length_cons, length_nil] at hsize ⊢; omega)
    rw [if_pos (by simp)]
    simpa [Nat.add_comm, Nat.add_left_comm] using hs

/-- The character at the cursor is removed by moving what is behind it. -/
theorem shows_delete (h : Shows b e) : ∃ b', (if b.num < b.eolNum then
      (if 0 < b.eolNum - b.num - 1 then memmove b.buf b.num (b.num + 1) (b.eolNum - b.num - 1) else some b.buf).map fun buf =>
        { b with eolNum := b.eolNum - 1, buf := buf }
      else some b) = some b' ∧ Shows b' (e.apply .delete) := by
  obtain ⟨A, B, rest, hcut, rfl, hsize⟩ := shows_cut h
  cases B with
  | nil =>
    have hend : ¬e.cursor < e.text.length := by
      rw [hcut.length_eq, hcut.cursor_eq, length_nil]
      omega
    rw [LineEditor.apply, dif_neg hend]
    exact ⟨_, if_neg (by simp), shows_of_cut _ hcut hsize⟩
  | cons x B =>
    have hwlen : A.length + (x :: B).length - A.length - 1 = B.length := by simp
    have heol : A.length + (x :: B).length - 1 = A.length + B.length := by simp
    obtain ⟨y, hmove⟩ : ∃ y, (if 0 < B.length then memmove (A ++ x :: (B ++ rest)) A.length (A.length + 1) B.length
        else some (A ++ x :: (B ++ rest))) = some (A ++ B ++ y :: rest) := by
      by_cases hB : 0 < B.length
      · obtain ⟨y, hmove⟩ := memmove_down A B rest x
        exact ⟨y, by rw [if_pos hB, hmove]⟩
      · obtain rfl : B = [] := eq_nil_of_length_eq_zero (by omega)
        exact ⟨x, by simp⟩
    refine ⟨⟨A.length, A.length + B.length, A ++ B ++ y :: rest⟩, ?_, ?_⟩
    · rw [if_pos (by simp)]
      simp only [hwlen, heol, append_assoc, cons_append] at hmove ⊢
      rw [hmove]
      rfl
    · refine shows_of_cut _ hcut.delete ?_
      simp only [length_cons] at hsize ⊢
      omega

/-- The character before the cursor is removed by moving what is behind it. -/
theorem shows_backspace (h : Shows b e) : ∃ b', (if 0 < b.num then
      (memmove b.buf (b.num - 1) b.num (b.eolNum - b.num)).map fun buf => CreadBuf.mk (b.num - 1) (b.eolNum - 1) buf
      else some b) = some b' ∧ Shows b' (e.apply .backspace) := by
  obtain ⟨A, B, rest, hcut, rfl, hsize⟩ := shows_cut h
  rcases eq_nil_or_concat A with rfl | ⟨A, x, rfl⟩
  · have hstart : ¬0 < e.cursor := by
      rw [hcut.cursor_eq, length_nil]
      omega
    rw [LineEditor.apply, dif_neg hstart]
    exact ⟨_, if_neg (by simp), shows_of_cut _ hcut hsize⟩
  · rw [concat_eq_append] at hcut hsize ⊢
    obtain ⟨y, hmove⟩ := memmove_down A B rest x
    refine ⟨⟨A.length, A.length + B.length, A ++ B ++ y :: rest⟩, ?_, ?_⟩
    · have hnum : (A ++ [x]).length = A.length + 1 := by simp
      have hwlen : A.length + 1 + B.length - (A.length + 1) = B.length := by omega
      have heol : A.length + 1 + B.length - 1 = A.length + B.length := by omega
      have hbuf : A ++ [x] ++ B ++ rest = A ++ x :: (B ++ rest) := by simp
      rw [if_pos (by simp)]
      simp only [hnum, hwlen, heol, hbuf, Nat.add_sub_cancel, hmove, map_some]
    · refine shows_of_cut _ hcut.backspace ?_
      simp only [length_append, length_cons, length_nil] at hsize ⊢
      omega

/-! ## Recalled lines -/

/-- A key of the history finds a line that fits, or none, and stays inside `hist_list`. -/
theorem histPress_fits (hf : h.Fits len) (key : RecallKey) :
    ∃ o h', histPress h key = some (o, h') ∧ h'.Fits len ∧ ∀ l, o = some l → l.bytes.length ≤ len := by
  have hrows := hf.rows
  have hmax := hf.max_lt
  have hmax0 := hf.max_nonneg
  have hadd := hf.add_lt
  have hadd0 := hf.add_nonneg
  have hcur := hf.cur_lt
  unfold HIST_MAX at hrows hmax hadd hcur
  have moved (cur : Int) (h0 : 0 ≤ cur) (hlt : cur < 20) : ({ h with histCur := cur } : History).Fits len :=
    ⟨hf.rows, hf.max_lt, hmax0, hf.add_lt, hadd0, hlt, hf.lines⟩
  have line_eq (cur : Int) (h0 : 0 ≤ cur) (hlt : cur < 20) : ∃ l, h.line cur = some l ∧ l.bytes.length ≤ len := by
    have hidx : cur.toNat < h.histLines.length := by omega
    exact ⟨_, by rw [History.line, if_pos h0, getElem?_eq_getElem hidx], hf.lines _ (getElem_mem hidx)⟩
  have stay : ∃ o h', some ((none : Option CString), h) = some (o, h') ∧ h'.Fits len ∧ ∀ l, o = some l → l.bytes.length ≤ len :=
    ⟨none, h, rfl, hf, fun _ h => nomatch h⟩
  cases key with
  | prev =>
    show ∃ o h', histPrev h = _ ∧ _
    by_cases hneg : h.histCur < 0
    · rw [histPrev, if_pos hneg]
      exact stay
    · have hnew : 0 ≤ (if h.histCur - 1 < 0 then h.histMax else h.histCur - 1) ∧
          (if h.histCur - 1 < 0 then h.histMax else h.histCur - 1) < 20 := by split_ifs <;> omega
      rw [histPrev, if_neg hneg]
      generalize (if h.histCur - 1 < 0 then h.histMax else h.histCur - 1) = cur at hnew
      by_cases hback : cur = h.histAddIdx
      · rw [if_pos hback]
        exact stay
      · obtain ⟨l, hl, hfit⟩ := line_eq cur hnew.1 hnew.2
        rw [if_neg hback, hl]
        exact ⟨some l, _, rfl, moved cur hnew.1 hnew.2, fun l' h => some.inj h ▸ hfit⟩
  | next =>
    show ∃ o h', histNext h = _ ∧ _
    by_cases hneg : h.histCur < 0
    · rw [histNext, if_pos hneg]
      exact stay
    · by_cases hback : h.histCur = h.histAddIdx
      · rw [histNext, if_neg hneg, if_pos hback]
        exact stay
      · have hnew : 0 ≤ (if h.histCur + 1 > h.histMax then 0 else h.histCur + 1) ∧
            (if h.histCur + 1 > h.histMax then 0 else h.histCur + 1) < 20 := by split_ifs <;> omega
        rw [histNext, if_neg hneg, if_neg hback]
        generalize (if h.histCur + 1 > h.histMax then 0 else h.histCur + 1) = cur at hnew
        by_cases hend : cur = h.histAddIdx
        · rw [if_pos hend]
          exact ⟨some CString.empty, _, rfl, moved cur hnew.1 hnew.2, fun l h => some.inj h ▸ Nat.zero_le _⟩
        · obtain ⟨l, hl, hfit⟩ := line_eq cur hnew.1 hnew.2
          rw [if_neg hend, hl]
          exact ⟨some l, _, rfl, moved cur hnew.1 hnew.2, fun l' h => some.inj h ▸ hfit⟩

variable {s : CreadLine} {t : EditState len}

theorem edits_line (h : Edits s t) (hs : Shows b e) (hins : e.insert = t.line.insert) :
    Edits { s with line := b } { t with line := e } := ⟨hs, by rw [hins]; exact h.insert, h.esc, h.hist, h.fits⟩

theorem edits_recall (h : Edits s t) (hidle : t.esc = .idle) (key : RecallKey) :
    ∃ s', creadRecall s (histPress s.hist key) = some s' ∧ Edits s' (t.perform (.recall key)) := by
  obtain ⟨o, hist, hpress, hfits, hline⟩ := histPress_fits h.fits key
  rw [EditState.perform, h.hist, hpress]
  cases o with
  | none => exact ⟨_, rfl, h.line, h.insert, by simp [hidle, EscState.saved], rfl, hfits⟩
  | some l =>
    have hl := hline l rfl
    obtain ⟨rest, hbuf, hlen⟩ : ∃ rest, s.line.buf = s.line.buf.take (l.bytes.length + 1) ++ rest ∧
        (s.line.buf.take (l.bytes.length + 1)).length = (l.bytes ++ [0]).length := by
      have hsize := h.line.size
      exact ⟨s.line.buf.drop (l.bytes.length + 1), (take_append_drop _ _).symm, by simp; omega⟩
    have hclear := shows_clear h.line
    have hnum : s.line.beginningOfLine.eraseToEol.num = 0 := by
      unfold CreadBuf.eraseToEol CreadBuf.beginningOfLine
      split <;> rfl
    have hput : putBytes s.line.beginningOfLine.eraseToEol.buf 0 (l.bytes ++ [0]) = some (l.bytes ++ 0 :: rest) := by
      have hsame : s.line.beginningOfLine.eraseToEol.buf = s.line.buf := by
        unfold CreadBuf.eraseToEol CreadBuf.beginningOfLine
        split <;> rfl
      have hp := putBytes_append [] (s.line.buf.take (l.bytes.length + 1)) rest (l.bytes ++ [0]) hlen
      rw [hsame, hbuf]
      simpa using hp
    have hrefresh : CreadBuf.refreshToEol ⟨0, l.bytes.length, l.bytes ++ 0 :: rest⟩ =
        ⟨l.bytes.length, l.bytes.length, l.bytes ++ 0 :: rest⟩ := by
      unfold CreadBuf.refreshToEol
      by_cases hpos : 0 < l.bytes.length
      · simp [hpos]
      · simp [Nat.eq_zero_of_not_pos hpos]
    refine ⟨_, by rw [creadRecall, hput, map_some], ?_⟩
    rw [hnum, CString.ofBytes_terminated, hrefresh]
    refine ⟨?_, ?_, by simp [hidle, EscState.saved], rfl, hfits⟩
    · have hs := shows_of_cut (0 :: rest) (t.line.cut_replace hl) (by
        have hsize := h.line.size
        rw [hbuf, length_append, hlen, length_append, length_singleton] at hsize
        simp only [length_cons, length_nil]
        omega)
      simpa using hs
    · exact h.insert.trans (t.line.insert_apply (c := .replace l.bytes) (fun h => nomatch h) fun _ h => nomatch h).symm

/-! ## One key -/

/-- A branch that moves the characters of the line, as it stands in the `switch`. -/
theorem key_of_moved {p : Prop} [Decidable p] {moved : Option (List UInt8)}
    (h : (if p then moved.map line else some s.line) = some b) :
    (if p then moved.map fun buf => CreadNext.key { s with line := line buf } else some (.key s)) = some (.key { s with line := b }) := by
  by_cases hp : p
  · rw [if_pos hp] at h ⊢
    obtain ⟨buf, rfl, rfl⟩ := map_eq_some_iff.1 h
    rfl
  · rw [if_neg hp] at h ⊢
    rw [← some.inj h]

theorem edits_switch (h : Edits s t) (hidle : t.esc = .idle) (h0 : 0 < len) (hlt : len < 2 ^ 32) (hesc : c ≠ chEscape)
    (hbreak : c ≠ CTL_CH 0x63) : ∃ s', creadSwitch len s c = some (.key s') ∧ Edits s' (t.perform (plainKey c)) := by
  have edit {b : CreadBuf} {cmd : EditCommand UInt8} (hs : Shows b (t.line.apply cmd)) (h1 : cmd ≠ .toggleInsert)
      (h2 : ∀ cs, cmd ≠ .type cs) : Edits { s with line := b } (t.perform (.edit cmd)) :=
    edits_line h hs (t.line.insert_apply h1 h2)
  unfold creadSwitch plainKey
  dsimp only
  rw [if_neg hesc]
  by_cases ha : c = CTL_CH 0x61
  · rw [if_pos ha, if_pos ha]
    exact ⟨_, rfl, edit (shows_home h.line) (fun h => nomatch h) fun _ h => nomatch h⟩
  rw [if_neg ha, if_neg ha, if_neg hbreak]
  by_cases hf : c = CTL_CH 0x66
  · rw [if_pos hf, if_pos hf]
    exact ⟨_, rfl, edit (shows_right h.line) (fun h => nomatch h) fun _ h => nomatch h⟩
  rw [if_neg hf, if_neg hf]
  by_cases hb : c = CTL_CH 0x62
  · rw [if_pos hb, if_pos hb]
    exact ⟨_, rfl, edit (shows_left h.line) (fun h => nomatch h) fun _ h => nomatch h⟩
  rw [if_neg hb, if_neg hb]
  by_cases hd : c = CTL_CH 0x64
  · rw [if_pos hd, if_pos hd]
    obtain ⟨b', hb', hs⟩ := shows_delete h.line
    exact ⟨_, key_of_moved hb', edit hs (fun h => nomatch h) fun _ h => nomatch h⟩
  rw [if_neg hd, if_neg hd]
  by_cases hk : c = CTL_CH 0x6b
  · rw [if_pos hk, if_pos hk]
    exact ⟨_, rfl, edit (shows_kill h.line) (fun h => nomatch h) fun _ h => nomatch h⟩
  rw [if_neg hk, if_neg hk]
  by_cases he : c = CTL_CH 0x65
  · rw [if_pos he, if_pos he]
    exact ⟨_, rfl, edit (shows_toEnd h.line) (fun h => nomatch h) fun _ h => nomatch h⟩
  rw [if_neg he, if_neg he]
  by_cases ho : c = CTL_CH 0x6f
  · rw [if_pos ho, if_pos ho]
    exact ⟨_, rfl, ⟨h.line.num_eq, h.line.eol_eq, h.line.buf_eq, h.line.size⟩, by rw [h.insert]; rfl, h.esc, h.hist, h.fits⟩
  rw [if_neg ho, if_neg ho]
  by_cases hx : c = CTL_CH 0x78 ∨ c = CTL_CH 0x75
  · rw [if_pos hx, if_pos hx]
    exact ⟨_, rfl, edit (shows_clear h.line) (fun h => nomatch h) fun _ h => nomatch h⟩
  rw [if_neg hx, if_neg hx]
  by_cases hdel : c = DEL ∨ c = DEL7 ∨ c = CTL_BACKSPACE
  · rw [if_pos hdel, if_pos hdel]
    obtain ⟨b', hb', hs⟩ := shows_backspace h.line
    exact ⟨_, key_of_moved hb', edit hs (fun h => nomatch h) fun _ h => nomatch h⟩
  rw [if_neg hdel, if_neg hdel]
  by_cases hp : c = CTL_CH 0x70
  · rw [if_pos hp, if_pos hp]
    obtain ⟨s', hs', he'⟩ := edits_recall h hidle .prev
    exact ⟨s', by rw [show histPrev s.hist = histPress s.hist .prev from rfl, hs', map_some], he'⟩
  rw [if_neg hp, if_neg hp]
  by_cases hn : c = CTL_CH 0x6e
  · rw [if_pos hn, if_pos hn]
    obtain ⟨s', hs', he'⟩ := edits_recall h hidle .next
    exact ⟨s', by rw [show histNext s.hist = histPress s.hist .next from rfl, hs', map_some], he'⟩
  rw [if_neg hn, if_neg hn]
  obtain ⟨b', hb', hs⟩ := shows_typeChar h.line h0 hlt c
  rw [h.insert, hb']
  refine ⟨_, rfl, ⟨hs, ?_, h.esc, h.hist, h.fits⟩⟩
  exact (t.line.insert_typeChar c).symm

theorem edits_flush (h : Edits s t) (h0 : 0 < len) (hlt : len < 2 ^ 32) (cs : List UInt8) :
    ∃ s', creadFlush len s cs = some (.key s') ∧ Edits s' ({ t with esc := .idle }.perform (.edit (.type cs))) := by
  obtain ⟨b', hb', hs⟩ := shows_typeChars h0 hlt cs h.line
  rw [creadFlush, h.insert, hb']
  exact ⟨_, rfl, hs, (t.line.insert_typeChars cs).symm, rfl, h.hist, h.fits⟩

theorem edits_key (h : Edits s t) (h0 : 0 < len) (hlt : len < 2 ^ 32) (henter : c ≠ chNewline ∧ c ≠ chCarriageReturn)
    (hbreak : c ≠ CTL_CH 0x63) : ∃ s', creadKey len s c = some (.key s') ∧ Edits s' (t.key c) := by
  have hnone : ¬(c = chNewline ∨ c = chCarriageReturn) := not_or.2 henter
  have hsaved := h.esc
  rw [creadKey, if_neg hnone]
  cases hstate : t.esc with
  | idle =>
    rw [hstate] at hsaved
    rw [if_pos (by rw [hsaved]; rfl), EditState.key, hstate]
    by_cases hesc : c = chEscape
    · have hswitch : creadSwitch len s c = some (.key { s with escSave := [chEscape] }) := by
        unfold creadSwitch
        dsimp only
        rw [if_pos hesc, hsaved, hesc]
        rfl
      simp only [decodeKey, if_pos hesc]
      exact ⟨_, hswitch, h.line, h.insert, rfl, h.hist, h.fits⟩
    · obtain ⟨s', hs', he'⟩ := edits_switch h hstate h0 hlt hesc hbreak
      simp only [decodeKey, if_neg hesc]
      refine ⟨s', hs', ?_⟩
      rw [← hstate]
      exact he'
  | esc =>
    rw [hstate] at hsaved
    rw [if_neg (by rw [hsaved]; decide), if_pos (by rw [hsaved]; rfl), EditState.key, hstate, hsaved]
    by_cases hopen : c = 0x5b
    · simp only [decodeKey, if_pos hopen]
      exact ⟨_, rfl, h.line, h.insert, by rw [hopen]; rfl, h.hist, h.fits⟩
    · simp only [decodeKey, if_neg hopen]
      exact edits_flush h h0 hlt [chEscape]
  | bracket =>
    rw [hstate] at hsaved
    have hidle : Edits { s with escSave := [] } { t with esc := .idle } := ⟨h.line, h.insert, rfl, h.hist, h.fits⟩
    rw [if_neg (by rw [hsaved]; decide), if_neg (by rw [hsaved]; decide), EditState.key, hstate, hsaved]
    unfold decodeKey bracketKey
    dsimp only
    by_cases hD : c = 0x44
    · rw [if_pos hD, if_pos hD]
      exact edits_switch hidle rfl h0 hlt (by decide) (by decide)
    rw [if_neg hD, if_neg hD]
    by_cases hC : c = 0x43
    · rw [if_pos hC, if_pos hC]
      exact edits_switch hidle rfl h0 hlt (by decide) (by decide)
    rw [if_neg hC, if_neg hC]
    by_cases hH : c = 0x48
    · rw [if_pos hH, if_pos hH]
      exact edits_switch hidle rfl h0 hlt (by decide) (by decide)
    rw [if_neg hH, if_neg hH]
    by_cases hA : c = 0x41
    · rw [if_pos hA, if_pos hA]
      exact edits_switch hidle rfl h0 hlt (by decide) (by decide)
    rw [if_neg hA, if_neg hA]
    by_cases hB : c = 0x42
    · rw [if_pos hB, if_pos hB]
      exact edits_switch hidle rfl h0 hlt (by decide) (by decide)
    rw [if_neg hB, if_neg hB]
    exact edits_flush h h0 hlt _

theorem edits_keys (h0 : 0 < len) (hlt : len < 2 ^ 32) (keys : List UInt8)
    (hkeys : ∀ c ∈ keys, c ≠ chNewline ∧ c ≠ chCarriageReturn ∧ c ≠ CTL_CH 0x63) (h : Edits s t) :
    ∃ s', creadKeys len keys s = some (.key s') ∧ Edits s' (keys.foldl EditState.key t) := by
  induction keys generalizing s t with
  | nil => exact ⟨s, rfl, h⟩
  | cons c keys ih =>
    obtain ⟨h1, h2, h3⟩ := hkeys c mem_cons_self
    obtain ⟨s₁, hk, he⟩ := edits_key h h0 hlt ⟨h1, h2⟩ h3
    obtain ⟨s₂, hks, he₂⟩ := ih (fun c hc => hkeys c (mem_cons_of_mem _ hc)) he
    exact ⟨s₂, by rw [creadKeys, hk]; exact hks, he₂⟩

theorem creadKeys_append {keys : List UInt8} {s' : CreadLine} (h : creadKeys len keys s = some (.key s')) (keys' : List UInt8) :
    creadKeys len (keys ++ keys') s = creadKeys len keys' s' := by
  induction keys generalizing s with
  | nil =>
    obtain rfl : s = s' := by simpa [creadKeys] using h
    rfl
  | cons c keys ih =>
    rw [creadKeys] at h
    rw [cons_append, creadKeys]
    cases hk : creadKey len s c with
    | none => simp [hk] at h
    | some r =>
      cases r with
      | key s₁ =>
        rw [hk] at h
        exact ih h
      | ret rc n buf hist => simp [hk] at h

/-! ## The end of the line -/

theorem creadAddToHist_fits (hf : h.Fits len) {line : CString} (hline : line.bytes.length ≤ len) :
    ∃ h', creadAddToHist line h = some h' ∧ h'.Fits len := by
  have hrows := hf.rows
  have hmax := hf.max_lt
  have hmax0 := hf.max_nonneg
  have hadd := hf.add_lt
  have hadd0 := hf.add_nonneg
  unfold HIST_MAX at hrows hmax hadd
  have hidx : h.histAddIdx.toNat < h.histLines.length := by omega
  have hnew : 0 ≤ (if h.histAddIdx + 1 ≥ (HIST_MAX : Nat) then 0 else h.histAddIdx + 1) ∧
      (if h.histAddIdx + 1 ≥ (HIST_MAX : Nat) then 0 else h.histAddIdx + 1) < 20 := by
    unfold HIST_MAX
    split_ifs <;> omega
  rw [creadAddToHist, History.line, if_pos hadd0, getElem?_eq_getElem hidx]
  dsimp only
  generalize (if h.histAddIdx + 1 ≥ (HIST_MAX : Nat) then 0 else h.histAddIdx + 1) = addIdx at hnew
  refine ⟨_, rfl, ?_, ?_, ?_, hnew.2, hnew.1, hf.cur_lt, ?_⟩
  · rw [length_set]
    exact hf.rows
  · show (if addIdx > h.histMax then addIdx else h.histMax) < 20
    split_ifs <;> omega
  · show 0 ≤ (if addIdx > h.histMax then addIdx else h.histMax)
    split_ifs <;> omega
  · intro l hl
    rcases mem_or_eq_of_mem_set hl with hl | rfl
    · exact hf.lines l hl
    · exact hline

/-- Enter: the buffer holds the text and a NUL behind it. -/
theorem creadEnter_edits (h : Edits s t) : ∃ rest hist, creadEnter s =
      some (.ret 0 t.line.text.length (t.line.text ++ 0 :: rest) hist) ∧ hist.Fits len ∧ (t.line.text ++ 0 :: rest).length = len + 1 := by
  obtain ⟨rest, hbuf⟩ := h.line.buf_eq
  have hsize := h.line.size
  have hle := t.line.length_le
  rw [hbuf, length_append] at hsize
  obtain ⟨x, rest, rfl⟩ : ∃ x rest', rest = x :: rest' := exists_cons_of_length_pos (by omega)
  have hput : putByte s.line.buf s.line.eolNum 0 = some (t.line.text ++ 0 :: rest) := by
    rw [hbuf, h.line.eol_eq]
    exact putByte_append t.line.text rest x 0
  obtain ⟨c, hc⟩ : ∃ c, (t.line.text ++ 0 :: rest)[0]? = some c := by
    have hpos : 0 < (t.line.text ++ 0 :: rest).length := by
      rw [length_append, length_cons]
      omega
    exact ⟨_, getElem?_eq_getElem hpos⟩
  have hline : (CString.ofBytes (t.line.text ++ 0 :: rest)).bytes.length ≤ len := by
    have hcut : (t.line.text ++ 0 :: rest).takeWhile (· != 0) <+: t.line.text := by
      rw [takeWhile_append]
      split
      · simp
      · exact takeWhile_prefix _
    exact hcut.length_le.trans hle
  have hfits : s.hist.Fits len := h.hist ▸ h.fits
  have hlen : (t.line.text ++ 0 :: rest).length = len + 1 := by
    rw [length_append]
    exact hsize
  have atEnd {h : History} (hf : h.Fits len) : h.atEnd.Fits len :=
    ⟨hf.rows, hf.max_lt, hf.max_nonneg, hf.add_lt, hf.add_nonneg, hf.add_lt, hf.lines⟩
  rw [creadEnter, hput]
  dsimp only
  rw [hc]
  dsimp only
  by_cases hadd : c ≠ 0 ∧ c ≠ CREAD_HIST_CHAR
  · obtain ⟨hist, hh, hf⟩ := creadAddToHist_fits hfits hline
    rw [if_pos hadd, hh, h.line.eol_eq]
    exact ⟨rest, _, rfl, atEnd hf, hlen⟩
  · rw [if_neg hadd, h.line.eol_eq]
    exact ⟨rest, _, rfl, atEnd hfits, hlen⟩

end LineEditorAux

open LineEditorAux

/-- The abstract editor at the start of a line: the text given, with the cursor at its end. -/
def EditState.start {len : Nat} (init : CString) (hist : History) : EditState len :=
  ⟨LineEditor.empty.apply (.replace init.bytes), .idle, hist⟩

theorem histInit_fits (len : Nat) : histInit.Fits len where
  rows := by simp [histInit]
  max_lt := by decide
  max_nonneg := by decide
  add_lt := by decide
  add_nonneg := by decide
  cur_lt := by decide
  lines := by
    intro l hl
    obtain rfl := (mem_replicate.1 hl).2
    exact Nat.zero_le _

/-- The line editor refines the text with a cursor: after any keys but Enter and `^C`, `cread_line` has made no access outside the
`len + 1` bytes of the buffer and shows the line the commands of these keys make; and Enter then returns its length and leaves
it in the buffer with a NUL behind it, and a history that fits again. -/
theorem cread_line_refines (len : Nat) (h0 : 0 < len) (hlt : len < 2 ^ 32) (init : CString) (rest : List UInt8)
    (hbuf : (init.bytes ++ 0 :: rest).length = len + 1) (hist : History) (hfits : hist.Fits len) (keys : List UInt8)
    (hkeys : ∀ c ∈ keys, c ≠ chNewline ∧ c ≠ chCarriageReturn ∧ c ≠ CTL_CH 0x63) :
    (∃ s, creadLine len (init.bytes ++ 0 :: rest) hist keys = some (.key s) ∧
        Edits s (keys.foldl EditState.key (EditState.start init hist) : EditState len) ∧ s.line.num ≤ s.line.eolNum ∧ s.line.eolNum ≤ len) ∧
      ∀ enter, enter = chNewline ∨ enter = chCarriageReturn → ∃ rest' hist', creadLine len (init.bytes ++ 0 :: rest) hist (keys ++ [enter]) =
          some (.ret 0 (keys.foldl EditState.key (EditState.start init hist) : EditState len).line.text.length
            ((keys.foldl EditState.key (EditState.start init hist) : EditState len).line.text ++ 0 :: rest') hist') ∧
          hist'.Fits len ∧
          ((keys.foldl EditState.key (EditState.start init hist) : EditState len).line.text ++ 0 :: rest').length = len + 1 := by
  have hinit : init.bytes.length ≤ len := by
    rw [length_append, length_cons] at hbuf
    omega
  have hempty : Shows ⟨0, 0, init.bytes ++ 0 :: rest⟩ (LineEditor.empty : LineEditor UInt8 len) := ⟨rfl, rfl, ⟨_, rfl⟩, hbuf⟩
  obtain ⟨b, hb, hs⟩ := shows_typeChars h0 hlt init.bytes hempty
  rw [LineEditor.typeChars_empty hinit] at hs
  have hmode : ((LineEditor.empty : LineEditor UInt8 len).apply (.replace init.bytes)).insert = true :=
    LineEditor.insert_apply LineEditor.empty (fun h => nomatch h) fun _ h => nomatch h
  have hstart : Edits ⟨b, true, [], hist⟩ (EditState.start init hist : EditState len) := ⟨hs, hmode.symm, rfl, rfl, hfits⟩
  have hline (keys : List UInt8) : creadLine len (init.bytes ++ 0 :: rest) hist keys = creadKeys len keys ⟨b, true, [], hist⟩ := by
    rw [creadLine, CString.ofBytes_terminated, show creadAddStr true len init.bytes _ = _ from hb, bind_some]
  obtain ⟨s, hrun, hed⟩ := edits_keys h0 hlt keys hkeys hstart
  refine ⟨⟨s, (hline keys).trans hrun, hed, ?_, ?_⟩, ?_⟩
  · rw [hed.line.num_eq, hed.line.eol_eq]
    exact LineEditor.cursor_le _
  · rw [hed.line.eol_eq]
    exact LineEditor.length_le _
  · intro enter henter
    obtain ⟨rest', hist', hret, hf, hlen⟩ := creadEnter_edits hed
    refine ⟨rest', hist', ?_, hf, hlen⟩
    rw [hline, creadKeys_append hrun, creadKeys, creadKey, if_pos henter, hret]

/-- Typing `ab`, going left by an arrow key and typing `c` makes `acb`. -/
theorem cread_line_refines_arrow : histInit.Fits 8 ∧ ∃ rest hist,
    creadLine 8 (CString.empty.bytes ++ 0 :: List.replicate 8 0) histInit [0x61, 0x62, 0x1b, 0x5b, 0x44, 0x63, 0x0a] =
      some (.ret 0 3 ([0x61, 0x63, 0x62] ++ 0 :: rest) hist) := by
  have hkeys : ∀ c ∈ ([0x61, 0x62, 0x1b, 0x5b, 0x44, 0x63] : List UInt8), c ≠ chNewline ∧ c ≠ chCarriageReturn ∧ c ≠ CTL_CH 0x63 := by
    simp only [forall_mem_cons, not_mem_nil, false_implies, implies_true, and_true]
    decide
  have h := cread_line_refines 8 (by decide) (by decide) CString.empty (List.replicate 8 0) rfl histInit (histInit_fits 8)
    [0x61, 0x62, 0x1b, 0x5b, 0x44, 0x63] hkeys
  obtain ⟨rest, hist, hret, -⟩ := h.2 chNewline (Or.inl rfl)
  exact ⟨histInit_fits 8, rest, hist, hret⟩

end UBoot
