import UBoot.CString
import UBoot.Lib.Recall
import UBoot.Buffer
import UBoot.Word

/-!
# Command history

The history of the command line in common/main.c: `hist_init`, `cread_add_to_hist`, `hist_prev` and `hist_next`. The pointers
`hist_list` are set once, to the rows of `hist_lines`, so a line is the row of its index. An index outside `hist_list` makes
the result `none`.
-/

namespace UBoot

section

open Lib

def HIST_MAX : Nat := 20

/-- The variables of the history. -/
structure History where
  histMax : Int
  histAddIdx : Int
  histCur : Int
  histNum : Nat
  histLines : List CString

def CString.empty : CString := ⟨[], by simp⟩

/-- A row of `hist_list`. -/
def History.line (h : History) (idx : Int) : Option CString := if 0 ≤ idx then h.histLines[idx.toNat]? else none

def histInit : History := ⟨0, 0, -1, 0, List.replicate HIST_MAX CString.empty⟩

def creadAddToHist (line : CString) (h : History) : Option History :=
  match h.line h.histAddIdx with
  | none => none
  | some _ =>
    let addIdx := if h.histAddIdx + 1 ≥ HIST_MAX then 0 else h.histAddIdx + 1
    some { h with
      histLines := h.histLines.set h.histAddIdx.toNat line
      histAddIdx := addIdx
      histMax := if addIdx > h.histMax then addIdx else h.histMax
      histNum := (h.histNum + 1) % 2 ^ 32 }

/-- `hist_prev`: the line, or `none` inside for `NULL`. -/
def histPrev (h : History) : Option (Option CString × History) :=
  if h.histCur < 0 then some (none, h)
  else
    let cur := if h.histCur - 1 < 0 then h.histMax else h.histCur - 1
    if cur = h.histAddIdx then some (none, h)
    else (h.line cur).map fun l => (some l, { h with histCur := cur })

def histNext (h : History) : Option (Option CString × History) :=
  if h.histCur < 0 then some (none, h)
  else if h.histCur = h.histAddIdx then some (none, h)
  else
    let cur := if h.histCur + 1 > h.histMax then 0 else h.histCur + 1
    if cur = h.histAddIdx then some (some CString.empty, { h with histCur := cur })
    else (h.line cur).map fun l => (some l, { h with histCur := cur })

/-- `hist_cur = hist_add_idx`, when a line has been read. -/
def History.atEnd (h : History) : History := { h with histCur := h.histAddIdx }

/-- One of the two keys of the history. -/
def histPress (h : History) : RecallKey → Option (Option CString × History)
  | .prev => histPrev h
  | .next => histNext h

/-- What `hist_prev` and `hist_next` return, one call after the other, and the history they leave. -/
def histRun : List RecallKey → History → Option (List (Option CString) × History)
  | [], h => some ([], h)
  | key :: keys, h =>
    match histPress h key with
    | none => none
    | some (ret, h) => (histRun keys h).map fun r => (ret :: r.1, r.2)

end

/-!
## The line editor

`cread_line` of common/main.c with `cread_add_char` and `cread_add_str`, without `CONFIG_AUTO_COMPLETE` and timeouts. What is printed is
left out. The buffer is the list of its bytes, and an access outside it makes the result `none`. The macros that move the cursor
and erase count `num` and `eol_num` in loops; here they are set to where the loops end.
-/

section

open Lib

def CTL_CH (c : UInt8) : UInt8 := c - 0x61 + 1
/-- `DEL` and `DEL7`, and the backspace. -/
def DEL : UInt8 := 255
def DEL7 : UInt8 := 127
def CTL_BACKSPACE : UInt8 := 8
/-- `CREAD_HIST_CHAR` -/
def CREAD_HIST_CHAR : UInt8 := 0x21
/-- The escape character and the carriage return. -/
def chEscape : UInt8 := 0x1b
def chCarriageReturn : UInt8 := 0x0d

/-- The variables `num`, `eol_num` and `buf`. -/
structure CreadBuf where
  num : Nat
  eolNum : Nat
  buf : List UInt8

def creadAddChar (ichar : UInt8) (insert : Bool) (len : Nat) (b : CreadBuf) : Option CreadBuf :=
  -- room ???
  if (insert ∨ b.num = b.eolNum) ∧ b.eolNum > sub32 len 1 then some b
  else
    let eolNum := if insert ∨ b.num = b.eolNum then b.eolNum + 1 else b.eolNum
    if insert then
      let wlen := eolNum - b.num
      let moved := if wlen > 1 then memmove b.buf (b.num + 1) b.num (wlen - 1) else some b.buf
      moved.bind fun buf => (putByte buf b.num ichar).map fun buf => ⟨b.num + 1, eolNum, buf⟩
    else (putByte b.buf b.num ichar).map fun buf => ⟨b.num + 1, eolNum, buf⟩

def creadAddStr (insert : Bool) (len : Nat) : List UInt8 → CreadBuf → Option CreadBuf
  | [], b => some b
  | c :: str, b => (creadAddChar c insert len b).bind fun b => creadAddStr insert len str b

def CreadBuf.beginningOfLine (b : CreadBuf) : CreadBuf := { b with num := 0 }

def CreadBuf.eraseToEol (b : CreadBuf) : CreadBuf := if b.num < b.eolNum then { b with eolNum := b.num } else b

def CreadBuf.refreshToEol (b : CreadBuf) : CreadBuf := if b.num < b.eolNum then { b with num := b.eolNum } else b

/-- The variables of `cread_line` between two keys; `escSave` is the first `esc_len` bytes of `esc_save`. -/
structure CreadLine where
  line : CreadBuf
  insert : Bool
  escSave : List UInt8
  hist : History

/-- What a key leads to: the next key, or the end of `cread_line` with what it returns, `*len`, the buffer and the history. -/
inductive CreadNext where
  | key (s : CreadLine)
  | ret (rc : Int) (len : Nat) (buf : List UInt8) (hist : History)

/-- The keys that recall a line. -/
def creadRecall (s : CreadLine) (hline : Option (Option CString × History)) : Option CreadLine :=
  match hline with
  | none => none
  | some (none, hist) => some { s with escSave := [], hist := hist }
  | some (some hline, hist) =>
    let line := s.line.beginningOfLine.eraseToEol
    -- copy new line into place and display
    (putBytes line.buf 0 (hline.bytes ++ [0])).map fun buf =>
      { s with escSave := [], hist := hist, line := CreadBuf.refreshToEol ⟨line.num, (CString.ofBytes buf).bytes.length, buf⟩ }

def creadSwitch (len : Nat) (s : CreadLine) (ichar : UInt8) : Option CreadNext :=
  let next (line : CreadBuf) : CreadNext := .key { s with line := line }
  let b := s.line
  if ichar = chEscape then some (.key { s with escSave := if s.escSave = [] then [ichar] else [] })
  else if ichar = CTL_CH 0x61 then some (next b.beginningOfLine)
  -- ^C: discard input
  else if ichar = CTL_CH 0x63 then (putByte b.buf 0 0).map fun buf => .ret (-1) len buf s.hist
  else if ichar = CTL_CH 0x66 then some (next (if b.num < b.eolNum then { b with num := b.num + 1 } else b))
  else if ichar = CTL_CH 0x62 then some (next (if 0 < b.num then { b with num := b.num - 1 } else b))
  else if ichar = CTL_CH 0x64 then
    if b.num < b.eolNum then
      let wlen := b.eolNum - b.num - 1
      (if 0 < wlen then memmove b.buf b.num (b.num + 1) wlen else some b.buf).map fun buf =>
        next { b with eolNum := b.eolNum - 1, buf := buf }
    else some (next b)
  else if ichar = CTL_CH 0x6b then some (next b.eraseToEol)
  else if ichar = CTL_CH 0x65 then some (next b.refreshToEol)
  else if ichar = CTL_CH 0x6f then some (.key { s with insert := !s.insert })
  else if ichar = CTL_CH 0x78 ∨ ichar = CTL_CH 0x75 then some (next b.beginningOfLine.eraseToEol)
  else if ichar = DEL ∨ ichar = DEL7 ∨ ichar = CTL_BACKSPACE then
    if 0 < b.num then
      (memmove b.buf (b.num - 1) b.num (b.eolNum - b.num)).map fun buf => next ⟨b.num - 1, b.eolNum - 1, buf⟩
    else some (next b)
  else if ichar = CTL_CH 0x70 then (creadRecall s (histPrev s.hist)).map .key
  else if ichar = CTL_CH 0x6e then (creadRecall s (histNext s.hist)).map .key
  else (creadAddChar ichar s.insert len b).map next

/-- The end of the line: what is returned, `*len`, the buffer and the history. -/
def creadEnter (s : CreadLine) : Option CreadNext :=
  match putByte s.line.buf s.line.eolNum 0 with
  | none => none
  | some buf =>
    match buf[0]? with
    | none => none
    | some c =>
      (if c ≠ 0 ∧ c ≠ CREAD_HIST_CHAR then creadAddToHist (CString.ofBytes buf) s.hist else some s.hist).map fun hist =>
        .ret 0 s.line.eolNum buf hist.atEnd

/-- An escape sequence that is none: what was saved of it is added. -/
def creadFlush (len : Nat) (s : CreadLine) (escSave : List UInt8) : Option CreadNext :=
  (creadAddStr s.insert len escSave s.line).map fun line => .key { s with line := line, escSave := [] }

def creadKey (len : Nat) (s : CreadLine) (ichar : UInt8) : Option CreadNext :=
  if ichar = chNewline ∨ ichar = chCarriageReturn then creadEnter s
  -- handle standard linux xterm esc sequences for arrow key, etc.
  else if s.escSave.length = 0 then creadSwitch len s ichar
  else if s.escSave.length = 1 then
    if ichar = 0x5b then some (.key { s with escSave := s.escSave ++ [ichar] }) else creadFlush len s s.escSave
  else if ichar = 0x44 then creadSwitch len { s with escSave := [] } (CTL_CH 0x62)
  else if ichar = 0x43 then creadSwitch len { s with escSave := [] } (CTL_CH 0x66)
  else if ichar = 0x48 then creadSwitch len { s with escSave := [] } (CTL_CH 0x61)
  else if ichar = 0x41 then creadSwitch len { s with escSave := [] } (CTL_CH 0x70)
  else if ichar = 0x42 then creadSwitch len { s with escSave := [] } (CTL_CH 0x6e)
  else creadFlush len s (s.escSave ++ [ichar])

/-- The keys, until `cread_line` returns. -/
def creadKeys (len : Nat) : List UInt8 → CreadLine → Option CreadNext
  | [], s => some (.key s)
  | ichar :: keys, s =>
    match creadKey len s ichar with
    | none => none
    | some (.key s) => creadKeys len keys s
    | some (.ret rc len buf hist) => some (.ret rc len buf hist)

/-- `cread_line`: the text that stands in the buffer is entered first. -/
def creadLine (len : Nat) (buf : List UInt8) (hist : History) (keys : List UInt8) : Option CreadNext :=
  (creadAddStr true len (CString.ofBytes buf).bytes ⟨0, 0, buf⟩).bind fun line => creadKeys len keys ⟨line, true, [], hist⟩

end

end UBoot
