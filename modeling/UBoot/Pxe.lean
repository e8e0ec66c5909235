import UBoot.Hwconfig
import UBoot.Lib.Machine
import UBoot.Nfs
import UBoot.Vsprintf

/-!
# PXE files

The parser of common/cmd_pxe.c. A pointer into a file is the bytes from there on, up to the one that is the file's NUL when its parse
begins. `none` is a run that goes wrong: it reads behind that byte, or uses a string that no parse has set. `malloc` does not fail, and
what is printed is left out. A round of the machine `Pxe.round` is a turn of the loop of `parse_pxefile_top` or of `parse_label` in the
file on top of the stack; the files below are those that include it.
-/

namespace UBoot

namespace Pxe

/-- `isspace` of include/linux/ctype.h -/
def isspace (c : UInt8) : Bool := (0x09 ≤ c && c ≤ 0x0d) || c == 0x20 || c == 0xa0

def isupper (c : UInt8) : Bool := (0x41 ≤ c && c ≤ 0x5a) || (0xc0 ≤ c && c ≤ 0xd6) || (0xd8 ≤ c && c ≤ 0xde)

def tolower (c : UInt8) : UInt8 := if isupper c then c + 0x20 else c

/-- `strict_strtoul` for a base of 10: `*res`, or nothing for an error -/
def strictStrtoulTen (cp : List UInt8) : Option Nat :=
  if cp.length = 0 then none
  else
    let (val, tail) := strtoulEndTen cp
    if tail.length = cp.length then none
    else if tail = [] ∨ tail = [chNewline] then some val
    else none

/-! ## Tokens -/

inductive TokenType where
  | eol | string | eof | menu | title | timeout | label | kernel | linux | append | initrd | localboot | default | prompt | include | fdt
  | invalid
  deriving DecidableEq

/-- `struct token`; `val` is set for a string or a keyword. -/
structure Token where
  val : List UInt8
  type : TokenType
  deriving DecidableEq

def keywords : List Token :=
  [⟨"menu".toList.map asc, .menu⟩, ⟨"title".toList.map asc, .title⟩, ⟨"timeout".toList.map asc, .timeout⟩,
    ⟨"default".toList.map asc, .default⟩, ⟨"prompt".toList.map asc, .prompt⟩, ⟨"label".toList.map asc, .label⟩,
    ⟨"kernel".toList.map asc, .kernel⟩, ⟨"linux".toList.map asc, .linux⟩, ⟨"localboot".toList.map asc, .localboot⟩,
    ⟨"append".toList.map asc, .append⟩, ⟨"initrd".toList.map asc, .initrd⟩, ⟨"include".toList.map asc, .include⟩,
    ⟨"fdt".toList.map asc, .fdt⟩]

inductive LexState where
  | normal | keyword | sliteral
  deriving DecidableEq

/-- The end of a line or of the file. -/
def isEnd (c : UInt8) : Bool := c = 0 ∨ c = chNewline

/-- Where `get_string` stops. -/
def isDelim (delim c : UInt8) : Bool := c = 0 ∨ (delim = chSpace ∧ isspace c) ∨ delim = c

def getString (p : List UInt8) (delim : UInt8) (lower : Bool) : Option (Token × List UInt8) :=
  match p.dropWhile (!isDelim delim ·) with
  | [] => none
  | c :: e => some (⟨(p.takeWhile (!isDelim delim ·)).map (if lower then tolower else id), .string⟩, c :: e)

def getKeyword (t : Token) : Token := { t with type := ((keywords.find? (·.val = t.val)).map Token.type).getD t.type }

/-- A comment is eaten up to the end of the line. -/
def skipComment (p : List UInt8) : List UInt8 := if p.head? = some chHash then p.dropWhile (!isEnd ·) else p

def getToken (p : List UInt8) (state : LexState) : Option (Token × List UInt8) :=
  match skipComment (p.dropWhile isblank) with
  | [] => none
  | c :: e =>
    if c = chNewline then some (⟨[], .eol⟩, e)
    else if c = 0 then some (⟨[], .eof⟩, e)
    else
      match state with
      | .sliteral => getString (c :: e) chNewline false
      | .keyword => (getString (c :: e) chSpace true).map fun (t, p') => (getKeyword t, p')
      | .normal => some (⟨[], .invalid⟩, c :: e)

def eolOrEof (p : List UInt8) : Option (List UInt8) :=
  match p.dropWhile (!isEnd ·) with
  | [] => none
  | c :: e => some (c :: e)

/-- `parse_sliteral`: the string, or nothing for an error, and where it leaves the pointer -/
def parseSliteral (p : List UInt8) : Option (Option (List UInt8) × List UInt8) :=
  match getToken p .sliteral with
  | none => none
  | some (t, p') => some (if t.type = .string then some t.val else none, p')

def parseInteger (p : List UInt8) : Option (Option Int × List UInt8) :=
  match parseSliteral p with
  | none => none
  | some (val, p') => some ((val.bind strictStrtoulTen).map fun temp => (BitVec.ofNat 32 temp).toInt, p')

/-! ## Menus -/

structure PxeLabel where
  name : List UInt8 := []
  menu : Option (List UInt8) := none
  kernel : Option (List UInt8) := none
  append : Option (List UInt8) := none
  initrd : Option (List UInt8) := none
  fdt : Option (List UInt8) := none
  localboot : Int := 0
  deriving DecidableEq

structure PxeMenu where
  title : Option (List UInt8) := none
  defaultLabel : Option (List UInt8) := none
  timeout : Int := 0
  prompt : Int := 0
  labels : List PxeLabel := []
  deriving DecidableEq

/-- The label that `parse_label` has added last. -/
def PxeMenu.label (cfg : PxeMenu) : PxeLabel := cfg.labels.getLastD {}

/-- The same label with other fields. -/
def PxeMenu.setLabel (cfg : PxeMenu) (label : PxeLabel) : PxeMenu := { cfg with labels := cfg.labels.dropLast ++ [label] }

/-- Where the parse of a file is: in the loop of `parse_pxefile_top`, in that of `parse_label`, or in `parse_menu` behind the file that
it has included. -/
inductive PxeMode where
  | top | label | menu
  deriving DecidableEq

/-- Why the parse of a file fails: `-EINVAL`, `-EMLINK`, or an error of `get_pxe_file`. -/
inductive PxeErr where
  | einval | emlink | file
  deriving DecidableEq

/-- What comes of a turn of a loop. A file that is to be included goes to an offset behind the address of the file that includes it. -/
inductive Parsed where
  | next (mode : PxeMode) (cfg : PxeMenu) (p : List UInt8)
  | include (offset : Nat) (path : List UInt8) (mode : PxeMode) (p : List UInt8)
  | done
  | fail (err : PxeErr)
  deriving DecidableEq

/-- `parse_sliteral` into a field. -/
def parseString (mode : PxeMode) (set : List UInt8 → PxeMenu) (p : List UInt8) : Option Parsed :=
  match parseSliteral p with
  | none => none
  | some (none, _) => some (.fail .einval)
  | some (some s, p') => some (.next mode (set s) p')

/-- `parse_integer` into a field. -/
def parseNumber (mode : PxeMode) (set : Int → PxeMenu) (p : List UInt8) : Option Parsed :=
  match parseInteger p with
  | none => none
  | some (none, _) => some (.fail .einval)
  | some (some n, p') => some (.next mode (set n) p')

/-- The rest of a line is left out. -/
def restOfLine (mode : PxeMode) (cfg : PxeMenu) (p : List UInt8) : Option Parsed := (eolOrEof p).map (.next mode cfg)

/-- `handle_include` up to the path; the offset is that of `base`, if `strlen` has come to an end. -/
def handleInclude (offset : Option Nat) (mode : PxeMode) (p : List UInt8) : Option Parsed :=
  match offset with
  | none => none
  | some offset =>
    match parseSliteral p with
    | none => none
    | some (none, _) => some (.fail .einval)
    | some (some path, p') => some (.include offset path mode p')

/-- The switch of `parse_menu`, where `len` is `strlen(b)` -/
def menuSwitch (len : Option Nat) (cfg : PxeMenu) (p : List UInt8) : TokenType → Option Parsed
  | .title =>
    match parseSliteral p with
    | none => none
    | some (none, _) => some (.fail .einval)
    | some (some s, p') => restOfLine .top { cfg with title := some s } p'
  | .include => handleInclude (len.map (· + 1)) .menu p
  | _ => restOfLine .top cfg p

def parseMenu (len : Option Nat) (cfg : PxeMenu) (p : List UInt8) : Option Parsed :=
  match getToken p .keyword with
  | none => none
  | some (t, p') => menuSwitch len cfg p' t.type

/-- The switch of `parse_label_menu` -/
def labelMenuSwitch (cfg : PxeMenu) (p : List UInt8) : TokenType → Option Parsed
  | .default => restOfLine .label { cfg with defaultLabel := some cfg.label.name } p
  | .label =>
    -- its error is not looked at
    match parseSliteral p with
    | none => none
    | some (none, p') => restOfLine .label cfg p'
    | some (some s, p') => restOfLine .label (cfg.setLabel { cfg.label with menu := some s }) p'
  | _ => restOfLine .label cfg p

def parseLabelMenu (cfg : PxeMenu) (p : List UInt8) : Option Parsed :=
  match getToken p .keyword with
  | none => none
  | some (t, p') => labelMenuSwitch cfg p' t.type

def initrdText : List UInt8 := "initrd=".toList.map asc

/-- What `T_APPEND` takes for `label->initrd` from `label->append`; without a blank behind it `strchr` gives NULL. -/
def appendInitrd (append : List UInt8) : Option (Option (List UInt8)) :=
  match strstrAt append initrdText with
  | none => some none
  | some i =>
    let s := append.drop (i + 7)
    if chSpace ∈ s then some (some (s.takeWhile (· ≠ chSpace))) else none

/-- `T_APPEND` in `parse_label` -/
def parseAppend (cfg : PxeMenu) (p : List UInt8) : Option Parsed :=
  match parseSliteral p with
  | none => none
  | some (val, p') =>
    let label := { cfg.label with append := val <|> cfg.label.append }
    let finish (label : PxeLabel) : Parsed := if val = none then .fail .einval else .next .label (cfg.setLabel label) p'
    if label.initrd ≠ none then some (finish label)
    else
      match label.append.bind appendInitrd with
      | none => none
      | some none => some (finish label)
      | some (some initrd) => some (finish { label with initrd := some initrd })

/-- The switch of `parse_label`; `s` is where the token begins, `p` where it ends. -/
def labelSwitch (cfg : PxeMenu) (s p : List UInt8) : TokenType → Option Parsed
  | .menu => parseLabelMenu cfg p
  | .kernel | .linux => parseString .label (fun val => cfg.setLabel { cfg.label with kernel := some val }) p
  | .append => parseAppend cfg p
  | .initrd =>
    if cfg.label.initrd = none then parseString .label (fun val => cfg.setLabel { cfg.label with initrd := some val }) p
    else some (.next .label cfg p)
  | .fdt =>
    if cfg.label.fdt = none then parseString .label (fun val => cfg.setLabel { cfg.label with fdt := some val }) p
    else some (.next .label cfg p)
  | .localboot => parseNumber .label (fun n => cfg.setLabel { cfg.label with localboot := n }) p
  | .eol => some (.next .label cfg p)
  -- the token is put back
  | _ => some (.next .top cfg s)

/-- A turn of the loop of `parse_label` -/
def parseLabelLine (cfg : PxeMenu) (p : List UInt8) : Option Parsed :=
  match getToken p .keyword with
  | none => none
  | some (t, p') => labelSwitch cfg p p' t.type

/-- `ALIGN(len, 4)` -/
def alignFour (len : Nat) : Nat := (len + 3) / 4 * 4

/-- The switch of `parse_pxefile_top` -/
def topSwitch (len : Option Nat) (cfg : PxeMenu) (p : List UInt8) : TokenType → Option Parsed
  | .menu => parseMenu len cfg p
  | .timeout => parseNumber .top (fun n => { cfg with timeout := n }) p
  | .label => parseString .label (fun val => { cfg with labels := cfg.labels ++ [{ name := val }] }) p
  | .default =>
    match parseSliteral p with
    | none => none
    -- `label_name` is used and has not been set
    | some (none, _) => none
    | some (some val, p') => some (.next .top { cfg with defaultLabel := some val } p')
  | .include => handleInclude (len.map alignFour) .top p
  | .prompt => parseNumber .top (fun n => { cfg with prompt := n }) p
  | .eol => some (.next .top cfg p)
  | .eof => some .done
  | _ => restOfLine .top cfg p

/-- A turn of the loop of `parse_pxefile_top` -/
def parseTopLine (len : Option Nat) (cfg : PxeMenu) (p : List UInt8) : Option Parsed :=
  match getToken p .keyword with
  | none => none
  | some (t, p') => topSwitch len cfg p' t.type

/-- A turn of the loop that a file is in. -/
def parseLine (len : Option Nat) (mode : PxeMode) (cfg : PxeMenu) (p : List UInt8) : Option Parsed :=
  match mode with
  | .top => parseTopLine len cfg p
  | .label => parseLabelLine cfg p
  | .menu => restOfLine .top cfg p

/-! ## Files in memory -/

def MAX_NEST_LEVEL : Nat := 16

/-- A file that is being parsed: its address `b`, where its NUL was when the parse began, and the pointer `p`. -/
structure PxeFrame where
  b : Nat
  nul : Nat
  p : Nat
  mode : PxeMode

/-- The memory, the file that is being parsed with those that include it, and the menu. The nest level is the height of the stack. -/
structure PxeState where
  mem : Nat → UInt8
  stack : List PxeFrame
  cfg : PxeMenu

/-- The bytes from one address up to another one. -/
def view (mem : Nat → UInt8) (a nul : Nat) : List UInt8 := (List.range (nul + 1 - a)).map fun i => mem (a + i)

/-- `strlen`, nothing if it leaves the bytes. -/
def strlen (s : List UInt8) : Option Nat := s.findIdx? (· = 0)

/-- The bytes of a file up to its first NUL. -/
def textLength (content : List UInt8) : Nat := (content.takeWhile (· ≠ 0)).length

/-- A file is in memory, with the NUL that `get_pxe_file` stores behind it, and its parse begins. -/
def load (mem : Nat → UInt8) (stack : List PxeFrame) (cfg : PxeMenu) (b : Nat) (content : List UInt8) : PxeState :=
  ⟨Lib.store mem b (content ++ [0]), ⟨b, b + textLength content, b, .top⟩ :: stack, cfg⟩

/-- The pointer that is left with these bytes. -/
def PxeFrame.at (f : PxeFrame) (mode : PxeMode) (p : List UInt8) : PxeFrame := ⟨f.b, f.nul, f.nul + 1 - p.length, mode⟩

/-- A turn of the loop that a file is in, with the bytes that are in memory. -/
def PxeState.turn (st : PxeState) (f : PxeFrame) : Option Parsed :=
  parseLine (strlen (view st.mem f.b f.nul)) f.mode st.cfg (view st.mem f.p f.nul)

/-- A turn of the loop that the file on top is in, where `get_pxe_file` retrieves the files of `files`. -/
def round (files : List UInt8 → Option (List UInt8)) (st : PxeState) : Option (Except PxeErr PxeMenu ⊕ PxeState) :=
  match st.stack with
  | [] => some (.inl (.ok st.cfg))
  | f :: rest =>
    match st.turn f with
    | none => none
    | some (.fail err) => some (.inl (.error err))
    | some .done => some (.inr ⟨st.mem, rest, st.cfg⟩)
    | some (.next mode cfg p) => some (.inr ⟨st.mem, f.at mode p :: rest, cfg⟩)
    | some (.include offset path mode p) =>
      match files path with
      | none => some (.inl (.error .file))
      | some content =>
        if MAX_NEST_LEVEL < st.stack.length + 1 then some (.inl (.error .emlink))
        else some (.inr (load st.mem (f.at mode p :: rest) st.cfg (f.b + offset) content))

/-- `parse_pxefile` begins with a file at `b`. -/
def start (mem : Nat → UInt8) (b : Nat) (content : List UInt8) : PxeState := load mem [] {} b content

end Pxe

/-!
## Written PXE menus

How a menu is written down in a PXE file, one line for each thing that is set, with blank lines and comments in between, and the menu that it is.
-/

namespace Pxe

/-! ## Lines -/

/-- What a line sets: in the menu, or in a label. -/
inductive LineKind where
  | default | timeout | prompt | title | label | kernel | append | initrd | fdt | localboot | menuLabel | menuDefault
  deriving DecidableEq

/-- A line, with its argument. -/
structure MenuLine where
  kind : LineKind
  arg : List UInt8

/-- The keywords that a line may begin with. -/
def LineKind.words : LineKind → List (List TokenType)
  | .default => [[.default]]
  | .timeout => [[.timeout]]
  | .prompt => [[.prompt]]
  | .title => [[.menu, .title]]
  | .label => [[.label]]
  | .kernel => [[.kernel], [.linux]]
  | .append => [[.append]]
  | .initrd => [[.initrd]]
  | .fdt => [[.fdt]]
  | .localboot => [[.localboot]]
  | .menuLabel => [[.menu, .label]]
  | .menuDefault => [[.menu, .default]]

/-- The lines outside a label. -/
def LineKind.isGlobal (k : LineKind) : Bool := k = .default ∨ k = .timeout ∨ k = .prompt ∨ k = .title

/-- The lines of a label, behind its name. -/
def LineKind.isField (k : LineKind) : Bool := !k.isGlobal && k ≠ .label

/-- A string that is not empty, has no newline, and begins with no blank and no `#`. -/
structure IsString (s : List UInt8) : Prop where
  ne_nil : s ≠ []
  inside : ∀ c ∈ s, isEnd c = false
  head : ∀ c, s.head? = some c → isblank c = false ∧ c ≠ chHash

/-- The number that digits are. -/
def numberValue (s : List UInt8) : Nat := s.foldl (fun n c => n * 10 + (c.toNat - 0x30)) 0

/-- A number that an `int` holds, in digits. -/
structure IsNumber (s : List UInt8) : Prop where
  ne_nil : s ≠ []
  digits : ∀ c ∈ s, 0x30 ≤ c ∧ c ≤ 0x39
  fits : numberValue s < 2 ^ 31

/-- The argument of a line. -/
def MenuLine.Valid (line : MenuLine) : Prop :=
  match line.kind with
  | .menuDefault => line.arg = []
  | .timeout | .prompt | .localboot => IsNumber line.arg
  | _ => IsString line.arg

/-- Blanks, maybe none. -/
def Blanks (s : List UInt8) : Prop := ∀ c ∈ s, isblank c = true

/-- A keyword, in any case of its letters. -/
def Word (type : TokenType) (w : List UInt8) : Prop := ∃ k ∈ keywords, k.type = type ∧ w.map tolower = k.val

/-- A line as it is written. -/
inductive Spells (line : MenuLine) : List UInt8 → Prop where
  | one {type : TokenType} {ind w sep : List UInt8} (hwords : [type] ∈ line.kind.words) (hind : Blanks ind) (hw : Word type w)
      (hsep : Blanks sep) (hne : sep ≠ []) : Spells line (ind ++ w ++ sep ++ line.arg ++ [chNewline])
  | two {type type' : TokenType} {ind w sep w' sep' : List UInt8} (hwords : [type, type'] ∈ line.kind.words) (hind : Blanks ind)
      (hw : Word type w) (hsep : Blanks sep) (hne : sep ≠ []) (hw' : Word type' w') (hsep' : Blanks sep')
      (hne' : line.arg ≠ [] → sep' ≠ []) : Spells line (ind ++ w ++ sep ++ w' ++ sep' ++ line.arg ++ [chNewline])

/-- A blank line or a comment. -/
def Noise (s : List UInt8) : Prop :=
  ∃ ind, Blanks ind ∧ (s = ind ++ [chNewline] ∨ ∃ cs, (∀ c ∈ cs, isEnd c = false) ∧ s = ind ++ chHash :: cs ++ [chNewline])

/-- Lines as they are written, with blank lines and comments in between. -/
inductive Writes : List MenuLine → List UInt8 → Prop where
  | nil : Writes [] []
  | noise {lines : List MenuLine} {s text : List UInt8} (hs : Noise s) (h : Writes lines text) : Writes lines (s ++ text)
  | line {line : MenuLine} {lines : List MenuLine} {s text : List UInt8} (hs : Spells line s) (h : Writes lines text) :
      Writes (line :: lines) (s ++ text)

/-! ## Menus -/

/-- A line outside a label, or a label with its name and its lines. -/
inductive MenuItem where
  | global (line : MenuLine)
  | label (name : List UInt8) (fields : List MenuLine)

def MenuItem.lines : MenuItem → List MenuLine
  | .global line => [line]
  | .label name fields => ⟨.label, name⟩ :: fields

/-- The lines are such lines; a label has each at most once. -/
def MenuItem.Valid : MenuItem → Prop
  | .global line => line.kind.isGlobal = true ∧ line.Valid
  | .label name fields => IsString name ∧ (∀ f ∈ fields, f.kind.isField = true ∧ f.Valid) ∧ (fields.map MenuLine.kind).Nodup

/-- The argument of a line of a label. -/
def fieldArg (k : LineKind) (fields : List MenuLine) : Option (List UInt8) := (fields.find? (·.kind = k)).map MenuLine.arg

/-- What is behind `initrd=` in an `append` string, up to the next blank or the end. -/
def takenInitrd (append : List UInt8) : Option (List UInt8) :=
  (strstrAt append initrdText).map fun i => (append.drop (i + 7)).takeWhile (· ≠ chSpace)

/-- The lines of a label in front of its `append` line, and those behind it. -/
def beforeAppend (fields : List MenuLine) : List MenuLine := fields.takeWhile (·.kind ≠ .append)

/-- The label with a name and lines. -/
def labelOf (name : List UInt8) (fields : List MenuLine) : PxeLabel where
  name := name
  menu := fieldArg .menuLabel fields
  kernel := fieldArg .kernel fields
  append := fieldArg .append fields
  initrd := fieldArg .initrd (beforeAppend fields) <|> (fieldArg .append fields).bind takenInitrd <|> fieldArg .initrd fields
  fdt := fieldArg .fdt fields
  localboot := ((fieldArg .localboot fields).map numberValue).getD 0

/-- The arguments of the lines of a kind outside the labels. -/
def globalArgs (k : LineKind) (items : List MenuItem) : List (List UInt8) :=
  items.filterMap fun
    | .global line => if line.kind = k then some line.arg else none
    | .label _ _ => none

/-- The default labels that are set, by `default` or in a label. -/
def defaultLabels (items : List MenuItem) : List (List UInt8) :=
  items.flatMap fun
    | .global line => if line.kind = .default then [line.arg] else []
    | .label name fields => (fields.filter (·.kind = .menuDefault)).map fun _ => name

/-- The menu with these items. -/
def menuOf (items : List MenuItem) : PxeMenu where
  title := (globalArgs .title items).getLast?
  defaultLabel := (defaultLabels items).getLast?
  timeout := (((globalArgs .timeout items).getLast?).map numberValue).getD 0
  prompt := (((globalArgs .prompt items).getLast?).map numberValue).getD 0
  labels := items.filterMap fun
    | .global _ => none
    | .label name fields => some (labelOf name fields)

/-! ## What is read of it -/

/-- The titles that are not read in a label, where only other titles are in between. -/
def titlesRead : Bool → List MenuItem → List (List UInt8)
  | _, [] => []
  | _, .label _ _ :: items => titlesRead true items
  | inLabel, .global line :: items =>
    if line.kind ≠ .title then titlesRead false items
    else if inLabel then titlesRead true items
    else line.arg :: titlesRead false items

/-- An `initrd=` in an `append` string has a blank behind it. -/
def InitrdEnds (append : List UInt8) : Prop := ∀ i, strstrAt append initrdText = some i → chSpace ∈ append.drop (i + 7)

/-- The `initrd=` in the `append` lines of labels that have no `initrd` line in front of it ends with a blank. -/
def InitrdsEnd (items : List MenuItem) : Prop :=
  ∀ name fields a, .label name fields ∈ items → fieldArg .append fields = some a → fieldArg .initrd (beforeAppend fields) = none → InitrdEnds a

/-- No `initrd` line comes behind an `append` line with an `initrd=`. -/
def NoLateInitrd (items : List MenuItem) : Prop :=
  ∀ name fields a, .label name fields ∈ items → fieldArg .append fields = some a → takenInitrd a ≠ none →
    fieldArg .initrd (fields.dropWhile (·.kind ≠ .append)) = none

end Pxe

/-!
## PXE files as texts

What the parse of a PXE file is to do, without a memory: a file is a text with a NUL behind it, which is gone through once, and a file that is
included is gone through before the rest of the file that includes it. `menuForm` is a text with its `include` lines written as
`menu include`.
-/

namespace Pxe

/-- A file that is being parsed: its bytes with the NUL, and those from the pointer on. -/
structure TextFrame where
  file : List UInt8
  text : List UInt8
  mode : PxeMode

/-- The file that is being parsed with those that include it, and the menu. -/
structure TextState where
  stack : List TextFrame
  cfg : PxeMenu

/-- The text of a file up to its first NUL, which is kept. -/
def terminated (content : List UInt8) : List UInt8 := content.takeWhile (· ≠ 0) ++ [0]

/-- The parse of a file begins. -/
def openText (stack : List TextFrame) (cfg : PxeMenu) (content : List UInt8) : TextState :=
  ⟨⟨terminated content, terminated content, .top⟩ :: stack, cfg⟩

/-- A turn of the loop that a file is in. -/
def TextFrame.turn (f : TextFrame) (cfg : PxeMenu) : Option Parsed := parseLine (strlen f.file) f.mode cfg f.text

/-- A turn of the loop that the file on top is in. -/
def textRound (files : List UInt8 → Option (List UInt8)) (st : TextState) : Option (Except PxeErr PxeMenu ⊕ TextState) :=
  match st.stack with
  | [] => some (.inl (.ok st.cfg))
  | f :: rest =>
    match f.turn st.cfg with
    | none => none
    | some (.fail err) => some (.inl (.error err))
    | some .done => some (.inr ⟨rest, st.cfg⟩)
    | some (.next mode cfg p) => some (.inr ⟨⟨f.file, p, mode⟩ :: rest, cfg⟩)
    | some (.include _ path mode p) =>
      match files path with
      | none => some (.inl (.error .file))
      | some content =>
        if MAX_NEST_LEVEL < st.stack.length + 1 then some (.inl (.error .emlink))
        else some (.inr (openText (⟨f.file, p, mode⟩ :: rest) st.cfg content))

/-- The pointer is at the beginning of a line. -/
def LineStart (file text : List UInt8) : Prop := text = file ∨ (chNewline :: text) <:+ file

/-! ## The two forms of an include -/

def includeText : List UInt8 := "include".toList.map asc

def menuText : List UInt8 := "menu ".toList.map asc

/-- The first word of a line is `include`. -/
def includeLine (s : List UInt8) : Bool := ((s.dropWhile isblank).takeWhile (!isDelim chSpace ·)).map tolower = includeText

/-- The rest of a line, and the lines behind it with the other form. -/
def restForm : List UInt8 → List UInt8
  | [] => []
  | c :: s => c :: if c = chNewline ∧ includeLine s then menuText ++ restForm s else restForm s

/-- A text with `menu include` for `include` at the beginning of each line. -/
def menuForm (s : List UInt8) : List UInt8 := if includeLine s then menuText ++ restForm s else restForm s

end Pxe

end UBoot
