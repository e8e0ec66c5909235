import UBoot.Lemmas.KermitAux
import UBoot.Theorems.PxeInside

/-!
# The turns of written lines

What the loops make of a line as it is written, with the newline behind it, and of blank lines and comments.
-/

namespace UBoot

namespace Pxe

variable {ind w sep s x z : List UInt8} {type : TokenType} {len : Option Nat} {mode : PxeMode} {cfg : PxeMenu} {line : MenuLine}
variable {k : Token} {c : UInt8} {e p : List UInt8} {a : Place}

/-! ## Words -/

theorem keyword_letters (h : k ∈ keywords) : ∀ c ∈ k.val, 0x61 ≤ c ∧ c ≤ 0x7a := by
  revert k
  decide

theorem letter_inside (h : 0x61 ≤ tolower c ∧ tolower c ≤ 0x7a) :
    isDelim chSpace c = false ∧ isblank c = false ∧ isEnd c = false ∧ c ≠ chHash :=
  KermitAux.forall_uint8 (p := fun c => 0x61 ≤ tolower c ∧ tolower c ≤ 0x7a →
    isDelim chSpace c = false ∧ isblank c = false ∧ isEnd c = false ∧ c ≠ chHash) (by decide +kernel) c h

theorem Word.inside (h : Word type w) : w ≠ [] ∧ ∀ c ∈ w, isDelim chSpace c = false ∧ isblank c = false ∧ isEnd c = false ∧ c ≠ chHash := by
  obtain ⟨k, hk, -, hval⟩ := h
  constructor
  · rintro rfl
    exact (keyword_type hk).1 hval.symm
  · intro c hc
    exact letter_inside (keyword_letters hk _ (hval ▸ List.mem_map_of_mem hc))

theorem getKeyword_self (h : k ∈ keywords) : getKeyword ⟨k.val, .string⟩ = k := by
  revert k
  decide

theorem Blanks.inside (h : Blanks s) : ∀ c ∈ s, isEnd c = false := by
  intro c hc
  by_contra hend
  have hblank := not_isblank_of_isEnd (Bool.not_eq_false _ ▸ hend)
  simp [h c hc] at hblank

theorem skip_blanks (h : Blanks ind) (p : List UInt8) : skip (ind ++ p) = skip p := by
  unfold skip
  rw [List.dropWhile_append_of_pos h]

theorem skip_of_head (hblank : isblank c = false) (hhash : c ≠ chHash) (p : List UInt8) : skip (c :: p) = c :: p := by
  unfold skip
  rw [List.dropWhile_cons_of_neg (by simp [hblank])]
  exact if_neg fun h => hhash (Option.some.inj h)

theorem getString_eq {delim : UInt8} {lower : Bool} (hs : ∀ d ∈ s, isDelim delim d = false)
    (hc : isDelim delim c = true) :
    getString (s ++ c :: e) delim lower = some (⟨s.map (if lower then tolower else id), .string⟩, c :: e) := by
  have hpos : ∀ d ∈ s, (!isDelim delim d) = true := fun d hd => by rw [hs d hd]; rfl
  have hneg : ¬(!isDelim delim c) = true := by simp [hc]
  unfold getString
  rw [List.dropWhile_append_of_pos hpos, List.takeWhile_append_of_pos hpos, List.dropWhile_cons_of_neg (p := (!isDelim delim ·)) hneg,
    List.takeWhile_cons_of_neg (p := (!isDelim delim ·)) hneg, List.append_nil]

theorem getToken_of_skip {state : LexState} (hskip : skip p = c :: e) (hc : isEnd c = false) :
    getToken p state =
      match state with
      | .sliteral => getString (c :: e) chNewline false
      | .keyword => (getString (c :: e) chSpace true).map fun (t, p') => (getKeyword t, p')
      | .normal => some (⟨[], .invalid⟩, c :: e) := by
  have hnot := not_or.1 (of_decide_eq_false hc)
  unfold skip at hskip
  unfold getToken
  rw [hskip]
  simp only
  rw [if_neg hnot.2]
  exact (if_neg hnot.1).trans (by cases state <;> rfl)

theorem starts_word (hind : Blanks ind) (hw : Word type w) (hc : isDelim chSpace c = true) :
    Starts (ind ++ w ++ c :: e) type (c :: e) := by
  obtain ⟨hne, hinside⟩ := hw.inside
  obtain ⟨k, hk, htype, hval⟩ := hw
  obtain ⟨d, w', rfl⟩ := List.exists_cons_of_ne_nil hne
  obtain ⟨-, hblank, hend, hhash⟩ := hinside d List.mem_cons_self
  have hskip : skip (ind ++ (d :: w') ++ c :: e) = d :: (w' ++ c :: e) := by
    rw [List.append_assoc, skip_blanks hind, List.cons_append, skip_of_head hblank hhash]
  refine ⟨k, ?_, htype⟩
  rw [getToken_of_skip hskip hend]
  simp only
  rw [← List.cons_append, getString_eq (fun d hd => (hinside d hd).1) hc, Option.map_some]
  simp only [if_true, hval, getKeyword_self hk]

/-! ## Arguments -/

theorem isDelim_newline (c : UInt8) : isDelim chNewline c = isEnd c :=
  KermitAux.forall_uint8 (p := fun c => isDelim chNewline c = isEnd c) (by decide +kernel) c

theorem digit_inside (h : 0x30 ≤ c ∧ c ≤ 0x39) : isEnd c = false ∧ isblank c = false ∧ c ≠ chHash :=
  KermitAux.forall_uint8 (p := fun c => 0x30 ≤ c ∧ c ≤ 0x39 → isEnd c = false ∧ isblank c = false ∧ c ≠ chHash) (by decide +kernel) c h

theorem xdigit_digit (h : 0x30 ≤ c ∧ c ≤ 0x39) : xdigit c = some (c.toNat - 0x30) ∧ c.toNat - 0x30 < 10 :=
  KermitAux.forall_uint8 (p := fun c => 0x30 ≤ c ∧ c ≤ 0x39 → xdigit c = some (c.toNat - 0x30) ∧ c.toNat - 0x30 < 10) (by decide +kernel) c h

theorem parseSliteral_written (hsep : Blanks sep) (hs : IsString s) (z : List UInt8) :
    parseSliteral (sep ++ s ++ chNewline :: z) = some (some s, chNewline :: z) := by
  obtain ⟨c, s', rfl⟩ := List.exists_cons_of_ne_nil hs.ne_nil
  obtain ⟨hblank, hhash⟩ := hs.head c rfl
  have hskip : skip (sep ++ (c :: s') ++ chNewline :: z) = c :: (s' ++ chNewline :: z) := by
    rw [List.append_assoc, skip_blanks hsep, List.cons_append, skip_of_head hblank hhash]
  unfold parseSliteral
  rw [getToken_of_skip hskip (hs.inside c List.mem_cons_self)]
  simp only
  rw [← List.cons_append, getString_eq (fun d hd => (isDelim_newline d).trans (hs.inside d hd)) (by decide)]
  simp

theorem IsNumber.isString (h : IsNumber s) : IsString s :=
  ⟨h.ne_nil, fun c hc => (digit_inside (h.digits c hc)).1, fun c hc => (digit_inside (h.digits c (List.mem_of_mem_head? hc))).2⟩

theorem strtoulEndLoop_digits (h : ∀ c ∈ s, 0x30 ≤ c ∧ c ≤ 0x39) (n : Nat) :
    strtoulEndLoop 10 (n % 2 ^ 32) s = ((s.foldl (fun n c => n * 10 + (c.toNat - 0x30)) n) % 2 ^ 32, []) := by
  induction s generalizing n with
  | nil => rfl
  | cons c s ih =>
    obtain ⟨hdigit, hlt⟩ := xdigit_digit (h c List.mem_cons_self)
    rw [strtoulEndLoop, hdigit]
    simp only
    rw [if_pos hlt, List.foldl_cons, ← ih (fun d hd => h d (List.mem_cons_of_mem c hd))]
    congr 1
    omega

theorem strictStrtoulTen_number (h : IsNumber s) : strictStrtoulTen s = some (numberValue s) := by
  have hend : strtoulEndTen s = (numberValue s, []) := by
    have hloop := strtoulEndLoop_digits h.digits 0
    rw [Nat.zero_mod] at hloop
    have hfits := h.fits
    unfold numberValue at hfits ⊢
    rw [Nat.mod_eq_of_lt (by omega)] at hloop
    unfold strtoulEndTen
    split
    · exact absurd (h.digits 0x78 (by simp)).2 (by decide)
    · exact hloop
  have hlen : s.length ≠ 0 := fun h0 => h.ne_nil (List.eq_nil_of_length_eq_zero h0)
  unfold strictStrtoulTen
  rw [if_neg hlen, hend]
  simp only [List.length_nil]
  rw [if_neg (Ne.symm hlen), if_pos (Or.inl trivial)]

theorem parseInteger_written (hsep : Blanks sep) (hs : IsNumber s) (z : List UInt8) :
    parseInteger (sep ++ s ++ chNewline :: z) = some (some (numberValue s : Int), chNewline :: z) := by
  unfold parseInteger
  rw [parseSliteral_written hsep hs.isString]
  simp only [Option.bind_some, strictStrtoulTen_number hs, Option.map_some, Option.some.injEq, Prod.mk.injEq, and_true]
  have hfits := hs.fits
  have hnat : (BitVec.ofNat 32 (numberValue s)).toNat = numberValue s := by
    rw [BitVec.toNat_ofNat]
    exact Nat.mod_eq_of_lt (by omega)
  rw [BitVec.toInt_eq_toNat_of_lt (by rw [hnat]; omega), hnat]

/-! ## Turns -/

/-- Where the parse of a file is, with the menu and what is left of the file. -/
structure Place where
  mode : PxeMode
  cfg : PxeMenu
  p : List UInt8

/-- A turn goes on. -/
def Turn (len : Option Nat) (a b : Place) : Prop := parseLine len a.mode a.cfg a.p = some (.next b.mode b.cfg b.p)

/-- Turns go on from a place to another one. -/
def Turns (len : Option Nat) : Place → Place → Prop := Relation.ReflTransGen (Turn len)

/-- Turns come to one that goes wrong. -/
def TurnsWrong (len : Option Nat) (a : Place) : Prop := ∃ b, Turns len a b ∧ parseLine len b.mode b.cfg b.p = none

theorem Turns.wrong {b : Place} (h : Turns len a b) (hb : TurnsWrong len b) : TurnsWrong len a := by
  obtain ⟨c, hc, hwrong⟩ := hb
  exact ⟨c, h.trans hc, hwrong⟩

theorem getToken_newline (h : skip p = chNewline :: x) (state : LexState) : getToken p state = some (⟨[], .eol⟩, x) := by
  unfold skip at h
  unfold getToken
  rw [h]
  rfl

theorem skip_noise (h : Noise s) (x : List UInt8) : skip (s ++ x) = chNewline :: x := by
  obtain ⟨ind, hind, rfl | ⟨cs, hcs, rfl⟩⟩ := h
  · rw [List.append_assoc, skip_blanks hind]
    exact skip_of_head (by decide) (by decide) x
  · rw [List.append_assoc, List.append_assoc, skip_blanks hind]
    have hcomment : ∀ c ∈ chHash :: cs, (!isEnd c) = true := by
      intro c hc
      rcases List.mem_cons.1 hc with rfl | hc
      · decide
      · rw [hcs c hc]
        rfl
    have hdrop : (chHash :: cs ++ ([chNewline] ++ x)).dropWhile (!isEnd ·) = chNewline :: x := by
      rw [List.dropWhile_append_of_pos hcomment, List.singleton_append]
      exact List.dropWhile_cons_of_neg (by decide)
    exact hdrop

theorem noise_turn (h : Noise s) (hmode : mode ≠ .menu) : Turn len ⟨mode, cfg, s ++ x⟩ ⟨mode, cfg, x⟩ := by
  have hget := getToken_newline (skip_noise h x) .keyword
  unfold Turn parseLine
  cases mode with
  | top => simp only [parseTopLine, hget, topSwitch]
  | label => simp only [parseLabelLine, hget, labelSwitch]
  | menu => exact absurd rfl hmode

theorem turns_line (h : Turn len a ⟨mode, cfg, chNewline :: x⟩) (hmode : mode ≠ .menu) : Turns len a ⟨mode, cfg, x⟩ :=
  (Relation.ReflTransGen.single h).tail (noise_turn (s := [chNewline]) ⟨[], nofun, Or.inl rfl⟩ hmode)

/-! ## Lines -/

theorem isDelim_blank (h : isblank c = true) : isDelim chSpace c = true :=
  KermitAux.forall_uint8 (p := fun c => isblank c = true → isDelim chSpace c = true) (by decide +kernel) c h

theorem starts_argument (hind : Blanks ind) (hw : Word type w) (hsep : Blanks sep) (hne : s ≠ [] → sep ≠ []) (x : List UInt8) :
    Starts (ind ++ w ++ (sep ++ s ++ chNewline :: x)) type (sep ++ s ++ chNewline :: x) := by
  cases sep with
  | nil =>
    obtain rfl : s = [] := by
      by_contra h
      exact hne h rfl
    exact starts_word hind hw (by decide)
  | cons c sep => exact starts_word hind hw (isDelim_blank (hsep c List.mem_cons_self))

/-- The keywords of a line, and its argument behind them. -/
theorem Spells.starts (h : Spells line s) (x : List UInt8) :
    (∃ type sep, [type] ∈ line.kind.words ∧ Blanks sep ∧ Starts (s ++ x) type (sep ++ line.arg ++ chNewline :: x)) ∨
      ∃ type type' p sep, [type, type'] ∈ line.kind.words ∧ Blanks sep ∧ Starts (s ++ x) type p ∧
        Starts p type' (sep ++ line.arg ++ chNewline :: x) := by
  cases h with
  | @one type ind w sep hwords hind hw hsep hne =>
    refine Or.inl ⟨type, sep, hwords, hsep, ?_⟩
    have hstarts := starts_argument (s := line.arg) hind hw hsep (fun _ => hne) x
    simpa only [List.append_assoc, List.singleton_append] using hstarts
  | @two type type' ind w sep w' sep' hwords hind hw hsep hne hw' hsep' hne' =>
    obtain ⟨c, sep, rfl⟩ := List.exists_cons_of_ne_nil hne
    refine Or.inr ⟨type, type', c :: sep ++ w' ++ (sep' ++ line.arg ++ chNewline :: x), sep', hwords, hsep', ?_, ?_⟩
    · have hstarts := starts_word hind hw (e := sep ++ w' ++ (sep' ++ line.arg ++ chNewline :: x)) (isDelim_blank (hsep c List.mem_cons_self))
      simpa only [List.append_assoc, List.nil_append, List.cons_append] using hstarts
    · exact starts_argument hsep hw' hsep' hne' x

section

variable {p q : List UInt8}

theorem parseTopLine_starts (h : Starts p type q) : parseTopLine len cfg p = topSwitch len cfg q type := by
  obtain ⟨t, hget, rfl⟩ := h
  rw [parseTopLine, hget]

theorem parseLabelLine_starts (h : Starts p type q) : parseLabelLine cfg p = labelSwitch cfg p q type := by
  obtain ⟨t, hget, rfl⟩ := h
  rw [parseLabelLine, hget]

theorem parseMenu_starts (h : Starts p type q) : parseMenu len cfg p = menuSwitch len cfg q type := by
  obtain ⟨t, hget, rfl⟩ := h
  rw [parseMenu, hget]

theorem parseLabelMenu_starts (h : Starts p type q) : parseLabelMenu cfg p = labelMenuSwitch cfg q type := by
  obtain ⟨t, hget, rfl⟩ := h
  rw [parseLabelMenu, hget]

end
variable {text : List UInt8}


theorem parseString_written (set : List UInt8 → PxeMenu) (hsep : Blanks sep) (hs : IsString s) :
    parseString mode set (sep ++ s ++ chNewline :: x) = some (.next mode (set s) (chNewline :: x)) := by
  rw [parseString, parseSliteral_written hsep hs]

theorem parseNumber_written (set : Int → PxeMenu) (hsep : Blanks sep) (hs : IsNumber s) :
    parseNumber mode set (sep ++ s ++ chNewline :: x) = some (.next mode (set (numberValue s)) (chNewline :: x)) := by
  rw [parseNumber, parseInteger_written hsep hs]

theorem restOfLine_written (h : ∀ c ∈ s, isEnd c = false) :
    restOfLine mode cfg (s ++ chNewline :: x) = some (.next mode cfg (chNewline :: x)) := by
  unfold restOfLine eolOrEof
  rw [List.dropWhile_append_of_pos fun c hc => by rw [h c hc]; rfl, List.dropWhile_cons_of_neg (by decide)]
  rfl

/-! ## Lines outside a label -/

/-- What a line outside a label sets. -/
def globalMenu (cfg : PxeMenu) (line : MenuLine) : PxeMenu :=
  match line.kind with
  | .default => { cfg with defaultLabel := some line.arg }
  | .timeout => { cfg with timeout := numberValue line.arg }
  | .prompt => { cfg with prompt := numberValue line.arg }
  | .title => { cfg with title := some line.arg }
  | _ => cfg

theorem top_line (hkind : line.kind.isGlobal = true) (hvalid : line.Valid) (h : Spells line s) :
    Turns len ⟨.top, cfg, s ++ x⟩ ⟨.top, globalMenu cfg line, x⟩ := by
  refine turns_line ?_ (by intro h; cases h)
  unfold Turn parseLine
  obtain ⟨kind, arg⟩ := line
  rcases h.starts x with ⟨type, sep, hwords, hsep, hstarts⟩ | ⟨type, type', p, sep, hwords, hsep, hstarts, hstarts'⟩
  · simp only [parseTopLine_starts hstarts]
    cases kind with
    | default =>
      obtain rfl : type = .default := by simpa [LineKind.words] using hwords
      simp only [topSwitch, parseSliteral_written hsep hvalid, globalMenu]
    | timeout =>
      obtain rfl : type = .timeout := by simpa [LineKind.words] using hwords
      exact parseNumber_written _ hsep hvalid
    | prompt =>
      obtain rfl : type = .prompt := by simpa [LineKind.words] using hwords
      exact parseNumber_written _ hsep hvalid
    | title => simp [LineKind.words] at hwords
    | _ => cases hkind
  · simp only [parseTopLine_starts hstarts]
    cases kind with
    | title =>
      obtain ⟨rfl, rfl⟩ : type = .menu ∧ type' = .title := by simpa [LineKind.words] using hwords
      simp only [topSwitch, parseMenu_starts hstarts', menuSwitch, parseSliteral_written hsep hvalid]
      exact restOfLine_written (s := []) fun c hc => absurd hc List.not_mem_nil
    | default => simp [LineKind.words] at hwords
    | timeout => simp [LineKind.words] at hwords
    | prompt => simp [LineKind.words] at hwords
    | _ => cases hkind

theorem put_back (hkind : line.kind.isGlobal = true ∨ line.kind = .label) (htitle : line.kind ≠ .title) (h : Spells line s) :
    Turn len ⟨.label, cfg, s ++ x⟩ ⟨.top, cfg, s ++ x⟩ := by
  unfold Turn parseLine
  obtain ⟨kind, arg⟩ := line
  rcases h.starts x with ⟨type, sep, hwords, -, hstarts⟩ | ⟨type, type', p, sep, hwords, -⟩
  · simp only [parseLabelLine_starts hstarts]
    cases kind with
    | default =>
      obtain rfl : type = .default := by simpa [LineKind.words] using hwords
      rfl
    | timeout =>
      obtain rfl : type = .timeout := by simpa [LineKind.words] using hwords
      rfl
    | prompt =>
      obtain rfl : type = .prompt := by simpa [LineKind.words] using hwords
      rfl
    | label =>
      obtain rfl : type = .label := by simpa [LineKind.words] using hwords
      rfl
    | title => exact absurd rfl htitle
    | _ => simp [LineKind.isGlobal] at hkind
  · cases kind with
    | title => exact absurd rfl htitle
    | menuLabel => simp [LineKind.isGlobal] at hkind
    | menuDefault => simp [LineKind.isGlobal] at hkind
    | _ => simp [LineKind.words] at hwords

theorem label_title (hkind : line.kind = .title) (hvalid : line.Valid) (h : Spells line s) :
    Turns len ⟨.label, cfg, s ++ x⟩ ⟨.label, cfg, x⟩ := by
  refine turns_line ?_ nofun
  unfold Turn parseLine
  obtain ⟨kind, arg⟩ := line
  obtain rfl : kind = .title := hkind
  rcases h.starts x with ⟨type, sep, hwords, -⟩ | ⟨type, type', p, sep, hwords, hsep, hstarts, hstarts'⟩
  · simp [LineKind.words] at hwords
  · obtain ⟨rfl, rfl⟩ : type = .menu ∧ type' = .title := by simpa [LineKind.words] using hwords
    have hargs : IsString arg := hvalid
    simp only [parseLabelLine_starts hstarts, labelSwitch, parseLabelMenu_starts hstarts', labelMenuSwitch]
    refine restOfLine_written fun c hc => ?_
    rcases List.mem_append.1 hc with hc | hc
    · exact hsep.inside c hc
    · exact hargs.inside c hc

theorem name_line {name : List UInt8} (hvalid : IsString name) (h : Spells ⟨.label, name⟩ s) :
    Turns len ⟨.top, cfg, s ++ x⟩ ⟨.label, { cfg with labels := cfg.labels ++ [{ name := name }] }, x⟩ := by
  refine turns_line ?_ nofun
  unfold Turn parseLine
  rcases h.starts x with ⟨type, sep, hwords, hsep, hstarts⟩ | ⟨type, type', p, sep, hwords, -⟩
  · obtain rfl : type = .label := by simpa [LineKind.words] using hwords
    simp only [parseTopLine_starts hstarts, topSwitch]
    exact parseString_written _ hsep hvalid
  · simp [LineKind.words] at hwords

/-! ## Lines of a label -/

/-- What a line of a label sets. -/
def fieldMenu (cfg : PxeMenu) (f : MenuLine) : PxeMenu :=
  match f.kind with
  | .kernel => cfg.setLabel { cfg.label with kernel := some f.arg }
  | .append => cfg.setLabel { cfg.label with append := some f.arg, initrd := cfg.label.initrd <|> takenInitrd f.arg }
  | .initrd => cfg.setLabel { cfg.label with initrd := some f.arg }
  | .fdt => cfg.setLabel { cfg.label with fdt := some f.arg }
  | .localboot => cfg.setLabel { cfg.label with localboot := numberValue f.arg }
  | .menuLabel => cfg.setLabel { cfg.label with menu := some f.arg }
  | .menuDefault => { cfg with defaultLabel := some cfg.label.name }
  | _ => cfg

/-- A line can be read in a label. -/
def FieldReads (label : PxeLabel) (f : MenuLine) : Prop :=
  match f.kind with
  | .append => label.initrd = none → InitrdEnds f.arg
  | .initrd => label.initrd = none
  | .fdt => label.fdt = none
  | _ => True

theorem appendInitrd_eq {a : List UInt8} (h : InitrdEnds a) : appendInitrd a = some (takenInitrd a) := by
  unfold appendInitrd takenInitrd
  match hi : strstrAt a initrdText with
  | none => rfl
  | some i => exact if_pos (h i hi)

theorem some_or (s : List UInt8) (o : Option (List UInt8)) : (some s <|> o) = some s := rfl

theorem none_or (o : Option (List UInt8)) : (none <|> o) = o := rfl

theorem parseAppend_written (hsep : Blanks sep) (hs : IsString s) (hends : cfg.label.initrd = none → InitrdEnds s) :
    parseAppend cfg (sep ++ s ++ chNewline :: x) = some (.next .label (fieldMenu cfg ⟨.append, s⟩) (chNewline :: x)) := by
  unfold parseAppend fieldMenu
  rw [parseSliteral_written hsep hs]
  simp only [some_or, Option.bind_some, reduceCtorEq, if_false]
  by_cases hinitrd : cfg.label.initrd = none
  · rw [appendInitrd_eq (hends hinitrd), hinitrd, none_or, if_neg (not_not.2 rfl)]
    cases takenInitrd s <;> rfl
  · obtain ⟨i, hi⟩ := Option.ne_none_iff_exists'.1 hinitrd
    rw [if_pos hinitrd, hi, some_or]

theorem parseAppend_wrong (hsep : Blanks sep) (hs : IsString s) (hinitrd : cfg.label.initrd = none) (hends : ¬InitrdEnds s) :
    parseAppend cfg (sep ++ s ++ chNewline :: x) = none := by
  by_contra h
  obtain ⟨a, ha, hok⟩ := (parseAppend_ne_none.1 h).2 _ _ (parseSliteral_written hsep hs x) hinitrd
  cases ha
  exact hends hok

theorem field_line (hkind : line.kind.isField = true) (hvalid : line.Valid) (hreads : FieldReads cfg.label line) (h : Spells line s) :
    Turns len ⟨.label, cfg, s ++ x⟩ ⟨.label, fieldMenu cfg line, x⟩ := by
  refine turns_line ?_ nofun
  unfold Turn parseLine
  obtain ⟨kind, arg⟩ := line
  rcases h.starts x with ⟨type, sep, hwords, hsep, hstarts⟩ | ⟨type, type', p, sep, hwords, hsep, hstarts, hstarts'⟩
  · simp only [parseLabelLine_starts hstarts]
    cases kind with
    | kernel =>
      have htype : type = .kernel ∨ type = .linux := by simpa [LineKind.words] using hwords
      rcases htype with rfl | rfl
      · exact parseString_written _ hsep hvalid
      · exact parseString_written _ hsep hvalid
    | append =>
      obtain rfl : type = .append := by simpa [LineKind.words] using hwords
      exact parseAppend_written hsep hvalid hreads
    | initrd =>
      obtain rfl : type = .initrd := by simpa [LineKind.words] using hwords
      have hnone : cfg.label.initrd = none := hreads
      simp only [labelSwitch]
      rw [if_pos hnone]
      exact parseString_written _ hsep hvalid
    | fdt =>
      obtain rfl : type = .fdt := by simpa [LineKind.words] using hwords
      have hnone : cfg.label.fdt = none := hreads
      simp only [labelSwitch]
      rw [if_pos hnone]
      exact parseString_written _ hsep hvalid
    | localboot =>
      obtain rfl : type = .localboot := by simpa [LineKind.words] using hwords
      exact parseNumber_written _ hsep hvalid
    | menuLabel => simp [LineKind.words] at hwords
    | menuDefault => simp [LineKind.words] at hwords
    | _ => cases hkind
  · simp only [parseLabelLine_starts hstarts]
    cases kind with
    | menuLabel =>
      obtain ⟨rfl, rfl⟩ : type = .menu ∧ type' = .label := by simpa [LineKind.words] using hwords
      simp only [labelSwitch, parseLabelMenu_starts hstarts', labelMenuSwitch, parseSliteral_written hsep hvalid]
      exact restOfLine_written (s := []) nofun
    | menuDefault =>
      obtain ⟨rfl, rfl⟩ : type = .menu ∧ type' = .default := by simpa [LineKind.words] using hwords
      obtain rfl : arg = [] := hvalid
      simp only [labelSwitch, parseLabelMenu_starts hstarts', labelMenuSwitch, List.append_nil]
      exact restOfLine_written hsep.inside
    | kernel => simp [LineKind.words] at hwords
    | append => simp [LineKind.words] at hwords
    | initrd => simp [LineKind.words] at hwords
    | fdt => simp [LineKind.words] at hwords
    | localboot => simp [LineKind.words] at hwords
    | _ => cases hkind

theorem append_wrong (hkind : line.kind = .append) (hvalid : line.Valid) (hinitrd : cfg.label.initrd = none) (hends : ¬InitrdEnds line.arg)
    (h : Spells line s) : TurnsWrong len ⟨.label, cfg, s ++ x⟩ := by
  refine ⟨_, Relation.ReflTransGen.refl, ?_⟩
  unfold parseLine
  obtain ⟨kind, arg⟩ := line
  obtain rfl : kind = .append := hkind
  rcases h.starts x with ⟨type, sep, hwords, hsep, hstarts⟩ | ⟨type, type', p, sep, hwords, -⟩
  · obtain rfl : type = .append := by simpa [LineKind.words] using hwords
    simp only [parseLabelLine_starts hstarts]
    exact parseAppend_wrong hsep hvalid hinitrd hends
  · simp [LineKind.words] at hwords

/-! ## Texts -/

theorem writes_nil (h : Writes [] text) (hmode : mode ≠ .menu) : Turns len ⟨mode, cfg, text ++ x⟩ ⟨mode, cfg, x⟩ := by
  generalize hlines : ([] : List MenuLine) = lines at h
  induction h with
  | nil => exact Relation.ReflTransGen.refl
  | @noise lines s text hs _ ih =>
    rw [List.append_assoc]
    exact Relation.ReflTransGen.head (noise_turn hs hmode) (ih hlines)
  | line => cases hlines

/-- What comes in front of the next line is gone through. -/
theorem writes_line {lines : List MenuLine} (h : Writes (line :: lines) text) :
    ∃ s text', Spells line s ∧ Writes lines text' ∧
      ∀ len mode cfg x, mode ≠ .menu → Turns len ⟨mode, cfg, text ++ x⟩ ⟨mode, cfg, s ++ (text' ++ x)⟩ := by
  generalize hlines : line :: lines = all at h
  induction h with
  | nil => cases hlines
  | @noise all n text hn _ ih =>
    obtain ⟨s, text', hs, htext, hturns⟩ := ih hlines
    refine ⟨s, text', hs, htext, fun len mode cfg x hmode => ?_⟩
    rw [List.append_assoc]
    exact Relation.ReflTransGen.head (noise_turn hn hmode) (hturns len mode cfg x hmode)
  | @line l all s text hs htext =>
    cases hlines
    refine ⟨s, text, hs, htext, fun len mode cfg x _ => ?_⟩
    rw [List.append_assoc]
    exact Relation.ReflTransGen.refl

end Pxe

end UBoot
