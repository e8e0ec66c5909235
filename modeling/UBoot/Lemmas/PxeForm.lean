import UBoot.Lemmas.PxeLex

/-!
# The two forms of an include

What the turns of the loops make of a text in which `include` lines are written as `menu include`: the same, but that they take the other form
where the line is read in the loop of `parse_pxefile_top`.
-/

namespace UBoot

namespace Pxe

variable {v p q : List UInt8} {t : Token} {state : LexState}
variable {c : UInt8} {stop : UInt8 → Bool}

/-! ## Tokens -/

theorem restForm_newline (v : List UInt8) : restForm (chNewline :: v) = chNewline :: menuForm v := by
  rw [restForm, menuForm]
  simp only [true_and]

theorem restForm_cons (hc : c ≠ chNewline) (v : List UInt8) : restForm (c :: v) = c :: restForm v := by
  rw [restForm, if_neg fun h => hc h.1]

theorem restForm_head? (v : List UInt8) : (restForm v).head? = v.head? := by
  cases v with
  | nil => rfl
  | cons c v => rfl

theorem restForm_dropWhile (hstop : stop chNewline = false) (v : List UInt8) :
    (restForm v).dropWhile stop = restForm (v.dropWhile stop) := by
  induction v with
  | nil => rfl
  | cons c v ih =>
    by_cases hc : stop c = true
    · have hne : c ≠ chNewline := fun h => by rw [h, hstop] at hc; cases hc
      rw [restForm_cons hne, List.dropWhile_cons_of_pos hc, List.dropWhile_cons_of_pos hc, ih]
    · rw [List.dropWhile_cons_of_neg hc, restForm, List.dropWhile_cons_of_neg hc]

theorem restForm_takeWhile (hstop : stop chNewline = false) (v : List UInt8) :
    (restForm v).takeWhile stop = v.takeWhile stop := by
  induction v with
  | nil => rfl
  | cons c v ih =>
    by_cases hc : stop c = true
    · have hne : c ≠ chNewline := fun h => by rw [h, hstop] at hc; cases hc
      rw [restForm_cons hne, List.takeWhile_cons_of_pos hc, List.takeWhile_cons_of_pos hc, ih]
    · rw [List.takeWhile_cons_of_neg hc, restForm, List.takeWhile_cons_of_neg hc]

theorem skip_restForm (v : List UInt8) : skip (restForm v) = restForm (skip v) := by
  unfold skip skipComment
  rw [restForm_dropWhile (by decide), restForm_head?]
  split
  · exact restForm_dropWhile (by decide) _
  · rfl

theorem getString_restForm {delim : UInt8} (lower : Bool) (hdelim : isDelim delim chNewline = true) (v : List UInt8) :
    getString (restForm v) delim lower = (getString v delim lower).map fun (t, p) => (t, restForm p) := by
  have hstop : (!isDelim delim chNewline) = false := by rw [hdelim]; rfl
  unfold getString
  rw [restForm_dropWhile hstop, restForm_takeWhile hstop]
  match v.dropWhile (!isDelim delim ·) with
  | [] => rfl
  | c :: e => rfl

/-- What a token leaves of the text: behind the end of a line, the next line. -/
def formBehind (t : Token) (p : List UInt8) : List UInt8 := if t.type = .eol then menuForm p else restForm p

theorem getToken_restForm (v : List UInt8) (state : LexState) :
    getToken (restForm v) state = (getToken v state).map fun (t, p) => (t, formBehind t p) := by
  have hskip := skip_restForm v
  unfold skip at hskip
  unfold getToken
  rw [hskip]
  match skipComment (v.dropWhile isblank) with
  | [] => rfl
  | c :: e =>
    by_cases hnl : c = chNewline
    · rw [hnl, restForm_newline]
      rfl
    · rw [restForm_cons hnl]
      simp only [if_neg hnl]
      by_cases h0 : c = 0
      · rw [if_pos h0, if_pos h0]
        rfl
      · rw [if_neg h0, if_neg h0]
        cases state with
        | normal =>
          simp only [Option.map_some]
          rw [formBehind, if_neg nofun, restForm_cons hnl]
        | sliteral =>
          simp only
          rw [← restForm_cons hnl, getString_restForm false (by decide)]
          refine Option.map_congr fun (t, p) hget => ?_
          rw [formBehind, if_neg]
          rw [(getString_cases hget).2.2.1]
          exact nofun
        | keyword =>
          simp only
          rw [← restForm_cons hnl, getString_restForm true (by decide), Option.map_map, Option.map_map]
          refine Option.map_congr fun (t, p) hget => ?_
          have htype := getKeyword_cases (getString_cases hget).2.2.1
          simp only [Function.comp]
          rw [formBehind, if_neg]
          rcases htype with hstring | hkey
          · rw [hstring]
            exact nofun
          · exact (keyword_type hkey).2.1

theorem eolOrEof_restForm (v : List UInt8) : eolOrEof (restForm v) = (eolOrEof v).map restForm := by
  unfold eolOrEof
  rw [restForm_dropWhile (by decide)]
  match v.dropWhile (!isEnd ·) with
  | [] => rfl
  | c :: e => rfl

theorem eolOrEof_menuForm (v : List UInt8) : eolOrEof (menuForm v) = (eolOrEof v).map restForm := by
  rw [← eolOrEof_restForm]
  unfold menuForm
  split
  · unfold eolOrEof
    rw [List.dropWhile_append_of_pos (by decide)]
  · rfl

theorem eolOrEof_formBehind (t : Token) (p : List UInt8) : eolOrEof (formBehind t p) = (eolOrEof p).map restForm := by
  unfold formBehind
  split
  · exact eolOrEof_menuForm p
  · exact eolOrEof_restForm p

theorem parseSliteral_restForm (v : List UInt8) : parseSliteral (restForm v) = (getToken v .sliteral).map fun (t, p) =>
      (if t.type = .string then some t.val else none, formBehind t p) := by
  unfold parseSliteral
  rw [getToken_restForm]
  match getToken v .sliteral with
  | none => rfl
  | some (t, p) => rfl

theorem parseSliteral_none (h : parseSliteral v = none) : parseSliteral (restForm v) = none := by
  rw [parseSliteral_restForm]
  unfold parseSliteral at h
  match hget : getToken v .sliteral with
  | none => rfl
  | some (t, p) =>
    rw [hget] at h
    cases h

theorem parseSliteral_some {s : List UInt8} (h : parseSliteral v = some (some s, p)) : parseSliteral (restForm v) = some (some s, restForm p) := by
  rw [parseSliteral_restForm]
  unfold parseSliteral at h
  match hget : getToken v .sliteral with
  | none =>
    rw [hget] at h
    cases h
  | some (t, q) =>
    simp only [hget, Option.some.injEq, Prod.mk.injEq] at h
    obtain ⟨hval, rfl⟩ := h
    by_cases htype : t.type = .string
    · simp only [Option.map_some, hval]
      rw [formBehind, if_neg (by rw [htype]; nofun)]
    · rw [if_neg htype] at hval
      cases hval

theorem parseSliteral_fails (h : parseSliteral v = some (none, p)) : ∃ t, parseSliteral (restForm v) = some (none, formBehind t p) := by
  rw [parseSliteral_restForm]
  unfold parseSliteral at h
  match hget : getToken v .sliteral with
  | none =>
    rw [hget] at h
    cases h
  | some (t, q) =>
    simp only [hget, Option.some.injEq, Prod.mk.injEq] at h
    obtain ⟨hval, rfl⟩ := h
    exact ⟨t, by simp only [Option.map_some, hval]⟩

/-! ## Turns -/

/-- What turns make of the two forms of a text `v`; the files that are included go to different offsets. -/
inductive FormParsed (v : List UInt8) : Option Parsed → Option Parsed → Prop where
  | wrong : FormParsed v none none
  | next (mode : PxeMode) (cfg : PxeMenu) (p : List UInt8) : FormParsed v (some (.next mode cfg p)) (some (.next mode cfg (restForm p)))
  | line (mode : PxeMode) (cfg : PxeMenu) (p : List UInt8) (h : (chNewline :: p) <:+ v) :
      FormParsed v (some (.next mode cfg p)) (some (.next mode cfg (menuForm p)))
  | incl (offset offset' : Nat) (path : List UInt8) (mode : PxeMode) (p : List UInt8) :
      FormParsed v (some (.include offset path mode p)) (some (.include offset' path mode (restForm p)))
  | done : FormParsed v (some .done) (some .done)
  | fail (err : PxeErr) : FormParsed v (some (.fail err)) (some (.fail err))

variable {cfg : PxeMenu} {mode : PxeMode} {w : List UInt8}

theorem form_parseString (set : List UInt8 → PxeMenu) : FormParsed w (parseString mode set v) (parseString mode set (restForm v)) := by
  unfold parseString
  match hlit : parseSliteral v with
  | none =>
    rw [parseSliteral_none hlit]
    exact .wrong
  | some (none, p) =>
    obtain ⟨t, hlit'⟩ := parseSliteral_fails hlit
    rw [hlit']
    exact .fail .einval
  | some (some s, p) =>
    rw [parseSliteral_some hlit]
    exact .next mode (set s) p

theorem form_parseNumber (set : Int → PxeMenu) : FormParsed w (parseNumber mode set v) (parseNumber mode set (restForm v)) := by
  unfold parseNumber parseInteger
  match hlit : parseSliteral v with
  | none =>
    rw [parseSliteral_none hlit]
    exact .wrong
  | some (none, p) =>
    obtain ⟨t, hlit'⟩ := parseSliteral_fails hlit
    rw [hlit']
    exact .fail .einval
  | some (some s, p) =>
    rw [parseSliteral_some hlit]
    simp only [Option.bind_some]
    cases strictStrtoulTen s with
    | none => exact .fail .einval
    | some n => exact .next mode _ p

theorem form_restOfLine {v' : List UInt8} (h : eolOrEof v' = (eolOrEof v).map restForm) :
    FormParsed w (restOfLine mode cfg v) (restOfLine mode cfg v') := by
  unfold restOfLine
  rw [h]
  match eolOrEof v with
  | none => exact .wrong
  | some p => exact .next mode cfg p

theorem form_handleInclude (offset offset' : Nat) :
    FormParsed w (handleInclude (some offset) mode v) (handleInclude (some offset') mode (restForm v)) := by
  unfold handleInclude
  match hlit : parseSliteral v with
  | none =>
    rw [parseSliteral_none hlit]
    exact .wrong
  | some (none, p) =>
    obtain ⟨t, hlit'⟩ := parseSliteral_fails hlit
    rw [hlit']
    exact .fail .einval
  | some (some s, p) =>
    rw [parseSliteral_some hlit]
    exact .incl offset offset' s mode p

theorem formBehind_keyword (h : t.type ≠ .eol) (p : List UInt8) : formBehind t p = restForm p := if_neg h

theorem form_parseMenu (n n' : Nat) : FormParsed w (parseMenu (some n) cfg v) (parseMenu (some n') cfg (restForm v)) := by
  unfold parseMenu
  rw [getToken_restForm]
  match getToken v .keyword with
  | none => exact .wrong
  | some (t, p) =>
    simp only [Option.map_some]
    unfold menuSwitch
    split
    next htype =>
      rw [formBehind_keyword (by rw [htype]; nofun)]
      match hlit : parseSliteral p with
      | none =>
        rw [parseSliteral_none hlit]
        exact .wrong
      | some (none, q) =>
        obtain ⟨t', hlit'⟩ := parseSliteral_fails hlit
        rw [hlit']
        exact .fail .einval
      | some (some s, q) =>
        rw [parseSliteral_some hlit]
        exact form_restOfLine (eolOrEof_restForm q)
    next htype =>
      rw [formBehind_keyword (by rw [htype]; nofun)]
      exact form_handleInclude (n + 1) (n' + 1)
    · exact form_restOfLine (eolOrEof_formBehind t p)

theorem form_parseLabelMenu : FormParsed w (parseLabelMenu cfg v) (parseLabelMenu cfg (restForm v)) := by
  unfold parseLabelMenu
  rw [getToken_restForm]
  match getToken v .keyword with
  | none => exact .wrong
  | some (t, p) =>
    simp only [Option.map_some]
    unfold labelMenuSwitch
    split
    · exact form_restOfLine (eolOrEof_formBehind t p)
    next htype =>
      rw [formBehind_keyword (by rw [htype]; nofun)]
      match hlit : parseSliteral p with
      | none =>
        rw [parseSliteral_none hlit]
        exact .wrong
      | some (none, q) =>
        obtain ⟨t', hlit'⟩ := parseSliteral_fails hlit
        rw [hlit']
        exact form_restOfLine (eolOrEof_formBehind t' q)
      | some (some s, q) =>
        rw [parseSliteral_some hlit]
        exact form_restOfLine (eolOrEof_restForm q)
    · exact form_restOfLine (eolOrEof_formBehind t p)

theorem form_parseAppend : FormParsed w (parseAppend cfg v) (parseAppend cfg (restForm v)) := by
  -- behind the string both take the same label
  have hsame {val : Option (List UInt8)} {p p' : List UInt8} (hp : val ≠ none → p' = restForm p) (label : PxeLabel) :
      FormParsed w (some (if val = none then .fail .einval else .next .label (cfg.setLabel label) p))
        (some (if val = none then .fail .einval else .next .label (cfg.setLabel label) p')) := by
    by_cases hval : val = none
    · rw [if_pos hval, if_pos hval]
      exact .fail .einval
    · rw [if_neg hval, if_neg hval, hp hval]
      exact .next .label _ p
  have hlabel {val : Option (List UInt8)} {p p' : List UInt8} (hlit : parseSliteral v = some (val, p))
      (hlit' : parseSliteral (restForm v) = some (val, p')) (hp : val ≠ none → p' = restForm p) :
      FormParsed w (parseAppend cfg v) (parseAppend cfg (restForm v)) := by
    unfold parseAppend
    simp only [hlit, hlit']
    split
    · exact hsame hp _
    · match (val <|> cfg.label.append).bind appendInitrd with
      | none => exact .wrong
      | some none => exact hsame hp _
      | some (some initrd) => exact hsame hp _
  match hlit : parseSliteral v with
  | none =>
    unfold parseAppend
    rw [hlit, parseSliteral_none hlit]
    exact .wrong
  | some (none, p) =>
    obtain ⟨t, hlit'⟩ := parseSliteral_fails hlit
    exact hlabel hlit hlit' fun h => absurd rfl h
  | some (some s, p) => exact hlabel hlit (parseSliteral_some hlit) fun _ => rfl

theorem eol_suffix (hget : getToken v .keyword = some (t, p)) (htype : t.type = .eol) : (chNewline :: p) <:+ v := by
  rcases getToken_cases hget with ⟨hskip, -⟩ | ⟨-, rfl⟩ | ⟨c, e, -, -, htok⟩
  · exact hskip ▸ skip_suffix
  · cases htype
  · exact absurd htype htok.cases.2.2.1

theorem form_parseLabelLine : FormParsed v (parseLabelLine cfg v) (parseLabelLine cfg (restForm v)) := by
  unfold parseLabelLine
  rw [getToken_restForm]
  match hget : getToken v .keyword with
  | none => exact .wrong
  | some (t, p) =>
    simp only [Option.map_some]
    by_cases heol : t.type = .eol
    · rw [heol, formBehind, if_pos heol]
      exact .line .label cfg p (eol_suffix hget heol)
    · rw [formBehind_keyword heol]
      unfold labelSwitch
      split
      · exact form_parseLabelMenu
      · exact form_parseString _
      · exact form_parseString _
      · exact form_parseAppend
      · split
        · exact form_parseString _
        · exact .next .label cfg p
      · split
        · exact form_parseString _
        · exact .next .label cfg p
      · exact form_parseNumber _
      next htype => exact absurd htype heol
      · exact .next .top cfg v

theorem form_parseTopLine (n n' : Nat) : FormParsed v (parseTopLine (some n) cfg v) (parseTopLine (some n') cfg (restForm v)) := by
  unfold parseTopLine
  rw [getToken_restForm]
  match hget : getToken v .keyword with
  | none => exact .wrong
  | some (t, p) =>
    simp only [Option.map_some]
    by_cases heol : t.type = .eol
    · rw [heol, formBehind, if_pos heol]
      exact .line .top cfg p (eol_suffix hget heol)
    · rw [formBehind_keyword heol]
      unfold topSwitch
      split
      · exact form_parseMenu n n'
      · exact form_parseNumber _
      · exact form_parseString _
      · match hlit : parseSliteral p with
        | none =>
          rw [parseSliteral_none hlit]
          exact .wrong
        | some (none, q) =>
          obtain ⟨t', hlit'⟩ := parseSliteral_fails hlit
          rw [hlit']
          exact .wrong
        | some (some s, q) =>
          rw [parseSliteral_some hlit]
          exact .next .top _ q
      · exact form_handleInclude (alignFour n) (alignFour n')
      · exact form_parseNumber _
      next htype => exact absurd htype heol
      · exact .done
      · exact form_restOfLine (eolOrEof_restForm p)

theorem form_parseLine (n n' : Nat) (mode : PxeMode) : FormParsed v (parseLine (some n) mode cfg v) (parseLine (some n') mode cfg (restForm v)) := by
  cases mode with
  | top => exact form_parseTopLine n n'
  | label => exact form_parseLabelLine
  | menu => exact form_restOfLine (eolOrEof_restForm v)

/-! ## An include line -/

theorem includeLine_starts (h : includeLine v = true) : getToken v .keyword = none ∨ ∃ p, Starts v .include p := by
  have hword : ((v.dropWhile isblank).takeWhile (!isDelim chSpace ·)).map tolower = includeText := of_decide_eq_true h
  unfold getToken Starts getToken
  match hx : v.dropWhile isblank with
  | [] =>
    rw [hx] at hword
    cases hword
  | c :: e =>
    rw [hx] at hword
    have hc : isDelim chSpace c = false := by
      by_contra hno
      rw [List.takeWhile_cons_of_neg (by simpa using hno)] at hword
      cases hword
    have hend : isEnd c = false := by
      by_contra hno
      rw [isDelim_of_isEnd (by simpa using hno) chSpace (Or.inl rfl)] at hc
      cases hc
    have hhash : skipComment (c :: e) = c :: e := by
      refine if_neg fun hhead => ?_
      obtain rfl : c = chHash := Option.some.inj hhead
      rw [List.takeWhile_cons_of_pos (by decide)] at hword
      cases hword
    rw [hhash]
    simp only
    have hnot := not_or.1 (of_decide_eq_false hend)
    rw [if_neg hnot.2, if_neg hnot.1]
    unfold getString
    match (c :: e).dropWhile (!isDelim chSpace ·) with
    | [] => exact Or.inl rfl
    | d :: e' =>
      refine Or.inr ⟨d :: e', getKeyword ⟨includeText, .string⟩, ?_, by decide⟩
      simp only [if_true, Option.map_some, hword]

theorem getToken_blank (hc : isblank c = true) (v : List UInt8) : getToken (c :: v) state = getToken v state := by
  unfold getToken
  rw [List.dropWhile_cons_of_pos hc]

theorem getToken_menuText (v : List UInt8) : getToken (menuText ++ v) .keyword = some (⟨"menu".toList.map asc, .menu⟩, chSpace :: v) := by
  rfl

theorem form_include (cfg : PxeMenu) (h : includeLine v = true) (n n' : Nat) :
    (parseTopLine (some n) cfg v = none ∧ parseTopLine (some n') cfg (menuText ++ restForm v) = none) ∨
      (∃ err, parseTopLine (some n) cfg v = some (.fail err) ∧ parseTopLine (some n') cfg (menuText ++ restForm v) = some (.fail err)) ∨
      ∃ offset offset' path p, parseTopLine (some n) cfg v = some (.include offset path .top p) ∧
        parseTopLine (some n') cfg (menuText ++ restForm v) = some (.include offset' path .menu (restForm p)) ∧
        ∃ c e, p = c :: e ∧ isEnd c = true := by
  have hmenu : parseTopLine (some n') cfg (menuText ++ restForm v) = parseMenu (some n') cfg (chSpace :: restForm v) := by
    rw [parseTopLine, getToken_menuText]
    rfl
  have htoken : getToken (chSpace :: restForm v) .keyword = (getToken v .keyword).map fun (t, p) => (t, formBehind t p) := by
    rw [getToken_blank (by decide), getToken_restForm]
  rcases includeLine_starts h with hnone | ⟨p, t, hget, htype⟩
  · refine Or.inl ⟨by rw [parseTopLine, hnone], ?_⟩
    rw [hmenu, parseMenu, htoken, hnone]
    rfl
  · rw [hget, Option.map_some] at htoken
    have hleft : parseTopLine (some n) cfg v = handleInclude (some (alignFour n)) .top p := by
      rw [parseTopLine, hget]
      simp only [htype]
      rfl
    have hright : parseTopLine (some n') cfg (menuText ++ restForm v) = handleInclude (some (n' + 1)) .menu (restForm p) := by
      rw [hmenu, parseMenu, htoken]
      simp only [htype, formBehind_keyword (show t.type ≠ .eol by rw [htype]; nofun)]
      rfl
    rw [hleft, hright]
    unfold handleInclude
    match hlit : parseSliteral p with
    | none =>
      rw [parseSliteral_none hlit]
      exact Or.inl ⟨rfl, rfl⟩
    | some (none, q) =>
      obtain ⟨t', hlit'⟩ := parseSliteral_fails hlit
      rw [hlit']
      exact Or.inr (Or.inl ⟨.einval, rfl, rfl⟩)
    | some (some s, q) =>
      rw [parseSliteral_some hlit]
      exact Or.inr (Or.inr ⟨alignFour n, n' + 1, s, q, rfl, rfl, (parseSliteral_string hlit).2⟩)

end Pxe

end UBoot
