import UBoot.Pxe

/-!
# The tokens of a PXE file

What `get_token` and the functions over it leave of the bytes that they are given, and when the end of a line or of the file stops them.
-/

namespace UBoot

open List Option

namespace Pxe
variable {c delim : UInt8} {stop : UInt8 → Bool} {s : List UInt8} {type : TokenType} {set : List UInt8 → PxeMenu}


/-- The bytes have the end of a line or of a file. -/
def Ends (p : List UInt8) : Prop := ∃ c ∈ p, isEnd c = true

/-- What `get_token` looks at, behind blanks and a comment. -/
def skip (p : List UInt8) : List UInt8 := skipComment (p.dropWhile isblank)

/-- Nothing else is left of a line, and `p'` is behind its end. -/
def LineOver (p p' : List UInt8) : Prop := ∃ c, isEnd c = true ∧ skip p = c :: p'

/-- The token that the bytes begin with is a keyword of this type, and `p'` is behind it. -/
def Starts (p : List UInt8) (type : TokenType) (p' : List UInt8) : Prop := ∃ t, getToken p .keyword = some (t, p') ∧ t.type = type

variable {p p' q : List UInt8} {t : Token} {state : LexState}

theorem isEnd_iff : isEnd c = true ↔ c = 0 ∨ c = chNewline := decide_eq_true_iff

theorem isEnd_of_isDelim_newline (h : isDelim chNewline c = true) : isEnd c = true := by
  rw [isEnd_iff]
  rcases of_decide_eq_true h with h0 | ⟨hd, -⟩ | hd
  · exact Or.inl h0
  · exact absurd hd (by decide)
  · exact Or.inr hd.symm

theorem isDelim_of_isEnd (h : isEnd c = true) (delim : UInt8) (hdelim : delim = chSpace ∨ delim = chNewline) :
    isDelim delim c = true := by
  refine decide_eq_true ?_
  rcases isEnd_iff.1 h with rfl | rfl
  · exact Or.inl rfl
  · rcases hdelim with rfl | rfl
    · exact Or.inr (Or.inl ⟨rfl, by decide⟩)
    · exact Or.inr (Or.inr rfl)

/-! ## What is eaten has no end -/

theorem ends_dropWhile (hstop : ∀ c, isEnd c = true → stop c = true) : Ends (p.dropWhile (!stop ·)) ↔ Ends p := by
  induction p with
  | nil => exact Iff.rfl
  | cons c p ih =>
    by_cases hc : stop c = true
    · rw [dropWhile_cons_of_neg (by simp [hc])]
    · rw [dropWhile_cons_of_pos (by simp [hc]), ih]
      constructor
      · rintro ⟨d, hd, hend⟩
        exact ⟨d, mem_cons_of_mem c hd, hend⟩
      · rintro ⟨d, hd, hend⟩
        rcases mem_cons.1 hd with rfl | hd
        · exact absurd (hstop d hend) hc
        · exact ⟨d, hd, hend⟩

theorem dropWhile_ne_nil (hstop : ∀ c, isEnd c = true → stop c = true) (h : Ends p) : p.dropWhile (!stop ·) ≠ [] := by
  intro hnil
  obtain ⟨c, hc, -⟩ := hnil ▸ (ends_dropWhile hstop).2 h
  exact not_mem_nil hc

theorem dropWhile_isEnd_eq_nil : p.dropWhile (!isEnd ·) = [] ↔ ¬Ends p := by
  constructor
  · intro h hends
    exact dropWhile_ne_nil (fun _ hc => hc) hends h
  · intro h
    rw [dropWhile_eq_nil_iff]
    intro c hc
    simpa using fun hend => h ⟨c, hc, hend⟩

theorem isEnd_head {e : List UInt8} (h : p.dropWhile (!isEnd ·) = c :: e) : isEnd c = true := by
  have hc := head?_dropWhile_not (!isEnd ·) p
  rw [h] at hc
  simpa using hc

theorem dropWhile_isblank_eq : p.dropWhile isblank = p.dropWhile (!(fun c => !isblank c) ·) := by
  congr 1
  funext c
  exact (Bool.not_not _).symm

theorem not_isblank_of_isEnd (h : isEnd c = true) : (!isblank c) = true := by
  rcases isEnd_iff.1 h with rfl | rfl <;> decide

theorem ends_skip : Ends (skip p) ↔ Ends p := by
  have hblank : Ends (p.dropWhile isblank) ↔ Ends p := by
    rw [dropWhile_isblank_eq]
    exact ends_dropWhile fun _ => not_isblank_of_isEnd
  unfold skip skipComment
  split
  · rw [ends_dropWhile fun _ hc => hc, hblank]
  · exact hblank

theorem skip_suffix : skip p <:+ p := by
  unfold skip skipComment
  split
  · exact (dropWhile_suffix _).trans (dropWhile_suffix _)
  · exact dropWhile_suffix _

theorem skip_ne_nil (h : Ends p) : skip p ≠ [] := by
  intro hnil
  obtain ⟨c, hc, -⟩ := hnil ▸ ends_skip.2 h
  exact not_mem_nil hc

theorem LineOver.ends (h : LineOver p p') : Ends p := by
  obtain ⟨c, hc, hskip⟩ := h
  exact ends_skip.1 (hskip ▸ ⟨c, mem_cons_self, hc⟩)

/-! ## Tokens -/

/-- The string that `get_string` takes for a token, by the state of the lexer. -/
def StringToken (state : LexState) (p : List UInt8) (t : Token) (p' : List UInt8) : Prop :=
  match state with
  | .normal => t = ⟨[], .invalid⟩ ∧ p' = p
  | .keyword => ∃ t0, getString p chSpace true = some (t0, p') ∧ t = getKeyword t0
  | .sliteral => getString p chNewline false = some (t, p')

theorem getToken_cases (h : getToken p state = some (t, p')) :
    (skip p = chNewline :: p' ∧ t = ⟨[], .eol⟩) ∨ (skip p = 0 :: p' ∧ t = ⟨[], .eof⟩) ∨
      ∃ c e, skip p = c :: e ∧ isEnd c = false ∧ StringToken state (c :: e) t p' := by
  unfold getToken at h
  unfold skip
  match hskip : skipComment (p.dropWhile isblank) with
  | [] =>
    rw [hskip] at h
    cases h
  | c :: e =>
    rw [hskip] at h
    simp only at h
    by_cases hnl : c = chNewline
    · rw [if_pos hnl] at h
      cases h
      exact Or.inl ⟨by rw [hnl], rfl⟩
    · rw [if_neg hnl] at h
      by_cases h0 : c = 0
      · rw [if_pos h0] at h
        cases h
        exact Or.inr (Or.inl ⟨by rw [h0], rfl⟩)
      · rw [if_neg h0] at h
        refine Or.inr (Or.inr ⟨c, e, rfl, decide_eq_false (not_or.2 ⟨h0, hnl⟩), ?_⟩)
        cases state with
        | normal =>
          cases h
          exact ⟨rfl, rfl⟩
        | keyword =>
          obtain ⟨⟨t0, q⟩, hq, heq⟩ := map_eq_some_iff.1 h
          cases heq
          exact ⟨t0, hq, rfl⟩
        | sliteral => exact h

theorem getString_cases {lower : Bool} (h : getString p delim lower = some (t, p')) :
    p.dropWhile (!isDelim delim ·) = p' ∧ p' ≠ [] ∧ t.type = .string ∧
      t.val = (p.takeWhile (!isDelim delim ·)).map (if lower then tolower else id) := by
  unfold getString at h
  match hdrop : p.dropWhile (!isDelim delim ·) with
  | [] =>
    rw [hdrop] at h
    cases h
  | c :: e =>
    rw [hdrop] at h
    cases h
    exact ⟨rfl, cons_ne_nil c e, rfl, rfl⟩

theorem getString_isSome (lower : Bool) (hdelim : delim = chSpace ∨ delim = chNewline) (h : Ends p) :
    ∃ t p', getString p delim lower = some (t, p') := by
  have hne := dropWhile_ne_nil (fun c hc => isDelim_of_isEnd hc delim hdelim) h
  unfold getString
  match hdrop : p.dropWhile (!isDelim delim ·) with
  | [] => exact absurd hdrop hne
  | c :: e => exact ⟨_, _, rfl⟩

theorem keyword_type {k : Token} (h : k ∈ keywords) : k.val ≠ [] ∧ k.type ≠ .eol ∧ k.type ≠ .eof ∧ k.type ≠ .string ∧ k.type ≠ .invalid := by
  revert k
  decide

theorem getKeyword_cases {t0 : Token} (h0 : t0.type = .string) : (getKeyword t0).type = .string ∨ getKeyword t0 ∈ keywords := by
  unfold getKeyword
  cases hfind : keywords.find? (·.val = t0.val) with
  | none => exact Or.inl (by simpa using h0)
  | some k =>
    have hval : k.val = t0.val := by simpa using find?_some hfind
    rw [map_some, getD_some, ← hval]
    exact Or.inr (mem_of_find?_eq_some hfind)

theorem StringToken.cases (h : StringToken state p t p') :
    p' <:+ p ∧ (Ends p' ↔ Ends p) ∧ t.type ≠ .eol ∧ t.type ≠ .eof ∧ (t.val ≠ [] → p' ≠ p) := by
  have hstring (delim : UInt8) (lower : Bool) (hdelim : delim = chSpace ∨ delim = chNewline) (t0 : Token)
      (hget : getString p delim lower = some (t0, p')) : p' <:+ p ∧ (Ends p' ↔ Ends p) ∧ (t0.val ≠ [] → p' ≠ p) := by
    obtain ⟨rfl, -, -, hval⟩ := getString_cases hget
    refine ⟨dropWhile_suffix _, ends_dropWhile fun c hc => isDelim_of_isEnd hc delim hdelim, ?_⟩
    intro hne heq
    apply hne
    have hsum := takeWhile_append_dropWhile (p := (!isDelim delim ·)) (l := p)
    rw [heq] at hsum
    rw [hval, append_left_eq_self.1 hsum]
    rfl
  cases state with
  | normal =>
    obtain ⟨rfl, rfl⟩ := h
    exact ⟨suffix_refl _, Iff.rfl, nofun, nofun, fun hne => absurd rfl hne⟩
  | keyword =>
    obtain ⟨t0, hget, rfl⟩ := h
    obtain ⟨hsuffix, hends, hval⟩ := hstring chSpace true (Or.inl rfl) t0 hget
    obtain ⟨-, -, htype, -⟩ := getString_cases hget
    refine ⟨hsuffix, hends, ?_, ?_, hval⟩
    · rcases getKeyword_cases htype with hs | hk
      · rw [hs]
        exact nofun
      · exact (keyword_type hk).2.1
    · rcases getKeyword_cases htype with hs | hk
      · rw [hs]
        exact nofun
      · exact (keyword_type hk).2.2.1
  | sliteral =>
    obtain ⟨hsuffix, hends, hval⟩ := hstring chNewline false (Or.inr rfl) t h
    obtain ⟨-, -, htype, -⟩ := getString_cases h
    refine ⟨hsuffix, hends, ?_, ?_, hval⟩
    · rw [htype]
      exact nofun
    · rw [htype]
      exact nofun

/-! ## What the functions leave -/

theorem getToken_suffix (h : getToken p state = some (t, p')) : p' <:+ p := by
  rcases getToken_cases h with ⟨hskip, -⟩ | ⟨hskip, -⟩ | ⟨c, e, hskip, -, htok⟩
  · exact (hskip ▸ suffix_cons _ _).trans skip_suffix
  · exact (hskip ▸ suffix_cons _ _).trans skip_suffix
  · exact htok.cases.1.trans (hskip ▸ skip_suffix)

/-- The end of a line or of the file is found just if nothing else is left of the line. -/
theorem getToken_over (h : getToken p state = some (t, p')) : (t.type = .eol ∨ t.type = .eof) ↔ LineOver p p' := by
  constructor
  · intro htype
    rcases getToken_cases h with ⟨hskip, -⟩ | ⟨hskip, -⟩ | ⟨c, e, hskip, -, htok⟩
    · exact ⟨_, by decide, hskip⟩
    · exact ⟨_, by decide, hskip⟩
    · obtain ⟨-, -, heol, heof, -⟩ := htok.cases
      exact absurd htype (not_or.2 ⟨heol, heof⟩)
  · rintro ⟨c, hc, hskip⟩
    rcases getToken_cases h with ⟨-, rfl⟩ | ⟨-, rfl⟩ | ⟨d, e, hskip', hd, -⟩
    · exact Or.inl rfl
    · exact Or.inr rfl
    · rw [hskip] at hskip'
      cases hskip'
      rw [hd] at hc
      cases hc

theorem getToken_of_over (h : LineOver p p') (state : LexState) : ∃ t, getToken p state = some (t, p') ∧ (t.type = .eol ∨ t.type = .eof) := by
  obtain ⟨c, hc, hskip⟩ := h
  unfold skip at hskip
  unfold getToken
  rw [hskip]
  rcases isEnd_iff.1 hc with rfl | rfl
  · exact ⟨⟨[], .eof⟩, rfl, Or.inr rfl⟩
  · exact ⟨⟨[], .eol⟩, rfl, Or.inl rfl⟩

theorem ends_of_getToken (h : getToken p state = some (t, p')) (htype : ¬(t.type = .eol ∨ t.type = .eof)) : Ends p' ↔ Ends p := by
  rcases getToken_cases h with ⟨-, rfl⟩ | ⟨-, rfl⟩ | ⟨c, e, hskip, -, htok⟩
  · exact absurd (Or.inl rfl) htype
  · exact absurd (Or.inr rfl) htype
  · rw [htok.cases.2.1, ← hskip, ends_skip]

theorem getToken_isSome (h : Ends p) (state : LexState) : ∃ t p', getToken p state = some (t, p') := by
  unfold getToken
  match hskip : skipComment (p.dropWhile isblank) with
  | [] => exact absurd hskip (skip_ne_nil h)
  | c :: e =>
    have hends : Ends (c :: e) := hskip ▸ ends_skip.2 h
    simp only
    split
    · exact ⟨_, _, rfl⟩
    · split
      · exact ⟨_, _, rfl⟩
      · cases state with
        | normal => exact ⟨_, _, rfl⟩
        | keyword =>
          obtain ⟨t, p', hget⟩ := getString_isSome true (Or.inl rfl) hends
          exact ⟨getKeyword t, p', by simp only [hget, map_some]⟩
        | sliteral => exact getString_isSome false (Or.inr rfl) hends

theorem getToken_shorter (h : getToken p .keyword = some (t, p')) (htype : t.type ≠ .string) : p'.length < p.length := by
  rcases getToken_cases h with ⟨hskip, -⟩ | ⟨hskip, -⟩ | ⟨c, e, hskip, -, htok⟩
  · have hle := (skip_suffix (p := p)).length_le
    rw [hskip] at hle
    exact hle
  · have hle := (skip_suffix (p := p)).length_le
    rw [hskip] at hle
    exact hle
  · obtain ⟨hsuffix, -, -, -, hne⟩ := htok.cases
    obtain ⟨t0, hget, rfl⟩ := htok
    have hkey := (getKeyword_cases (getString_cases hget).2.2.1).resolve_left htype
    have hlt := lt_of_le_of_ne hsuffix.length_le fun heq => hne (keyword_type hkey).1 (hsuffix.eq_of_length heq)
    exact Nat.lt_of_lt_of_le hlt (hskip ▸ (skip_suffix (p := p)).length_le)

theorem eolOrEof_suffix (h : eolOrEof p = some p') : p' <:+ p ∧ ∃ c e, p' = c :: e ∧ isEnd c = true := by
  unfold eolOrEof at h
  match hdrop : p.dropWhile (!isEnd ·) with
  | [] =>
    rw [hdrop] at h
    cases h
  | c :: e =>
    rw [hdrop] at h
    cases h
    exact ⟨hdrop ▸ dropWhile_suffix _, c, e, rfl, isEnd_head hdrop⟩

theorem eolOrEof_of_end (hc : isEnd c = true) (e : List UInt8) : eolOrEof (c :: e) = some (c :: e) := by
  unfold eolOrEof
  rw [dropWhile_cons_of_neg (by simp [hc])]

theorem eolOrEof_eq_none : eolOrEof p = none ↔ ¬Ends p := by
  rw [← dropWhile_isEnd_eq_nil]
  unfold eolOrEof
  match p.dropWhile (!isEnd ·) with
  | [] => exact iff_of_true rfl rfl
  | c :: e => exact iff_of_false nofun nofun

theorem restOfLine_shorter (h : getToken p .keyword = some (t, p')) (htype : ¬(t.type = .eol ∨ t.type = .eof))
    (hrest : eolOrEof p' = some q) : q.length < p.length := by
  rcases getToken_cases h with ⟨-, rfl⟩ | ⟨-, rfl⟩ | ⟨c, e, hskip, hc, htok⟩
  · exact absurd (Or.inl rfl) htype
  · exact absurd (Or.inr rfl) htype
  · obtain ⟨hsuffix, d, e', rfl, hd⟩ := eolOrEof_suffix hrest
    have hq := hsuffix.trans htok.cases.1
    have hlt := lt_of_le_of_ne hq.length_le fun heq => by
      cases hq.eq_of_length heq
      rw [hc] at hd
      cases hd
    exact Nat.lt_of_lt_of_le hlt (hskip ▸ (skip_suffix (p := p)).length_le)

theorem sliteral_cases (h : getToken p .sliteral = some (t, p')) :
    (LineOver p p' ∧ t.type ≠ .string) ∨ (t.type = .string ∧ p' <:+ p ∧ ∃ c e, p' = c :: e ∧ isEnd c = true) := by
  rcases getToken_cases h with ⟨hskip, rfl⟩ | ⟨hskip, rfl⟩ | ⟨c, e, -, -, htok⟩
  · exact Or.inl ⟨⟨_, by decide, hskip⟩, nofun⟩
  · exact Or.inl ⟨⟨_, by decide, hskip⟩, nofun⟩
  · obtain ⟨hdrop, hne, htype, -⟩ := getString_cases htok
    obtain ⟨d, e', rfl⟩ := exists_cons_of_ne_nil hne
    have hd := head?_dropWhile_not (!isDelim chNewline ·) (c :: e)
    rw [hdrop] at hd
    exact Or.inr ⟨htype, getToken_suffix h, d, e', rfl, isEnd_of_isDelim_newline (by simpa using hd)⟩

theorem parseSliteral_eq_none : parseSliteral p = none ↔ ¬Ends p := by
  unfold parseSliteral
  constructor
  · intro h hends
    obtain ⟨t, p', hget⟩ := getToken_isSome hends .sliteral
    simp only [hget, reduceCtorEq] at h
  · intro h
    match hget : getToken p .sliteral with
    | none => rfl
    | some (t, p') =>
      refine absurd ?_ h
      rcases sliteral_cases hget with ⟨hover, -⟩ | ⟨-, hsuffix, c, e, rfl, hc⟩
      · exact hover.ends
      · exact ⟨c, hsuffix.subset mem_cons_self, hc⟩

theorem parseSliteral_over : parseSliteral p = some (none, p') ↔ LineOver p p' := by
  unfold parseSliteral
  constructor
  · intro h
    match hget : getToken p .sliteral with
    | none =>
      rw [hget] at h
      cases h
    | some (t, q) =>
      simp only [hget, some.injEq, Prod.mk.injEq, ite_eq_right_iff, reduceCtorEq, imp_false] at h
      obtain ⟨htype, rfl⟩ := h
      rcases sliteral_cases hget with ⟨hover, -⟩ | ⟨hstring, -⟩
      · exact hover
      · exact absurd hstring htype
  · intro h
    obtain ⟨t, hget, htype⟩ := getToken_of_over h .sliteral
    rw [hget]
    rcases htype with htype | htype <;> simp [htype]

theorem parseSliteral_string (h : parseSliteral p = some (some s, p')) : p' <:+ p ∧ ∃ c e, p' = c :: e ∧ isEnd c = true := by
  unfold parseSliteral at h
  match hget : getToken p .sliteral with
  | none =>
    rw [hget] at h
    cases h
  | some (t, q) =>
    simp only [hget, some.injEq, Prod.mk.injEq] at h
    obtain ⟨hval, rfl⟩ := h
    rcases sliteral_cases hget with ⟨-, htype⟩ | ⟨-, hstring⟩
    · rw [if_neg htype] at hval
      cases hval
    · exact hstring

theorem parseSliteral_suffix {val : Option (List UInt8)} (h : parseSliteral p = some (val, p')) : p' <:+ p := by
  cases val with
  | none =>
    obtain ⟨c, -, hskip⟩ := parseSliteral_over.1 h
    exact (hskip ▸ suffix_cons _ _).trans skip_suffix
  | some s => exact (parseSliteral_string h).1

theorem starts_iff (hget : getToken p .keyword = some (t, p')) :
    Starts p type q ↔ t.type = type ∧ q = p' := by
  constructor
  · rintro ⟨t', hget', htype⟩
    rw [hget] at hget'
    cases hget'
    exact ⟨htype, rfl⟩
  · rintro ⟨htype, rfl⟩
    exact ⟨t, hget, htype⟩

theorem over_iff (hget : getToken p state = some (t, p')) :
    LineOver p q ↔ (t.type = .eol ∨ t.type = .eof) ∧ q = p' := by
  constructor
  · intro hover
    obtain ⟨t', hget', htype⟩ := getToken_of_over hover state
    rw [hget] at hget'
    cases hget'
    exact ⟨htype, rfl⟩
  · rintro ⟨htype, rfl⟩
    exact (getToken_over hget).1 htype

theorem ends_of_keyword (hget : getToken p .keyword = some (t, p')) (hends : Ends p') : Ends p := by
  by_cases hover : t.type = .eol ∨ t.type = .eof
  · exact ((getToken_over hget).1 hover).ends
  · exact (ends_of_getToken hget hover).1 hends

/-! ## Turns -/

/-- The bytes that a turn leaves. -/
def Parsed.rest : Parsed → Option (PxeMode × List UInt8)
  | .next mode _ p => some (mode, p)
  | .include _ _ mode p => some (mode, p)
  | .done => none
  | .fail _ => none

/-- How much is left to do with a file. -/
def weight (mode : PxeMode) (p : List UInt8) : Nat := 2 * p.length + if mode = .top then 0 else 1

theorem weight_lt (mode mode' : PxeMode) (h : p'.length < p.length) : weight mode' p' < weight mode p := by
  unfold weight
  split <;> split <;> omega

variable {cfg : PxeMenu} {len offset : Option Nat} {mode mode' : PxeMode} {x : Parsed}

theorem parseString_rest (h : parseString mode set p = some x) (hx : x.rest = some (mode', p')) : p' <:+ p := by
  unfold parseString at h
  split at h
  · cases h
  · cases h
    cases hx
  next hget =>
    cases h
    cases hx
    exact parseSliteral_suffix hget

theorem parseInteger_suffix {val : Option Int} (h : parseInteger p = some (val, p')) : p' <:+ p := by
  unfold parseInteger at h
  split at h
  · cases h
  next hget =>
    cases h
    exact parseSliteral_suffix hget

theorem parseNumber_rest {set : Int → PxeMenu} (h : parseNumber mode set p = some x) (hx : x.rest = some (mode', p')) : p' <:+ p := by
  unfold parseNumber at h
  split at h
  · cases h
  · cases h
    cases hx
  next hget =>
    cases h
    cases hx
    exact parseInteger_suffix hget

theorem restOfLine_rest (h : restOfLine mode cfg p = some x) (hx : x.rest = some (mode', p')) : mode' = mode ∧ eolOrEof p = some p' := by
  obtain ⟨q, hq, rfl⟩ := map_eq_some_iff.1 h
  cases hx
  exact ⟨rfl, hq⟩

theorem restOfLine_suffix (h : restOfLine mode cfg p = some x) (hx : x.rest = some (mode', p')) : p' <:+ p :=
  (eolOrEof_suffix (restOfLine_rest h hx).2).1

theorem handleInclude_rest (h : handleInclude offset mode p = some x) (hx : x.rest = some (mode', p')) : p' <:+ p := by
  unfold handleInclude at h
  split at h
  · cases h
  · split at h
    · cases h
    · cases h
      cases hx
    next hget =>
      cases h
      cases hx
      exact parseSliteral_suffix hget

theorem parseMenu_rest (h : parseMenu len cfg p = some x) (hx : x.rest = some (mode', p')) : p' <:+ p := by
  unfold parseMenu at h
  split at h
  · cases h
  next t q hget =>
    refine List.IsSuffix.trans ?_ (getToken_suffix hget)
    unfold menuSwitch at h
    split at h
    · split at h
      · cases h
      · cases h
        cases hx
      next hlit => exact (restOfLine_suffix h hx).trans (parseSliteral_suffix hlit)
    · exact handleInclude_rest h hx
    · exact restOfLine_suffix h hx

theorem parseLabelMenu_rest (h : parseLabelMenu cfg p = some x) (hx : x.rest = some (mode', p')) : p' <:+ p := by
  unfold parseLabelMenu at h
  split at h
  · cases h
  next t q hget =>
    refine List.IsSuffix.trans ?_ (getToken_suffix hget)
    unfold labelMenuSwitch at h
    split at h
    · exact restOfLine_suffix h hx
    · split at h
      · cases h
      next hlit => exact (restOfLine_suffix h hx).trans (parseSliteral_suffix hlit)
      next hlit => exact (restOfLine_suffix h hx).trans (parseSliteral_suffix hlit)
    · exact restOfLine_suffix h hx

theorem parseAppend_rest (h : parseAppend cfg p = some x) (hx : x.rest = some (mode', p')) : p' <:+ p := by
  unfold parseAppend at h
  split at h
  · cases h
  next val q hget =>
    refine List.IsSuffix.trans ?_ (parseSliteral_suffix hget)
    simp only at h
    have hfinish (label : PxeLabel) (hf : (if val = none then Parsed.fail .einval else .next .label (cfg.setLabel label) q) = x) : p' <:+ q := by
      split at hf
      · subst hf
        cases hx
      · subst hf
        cases hx
        exact suffix_refl _
    split at h
    · exact hfinish _ (some.inj h)
    · split at h
      · cases h
      · exact hfinish _ (some.inj h)
      · exact hfinish _ (some.inj h)

/-- A turn that goes on behind its keyword, and from a token that is none. -/
theorem topSwitch_rest (h : topSwitch len cfg p type = some x) (hx : x.rest = some (mode', p')) :
    p' <:+ p ∧ (type = .string → eolOrEof p = some p') := by
  unfold topSwitch at h
  split at h
  · exact ⟨parseMenu_rest h hx, nofun⟩
  · exact ⟨parseNumber_rest h hx, nofun⟩
  · exact ⟨parseString_rest h hx, nofun⟩
  · split at h
    · cases h
    · cases h
    next hlit =>
      cases h
      cases hx
      exact ⟨parseSliteral_suffix hlit, nofun⟩
  · exact ⟨handleInclude_rest h hx, nofun⟩
  · exact ⟨parseNumber_rest h hx, nofun⟩
  · cases h
    cases hx
    exact ⟨suffix_refl _, nofun⟩
  · cases h
    cases hx
  · exact ⟨restOfLine_suffix h hx, fun _ => (restOfLine_rest h hx).2⟩

theorem labelSwitch_rest (h : labelSwitch cfg s p type = some x) (hx : x.rest = some (mode', p')) :
    (p' <:+ p ∧ type ≠ .string) ∨ (mode' = .top ∧ p' = s) := by
  unfold labelSwitch at h
  split at h
  · exact Or.inl ⟨parseLabelMenu_rest h hx, nofun⟩
  · exact Or.inl ⟨parseString_rest h hx, nofun⟩
  · exact Or.inl ⟨parseString_rest h hx, nofun⟩
  · exact Or.inl ⟨parseAppend_rest h hx, nofun⟩
  · split at h
    · exact Or.inl ⟨parseString_rest h hx, nofun⟩
    · cases h
      cases hx
      exact Or.inl ⟨suffix_refl _, nofun⟩
  · split at h
    · exact Or.inl ⟨parseString_rest h hx, nofun⟩
    · cases h
      cases hx
      exact Or.inl ⟨suffix_refl _, nofun⟩
  · exact Or.inl ⟨parseNumber_rest h hx, nofun⟩
  · cases h
    cases hx
    exact Or.inl ⟨suffix_refl _, nofun⟩
  · cases h
    cases hx
    exact Or.inr ⟨rfl, rfl⟩

/-- A turn goes on in the bytes that it is given, and with less left to do. -/
theorem parseLine_rest (h : parseLine len mode cfg p = some x) (hx : x.rest = some (mode', p')) :
    p' <:+ p ∧ weight mode' p' < weight mode p := by
  have hkey {t : Token} {q : List UInt8} (hget : getToken p .keyword = some (t, q)) (htype : t.type ≠ .string) (hq : p' <:+ q) :
      p' <:+ p ∧ weight mode' p' < weight mode p :=
    ⟨hq.trans (getToken_suffix hget), weight_lt _ _ (Nat.lt_of_le_of_lt hq.length_le (getToken_shorter hget htype))⟩
  have hback (hmode : mode ≠ .top) (hmode' : mode' = .top) (hle : p'.length ≤ p.length) : weight mode' p' < weight mode p := by
    unfold weight
    rw [if_neg hmode, if_pos hmode']
    omega
  cases mode with
  | menu =>
    obtain ⟨hmode, hrest⟩ := restOfLine_rest h hx
    have hsuffix := (eolOrEof_suffix hrest).1
    exact ⟨hsuffix, hback nofun hmode hsuffix.length_le⟩
  | top =>
    change parseTopLine len cfg p = some x at h
    unfold parseTopLine at h
    split at h
    · cases h
    next t q hget =>
      obtain ⟨hsuffix, hstring⟩ := topSwitch_rest h hx
      by_cases htype : t.type = .string
      · have hlt := restOfLine_shorter hget (by rw [htype]; nofun) (hstring htype)
        exact ⟨hsuffix.trans (getToken_suffix hget), weight_lt _ _ hlt⟩
      · exact hkey hget htype hsuffix
  | label =>
    change parseLabelLine cfg p = some x at h
    unfold parseLabelLine at h
    split at h
    · cases h
    next t q hget =>
      rcases labelSwitch_rest h hx with ⟨hsuffix, htype⟩ | ⟨hmode, rfl⟩
      · exact hkey hget htype hsuffix
      · exact ⟨suffix_refl p', hback nofun hmode (Nat.le_refl _)⟩

/-! ## Includes -/

variable {path : List UInt8} {n i : Nat}

theorem restOfLine_ne_include : restOfLine mode cfg p ≠ some (.include i path mode' p') := by
  intro h
  obtain ⟨q, -, hq⟩ := map_eq_some_iff.1 h
  cases hq

theorem parseString_ne_include : parseString mode set p ≠ some (.include i path mode' p') := by
  intro h
  unfold parseString at h
  split at h <;> cases h

theorem parseNumber_ne_include {set : Int → PxeMenu} : parseNumber mode set p ≠ some (.include i path mode' p') := by
  intro h
  unfold parseNumber at h
  split at h <;> cases h

theorem parseLabelLine_ne_include : parseLabelLine cfg p ≠ some (.include i path mode' p') := by
  intro h
  unfold parseLabelLine at h
  split at h
  · cases h
  · unfold labelSwitch at h
    split at h
    · unfold parseLabelMenu labelMenuSwitch at h
      split at h
      · cases h
      · split at h
        · exact restOfLine_ne_include h
        · split at h
          · cases h
          · exact restOfLine_ne_include h
          · exact restOfLine_ne_include h
        · exact restOfLine_ne_include h
    · exact parseString_ne_include h
    · exact parseString_ne_include h
    · unfold parseAppend at h
      split at h
      · cases h
      · simp only at h
        split at h
        · split at h <;> cases h
        · split at h
          · cases h
          · split at h <;> cases h
          · split at h <;> cases h
    · split at h
      · exact parseString_ne_include h
      · cases h
    · split at h
      · exact parseString_ne_include h
      · cases h
    · exact parseNumber_ne_include h
    · cases h
    · cases h

theorem handleInclude_include (h : handleInclude offset mode p = some (.include i path mode' p')) :
    offset = some i ∧ mode' = mode ∧ parseSliteral p = some (some path, p') := by
  unfold handleInclude at h
  split at h
  · cases h
  · split at h
    · cases h
    · cases h
    next hlit =>
      cases h
      exact ⟨rfl, rfl, hlit⟩

/-- The two forms of an include, and where they put the file. -/
theorem include_cases (h : parseLine (some n) mode cfg p = some (.include i path mode' p')) : mode = .top ∧
      ((∃ p1, Starts p .include p1 ∧ parseSliteral p1 = some (some path, p') ∧ i = alignFour n ∧ mode' = .top) ∨
        ∃ p1 p2, Starts p .menu p1 ∧ Starts p1 .include p2 ∧ parseSliteral p2 = some (some path, p') ∧ i = n + 1 ∧ mode' = .menu) := by
  cases mode with
  | label => exact absurd h parseLabelLine_ne_include
  | menu => exact absurd h restOfLine_ne_include
  | top =>
    refine ⟨rfl, ?_⟩
    change parseTopLine (some n) cfg p = _ at h
    unfold parseTopLine at h
    split at h
    · cases h
    next t p1 hget =>
      unfold topSwitch at h
      split at h
      next htype =>
        unfold parseMenu at h
        split at h
        · cases h
        next t2 p2 hget2 =>
          unfold menuSwitch at h
          split at h
          · split at h
            · cases h
            · cases h
            · exact absurd h restOfLine_ne_include
          next htype2 =>
            obtain ⟨hoffset, hmode, hlit⟩ := handleInclude_include h
            cases hoffset
            exact Or.inr ⟨p1, p2, ⟨t, hget, htype⟩, ⟨t2, hget2, htype2⟩, hlit, rfl, hmode⟩
          · exact absurd h restOfLine_ne_include
      · exact absurd h parseNumber_ne_include
      · exact absurd h parseString_ne_include
      · split at h
        · cases h
        · cases h
        · cases h
      next htype =>
        obtain ⟨hoffset, hmode, hlit⟩ := handleInclude_include h
        cases hoffset
        exact Or.inl ⟨p1, ⟨t, hget, htype⟩, hlit, rfl, hmode⟩
      · exact absurd h parseNumber_ne_include
      · cases h
      · cases h
      · exact absurd h restOfLine_ne_include

end Pxe

end UBoot
