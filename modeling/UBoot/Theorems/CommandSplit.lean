import UBoot.RunCommand

/-!
# What the splitting of a command line leaves

`parse_line` finds the words of a line in place. The search for separators looks at the character before a quote, also where there is none.
-/

namespace UBoot

open List Option CString

/-! ## What is asked -/

/-- The places where a word starts: a character that is not blank, behind a blank or at the start. -/
def wordStarts : Bool → Nat → List UInt8 → List Nat
  | _, _, [] => []
  | start, i, c :: s =>
    if isblank c then wordStarts true (i + 1) s else if start then i :: wordStarts false (i + 1) s else wordStarts false (i + 1) s

/-- The word at a place of a line. -/
def wordAt (s : List UInt8) (i : Nat) : List UInt8 := (s.drop i).takeWhile fun c => !isblank c

/-- `parse_line` on a line in a buffer, with what `argv` has before: it stays inside the line and `argv[0]` to `argv[maxargs]`, and the
first words are in place with a NUL behind each, and NULL behind their pointers. -/
structure ParsedRight (maxargs : Nat) (s : CString) (rest : List UInt8) (argv : List (Option Nat)) (p : ParsedLine) : Prop where
  nargs : p.nargs = min (wordStarts true 0 s.bytes).length maxargs
  line : p.line.length = (s.bytes ++ 0 :: rest).length ∧ p.line.drop s.bytes.length = 0 :: rest
  argv : p.argv.length = argv.length ∧ ∀ i, maxargs < i → p.argv[i]? = argv[i]?
  word : ∀ i < p.nargs, ∃ a, (wordStarts true 0 s.bytes)[i]? = some a ∧ p.argv[i]? = some (some a) ∧
    (ofBytes (p.line.drop a)).bytes = wordAt s.bytes a
  null : p.argv[p.nargs]? = some none

/-- The last word that there is room for ends the text, or there is room left. -/
def EndsText (room : Nat) (s : List UInt8) : Prop :=
  (wordStarts true 0 s).length < room ∨ ((wordStarts true 0 s).length = room ∧ ∃ c ∈ s.getLast?, isblank c = false)

/-- The quotes before a place of a token that are not escaped. -/
def quotesBefore (t : List UInt8) (i : Nat) : Nat :=
  (List.range i).countP fun j => t[j]? = some chQuote ∧ (j = 0 ∨ t[j - 1]? ≠ some chBackslash)

/-- A separator: a semicolon that does not start the token, is not escaped and not in quotes. -/
def isSeparator (t : List UInt8) (i : Nat) : Bool :=
  t[i]? = some chSemicolon ∧ i ≠ 0 ∧ t[i - 1]? ≠ some chBackslash ∧ quotesBefore t i % 2 = 0

/-- The commands of a string. -/
def commandTokens (t : List UInt8) : List (List UInt8) :=
  if t = [] then []
  else
    match (List.range t.length).find? (isSeparator t) with
    | none => [t]
    | some i => t.take i :: commandTokens (t.drop (i + 1))
  termination_by t.length
  decreasing_by
    rw [length_drop]
    have := length_pos_iff.2 (by assumption : t ≠ [])
    omega

/-- The searches of a run of `builtin_run_command` that is not stopped: the tokens, or `none` for a read outside `cmdbuf`. -/
def searchTokens : Nat → List UInt8 → Nat → Option (List (List UInt8))
  | 0, _, _ => none
  | rounds + 1, cmdbuf, str =>
    match cmdbuf[str]? with
    | none => none
    | some c =>
      if c = 0 then some []
      else
        match nextToken cmdbuf str with
        | none => none
        | some (token, cmdbuf, str) => (searchTokens rounds cmdbuf str).map (token.bytes :: ·)

/-- The commands of a string, run in order. -/
def runTokens {σ : Type} (cbsize maxargs : Nat) (w : CommandWorld σ) (b : CommandBuffers) : List (List UInt8) → Int → Bool → σ → Option (Int × σ)
  | [], rc, repeatable, s => some (if rc ≠ 0 then rc else if repeatable then 1 else 0, s)
  | t :: ts, rc, repeatable, s =>
    match runToken cbsize maxargs w b (ofBytes t) rc repeatable s with
    | none => none
    | some (.inl r) => some r
    | some (.inr (rc, repeatable, s)) => runTokens cbsize maxargs w b ts rc repeatable s

namespace CommandSplitAux

/-! ## Words -/

variable {w t b s pre : List UInt8} {c : UInt8} {argv : List (Option Nat)} {room k : Nat}

theorem wordStarts_blanks (b s : List UInt8) (hb : ∀ c ∈ b, isblank c = true) (o : Nat) :
    wordStarts true o (b ++ s) = wordStarts true (o + b.length) s := by
  induction b generalizing o with
  | nil => rfl
  | cons c b ih =>
    rw [cons_append, wordStarts, if_pos (hb c (mem_cons_self ..)), ih fun c hc => hb c (mem_cons_of_mem _ hc), length_cons]
    congr 1
    omega

theorem wordStarts_inside (w s : List UInt8) (hw : ∀ c ∈ w, isblank c = false) (o : Nat) :
    wordStarts false o (w ++ s) = wordStarts false (o + w.length) s := by
  induction w generalizing o with
  | nil => rfl
  | cons c w ih =>
    rw [cons_append, wordStarts, if_neg (by rw [hw c (mem_cons_self ..)]; decide), if_neg (by decide),
      ih fun c hc => hw c (mem_cons_of_mem _ hc), length_cons]
    congr 1
    omega

theorem wordStarts_word (hne : w ≠ []) (hw : ∀ c ∈ w, isblank c = false) (s : List UInt8) (o : Nat) :
    wordStarts true o (w ++ s) = o :: wordStarts false (o + w.length) s := by
  cases w with
  | nil => exact absurd rfl hne
  | cons c w =>
    rw [cons_append, wordStarts, if_neg (by rw [hw c (mem_cons_self ..)]; decide), if_pos rfl,
      wordStarts_inside w s (fun c hc => hw c (mem_cons_of_mem _ hc)), length_cons]
    congr 2
    omega

/-- A text that is not blank all over: blanks, a word, and nothing or a blank behind it. -/
theorem exists_word (s : List UInt8) : (∀ c ∈ s, isblank c = true) ∨ ∃ b w t, s = b ++ (w ++ t) ∧ (∀ c ∈ b, isblank c = true) ∧ w ≠ [] ∧
    (∀ c ∈ w, isblank c = false) ∧ ∀ c ∈ t.head?, isblank c = true := by
  cases hrest : s.dropWhile isblank with
  | nil => exact Or.inl (dropWhile_eq_nil_iff.1 hrest)
  | cons c u =>
    have hc : isblank c = false := by
      have h := head?_dropWhile_not isblank s
      rwa [hrest] at h
    refine Or.inr ⟨s.takeWhile isblank, (c :: u).takeWhile (!isblank ·), (c :: u).dropWhile (!isblank ·), ?_, ?_, ?_, ?_, ?_⟩
    · rw [takeWhile_append_dropWhile, ← hrest, takeWhile_append_dropWhile]
    · exact fun c hc => mem_takeWhile_imp hc
    · rw [takeWhile_cons_of_pos (by rw [hc]; rfl)]
      exact cons_ne_nil _ _
    · intro d hd
      simpa using mem_takeWhile_imp hd
    · intro d hd
      have h := head?_dropWhile_not (!isblank ·) (c :: u)
      rw [hd] at h
      simpa using h

theorem le_wordStarts (s : List UInt8) (start : Bool) (o : Nat) : ∀ a ∈ wordStarts start o s, o ≤ a := by
  induction s generalizing start o with
  | nil => exact fun a ha => nomatch ha
  | cons c s ih =>
    intro a ha
    rw [wordStarts] at ha
    split at ha
    · exact Nat.le_of_succ_le (ih true (o + 1) a ha)
    · split at ha
      · rcases mem_cons.1 ha with rfl | ha
        · exact Nat.le_refl _
        · exact Nat.le_of_succ_le (ih false (o + 1) a ha)
      · exact Nat.le_of_succ_le (ih false (o + 1) a ha)

theorem wordAt_word (hw : ∀ c ∈ w, isblank c = false) (b : List UInt8)
    (ht : ∀ c ∈ t.head?, isblank c = true) : wordAt (b ++ (w ++ t)) b.length = w := by
  rw [wordAt, drop_left, takeWhile_append_of_pos fun c hc => by rw [hw c hc]; rfl]
  cases t with
  | nil => simp
  | cons c t =>
    have hc := ht c rfl
    rw [takeWhile_cons_of_neg (by rw [hc]; decide), append_nil]

/-! ## `parse_line` -/

theorem skipWhite_eq (b u : List UInt8) (hb : ∀ c ∈ b, isblank c = true) (hc : isblank c = false) (o : Nat) :
    skipWhite (b ++ c :: u) o = some (o + b.length) := by
  induction b generalizing o with
  | nil => rw [nil_append, skipWhite, if_neg (by rw [hc]; decide)]; rfl
  | cons d b ih =>
    rw [cons_append, skipWhite, if_pos (hb d (mem_cons_self ..)), ih fun c hc => hb c (mem_cons_of_mem _ hc), length_cons]
    congr 1
    omega

theorem skipArg_eq (w u : List UInt8) (hw : ∀ c ∈ w, c ≠ 0 ∧ isblank c = false) (hc : c = 0 ∨ isblank c = true) (o : Nat) :
    skipArg (w ++ c :: u) o = some (o + w.length) := by
  induction w generalizing o with
  | nil =>
    rw [nil_append, skipArg, if_neg]
    · rfl
    · rintro ⟨h0, hb⟩
      exact hc.elim h0 hb
  | cons d w ih =>
    have hd := hw d (mem_cons_self ..)
    rw [cons_append, skipArg, if_pos ⟨hd.1, by rw [hd.2]; decide⟩, ih fun c hc => hw c (mem_cons_of_mem _ hc), length_cons]
    congr 1
    omega

theorem putArg_some {i : Nat} (h : i < argv.length) (a : Option Nat) :
    putArg argv i a = some (argv.set i a) := if_pos h

/-- What the loop leaves from a place on, with the text `s` there, after `k` arguments. -/
structure LoopRight (room k : Nat) (pre s rest : List UInt8) (before : List (Option Nat)) (p : ParsedLine) : Prop where
  nargs : p.nargs = k + min (wordStarts true pre.length s).length room
  line : ∃ s', p.line = pre ++ (s' ++ 0 :: rest) ∧ s'.length = s.length
  argv_length : p.argv.length = before.length
  argv_frame : ∀ i, i < k ∨ k + room < i → p.argv[i]? = before[i]?
  word : ∀ i < min (wordStarts true pre.length s).length room, ∃ a, (wordStarts true pre.length s)[i]? = some a ∧
    p.argv[k + i]? = some (some a) ∧ (ofBytes (p.line.drop a)).bytes = wordAt s (a - pre.length)
  null : EndsText room s → p.argv[p.nargs]? = some none
  keeps : ¬EndsText room s → p.argv[p.nargs]? = before[p.nargs]?

theorem length_wordStarts (s : List UInt8) (start : Bool) (o o' : Nat) : (wordStarts start o s).length = (wordStarts start o' s).length := by
  induction s generalizing start o o' with
  | nil => rfl
  | cons c s ih =>
    rw [wordStarts, wordStarts]
    split
    · exact ih true _ _
    · split
      · rw [length_cons, length_cons, ih false (o + 1) (o' + 1)]
      · exact ih false _ _

theorem wordStarts_blank (hb : ∀ c ∈ b, isblank c = true) (o : Nat) : wordStarts true o b = [] := by
  have h := wordStarts_blanks b [] hb o
  rwa [append_nil] at h

theorem blank_of_no_word {o : Nat} (h : (wordStarts true o s).length = 0) : ∀ c ∈ s, isblank c = true := by
  rcases exists_word s with hall | ⟨b, w, t, rfl, hb, hne, hw, -⟩
  · exact hall
  · rw [wordStarts_blanks b _ hb, wordStarts_word hne hw] at h
    cases h

theorem wordStarts_cons (hb : ∀ c ∈ b, isblank c = true) (hne : w ≠ []) (hw : ∀ c ∈ w, isblank c = false)
    (hc : isblank c = true) (o : Nat) :
    wordStarts true o (b ++ (w ++ c :: t)) = (o + b.length) :: wordStarts true (o + (b.length + w.length + 1)) t := by
  rw [wordStarts_blanks b _ hb, wordStarts_word hne hw, wordStarts, if_pos hc]
  congr 2
  omega

theorem endsText_cons (hb : ∀ c ∈ b, isblank c = true) (hne : w ≠ []) (hw : ∀ c ∈ w, isblank c = false)
    (hc : isblank c = true) (room : Nat) : EndsText (room + 1) (b ++ (w ++ c :: t)) ↔ EndsText room t := by
  have hlast : (∃ d ∈ (b ++ (w ++ c :: t)).getLast?, isblank d = false) ↔ ∃ d ∈ t.getLast?, isblank d = false := by
    rw [getLast?_append, getLast?_append]
    cases t with
    | nil => simp [hc]
    | cons d t => simp [getLast?_cons_cons]
  rw [EndsText, EndsText, hlast, wordStarts_cons hb hne hw hc, length_cons, length_wordStarts t true _ 0, Nat.add_lt_add_iff_right,
    Nat.add_right_cancel_iff]

theorem endsText_last (hb : ∀ c ∈ b, isblank c = true) (hne : w ≠ []) (hw : ∀ c ∈ w, isblank c = false) (room : Nat) :
    EndsText (room + 1) (b ++ (w ++ [])) ∧ ∀ o, wordStarts true o (b ++ (w ++ [])) = [o + b.length] := by
  have hstarts : ∀ o, wordStarts true o (b ++ (w ++ [])) = [o + b.length] := by
    intro o
    rw [wordStarts_blanks b _ hb, wordStarts_word hne hw]
    rfl
  refine ⟨?_, hstarts⟩
  rw [EndsText, hstarts, length_singleton]
  rcases Nat.eq_zero_or_pos room with rfl | hpos
  · refine Or.inr ⟨rfl, w.getLast hne, ?_, hw _ (getLast_mem hne)⟩
    rw [append_nil, getLast?_append, getLast?_eq_some_getLast hne]
    rfl
  · exact Or.inl (by omega)

variable {rest : List UInt8}

theorem ofBytes_word (pre : List UInt8) (hw : (0 : UInt8) ∉ w) (u : List UInt8) :
    (ofBytes ((pre ++ (w ++ 0 :: u)).drop pre.length)).bytes = w := by
  rw [drop_left]
  exact congrArg CString.bytes (ofBytes_terminated ⟨w, hw⟩ u)

/-- A word and the blank behind it, in front of what the loop leaves. -/
theorem LoopRight.cons {p : ParsedLine}
    (hb : ∀ c ∈ b, isblank c = true) (hne : w ≠ []) (hw : ∀ c ∈ w, c ≠ 0 ∧ isblank c = false) (hc : isblank c = true)
    (hargv : k < argv.length)
    (h : LoopRight room (k + 1) (pre ++ (b ++ (w ++ [0]))) t rest (argv.set k (some (pre.length + b.length))) p) :
    LoopRight (room + 1) k pre (b ++ (w ++ c :: t)) rest argv p := by
  have hw' : ∀ c ∈ w, isblank c = false := fun c hc => (hw c hc).2
  have hlen : (pre ++ (b ++ (w ++ [0]))).length = pre.length + (b.length + w.length + 1) := by
    simp only [length_append, length_singleton]
    omega
  have hstarts := wordStarts_cons (t := t) hb hne hw' hc pre.length
  rw [← hlen] at hstarts
  have hends := endsText_cons (t := t) hb hne hw' hc room
  have hmin : min (wordStarts true pre.length (b ++ (w ++ c :: t))).length (room + 1) =
      min (wordStarts true (pre ++ (b ++ (w ++ [0]))).length t).length room + 1 := by
    rw [hstarts, length_cons]
    omega
  obtain ⟨s', hline, hslen⟩ := h.line
  have ht : ∀ d ∈ (c :: t).head?, isblank d = true := by
    rintro d ⟨⟩
    exact hc
  have hkeep : ∀ i, i ≠ k → (argv.set k (some (pre.length + b.length)))[i]? = argv[i]? := fun i hi => getElem?_set_ne (Ne.symm hi)
  have hnargs := h.nargs
  refine ⟨by rw [hmin, hnargs]; omega, ⟨b ++ (w ++ 0 :: s'), ?_, ?_⟩, by rw [h.argv_length, length_set], ?_, ?_, ?_, ?_⟩
  · rw [hline]
    simp only [append_assoc, cons_append, nil_append]
  · simp only [length_append, length_cons, hslen]
  · intro i hi
    rw [h.argv_frame i (by omega), hkeep i (by omega)]
  · intro i hi
    rw [hmin] at hi
    rw [hstarts]
    cases i with
    | zero =>
      refine ⟨pre.length + b.length, rfl, ?_, ?_⟩
      · rw [Nat.add_zero, h.argv_frame k (Or.inl (Nat.lt_succ_self k)), getElem?_set_self hargv]
      · have htext : p.line = (pre ++ b) ++ (w ++ 0 :: (s' ++ 0 :: rest)) := by
          rw [hline]
          simp only [append_assoc, cons_append, nil_append]
        rw [htext, ← length_append, ofBytes_word _ (fun h0 => (hw 0 h0).1 rfl), length_append, Nat.add_sub_cancel_left, wordAt_word hw' b ht]
    | succ i =>
      obtain ⟨a, ha, hget, hword⟩ := h.word i (by omega)
      refine ⟨a, ha, by rw [← hget]; congr 1; omega, ?_⟩
      have hle : (pre ++ (b ++ (w ++ [0]))).length ≤ a := le_wordStarts t true _ a (mem_of_getElem? ha)
      have hsub : a - pre.length = (b ++ (w ++ [c])).length + (a - (pre ++ (b ++ (w ++ [0]))).length) := by
        simp only [length_append, length_singleton] at hle ⊢
        omega
      have htext : b ++ (w ++ c :: t) = (b ++ (w ++ [c])) ++ t := by simp only [append_assoc, cons_append, nil_append]
      rw [hword, wordAt, wordAt, hsub, htext, ← drop_drop, drop_left]
  · exact fun he => h.null (hends.1 he)
  · intro he
    rw [h.keeps (mt hends.2 he), hkeep p.nargs (by omega)]

theorem LoopRight.full (k : Nat) (pre s rest : List UInt8) (argv : List (Option Nat)) :
    LoopRight 0 k pre s rest argv ⟨k, pre ++ (s ++ 0 :: rest), argv, true⟩ where
  nargs := by simp
  line := ⟨s, rfl, rfl⟩
  argv_length := rfl
  argv_frame := fun _ _ => rfl
  word := by
    intro i hi
    rw [Nat.min_zero] at hi
    exact absurd hi (Nat.not_lt_zero _)
  null := by
    rintro (h | ⟨h, c, hc, hb⟩)
    · exact absurd h (Nat.not_lt_zero _)
    · exact absurd (blank_of_no_word h c (mem_of_getLast? hc)) (by rw [hb]; decide)
  keeps := fun _ => rfl

theorem LoopRight.blank (hall : ∀ c ∈ s, isblank c = true) (pre rest : List UInt8)
    (hk : k < argv.length) : LoopRight (room + 1) k pre s rest argv ⟨k, pre ++ (s ++ 0 :: rest), argv.set k none, false⟩ := by
  have hstarts := wordStarts_blank hall
  refine ⟨?_, ⟨s, rfl, rfl⟩, length_set, fun i hi => getElem?_set_ne (by omega), ?_, fun _ => ?_, ?_⟩
  · rw [hstarts]
    simp
  · intro i hi
    rw [hstarts, length_nil, Nat.zero_min] at hi
    exact absurd hi (Nat.not_lt_zero _)
  · exact getElem?_set_self hk
  · exact fun h => absurd (Or.inl (by rw [hstarts]; exact Nat.succ_pos room)) h

theorem LoopRight.last (hb : ∀ c ∈ b, isblank c = true) (hne : w ≠ [])
    (hw : ∀ c ∈ w, c ≠ 0 ∧ isblank c = false) (pre rest : List UInt8) (hk : k + 1 < argv.length) :
    LoopRight (room + 1) k pre (b ++ (w ++ [])) rest argv
      ⟨k + 1, pre ++ (b ++ (w ++ []) ++ 0 :: rest), (argv.set k (some (pre.length + b.length))).set (k + 1) none, false⟩ := by
  have hw' : ∀ c ∈ w, isblank c = false := fun c hc => (hw c hc).2
  obtain ⟨hends, hstarts⟩ := endsText_last hb hne hw' room
  refine ⟨?_, ⟨_, rfl, rfl⟩, by rw [length_set, length_set], ?_, ?_, fun _ => ?_, fun h => absurd hends h⟩
  · rw [hstarts]
    simp
  · intro i hi
    dsimp only
    rw [getElem?_set_ne (by omega), getElem?_set_ne (by omega)]
  · intro i hi
    rw [hstarts, length_singleton] at hi
    obtain rfl : i = 0 := by omega
    rw [hstarts]
    refine ⟨pre.length + b.length, rfl, ?_, ?_⟩
    · simp only [Nat.add_zero]
      rw [getElem?_set_ne (by omega), getElem?_set_self (by omega)]
    · have htext : pre ++ (b ++ (w ++ []) ++ 0 :: rest) = (pre ++ b) ++ (w ++ 0 :: rest) := by
        simp only [append_assoc, append_nil]
      dsimp only
      rw [htext, ← length_append, ofBytes_word _ (fun h0 => (hw 0 h0).1 rfl), length_append, Nat.add_sub_cancel_left,
        wordAt_word hw' b (by simp)]
  · exact getElem?_set_self (by rw [length_set]; exact hk)

theorem parseLineLoop_right (rest : List UInt8) (room k : Nat) (pre : List UInt8) (hs : (0 : UInt8) ∉ s) (argv : List (Option Nat))
    (hargv : k + room < argv.length) :
    ∃ p, parseLineLoop room k pre.length (pre ++ (s ++ 0 :: rest)) argv = some p ∧ LoopRight room k pre s rest argv p := by
  induction room generalizing k pre s argv with
  | zero => exact ⟨_, rfl, LoopRight.full k pre s rest argv⟩
  | succ room ih =>
    rw [parseLineLoop, drop_left]
    have hblank0 : isblank 0 = false := by decide
    rcases exists_word s with hall | ⟨b, w, t, rfl, hb, hne, hw, ht⟩
    · -- blanks up to the end of the line
      have hend : (pre ++ (s ++ 0 :: rest))[pre.length + s.length]? = some 0 := by
        rw [← append_assoc, ← length_append, getElem?_append_right (Nat.le_refl _), Nat.sub_self]
        rfl
      rw [skipWhite_eq s rest hall hblank0]
      dsimp only
      rw [if_pos hend, putArg_some (by omega), map_some]
      exact ⟨_, rfl, LoopRight.blank hall pre rest (by omega)⟩
    · obtain ⟨d, w', hdw⟩ := exists_cons_of_ne_nil hne
      have hw0 : ∀ c ∈ w, c ≠ 0 ∧ isblank c = false := fun c hc =>
        ⟨fun h0 => hs (h0 ▸ mem_append_right _ (mem_append_left _ hc)), hw c hc⟩
      have hd := hw0 d (hdw ▸ mem_cons_self ..)
      have hskip : skipWhite (b ++ (w ++ t) ++ 0 :: rest) pre.length = some (pre.length + b.length) := by
        rw [hdw, append_assoc b, append_assoc, cons_append]
        exact skipWhite_eq b _ hb hd.2 _
      have hdrop : (pre ++ (b ++ (w ++ t) ++ 0 :: rest)).drop (pre.length + b.length) = w ++ (t ++ 0 :: rest) := by
        rw [append_assoc b, append_assoc w, ← append_assoc pre, ← length_append, drop_left]
      have hget : (pre ++ (b ++ (w ++ t) ++ 0 :: rest))[pre.length + b.length]? ≠ some 0 := by
        rw [← head?_drop, hdrop, hdw]
        exact fun h => hd.1 (some.inj h)
      rw [hskip]
      dsimp only
      rw [if_neg hget, putArg_some (by omega)]
      dsimp only
      rw [hdrop]
      cases t with
      | nil =>
        -- the word ends the line
        have hstop : skipArg (w ++ ([] ++ 0 :: rest)) (pre.length + b.length) = some (pre.length + b.length + w.length) :=
          skipArg_eq w rest hw0 (Or.inl rfl) _
        have hend : (pre ++ (b ++ (w ++ []) ++ 0 :: rest))[pre.length + b.length + w.length]? = some 0 := by
          rw [← head?_drop, ← drop_drop, hdrop, drop_left]
          rfl
        rw [hstop]
        dsimp only
        rw [if_pos hend, putArg_some (by rw [length_set]; omega), map_some]
        exact ⟨_, rfl, LoopRight.last hb hne hw0 pre rest (by omega)⟩
      | cons c t =>
        have hc := ht c rfl
        have hc0 : c ≠ 0 := by
          rintro rfl
          exact Bool.false_ne_true (hblank0.symm.trans hc)
        have hstop : skipArg (w ++ (c :: t ++ 0 :: rest)) (pre.length + b.length) = some (pre.length + b.length + w.length) :=
          skipArg_eq w _ hw0 (Or.inr hc) _
        have hget' : (pre ++ (b ++ (w ++ c :: t) ++ 0 :: rest))[pre.length + b.length + w.length]? ≠ some 0 := by
          rw [← head?_drop, ← drop_drop, hdrop, drop_left]
          exact fun h => hc0 (some.inj h)
        have hput : putByte (pre ++ (b ++ (w ++ c :: t) ++ 0 :: rest)) (pre.length + b.length + w.length) 0 =
            some (pre ++ (b ++ (w ++ [0])) ++ (t ++ 0 :: rest)) := by
          have h := putByte_append (pre ++ (b ++ w)) (t ++ 0 :: rest) c 0
          simp only [length_append, append_assoc, cons_append, nil_append, Nat.add_assoc] at h ⊢
          exact h
        have hlen : pre.length + b.length + w.length + 1 = (pre ++ (b ++ (w ++ [0]))).length := by
          simp only [length_append, length_singleton]
          omega
        rw [hstop]
        dsimp only
        rw [if_neg hget', hput]
        dsimp only
        rw [hlen]
        have ht0 : (0 : UInt8) ∉ t := fun h0 =>
          hs (mem_append_right _ (mem_append_right _ (mem_cons_of_mem _ h0)))
        obtain ⟨p, hp, hright⟩ := ih (k + 1) (pre ++ (b ++ (w ++ [0]))) ht0 (argv.set k (some (pre.length + b.length)))
          (by rw [length_set]; omega)
        exact ⟨p, hp, hright.cons hb hne hw0 hc (by omega)⟩

/-! ## Separators -/

theorem quotesBefore_succ (t : List UInt8) (k : Nat) :
    quotesBefore t (k + 1) = quotesBefore t k + if t[k]? = some chQuote ∧ (k = 0 ∨ t[k - 1]? ≠ some chBackslash) then 1 else 0 := by
  rw [quotesBefore, quotesBefore, range_succ, countP_append, countP_singleton]
  simp only [decide_eq_true_eq]

/-- What stands before a token: nothing, or the NUL put over the separator. -/
def TokenAt (pre t : List UInt8) : Prop := (pre = [] ∧ t.head? ≠ some chQuote) ∨ pre.getLast? = some 0

/-- The first separator of a token, or its end. -/
def tokenEnd (t : List UInt8) : Nat := ((List.range t.length).find? (isSeparator t)).getD t.length

/-- The character before a place of a token, if the token does not start with a quote that is the first character. -/
theorem exists_prev (rest : List UInt8) (hpre : TokenAt pre t) (hlt : k < t.length) (hq : t[k] = chQuote) :
    ∃ prev, (if pre.length + k = 0 then none else (pre ++ (t ++ 0 :: rest))[pre.length + k - 1]?) = some prev ∧
      (prev ≠ chBackslash ↔ k = 0 ∨ t[k - 1]? ≠ some chBackslash) := by
  rcases Nat.eq_zero_or_pos k with rfl | hpos
  · rcases hpre with ⟨-, hhead⟩ | hlast
    · rw [head?_eq_getElem?, getElem?_eq_getElem hlt, hq] at hhead
      exact absurd rfl hhead
    · have hne : 0 < pre.length := by
        cases pre with
        | nil => cases hlast
        | cons c pre => exact Nat.succ_pos _
      refine ⟨0, ?_, iff_of_true (by decide) (Or.inl rfl)⟩
      rw [if_neg (by omega), Nat.add_zero, getElem?_append_left (by omega), ← getLast?_eq_getElem?, hlast]
  · refine ⟨t[k - 1], ?_, ?_⟩
    · have hsub : pre.length + k - 1 = pre.length + (k - 1) := by omega
      rw [if_neg (by omega), hsub, getElem?_append_right (Nat.le_add_right _ _), Nat.add_sub_cancel_left,
        getElem?_append_left (by omega), getElem?_eq_getElem (by omega)]
    · rw [getElem?_eq_getElem (by omega), ne_eq, ne_eq, some_inj]
      exact ⟨Or.inr, fun h => h.resolve_left (by omega)⟩

/-- `inquotes` behind a character. -/
theorem inquotes_step (rest : List UInt8) (hpre : TokenAt pre t) (hlt : k < t.length) : (if t[k] = chQuote then
        (if pre.length + k = 0 then none else (pre ++ (t ++ 0 :: rest))[pre.length + k - 1]?).map fun prev =>
          if prev ≠ chBackslash then !decide (quotesBefore t k % 2 = 1) else decide (quotesBefore t k % 2 = 1)
      else some (decide (quotesBefore t k % 2 = 1))) = some (decide (quotesBefore t (k + 1) % 2 = 1)) := by
  have hsome : t[k]? = some chQuote ↔ t[k] = chQuote := by rw [getElem?_eq_getElem hlt, some_inj]
  rw [quotesBefore_succ]
  by_cases hq : t[k] = chQuote
  · obtain ⟨prev, hprev, hiff⟩ := exists_prev rest hpre hlt hq
    rw [if_pos hq, hprev, map_some]
    by_cases hesc : prev ≠ chBackslash
    · rw [if_pos hesc, if_pos ⟨hsome.2 hq, hiff.1 hesc⟩, ← decide_not]
      congr 1
      rw [decide_eq_decide]
      omega
    · rw [if_neg hesc, if_neg fun h => hesc (hiff.2 h.2), Nat.add_zero]
  · rw [if_neg hq, if_neg fun h => hq (hsome.1 h.1), Nat.add_zero]

theorem findSeparator_eq (rest : List UInt8) (hpre : TokenAt pre t) (ht : (0 : UInt8) ∉ t) (rounds k : Nat) (hk : k ≤ t.length)
    (hrounds : t.length - k < rounds) (hno : ∀ j < k, isSeparator t j = false) :
    findSeparator (pre ++ (t ++ 0 :: rest)) pre.length rounds (pre.length + k) (decide (quotesBefore t k % 2 = 1)) =
      some (pre.length + tokenEnd t) := by
  induction rounds generalizing k with
  | zero => omega
  | succ rounds ih =>
    have hget : ∀ i, (pre ++ (t ++ 0 :: rest))[pre.length + i]? = (t ++ 0 :: rest)[i]? := fun i => by
      rw [getElem?_append_right (Nat.le_add_right _ _), Nat.add_sub_cancel_left]
    rw [findSeparator, hget]
    rcases Nat.eq_or_lt_of_le hk with rfl | hlt
    · have hnone : (List.range t.length).find? (isSeparator t) = none := find?_range_eq_none.2 fun j hj => by rw [hno j hj]; rfl
      rw [getElem?_append_right (Nat.le_refl _), Nat.sub_self, tokenEnd, hnone]
      rfl
    · rw [getElem?_append_left hlt, getElem?_eq_getElem hlt]
      have h0 : t[k] ≠ 0 := fun h0 => ht (h0 ▸ getElem_mem hlt)
      dsimp only
      rw [if_neg h0, inquotes_step rest hpre hlt]
      dsimp only
      have hsep : (!decide (quotesBefore t (k + 1) % 2 = 1) ∧ t[k] = chSemicolon ∧ pre.length + k ≠ pre.length ∧
          (pre ++ (t ++ 0 :: rest))[pre.length + k - 1]? ≠ some chBackslash) ↔ isSeparator t k = true := by
        have hsemi : t[k]? = some chSemicolon ↔ t[k] = chSemicolon := by rw [getElem?_eq_getElem hlt, some_inj]
        have hquote : t[k] = chSemicolon → ¬(t[k]? = some chQuote ∧ (k = 0 ∨ t[k - 1]? ≠ some chBackslash)) := by
          rintro hc ⟨hq, -⟩
          rw [hsemi.2 hc] at hq
          exact absurd hq (by decide)
        rw [isSeparator, decide_eq_true_eq, hsemi, quotesBefore_succ]
        rcases Nat.eq_zero_or_pos k with rfl | hpos
        · exact iff_of_false (fun h => h.2.2.1 rfl) (fun h => h.2.1 rfl)
        · have hsub : pre.length + k - 1 = pre.length + (k - 1) := by omega
          rw [hsub, hget, getElem?_append_left (by omega)]
          constructor
          · rintro ⟨hquotes, hc, -, hesc⟩
            rw [if_neg (hquote hc)] at hquotes
            refine ⟨hc, by omega, hesc, ?_⟩
            simp only [Bool.not_eq_true', decide_eq_false_iff_not] at hquotes
            omega
          · rintro ⟨hc, hne, hesc, hquotes⟩
            rw [if_neg (hquote hc)]
            refine ⟨?_, hc, by omega, hesc⟩
            simp only [Bool.not_eq_true', decide_eq_false_iff_not]
            omega
      by_cases hhere : isSeparator t k = true
      · rw [if_pos (hsep.2 hhere)]
        have hfind : (List.range t.length).find? (isSeparator t) = some k :=
          find?_range_eq_some.2 ⟨hhere, mem_range.2 hlt, fun j hj => by rw [hno j hj]; rfl⟩
        rw [tokenEnd, hfind]
        rfl
      · rw [if_neg (mt hsep.1 hhere)]
        refine ih (k + 1) hlt (by omega) fun j hj => ?_
        rcases Nat.lt_succ_iff_lt_or_eq.1 hj with hj | rfl
        · exact hno j hj
        · exact Bool.eq_false_iff.2 hhere

theorem tokenEnd_cases (t : List UInt8) : (tokenEnd t = t.length ∧ (List.range t.length).find? (isSeparator t) = none) ∨
      (tokenEnd t < t.length ∧ (List.range t.length).find? (isSeparator t) = some (tokenEnd t)) := by
  rw [tokenEnd]
  cases h : (List.range t.length).find? (isSeparator t) with
  | none => exact Or.inl ⟨rfl, rfl⟩
  | some i => exact Or.inr ⟨mem_range.1 (mem_of_find?_eq_some h), rfl⟩

/-- The token that a pass takes, and what is left for the next one. -/
theorem nextToken_eq (rest : List UInt8) (hpre : TokenAt pre t) (ht : (0 : UInt8) ∉ t) :
    ∃ pre', nextToken (pre ++ (t ++ 0 :: rest)) pre.length =
        some (ofBytes (t.take (tokenEnd t)), pre' ++ (t.drop (tokenEnd t + 1) ++ 0 :: rest), pre'.length) ∧
      (t.drop (tokenEnd t + 1) = [] ∨ pre'.getLast? = some 0) := by
  have hfind := findSeparator_eq rest hpre ht ((pre ++ (t ++ 0 :: rest)).length - pre.length) 0 (Nat.zero_le _)
    (by simp only [length_append, length_cons]; omega) (fun j hj => absurd hj (Nat.not_lt_zero j))
  have hzero : decide (quotesBefore t 0 % 2 = 1) = false := rfl
  rw [Nat.add_zero, hzero] at hfind
  rw [nextToken, hfind]
  dsimp only
  rcases tokenEnd_cases t with ⟨hend, -⟩ | ⟨hlt, -⟩
  · have hget : (pre ++ (t ++ 0 :: rest))[pre.length + t.length]? = some 0 := by
      rw [← append_assoc, ← length_append, getElem?_append_right (Nat.le_refl _), Nat.sub_self]
      rfl
    rw [hend, if_neg (not_not.2 hget), drop_left, take_length, drop_eq_nil_of_le (Nat.le_succ _)]
    refine ⟨pre ++ t, ?_, Or.inl rfl⟩
    rw [ofBytes_terminated ⟨t, ht⟩ rest, ← ofBytes_bytes ⟨t, ht⟩, append_assoc, length_append, nil_append]
  · obtain ⟨i, hi⟩ : ∃ i, i = tokenEnd t := ⟨_, rfl⟩
    rw [← hi] at hlt ⊢
    have hsplit : t = t.take i ++ t[i] :: t.drop (i + 1) := by rw [← drop_eq_getElem_cons hlt, take_append_drop]
    have hilen : (t.take i).length = i := length_take_of_le (Nat.le_of_lt hlt)
    have htake : (0 : UInt8) ∉ t.take i := fun h => ht (mem_of_mem_take h)
    have hget : (pre ++ (t ++ 0 :: rest))[pre.length + i]? ≠ some 0 := by
      rw [getElem?_append_right (Nat.le_add_right _ _), Nat.add_sub_cancel_left, getElem?_append_left hlt, getElem?_eq_getElem hlt]
      exact fun h => ht (some.inj h ▸ getElem_mem hlt)
    have hset : (pre ++ (t ++ 0 :: rest)).set (pre.length + i) 0 = pre ++ (t.take i ++ 0 :: (t.drop (i + 1) ++ 0 :: rest)) := by
      rw [set_append_right _ _ (Nat.le_add_right _ _), Nat.add_sub_cancel_left, set_append_left _ _ hlt]
      conv_lhs => rw [hsplit, set_append_right _ _ (Nat.le_of_eq hilen), hilen, Nat.sub_self, set_cons_zero]
      rw [append_assoc, cons_append]
    rw [if_pos hget, hset]
    refine ⟨pre ++ (t.take i ++ [0]), ?_, Or.inr ?_⟩
    · rw [drop_left, ofBytes_terminated ⟨t.take i, htake⟩, ← ofBytes_bytes ⟨t.take i, htake⟩]
      simp only [append_assoc, cons_append, nil_append, length_append, length_singleton, hilen, Nat.add_assoc]
    · rw [← append_assoc, getLast?_append, getLast?_singleton]
      rfl

theorem commandTokens_cons (hne : t ≠ []) :
    commandTokens t = t.take (tokenEnd t) :: commandTokens (t.drop (tokenEnd t + 1)) := by
  rw [commandTokens, if_neg hne]
  rcases tokenEnd_cases t with ⟨hend, hfind⟩ | ⟨-, hfind⟩
  · rw [hfind, hend, take_length, drop_eq_nil_of_le (Nat.le_succ _), commandTokens, if_pos rfl]
  · rw [hfind]

/-- A turn of the loop over the tokens ends it, or takes one and goes on behind it. -/
theorem token_turn {rounds : Nat} (hpre : t = [] ∨ TokenAt pre t) (ht : (0 : UInt8) ∉ t) (hrounds : t.length < rounds + 1) :
    t = [] ∧ (pre ++ (t ++ 0 :: rest))[pre.length]? = some 0 ∨
    ∃ c pre' t', (pre ++ (t ++ 0 :: rest))[pre.length]? = some c ∧ c ≠ 0 ∧
      nextToken (pre ++ (t ++ 0 :: rest)) pre.length = some (ofBytes (t.take (tokenEnd t)), pre' ++ (t' ++ 0 :: rest), pre'.length) ∧
      commandTokens t = t.take (tokenEnd t) :: commandTokens t' ∧ (t' = [] ∨ TokenAt pre' t') ∧ (0 : UInt8) ∉ t' ∧ t'.length < rounds := by
  have hget : (pre ++ (t ++ 0 :: rest))[pre.length]? = (t ++ 0 :: rest)[0]? := by
    rw [getElem?_append_right (Nat.le_refl _), Nat.sub_self]
  cases t with
  | nil => exact Or.inl ⟨rfl, hget⟩
  | cons c t =>
    have hc : c ≠ 0 := fun h => ht (h ▸ mem_cons_self ..)
    obtain ⟨pre', hnext, hpre'⟩ := nextToken_eq rest (hpre.resolve_left (cons_ne_nil _ _)) ht
    have hlen : ((c :: t).drop (tokenEnd (c :: t) + 1)).length < rounds := by
      rw [length_drop]
      rw [length_cons] at *
      omega
    exact Or.inr ⟨c, pre', _, hget, hc, hnext, commandTokens_cons (cons_ne_nil c t), hpre'.imp_right Or.inr,
      fun h => ht (mem_of_mem_drop h), hlen⟩

theorem searchTokens_eq (rounds : Nat) (hpre : t = [] ∨ TokenAt pre t) (ht : (0 : UInt8) ∉ t)
    (hrounds : t.length < rounds) : searchTokens rounds (pre ++ (t ++ 0 :: rest)) pre.length = some (commandTokens t) := by
  induction rounds generalizing pre t with
  | zero => exact absurd hrounds (Nat.not_lt_zero _)
  | succ rounds ih =>
    rcases token_turn hpre ht hrounds with ⟨rfl, hget⟩ | ⟨c, pre', t', hget, hc, hnext, htokens, hpre', ht', hlen⟩
    · rw [searchTokens, hget, commandTokens, if_pos rfl]
      rfl
    · have htake : (0 : UInt8) ∉ t.take (tokenEnd t) := fun h => ht (mem_of_mem_take h)
      have hbytes : (ofBytes (t.take (tokenEnd t))).bytes = t.take (tokenEnd t) := congrArg CString.bytes (ofBytes_bytes ⟨_, htake⟩)
      simp only [searchTokens, hget, if_neg hc, hnext]
      rw [ih hpre' ht' hlen, htokens, map_some, hbytes]

theorem commandLoop_eq {σ : Type} (pre : List UInt8) (cbsize maxargs : Nat) (w : CommandWorld σ) (b : CommandBuffers) (rounds : Nat)
    (hpre : t = [] ∨ TokenAt pre t) (ht : (0 : UInt8) ∉ t) (hrounds : t.length < rounds) (rc : Int) (repeatable : Bool) (s : σ) :
    commandLoop cbsize maxargs w b rounds (pre ++ (t ++ 0 :: rest)) pre.length rc repeatable s =
      runTokens cbsize maxargs w b (commandTokens t) rc repeatable s := by
  induction rounds generalizing pre t rc repeatable s with
  | zero => exact absurd hrounds (Nat.not_lt_zero _)
  | succ rounds ih =>
    rcases token_turn hpre ht hrounds with ⟨rfl, hget⟩ | ⟨c, pre', t', hget, hc, hnext, htokens, hpre', ht', hlen⟩
    · rw [commandLoop, hget, commandTokens, if_pos rfl]
      rfl
    · simp only [commandLoop, hget, if_neg hc, hnext, htokens, runTokens]
      cases runToken cbsize maxargs w b (ofBytes (t.take (tokenEnd t))) rc repeatable s with
      | none => rfl
      | some r =>
        cases r with
        | inl r => rfl
        | inr r => exact ih pre' hpre' ht' hlen r.1 r.2.1 r.2.2

/-- A quote at the start of `cmdbuf` is looked behind. -/
theorem searchTokens_quote (rounds : Nat) (t : List UInt8) : searchTokens rounds (chQuote :: t) 0 = none := by
  cases rounds with
  | zero => rfl
  | succ rounds =>
    rw [searchTokens, getElem?_cons_zero]
    dsimp only
    rw [if_neg (by decide), nextToken, length_cons, Nat.sub_zero, findSeparator, getElem?_cons_zero]
    rfl

end CommandSplitAux

open CommandSplitAux

/-- `parse_line` with what is asked of it, for a line in a buffer. -/
def ParsesRight (maxargs : Nat) (s : CString) (rest : List UInt8) (argv : List (Option Nat)) : Prop :=
  ∃ p, parseLine maxargs (s.bytes ++ 0 :: rest) argv = some p ∧ ParsedRight maxargs s rest argv p

/-- The searches of `builtin_run_command` stay inside `cmdbuf` and find the separators that are not quoted or escaped. -/
def SearchesRight (cmd : CString) (rest : List UInt8) : Prop :=
  ∃ rounds, searchTokens rounds (cmd.bytes ++ 0 :: rest) 0 = some (commandTokens cmd.bytes)

/-- A line is split right unless the last argument that there is room for has a blank behind it, and the commands of a string are found
unless it starts with a quote. -/
theorem command_split_iff (maxargs : Nat) (s : CString) (rest : List UInt8) (argv : List (Option Nat)) (hargv : maxargs < argv.length)
    (cmd : CString) (rest' : List UInt8) :
    (ParsesRight maxargs s rest argv ↔ EndsText maxargs s.bytes ∨ argv[maxargs]? = some none) ∧
      (SearchesRight cmd rest' ↔ cmd.bytes.head? ≠ some chQuote) := by
  constructor
  · obtain ⟨p, hp, h⟩ := parseLineLoop_right rest maxargs 0 [] s.nul_free argv (by rw [Nat.zero_add]; exact hargv)
    have hp : parseLine maxargs (s.bytes ++ 0 :: rest) argv = some p := hp
    have hfull : ¬EndsText maxargs s.bytes → p.nargs = maxargs := by
      intro hends
      have hnargs := h.nargs
      rw [length_nil, Nat.zero_add] at hnargs
      have hle : maxargs ≤ (wordStarts true 0 s.bytes).length := Nat.le_of_not_lt fun hlt => hends (Or.inl hlt)
      rw [hnargs, Nat.min_eq_right hle]
    constructor
    · rintro ⟨p', hp', hright⟩
      rw [hp] at hp'
      cases hp'
      by_cases hends : EndsText maxargs s.bytes
      · exact Or.inl hends
      · have hnull := hright.null
        rw [h.keeps hends, hfull hends] at hnull
        exact Or.inr hnull
    · intro hcond
      refine ⟨p, hp, by simpa using h.nargs, ?_, ⟨h.argv_length, fun i hi => h.argv_frame i (Or.inr (by omega))⟩, ?_, ?_⟩
      · obtain ⟨s', hline, hlen⟩ := h.line
        rw [nil_append] at hline
        rw [hline, length_append, length_append, hlen, ← hlen, drop_left]
        exact ⟨rfl, rfl⟩
      · intro i hi
        have hnargs := h.nargs
        obtain ⟨a, ha, hget, hword⟩ := h.word i (by omega)
        rw [Nat.zero_add] at hget
        exact ⟨a, ha, hget, hword⟩
      · by_cases hends : EndsText maxargs s.bytes
        · exact h.null hends
        · rw [h.keeps hends, hfull hends]
          exact hcond.resolve_left hends
  · constructor
    · rintro ⟨rounds, hsearch⟩ hhead
      cases hcmd : cmd.bytes with
      | nil =>
        rw [hcmd] at hhead
        cases hhead
      | cons c t =>
        rw [hcmd] at hhead hsearch
        obtain rfl : c = chQuote := some.inj hhead
        rw [cons_append, searchTokens_quote] at hsearch
        cases hsearch
    · intro hhead
      exact ⟨cmd.bytes.length + 1, searchTokens_eq (cmd.bytes.length + 1) (Or.inr (Or.inl ⟨rfl, hhead⟩)) cmd.nul_free (Nat.lt_succ_self _)⟩

/-- A line of two words, and a command with a quoted semicolon. -/
theorem command_split_two : ParsesRight 2 ⟨[0x61, 0x20, 0x62], by decide⟩ [7] [some 9, some 9, some 9] ∧
      SearchesRight ⟨[0x61, 0x27, 0x3b, 0x27, 0x3b, 0x62], by decide⟩ [7] :=
  have h := command_split_iff 2 ⟨[0x61, 0x20, 0x62], by decide⟩ [7] [some 9, some 9, some 9] (by decide)
    ⟨[0x61, 0x27, 0x3b, 0x27, 0x3b, 0x62], by decide⟩ [7]
  ⟨h.1.2 (Or.inl (Or.inr ⟨by decide, 0x62, rfl, by decide⟩)), h.2.2 (by decide)⟩

/-- Sixteen arguments and a blank leave the pointer behind them, and a command that starts with a quote is read from before `cmdbuf`. -/
theorem command_split_wrong : ¬ParsesRight 16 ⟨(List.replicate 16 [0x61, 0x20]).flatten, by decide⟩ [] (List.replicate 17 (some 7)) ∧
      ¬SearchesRight ⟨[0x27, 0x61, 0x27], by decide⟩ [] := by
  constructor
  · rintro ⟨p, hp, h⟩
    have heval : (parseLine 16 ((List.replicate 16 [0x61, 0x20]).flatten ++ [0]) (List.replicate 17 (some 7))).map
        (fun p => p.argv[p.nargs]?) = some (some (some 7)) := by decide
    have hnull := h.null
    dsimp only at hp
    rw [hp, map_some, hnull] at heval
    cases heval
  · rintro ⟨rounds, h⟩
    dsimp only at h
    rw [cons_append] at h
    cases (searchTokens_quote rounds _).symm.trans h

/-- `builtin_run_command` runs the commands of a string in order, unless it starts with a quote. -/
theorem builtin_run_command_tokens {σ : Type} (maxargs : Nat) (w : CommandWorld σ) (b : CommandBuffers) (cmdbuf : List UInt8)
    (cmd : CString) (s : σ) (hne : cmd.bytes ≠ []) (hlen : cmd.bytes.length < cmdbuf.length) (hhead : cmd.bytes.head? ≠ some chQuote) :
    builtinRunCommandIn maxargs w b cmdbuf (some cmd) s = runTokens cmdbuf.length maxargs w b (commandTokens cmd.bytes) 0 true s := by
  rw [builtinRunCommandIn]
  dsimp only
  rw [if_neg hne, if_neg (Nat.not_le.2 hlen), append_assoc]
  refine commandLoop_eq (t := cmd.bytes) [] cmdbuf.length maxargs w b _ (Or.inr (Or.inl ⟨rfl, hhead⟩)) cmd.nul_free ?_ 0 true s
  simp only [length_append]
  omega

/-- The commands `a 1;b ';'` in buffers of 32 bytes and 17 pointers, in a world that notes the arguments of each. -/
theorem builtin_run_command_two : let w : CommandWorld (List (List (List UInt8))) :=
      ⟨fun _ _ => none, fun s argv _ => (false, true, false, s ++ [argv.map CString.bytes])⟩
    builtinRunCommandIn 16 w ⟨replicate 32 7, replicate 32 7, replicate 17 none⟩ (replicate 32 7)
        (some ⟨[0x61, 0x20, 0x31, 0x3b, 0x62, 0x20, 0x27, 0x3b, 0x27], by decide⟩) [] = some (1, [[[0x61], [0x31]], [[0x62], [0x3b]]]) :=
  (builtin_run_command_tokens 16 _ _ _ ⟨[0x61, 0x20, 0x31, 0x3b, 0x62, 0x20, 0x27, 0x3b, 0x27], by decide⟩ _ (by decide) (by decide)
    (by decide)).trans (by decide +kernel)

end UBoot
