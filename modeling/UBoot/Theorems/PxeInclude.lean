import UBoot.Lemmas.PxeForm
import UBoot.Lemmas.PxeText

/-!
# The two forms of an include

Where no file is stored over the NUL of the file that includes it, the parse goes through each file once for each include. Then a file whose
`include` lines are written as `menu include` gives the same menu, unless such a line is read in a label.
-/

namespace UBoot

open List

namespace Pxe
variable {p s text : List UInt8} {stop : UInt8 → Bool}


/-- The frames of a file and of the same file with the other form. Behind a file that a `menu include` has included the rest of the line is
still to be left out. -/
structure FormFrame (f f' : TextFrame) : Prop where
  text : f'.text = restForm f.text ∨ (LineStart f.file f.text ∧ f'.text = menuForm f.text)
  mode : f'.mode = f.mode ∨ (f.mode = .top ∧ f'.mode = .menu ∧ f'.text = restForm f.text ∧ ∃ c e, f.text = c :: e ∧ isEnd c = true)
  suffix : f.text <:+ f.file
  len : ∃ n, strlen f.file = some n
  len' : ∃ n, strlen f'.file = some n

/-- The states of the parse of a file and of the same file with the other form, which include the same files. -/
structure Formed (ts ts' : TextState) : Prop where
  cfg : ts.cfg = ts'.cfg
  frames : (ts.stack = [] ∧ ts'.stack = []) ∨ ∃ up f f', ts.stack = up ++ [f] ∧ ts'.stack = up ++ [f'] ∧ FormFrame f f'

/-- An include line of the file that the parse began with is read in a label. -/
def TextInLabel (ts : TextState) : Prop :=
  ∃ f, ts.stack = [f] ∧ f.mode = .label ∧ LineStart f.file f.text ∧ includeLine f.text = true

variable {files : List UInt8 → Option (List UInt8)} {ts ts' : TextState} {f f' : TextFrame} {cfg : PxeMenu} {up : List TextFrame}

theorem FormFrame.next (h : FormFrame f f') (hp : p <:+ f.text) (mode : PxeMode) :
    FormFrame ⟨f.file, p, mode⟩ ⟨f'.file, restForm p, mode⟩ :=
  ⟨Or.inl rfl, Or.inl rfl, hp.trans h.suffix, h.len, h.len'⟩

theorem FormFrame.line (h : FormFrame f f') (hp : (chNewline :: p) <:+ f.text) (mode : PxeMode) :
    FormFrame ⟨f.file, p, mode⟩ ⟨f'.file, menuForm p, mode⟩ := by
  have hline := hp.trans h.suffix
  exact ⟨Or.inr ⟨Or.inr hline, rfl⟩, Or.inl rfl, (suffix_cons _ _).trans hline, h.len, h.len'⟩

/-- A turn of a file that another one has included is the same. -/
theorem formed_inner (g : TextFrame) (hframe : FormFrame f f') :
    Lib.Replies (textRound files) (textRound files) (Lib.Comes (textRound files)) Formed ⟨g :: up ++ [f], cfg⟩ ⟨g :: up ++ [f'], cfg⟩ := by
  have hround := textRound.eq_1 files ⟨g :: up ++ [f], cfg⟩
  have hround' := textRound.eq_1 files ⟨g :: up ++ [f'], cfg⟩
  simp only [cons_append] at hround hround'
  cases hx : g.turn cfg with
  | none =>
    rw [hx] at hround hround'
    exact Lib.Replies.wrong hround hround'
  | some turn =>
    cases turn with
    | fail err =>
      rw [hx] at hround hround'
      exact Lib.Replies.ends hround hround'
    | done =>
      rw [hx] at hround hround'
      exact Lib.Replies.goes hround (Relation.ReflTransGen.single hround') ⟨rfl, Or.inr ⟨up, f, f', rfl, rfl, hframe⟩⟩
    | next mode cfg' p =>
      rw [hx] at hround hround'
      exact Lib.Replies.goes hround (Relation.ReflTransGen.single hround') ⟨rfl, Or.inr ⟨⟨g.file, p, mode⟩ :: up, f, f', rfl, rfl, hframe⟩⟩
    | «include» offset path mode p =>
      rw [hx] at hround hround'
      simp only at hround hround'
      cases hfile : files path with
      | none =>
        rw [hfile] at hround hround'
        exact Lib.Replies.ends hround hround'
      | some content =>
        rw [hfile] at hround hround'
        simp only [length_cons, length_append, length_nil] at hround hround'
        by_cases hnest : MAX_NEST_LEVEL < up.length + (0 + 1) + 1 + 1
        · rw [if_pos hnest] at hround hround'
          exact Lib.Replies.ends hround hround'
        · rw [if_neg hnest] at hround hround'
          exact Lib.Replies.goes hround (Relation.ReflTransGen.single hround')
            ⟨rfl, Or.inr ⟨⟨terminated content, terminated content, .top⟩ :: ⟨g.file, p, mode⟩ :: up, f, f', rfl, rfl, hframe⟩⟩

/-- A file that is included begins in the same way in both forms. -/
theorem formed_include {offset offset' : Nat} {path p' : List UInt8} {mode mode' : PxeMode}
    (hx : f.turn cfg = some (.include offset path mode p)) (hx' : f'.turn cfg = some (.include offset' path mode' p'))
    (hframe : FormFrame ⟨f.file, p, mode⟩ ⟨f'.file, p', mode'⟩) :
    Lib.Replies (textRound files) (textRound files) (Lib.Comes (textRound files)) Formed ⟨[f], cfg⟩ ⟨[f'], cfg⟩ := by
  have hround := textRound.eq_1 files ⟨[f], cfg⟩
  have hround' := textRound.eq_1 files ⟨[f'], cfg⟩
  simp only [hx] at hround
  simp only [hx'] at hround'
  cases hfile : files path with
  | none =>
    rw [hfile] at hround hround'
    exact Lib.Replies.ends hround hround'
  | some content =>
    rw [hfile] at hround hround'
    simp only [length_cons, length_nil] at hround hround'
    rw [if_neg (by decide)] at hround hround'
    exact Lib.Replies.goes hround (Relation.ReflTransGen.single hround')
      ⟨rfl, Or.inr ⟨[⟨terminated content, terminated content, .top⟩], _, _, rfl, rfl, hframe⟩⟩

theorem formed_turn (hframe : FormFrame f f') (hparsed : FormParsed f.text (f.turn cfg) (f'.turn cfg)) :
    Lib.Replies (textRound files) (textRound files) (Lib.Comes (textRound files)) Formed ⟨[f], cfg⟩ ⟨[f'], cfg⟩ := by
  have hround := textRound.eq_1 files ⟨[f], cfg⟩
  have hround' := textRound.eq_1 files ⟨[f'], cfg⟩
  have hsuffix {x : Parsed} {mode : PxeMode} {p : List UInt8} (hx : f.turn cfg = some x) (hrest : x.rest = some (mode, p)) : p <:+ f.text :=
    (parseLine_rest hx hrest).1
  simp only at hround hround'
  generalize hx : f.turn cfg = x at hparsed hround
  generalize hx' : f'.turn cfg = x' at hparsed hround'
  cases hparsed with
  | wrong => exact Lib.Replies.wrong hround hround'
  | next mode cfg' p =>
    exact Lib.Replies.goes hround (Relation.ReflTransGen.single hround') ⟨rfl, Or.inr ⟨[], _, _, rfl, rfl, hframe.next (hsuffix hx rfl) mode⟩⟩
  | line mode cfg' p h =>
    exact Lib.Replies.goes hround (Relation.ReflTransGen.single hround') ⟨rfl, Or.inr ⟨[], _, _, rfl, rfl, hframe.line h mode⟩⟩
  | incl offset offset' path mode p => exact formed_include hx hx' (hframe.next (hsuffix hx rfl) mode)
  | done => exact Lib.Replies.goes hround (Relation.ReflTransGen.single hround') ⟨rfl, Or.inl ⟨rfl, rfl⟩⟩
  | fail err => exact Lib.Replies.ends hround hround'

/-- A turn of the file where it is in the same loop in both forms. -/
theorem formed_outer (hframe : FormFrame f f') (hmode : f'.mode = f.mode) (hlabel : ¬TextInLabel ⟨[f], cfg⟩) :
    Lib.Replies (textRound files) (textRound files) (Lib.Comes (textRound files)) Formed ⟨[f], cfg⟩ ⟨[f'], cfg⟩ := by
  obtain ⟨n, hn⟩ := hframe.len
  obtain ⟨n', hn'⟩ := hframe.len'
  have hturn : f.turn cfg = parseLine (some n) f.mode cfg f.text := by rw [TextFrame.turn, hn]
  have hturn' : f'.turn cfg = parseLine (some n') f.mode cfg f'.text := by rw [TextFrame.turn, hn', hmode]
  have hsame (htext : f'.text = restForm f.text) :
      Lib.Replies (textRound files) (textRound files) (Lib.Comes (textRound files)) Formed ⟨[f], cfg⟩ ⟨[f'], cfg⟩ := by
    refine formed_turn hframe ?_
    rw [hturn, hturn', htext]
    exact form_parseLine n n' f.mode
  rcases hframe.text with htext | ⟨hstart, htext⟩
  · exact hsame htext
  · by_cases hincl : includeLine f.text = true
    · rw [menuForm, if_pos hincl] at htext
      cases hloop : f.mode with
      | label => exact absurd ⟨f, rfl, hloop, hstart, hincl⟩ hlabel
      | menu =>
        refine formed_turn hframe ?_
        rw [hturn, hturn', htext, hloop]
        have hmenu := eolOrEof_menuForm f.text
        rw [menuForm, if_pos hincl] at hmenu
        exact form_restOfLine hmenu
      | top =>
        rw [hloop] at hturn hturn'
        rw [htext] at hturn'
        rcases form_include cfg hincl n n' with ⟨hx, hx'⟩ | ⟨err, hx, hx'⟩ | ⟨offset, offset', path, p, hx, hx', hends⟩
        · refine formed_turn hframe ?_
          rw [hturn.trans hx, hturn'.trans hx']
          exact .wrong
        · refine formed_turn hframe ?_
          rw [hturn.trans hx, hturn'.trans hx']
          exact .fail err
        · have hp := (parseLine_rest (hturn.trans hx) rfl).1
          exact formed_include (hturn.trans hx) (hturn'.trans hx')
            ⟨Or.inl rfl, Or.inr ⟨rfl, rfl, rfl, hends⟩, hp.trans hframe.suffix, ⟨n, hn⟩, ⟨n', hn'⟩⟩
    · rw [menuForm, if_neg hincl] at htext
      exact hsame htext

/-- Every turn has its reply in the other form; behind an include it leaves out the rest of the line first. -/
theorem formed_reply (files : List UInt8 → Option (List UInt8)) (h : Formed ts ts') (hlabel : ¬TextInLabel ts) :
    ∃ ts1, Lib.Comes (textRound files) ts' ts1 ∧
      Lib.Replies (textRound files) (textRound files) (Lib.Comes (textRound files)) Formed ts ts1 := by
  obtain ⟨stack, cfg⟩ := ts
  obtain ⟨stack', cfg'⟩ := ts'
  obtain ⟨hcfg, hframes⟩ := h
  simp only at hcfg hframes
  subst hcfg
  rcases hframes with ⟨rfl, rfl⟩ | ⟨up, f, f', rfl, rfl, hframe⟩
  · exact ⟨_, Relation.ReflTransGen.refl, Lib.Replies.ends rfl rfl⟩
  · cases up with
    | cons g up => exact ⟨_, Relation.ReflTransGen.refl, formed_inner g hframe⟩
    | nil =>
      rw [nil_append] at hlabel ⊢
      rw [nil_append]
      rcases hframe.mode with hmode | ⟨hmode, hmode', htext, c, e, hce, hc⟩
      · exact ⟨_, Relation.ReflTransGen.refl, formed_outer hframe hmode hlabel⟩
      · have hskip : Lib.Goes (textRound files) ⟨[f'], cfg⟩ ⟨[⟨f'.file, f'.text, .top⟩], cfg⟩ := by
          have hturn : f'.turn cfg = some (.next .top cfg f'.text) := by
            rw [TextFrame.turn, hmode']
            change restOfLine .top cfg f'.text = _
            rw [htext, restOfLine, eolOrEof_restForm, hce, eolOrEof_of_end hc]
            rfl
          unfold Lib.Goes textRound
          simp only [hturn]
        have hframe' : FormFrame f ⟨f'.file, f'.text, .top⟩ := ⟨Or.inl htext, Or.inl hmode.symm, hframe.suffix, hframe.len, hframe.len'⟩
        exact ⟨_, Relation.ReflTransGen.single hskip, formed_outer hframe' hmode.symm hlabel⟩

/-! ## The beginning -/

theorem dropWhile_append_nul (hstop : stop 0 = false) (s : List UInt8) :
    (s ++ [0]).dropWhile stop = s.dropWhile stop ++ [0] := by
  induction s with
  | nil => rw [nil_append, dropWhile_cons_of_neg (by simp [hstop])]; rfl
  | cons c s ih =>
    by_cases hc : stop c = true
    · rw [cons_append, dropWhile_cons_of_pos hc, dropWhile_cons_of_pos hc, ih]
    · rw [cons_append, dropWhile_cons_of_neg hc, dropWhile_cons_of_neg hc, cons_append]

theorem takeWhile_append_nul (hstop : stop 0 = false) (s : List UInt8) : (s ++ [0]).takeWhile stop = s.takeWhile stop := by
  induction s with
  | nil => rw [nil_append, takeWhile_cons_of_neg (by simp [hstop])]; rfl
  | cons c s ih =>
    by_cases hc : stop c = true
    · rw [cons_append, takeWhile_cons_of_pos hc, takeWhile_cons_of_pos hc, ih]
    · rw [cons_append, takeWhile_cons_of_neg hc, takeWhile_cons_of_neg hc]

theorem includeLine_append_nul (s : List UInt8) : includeLine (s ++ [0]) = includeLine s := by
  unfold includeLine
  rw [dropWhile_append_nul (by decide), takeWhile_append_nul (by decide)]

theorem restForm_append_nul (s : List UInt8) : restForm (s ++ [0]) = restForm s ++ [0] := by
  induction s with
  | nil => rfl
  | cons c s ih =>
    rw [cons_append, restForm, restForm, includeLine_append_nul, ih]
    split
    · rw [cons_append, append_assoc]
    · rfl

theorem menuForm_append_nul (s : List UInt8) : menuForm (s ++ [0]) = menuForm s ++ [0] := by
  unfold menuForm
  rw [includeLine_append_nul, restForm_append_nul]
  split
  · rw [append_assoc]
  · rfl

theorem nul_not_mem_restForm (h : 0 ∉ s) : 0 ∉ restForm s := by
  induction s with
  | nil => exact h
  | cons c s ih =>
    obtain ⟨hc, hs⟩ := not_or.1 (mem_cons.not.1 h)
    rw [restForm, mem_cons, not_or]
    refine ⟨hc, ?_⟩
    split
    · rw [mem_append, not_or]
      exact ⟨by decide, ih hs⟩
    · exact ih hs

theorem nul_not_mem_menuForm (h : 0 ∉ s) : 0 ∉ menuForm s := by
  unfold menuForm
  split
  · rw [mem_append, not_or]
    exact ⟨by decide, nul_not_mem_restForm h⟩
  · exact nul_not_mem_restForm h

theorem formed_open (h : 0 ∉ text) : Formed (openText [] {} text) (openText [] {} (menuForm text)) := by
  refine ⟨rfl, Or.inr ⟨[], _, _, rfl, rfl, ?_⟩⟩
  refine ⟨Or.inr ⟨Or.inl rfl, ?_⟩, Or.inl rfl, suffix_refl _, ?_, ?_⟩
  · change terminated (menuForm text) = menuForm (terminated text)
    rw [terminated_eq h, terminated_eq (nul_not_mem_menuForm h), menuForm_append_nul]
  · exact ⟨_, by rw [terminated_eq h, strlen_terminated h]⟩
  · exact ⟨_, by rw [terminated_eq (nul_not_mem_menuForm h), strlen_terminated (nul_not_mem_menuForm h)]⟩

/-- An include line of the file that the parse began with is read in a label. -/
def InLabel (st : PxeState) : Prop :=
  ∃ f, st.stack = [f] ∧ f.mode = .label ∧ LineStart (view st.mem f.b f.nul) (view st.mem f.p f.nul) ∧ includeLine (view st.mem f.p f.nul) = true

theorem textInLabel_of_refines {st : PxeState} (h : Refines st ts) (hlabel : TextInLabel ts) : InLabel st := by
  obtain ⟨tf, htstack, hmode, hstart, hincl⟩ := hlabel
  have hframes := h.frames
  rw [htstack] at hframes
  obtain ⟨f, rest, hframe, hrest, hstack⟩ := List.forall₂_cons_right_iff.1 hframes
  cases hrest
  refine ⟨f, hstack, hframe.mode.trans hmode, ?_, ?_⟩
  · rwa [hframe.file, hframe.text]
  · rwa [hframe.text]

/-- The parse of a file in memory has the outcome of the text in the other form. -/
theorem outcome_menuForm (mem : Nat → UInt8) (b : Nat) (htext : 0 ∉ text) (hkept : KeepsFiles files (start mem b text))
    (hlabel : ∀ st, Lib.Comes (round files) (start mem b text) st → ¬InLabel st) (o : Option (Except PxeErr PxeMenu)) :
    Lib.Outcome (round files) (start mem b text) o ↔ Lib.Outcome (textRound files) (openText [] {} (menuForm text)) o := by
  refine Lib.outcome_iff_of_simulation
    (R := fun st ts' => Lib.Comes (round files) (start mem b text) st ∧ ∃ ts, Refines st ts ∧ Formed ts ts') ?_
    ⟨Relation.ReflTransGen.refl, _, refines_start mem b text, formed_open htext⟩ (halts _) o
  rintro st ts' ⟨hcomes, ts, hrefines, hformed⟩
  obtain ⟨ts1, hcomes1, hreply⟩ := formed_reply files hformed fun h => hlabel st hcomes (textInLabel_of_refines hrefines h)
  refine ⟨ts1, hcomes1, (refines_reply hrefines (hkept st hcomes)).imp ?_ ?_ ?_⟩
  · intro hwrong
    unfold Lib.Replies at hreply
    rwa [hwrong] at hreply
  · intro r hends
    unfold Lib.Replies at hreply
    rwa [hends] at hreply
  · intro st2 ts2 hgoes htgoes hrefines2
    obtain ⟨ts2', hcomes2, hformed2⟩ := hreply.of_goes htgoes
    exact ⟨ts2', hcomes2, hcomes.tail hgoes, ts2, hrefines2, hformed2⟩

/-- The two forms mean the same: no file is stored over another one, up to its NUL, each file is gone through once for each include, as the
texts are, and both forms come to the same. -/
structure FormsAgree (files : List UInt8 → Option (List UInt8)) (mem mem' : Nat → UInt8) (b b' : Nat) (text : List UInt8) : Prop where
  kept : KeepsFiles files (start mem b text)
  kept' : KeepsFiles files (start mem' b' (menuForm text))
  once : ∀ o, Lib.Outcome (round files) (start mem b text) o ↔ Lib.Outcome (textRound files) (openText [] {} text) o
  once' : ∀ o, Lib.Outcome (round files) (start mem' b' (menuForm text)) o ↔ Lib.Outcome (textRound files) (openText [] {} (menuForm text)) o
  same : ∀ o, Lib.Outcome (round files) (start mem b text) o ↔ Lib.Outcome (round files) (start mem' b' (menuForm text)) o

end Pxe

open Pxe in
/-- Where no include line of the file is read in a label, the two forms mean the same just if no `include` of a text comes in a file whose
length is a multiple of 4. -/
theorem pxe_include_forms (files : List UInt8 → Option (List UInt8)) (mem mem' : Nat → UInt8) (b b' : Nat) (text : List UInt8)
    (htext : 0 ∉ text) (hlabel : ∀ st, Lib.Comes (round files) (start mem b text) st → ¬InLabel st) :
    FormsAgree files mem mem' b b' text ↔ (∀ st, Lib.Comes (round files) (start mem b text) st → ¬Overwrites files st) ∧
        ∀ st, Lib.Comes (round files) (start mem' b' (menuForm text)) st → ¬Overwrites files st := by
  rw [← keepsFiles_iff, ← keepsFiles_iff]
  constructor
  · intro h
    exact ⟨h.kept, h.kept'⟩
  · rintro ⟨hkept, hkept'⟩
    have honce' := outcome_text_iff mem' b' (menuForm text) hkept'
    exact ⟨hkept, hkept', outcome_text_iff mem b text hkept, honce', fun o =>
      (outcome_menuForm mem b htext hkept hlabel o).trans (honce' o).symm⟩

/-- The file `f` is `timeout 5`, and each other one is `include f`. -/
def includedFiles (path : List UInt8) : Option (List UInt8) :=
  if path = "f".toList.map asc then some ("timeout 5\n".toList.map asc) else some ("include f\n".toList.map asc)

/-- Two includes, of which the second one is nested, and a line behind them. -/
def twoIncludes : List UInt8 := "include f\ninclude g\nprompt 1\n".toList.map asc

/-- No file is in a label or has a length that is a multiple of 4. -/
def unevenFiles (st : Pxe.PxeState) : Bool := st.stack.all fun f => f.mode ≠ .label ∧ ¬4 ∣ f.nul - f.b

open Pxe in
theorem not_overwrites_of_uneven {st : PxeState} (h : unevenFiles st = true) : ¬Overwrites files st := by
  rintro ⟨f, rest, p1, path, p2, content, hstack, -, -, -, -, -, hfour, -⟩
  rw [unevenFiles, hstack, List.all_cons, Bool.and_eq_true] at h
  exact (of_decide_eq_true h.1).2 hfour

open Pxe in
/-- The two forms of these includes mean the same. -/
theorem pxe_include_forms_timeout : FormsAgree includedFiles (fun _ => 0) (fun _ => 0) 0 0 twoIncludes := by
  have htest : Lib.allStates (round includedFiles) unevenFiles 20 (start (fun _ => 0) 0 twoIncludes) = true := by decide
  have htest' : Lib.allStates (round includedFiles) unevenFiles 20 (start (fun _ => 0) 0 (menuForm twoIncludes)) = true := by
    decide
  refine (pxe_include_forms _ (fun _ => 0) (fun _ => 0) 0 0 _ (by decide) ?_).2
    ⟨fun st hcomes => not_overwrites_of_uneven (Lib.of_allStates htest hcomes),
      fun st hcomes => not_overwrites_of_uneven (Lib.of_allStates htest' hcomes)⟩
  rintro st hcomes ⟨f, hstack, hmode, -⟩
  have hall := Lib.of_allStates htest hcomes
  rw [unevenFiles, hstack, List.all_cons, Bool.and_eq_true] at hall
  exact (of_decide_eq_true hall.1).1 hmode

open Pxe in
/-- `include f` in a file of 12 characters, where `f` is `label a`. -/
theorem pxe_include_overwrites :
    ¬FormsAgree (fun _ => some ("label a\n".toList.map asc)) (fun _ => 0) (fun _ => 0) 0 0 ("include f\n#\n".toList.map asc) := by
  intro h
  refine (keepsFiles_iff _ _ _).1 h.kept _ Relation.ReflTransGen.refl ?_
  refine ⟨_, [], " f\n#\n".toList.map asc ++ [0], "f".toList.map asc, "\n#\n".toList.map asc ++ [0], "label a\n".toList.map asc, rfl, rfl,
    ⟨⟨includeText, .include⟩, ?_, rfl⟩, by decide, rfl, by decide, by decide, by decide⟩
  decide

end UBoot
