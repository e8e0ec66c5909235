import UBoot.RunCommand

/-!
# A list of commands is run up to the first that fails

For a last line without a newline the list returns 1 if the line does not fail, and 0 if it does.
-/

namespace UBoot

open List CString

/-! ## What is to be run -/

def textLines (text : CString) : List (List UInt8) := text.bytes.splitOn chNewline

/-- The non-empty ones of some lines, as commands. -/
def commandsOf (lines : List (List UInt8)) : List CString := (lines.filter (· ≠ [])).map ofBytes

/-- Run commands in order up to and including the first that returns a negative value: whether none does, and the commands run. -/
def runInOrder (run : BuiltinRunCommand) : List CString → List CString → Bool × List CString
  | [], done => (true, done)
  | c :: cs, done => if run done c < 0 then (false, done ++ [c]) else runInOrder run cs (done ++ [c])

/-- What `run_command_list` promises: the non-empty lines are run in order up to the first that fails, and 0 is returned exactly
when none fails. -/
structure RunsAsPromised (run : BuiltinRunCommand) (text : CString) (r : Int × List CString) : Prop where
  done : r.2 = (runInOrder run (commandsOf (textLines text)) []).2
  code : r.1 = 0 ↔ (runInOrder run (commandsOf (textLines text)) []).1 = true

namespace CommandListAux
variable {line last : List UInt8}


theorem runInOrder_append (run : BuiltinRunCommand) (cs ds done : List CString) : runInOrder run (cs ++ ds) done =
    if (runInOrder run cs done).1 then runInOrder run ds (runInOrder run cs done).2 else runInOrder run cs done := by
  induction cs generalizing done with
  | nil => simp [runInOrder]
  | cons c cs ih =>
    simp only [cons_append, runInOrder]
    split
    · simp
    · exact ih _

theorem prefix_runInOrder (run : BuiltinRunCommand) (cs done : List CString) : done <+: (runInOrder run cs done).2 := by
  induction cs generalizing done with
  | nil => exact prefix_rfl
  | cons c cs ih =>
    rw [runInOrder]
    split
    · exact prefix_append _ _
    · exact (prefix_append _ _).trans (ih _)

/-! ## The loop -/

theorem ofBytes_drop (pre : List UInt8) (h0 : (0 : UInt8) ∉ line) (post : List UInt8) :
    ofBytes ((pre ++ line ++ 0 :: post).drop pre.length) = ofBytes line := by
  rw [append_assoc, drop_left, ofBytes_terminated ⟨line, h0⟩ post, ofBytes_bytes ⟨line, h0⟩]

theorem getElem?_line (pre : List UInt8) (h0 : (0 : UInt8) ∉ line) (post : List UInt8) :
    (pre ++ line ++ 0 :: post)[pre.length]? = some 0 ↔ line = [] := by
  rw [append_assoc, getElem?_append_right (Nat.le_refl _), Nat.sub_self]
  cases line with
  | nil => simp
  | cons c line =>
    have hc : c ≠ 0 := fun h => h0 (h ▸ mem_cons_self)
    simp [hc]

/-- The loop inside a line passes over its bytes. -/
theorem listLoop_line (run : BuiltinRunCommand) (fuel : Nat) (pre line : List UInt8) {rest : List UInt8} (h0 : (0 : UInt8) ∉ rest)
    (hn : chNewline ∉ rest) (post : List UInt8) (done : List CString) :
    listLoop run (fuel + rest.length) (pre ++ line ++ rest ++ post) pre.length (pre.length + line.length) done =
      listLoop run fuel (pre ++ (line ++ rest) ++ post) pre.length (pre.length + (line ++ rest).length) done := by
  induction rest generalizing line with
  | nil => simp
  | cons c rest ih =>
    have hc0 : c ≠ 0 := fun h => h0 (h ▸ mem_cons_self)
    have hcn : c ≠ chNewline := fun h => hn (h ▸ mem_cons_self)
    have hget : (pre ++ line ++ c :: rest ++ post)[pre.length + line.length]? = some c := by
      rw [append_assoc, ← length_append, getElem?_append_right (Nat.le_refl _), Nat.sub_self]
      rfl
    rw [length_cons, ← Nat.add_assoc, listLoop, hget]
    simp only [if_neg hc0, if_neg hcn]
    have ih' := ih (line ++ [c]) (fun h => h0 (mem_cons_of_mem _ h)) (fun h => hn (mem_cons_of_mem _ h))
    simpa [Nat.add_assoc] using ih'

/-- The loop over a line that a newline ends: it is run if it is not empty, and the loop goes on behind it unless it fails. -/
theorem listLoop_newline (run : BuiltinRunCommand) {l : List UInt8} (h0 : (0 : UInt8) ∉ l) (hn : chNewline ∉ l) (pre rest : List UInt8)
    (fuel : Nat) (done : List CString) :
    listLoop run (fuel + 1 + l.length) (pre ++ (l ++ chNewline :: rest) ++ [0]) pre.length pre.length done =
      if l = [] then
        listLoop run fuel ((pre ++ l ++ [0]) ++ rest ++ [0]) (pre ++ l ++ [0]).length (pre ++ l ++ [0]).length done
      else if run done (ofBytes l) < 0 then some (1, (pre ++ l ++ [0]) ++ rest ++ [0], pre.length, done ++ [ofBytes l])
      else listLoop run fuel ((pre ++ l ++ [0]) ++ rest ++ [0]) (pre ++ l ++ [0]).length (pre ++ l ++ [0]).length (done ++ [ofBytes l]) := by
  have hloop := listLoop_line run (fuel + 1) pre [] h0 hn (chNewline :: rest ++ [0]) done
  simp only [append_nil, length_nil, Nat.add_zero, nil_append] at hloop
  have hbuf : pre ++ (l ++ chNewline :: rest) ++ [0] = pre ++ l ++ (chNewline :: rest ++ [0]) := by simp
  have hget : (pre ++ l ++ (chNewline :: rest ++ [0]))[pre.length + l.length]? = some chNewline := by
    rw [← length_append, getElem?_append_right (Nat.le_refl _), Nat.sub_self]
    rfl
  have hset : (pre ++ l ++ (chNewline :: rest ++ [0])).set (pre.length + l.length) 0 = pre ++ l ++ 0 :: (rest ++ [0]) := by
    rw [← length_append, set_append_right _ _ (Nat.le_refl _), Nat.sub_self]
    rfl
  have hnext : pre.length + l.length + 1 = (pre ++ l ++ [0]).length := by simp [Nat.add_assoc]
  have hcut : pre ++ l ++ 0 :: (rest ++ [0]) = (pre ++ l ++ [0]) ++ rest ++ [0] := by simp
  have hnl : chNewline ≠ 0 := by decide
  rw [hbuf, hloop, listLoop, hget]
  simp only [if_neg hnl, if_true, hset, ofBytes_drop pre h0, ne_eq, getElem?_line pre h0]
  rw [hnext, hcut]
  by_cases hempty : l = []
  · rw [if_neg (not_not_intro hempty), if_pos hempty]
  · rw [if_pos hempty, if_neg hempty]

theorem listLoop_lines (run : BuiltinRunCommand) (h0 : (0 : UInt8) ∉ last) (hn : chNewline ∉ last) (lines : List (List UInt8))
    (hlines : ∀ l ∈ lines, (0 : UInt8) ∉ l ∧ chNewline ∉ l) (pre : List UInt8) (fuel : Nat) (done : List CString)
    (hfuel : (lines.flatMap (· ++ [chNewline]) ++ last).length < fuel) :
    (∃ cmd line, listLoop run fuel (pre ++ (lines.flatMap (· ++ [chNewline]) ++ last) ++ [0]) pre.length pre.length done =
        some (1, cmd, line, (runInOrder run (commandsOf lines) done).2) ∧ line < cmd.length ∧
        (runInOrder run (commandsOf lines) done).1 = false) ∨
      ∃ pre', listLoop run fuel (pre ++ (lines.flatMap (· ++ [chNewline]) ++ last) ++ [0]) pre.length pre.length done =
        some (0, pre' ++ last ++ [0], pre'.length, (runInOrder run (commandsOf lines) done).2) ∧
        (runInOrder run (commandsOf lines) done).1 = true := by
  induction lines generalizing pre fuel done with
  | nil =>
    refine Or.inr ⟨pre, ?_, rfl⟩
    obtain ⟨f, rfl⟩ : ∃ f, fuel = f + 1 + last.length := ⟨fuel - 1 - last.length, by simp at hfuel; omega⟩
    have hloop := listLoop_line run (f + 1) pre [] h0 hn [0] done
    simp only [append_nil, length_nil, Nat.add_zero, nil_append] at hloop
    have hget : (pre ++ last ++ [0])[pre.length + last.length]? = some (0 : UInt8) := by
      rw [← length_append, getElem?_append_right (Nat.le_refl _), Nat.sub_self]
      rfl
    rw [flatMap_nil, nil_append, hloop, listLoop, hget]
    rfl
  | cons l lines ih =>
    obtain ⟨hl0, hln⟩ := hlines l mem_cons_self
    have ih := ih fun l hl => hlines l (mem_cons_of_mem _ hl)
    generalize hrest : lines.flatMap (· ++ [chNewline]) ++ last = rest at ih
    have hall : (l :: lines).flatMap (· ++ [chNewline]) ++ last = l ++ chNewline :: rest := by
      rw [← hrest]
      simp
    rw [hall] at hfuel ⊢
    rw [length_append, length_cons] at hfuel
    obtain ⟨f, rfl⟩ : ∃ f, fuel = f + 1 + l.length := ⟨fuel - 1 - l.length, by omega⟩
    have hf : rest.length < f := by omega
    rw [listLoop_newline run hl0 hln]
    by_cases hempty : l = []
    · have hcs : commandsOf (l :: lines) = commandsOf lines := by simp [commandsOf, hempty]
      rw [if_pos hempty, hcs]
      exact ih _ f done hf
    · have hcs : commandsOf (l :: lines) = ofBytes l :: commandsOf lines := by simp [commandsOf, hempty]
      rw [if_neg hempty, hcs, runInOrder]
      by_cases hrun : run done (ofBytes l) < 0
      · have hlt : pre.length < ((pre ++ l ++ [0]) ++ rest ++ [0]).length := by
          simp only [length_append, length_singleton]
          omega
        rw [if_pos hrun, if_pos hrun]
        exact Or.inl ⟨_, _, rfl, hlt, rfl⟩
      · rw [if_neg hrun, if_neg hrun]
        exact ih _ f _ hf

/-- A text is lines that a newline ends, and a last line without one. -/
theorem exists_lines (bytes : List UInt8) : ∃ (lines : List (List UInt8)) (last : List UInt8), bytes = lines.flatMap (· ++ [chNewline]) ++ last ∧
    (∀ l ∈ lines, chNewline ∉ l) ∧ chNewline ∉ last := by
  induction bytes with
  | nil => exact ⟨[], [], rfl, by simp, by simp⟩
  | cons c bytes ih =>
    obtain ⟨lines, last, hb, hl, hn⟩ := ih
    by_cases hc : c = chNewline
    · refine ⟨[] :: lines, last, by simp [hb, hc], ?_, hn⟩
      intro l hmem
      rcases mem_cons.1 hmem with rfl | hmem
      · simp
      · exact hl l hmem
    · cases lines with
      | nil => exact ⟨[], c :: last, by simp [hb], by simp, by simp [hn, Ne.symm hc]⟩
      | cons l lines =>
        refine ⟨(c :: l) :: lines, last, by simp [hb], ?_, hn⟩
        intro l' hmem
        rcases mem_cons.1 hmem with rfl | hmem
        · simp [hl l mem_cons_self, Ne.symm hc]
        · exact hl l' (mem_cons_of_mem _ hmem)

theorem splitOn_lines (hn : chNewline ∉ last) (lines : List (List UInt8)) (hl : ∀ l ∈ lines, chNewline ∉ l) :
    (lines.flatMap (· ++ [chNewline]) ++ last).splitOn chNewline = lines ++ [last] := by
  induction lines with
  | nil => exact splitOn_eq_singleton hn
  | cons l lines ih =>
    have hcons : (l :: lines).flatMap (· ++ [chNewline]) ++ last = l ++ chNewline :: (lines.flatMap (· ++ [chNewline]) ++ last) := by simp
    rw [hcons, splitOn_append_cons_self_of_not_mem (hl l mem_cons_self), ih fun l hl' => hl l (mem_cons_of_mem _ hl')]
    rfl

theorem builtinRunCommandList_text (run : BuiltinRunCommand) (text : CString) : ∃ lines last, textLines text = lines ++ [last] ∧
    builtinRunCommandList run (text.bytes ++ [0]) = some (if (runInOrder run (commandsOf lines) []).1 then
        if last = [] then (0, (runInOrder run (commandsOf lines) []).2)
        else (if run (runInOrder run (commandsOf lines) []).2 (ofBytes last) ≥ 0 then 1 else 0,
          (runInOrder run (commandsOf lines) []).2 ++ [ofBytes last])
      else (1, (runInOrder run (commandsOf lines) []).2)) := by
  obtain ⟨lines, last, hb, hl, hn⟩ := exists_lines text.bytes
  have hnul := text.nul_free
  rw [hb] at hnul
  have h0 : (0 : UInt8) ∉ last := fun h => hnul (mem_append_right _ h)
  have hl0 : ∀ l ∈ lines, (0 : UInt8) ∉ l ∧ chNewline ∉ l := fun l hmem =>
    ⟨fun h => hnul (mem_append_left _ (mem_flatMap.2 ⟨l, hmem, mem_append_left _ h⟩)), hl l hmem⟩
  refine ⟨lines, last, by rw [textLines, hb]; exact splitOn_lines hn lines hl, ?_⟩
  rw [hb, builtinRunCommandList]
  rcases listLoop_lines run h0 hn lines hl0 [] _ [] (Nat.lt_succ_self _) with ⟨cmd, line, hloop, hline, hok⟩ | ⟨pre, hloop, hok⟩
  · rw [nil_append, length_nil] at hloop
    rw [length_append, length_singleton, hloop]
    simp [getElem?_eq_getElem hline, hok]
  · rw [nil_append, length_nil] at hloop
    rw [length_append, length_singleton, hloop]
    have hfirst := getElem?_line pre h0 []
    have hdrop := ofBytes_drop pre h0 []
    simp only [hok, if_true]
    by_cases hempty : last = []
    · rw [hfirst.2 hempty, if_pos hempty]
      simp
    · obtain ⟨c, hc⟩ : ∃ c, (pre ++ last ++ [0])[pre.length]? = some c := by
        have hlt : pre.length < (pre ++ last ++ [0]).length := by
          simp only [length_append, length_singleton]
          omega
        exact ⟨_, getElem?_eq_getElem hlt⟩
      have hc0 : c ≠ 0 := by
        rintro rfl
        exact hempty (hfirst.1 hc)
      rw [hc, if_neg hempty]
      simp only [hc0, ne_eq, not_false_eq_true, and_self, if_true, hdrop]

theorem runInOrder_concat (run : BuiltinRunCommand) (lines : List (List UInt8)) (last : List UInt8) :
    runInOrder run (commandsOf (lines ++ [last])) [] =
      if (runInOrder run (commandsOf lines) []).1 then
        runInOrder run (if last = [] then [] else [ofBytes last]) (runInOrder run (commandsOf lines) []).2
      else runInOrder run (commandsOf lines) [] := by
  have hcmds : commandsOf (lines ++ [last]) = commandsOf lines ++ if last = [] then [] else [ofBytes last] := by
    unfold commandsOf
    rw [filter_append, map_append]
    by_cases hlast : last = [] <;> simp [hlast]
  rw [hcmds, runInOrder_append]

theorem not_runsAsPromised_refused (run : BuiltinRunCommand) (text : CString) : ¬RunsAsPromised run text (1, []) := by
  rintro ⟨hdone, hcode⟩
  have hnil : commandsOf (textLines text) = [] := by
    cases hc : commandsOf (textLines text) with
    | nil => rfl
    | cons c cs =>
      rw [hc, runInOrder] at hdone
      split at hdone
      · simp at hdone
      · have hpre := prefix_runInOrder run cs ([] ++ [c])
        rw [← hdone] at hpre
        simp at hpre
  rw [hnil] at hcode
  simp [runInOrder] at hcode

theorem not_runsAsPromised_last {run : BuiltinRunCommand} {text : CString} {lines : List (List UInt8)}
    (hlines : textLines text = lines ++ [last]) (hok : (runInOrder run (commandsOf lines) []).1 = true) (hlast : last ≠ [])
    (ran : List CString) :
    ¬RunsAsPromised run text (if run (runInOrder run (commandsOf lines) []).2 (ofBytes last) ≥ 0 then 1 else 0, ran) := by
  rintro ⟨-, hcode⟩
  rw [hlines, runInOrder_concat, if_pos hok, if_neg hlast] at hcode
  by_cases hneg : run (runInOrder run (commandsOf lines) []).2 (ofBytes last) < 0
  · simp [runInOrder, hneg] at hcode
  · simp [runInOrder, hneg, Int.not_lt.1 hneg] at hcode

end CommandListAux

open CommandListAux

/-- `run_command_list` is called on a text: with the length of the text, or with `-1` and a NUL behind the text. -/
def PassesText (text : CString) (cmd : List UInt8) (len : Int) : Prop :=
  len = -1 ∧ text.bytes ++ [0] <+: cmd ∨ len = text.bytes.length ∧ text.bytes <+: cmd

/-- `run_command_list` keeps its promise exactly when a copy is not needed or can be allocated, and the last line is empty (the text
is empty or ends with a newline) or is not run because a line before it fails. -/
theorem run_command_list_iff (run : BuiltinRunCommand) (mallocOk : Bool) (text : CString) (cmd : List UInt8) (len : Int)
    (hlen : PassesText text cmd len) :
    (∃ r, runCommandList run mallocOk cmd len = some r ∧ RunsAsPromised run text r) ↔ (mallocOk = true ∨ len = -1 ∧ chNewline ∉ text.bytes) ∧
        ((textLines text).getLast? = some [] ∨ (runInOrder run (commandsOf (textLines text).dropLast) []).1 = false) := by
  have htext : (if len = -1 then (ofBytes cmd).bytes else cmd.take len.toNat) = text.bytes := by
    rcases hlen with ⟨hlen, post, rfl⟩ | ⟨hlen, post, rfl⟩
    · have hof := ofBytes_drop [] text.nul_free post
      rw [if_pos hlen, append_assoc]
      exact congrArg CString.bytes (hof.trans (ofBytes_bytes text))
    · rw [if_neg (by omega), hlen, Int.toNat_natCast, take_left]
  obtain ⟨lines, last, hlines, hlist⟩ := builtinRunCommandList_text run text
  have hcmds := runInOrder_concat run lines last
  rw [← hlines] at hcmds
  have hrun : runCommandList run mallocOk cmd len =
      if (len ≠ -1 ∨ chNewline ∈ text.bytes) ∧ !mallocOk then some (1, []) else builtinRunCommandList run (text.bytes ++ [0]) := by
    simp only [runCommandList, htext]
  rw [hrun, hlines, getLast?_concat, dropLast_concat]
  by_cases hm : mallocOk = true ∨ len = -1 ∧ chNewline ∉ text.bytes
  · rw [if_neg (by grind), hlist]
    simp only [hm, true_and, Option.some.injEq, exists_eq_left']
    by_cases hok : (runInOrder run (commandsOf lines) []).1 = true
    · rw [if_pos hok]
      rw [if_pos hok] at hcmds
      by_cases hlast : last = []
      · rw [if_pos hlast] at hcmds ⊢
        exact iff_of_true ⟨by rw [hcmds]; rfl, by rw [hcmds]; simp [runInOrder]⟩ (Or.inl hlast)
      · rw [if_neg hlast]
        exact iff_of_false (not_runsAsPromised_last hlines hok hlast _) (by simp [hlast, hok])
    · rw [if_neg hok]
      rw [if_neg hok] at hcmds
      exact iff_of_true ⟨by rw [hcmds], by rw [hcmds]; simp [hok]⟩ (Or.inr (by simpa using hok))
  · -- without the copy nothing is run, and 1 is returned
    rw [if_pos (by grind)]
    refine iff_of_false ?_ (fun h => hm h.1)
    rintro ⟨r, hr, hprom⟩
    obtain rfl : (1, []) = r := Option.some.inj hr
    exact not_runsAsPromised_refused run text hprom

/-- A list of two lines without a newline at the end, where the first one fails. -/
theorem run_command_list_iff_two : PassesText (ofBytes [0x61, 0x0a, 0x62]) [0x61, 0x0a, 0x62, 0] (-1) ∧
    ∃ r, runCommandList (fun _ _ => -1) true [0x61, 0x0a, 0x62, 0] (-1) = some r ∧
      RunsAsPromised (fun _ _ => -1) (ofBytes [0x61, 0x0a, 0x62]) r := by
  have hpass : PassesText (ofBytes [0x61, 0x0a, 0x62]) [0x61, 0x0a, 0x62, 0] (-1) := Or.inl ⟨rfl, prefix_rfl⟩
  exact ⟨hpass, (run_command_list_iff (fun _ _ => -1) true _ _ _ hpass).2 ⟨Or.inl rfl, Or.inr (by decide)⟩⟩

/-- A command that fails and has no newline behind it: 0 is returned. -/
theorem run_command_list_false : PassesText (ofBytes [0x61]) [0x61, 0] (-1) ∧
    runCommandList (fun _ _ => -1) true [0x61, 0] (-1) = some (0, [ofBytes [0x61]]) ∧
    ¬RunsAsPromised (fun _ _ => -1) (ofBytes [0x61]) (0, [ofBytes [0x61]]) := by
  refine ⟨Or.inl ⟨rfl, prefix_rfl⟩, by decide, ?_⟩
  rintro ⟨-, hcode⟩
  exact absurd (hcode.1 rfl) (by decide)

end UBoot
