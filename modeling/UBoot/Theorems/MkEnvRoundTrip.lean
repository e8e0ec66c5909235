import UBoot.MkEnvImage
import UBoot.Theorems.FwEnvAgrees

/-!
# Importing an image of mkenvimage

The text of a list of variables is converted into their stored entries and a NUL. A backslash in the text quotes the character after it.
-/

namespace UBoot

open List Option

section

open Htab ImportAux StoredEnvAux EnvRoundTripAux FwEnvAux

/-- A variable of the text file, with the number of empty lines before it. -/
structure EnvLine where
  gap : Nat
  var : CString × CString

/-- The characters of the line of a variable. -/
def EnvLine.text (l : EnvLine) : List UInt8 := l.var.1.bytes ++ chEquals :: l.var.2.bytes

/-- The variables, one in a line, up to the last character of the last line. -/
def envLines : List EnvLine → List UInt8
  | [] => []
  | [l] => List.replicate l.gap chNewline ++ l.text
  | l :: l' :: ls => List.replicate l.gap chNewline ++ l.text ++ chNewline :: envLines (l' :: ls)

/-- The text file, with the newlines after the last variable: none if the file does not end in a newline, more than one if empty
lines follow. -/
def envFile (ls : List EnvLine) (after : Nat) : List UInt8 := envLines ls ++ List.replicate after chNewline

/-- A line the file can have: a good name, and a value that is not empty and has no newline. -/
structure EnvLine.Ok (l : EnvLine) : Prop where
  name : NameOk 0 l.var.1
  name_line : chNewline ∉ l.var.1.bytes
  value : l.var.2.bytes ≠ []
  value_line : chNewline ∉ l.var.2.bytes

/-- The line does not go on behind its end. -/
def EnvLine.Closed (l : EnvLine) : Prop := l.var.2.bytes.getLast? ≠ some chBackslash

/-- mkenvimage writes an image with the CRC of its data part, and an import of that gives the variables of the file. -/
def ImportsFile (o : MkEnvOptions) (dataptr : List UInt8) (ls : List EnvLine) (after : Nat) : Prop :=
  ∃ image, mkenvimage o dataptr (envFile ls after) = some (.success image) ∧ image.length = o.datasize.toNat ∧
    image.take CRC_SIZE = targetendianCrc o (crc32 0 (image.drop o.header)) ∧
    ∀ (apply : Option ApplyFn) (doApply : Bool) (old : Option Htab), Approves apply 0 doApply →
      ∃ h, himportR true true apply old (image.drop o.header) 0 0 [] doApply = some (1, some h) ∧ h.WF ∧
        ∀ k v, hfind h k = some v ↔ (k, v) ∈ ls.map EnvLine.var

/-- What the file, the size and the table of an import need for that. -/
structure FileKept (o : MkEnvOptions) (dataptr : List UInt8) (ls : List EnvLine) (after : Nat) : Prop where
  -- the tool counts the whole file and a NUL, and a second NUL if there is no newline at either end
  room : o.header + (envFile ls after).length + 1 ≤ o.datasize.toNat
  ending : ∀ l, ls.head? = some l → l.gap = 0 → after = 0 → o.header + (envFile ls after).length + 2 ≤ o.datasize.toNat
  gaps : ∀ l ∈ ls.tail, l.gap = 0
  values : ∀ l ∈ ls, chBackslash ∉ l.var.2.bytes.dropLast
  closed : ∀ l ∈ ls.dropLast, l.Closed
  last : after ≠ 0 → ∀ l, ls.getLast? = some l → l.Closed
  table : ∃ t, hcreateR true (importEntries o.envsize.toNat) none = some t ∧ ls.length ≤ t.size
  -- without variables the tool reads the byte before the environment, which is not set
  empty : ls = [] → ∀ b, dataptr[o.header - 1]? = some b →
    if b = 0 then o.padbyte = 0 ∨ o.datasize.toNat = o.header + 1 else o.header + 2 ≤ o.datasize.toNat

namespace MkEnvAux

variable {o : MkEnvOptions} {filebuf pre head written rest text : List UInt8}
variable {l : EnvLine} {ls : List EnvLine} {s s' : EnvLine × Nat} {n after : Nat} {S : List (EnvLine × Nat)} {w : CString}
    {E : List (CString × CString)} {z dataptr env : List UInt8}

/-! ## One character -/

theorem putByte_written (hhead : head.length = o.header) (x b : UInt8) :
    putByte (head ++ written ++ x :: rest) (o.header + written.length) b = some (head ++ (written ++ [b]) ++ rest) := by
  have h := putByte_append (head ++ written) rest x b
  rw [length_append, hhead] at h
  rw [h]
  simp

/-- Characters other than a newline are copied. -/
theorem convertLoop_plain (hhead : head.length = o.header) {bs : List UInt8} (hbs : chNewline ∉ bs)
    (hroom : bs.length ≤ rest.length) (fp : Nat) :
    convertLoop o filebuf (bs ++ text) fp written.length (head ++ written ++ rest) =
      convertLoop o filebuf text (fp + bs.length) (written ++ bs).length (head ++ (written ++ bs) ++ rest.drop bs.length) := by
  induction bs generalizing fp written rest with
  | nil => simp
  | cons b bs ih =>
    obtain ⟨x, rest, rfl⟩ := exists_cons_of_length_pos (Nat.lt_of_lt_of_le (Nat.succ_pos _) hroom)
    have hb : b ≠ chNewline := by
      rintro rfl
      exact hbs mem_cons_self
    have hlen : written.length + 1 = (written ++ [b]).length := by simp
    rw [cons_append, convertLoop, if_neg hb, putByte_written hhead, bind_some, hlen,
      ih (fun h => hbs (mem_cons_of_mem _ h)) (Nat.le_of_succ_le_succ hroom)]
    simp [Nat.add_comm, Nat.add_left_comm]

theorem convertLoop_newline (hhead : head.length = o.header) {before x : UInt8} (hw : written ≠ [])
    (hbefore : filebuf[pre.length - 1]? = some before) (hb : before ≠ chBackslash) :
    convertLoop o filebuf (chNewline :: text) pre.length written.length (head ++ written ++ x :: rest) =
      convertLoop o filebuf text (pre.length + 1) (written ++ [0]).length (head ++ (written ++ [0]) ++ rest) := by
  have hne : written.length ≠ 0 := by simpa using hw
  have hlen : written.length + 1 = (written ++ [(0 : UInt8)]).length := by simp
  rw [convertLoop, if_pos rfl, if_neg hne, hbefore]
  simp only [if_neg hb]
  rw [putByte_written hhead, bind_some, hlen]

theorem convertLoop_leading (n fp : Nat) (data : List UInt8) :
    convertLoop o filebuf (List.replicate n chNewline ++ text) fp 0 data = convertLoop o filebuf text (fp + n) 0 data := by
  induction n generalizing fp with
  | zero => rfl
  | succ n ih =>
    rw [replicate_succ, cons_append, convertLoop, if_pos rfl, if_pos rfl, ih]
    congr 1
    omega

/-! ## Lines -/

theorem newline_notMem_text (h : l.Ok) : chNewline ∉ l.text := by
  simp only [EnvLine.text, mem_append, mem_cons, not_or]
  exact ⟨h.name_line, by decide, h.value_line⟩

theorem getLast?_text (h : l.Ok) : l.text.getLast? = l.var.2.bytes.getLast? := by
  obtain ⟨c, cs, hcs⟩ := exists_cons_of_ne_nil h.value
  rw [EnvLine.text, hcs, getLast?_append, getLast?_cons_cons, getLast?_cons]
  rfl

theorem getElem?_before (hfile : filebuf = pre ++ text) (hpre : pre ≠ []) : filebuf[pre.length - 1]? = pre.getLast? := by
  obtain ⟨xs, x, rfl⟩ := (eq_nil_or_concat pre).resolve_left hpre
  simp [hfile]

/-- The lines, with the number of newlines behind each. -/
def segments : List EnvLine → Nat → List (EnvLine × Nat)
  | [], _ => []
  | [l], after => [(l, after)]
  | l :: l' :: ls, after => (l, l'.gap + 1) :: segments (l' :: ls) after

/-- The characters of a line and the newlines behind it. -/
def segText (s : EnvLine × Nat) : List UInt8 := s.1.text ++ List.replicate s.2 chNewline

theorem envFile_cons (l : EnvLine) (ls : List EnvLine) (after : Nat) :
    envFile (l :: ls) after = List.replicate l.gap chNewline ++ (segments (l :: ls) after).flatMap segText := by
  induction ls generalizing l with
  | nil => simp [envFile, envLines, segments, segText]
  | cons l' ls ih =>
    have ih' := ih l'
    rw [envFile] at ih'
    rw [envFile, envLines, append_assoc, cons_append, ih', segments, flatMap_cons, segText, replicate_succ]
    simp

theorem map_fst_segments (ls : List EnvLine) (after : Nat) : (segments ls after).map Prod.fst = ls := by
  induction ls using envLines.induct with
  | case1 => rfl
  | case2 l => rfl
  | case3 l l' ls ih => rw [segments, map_cons, ih]

theorem segments_ne_nil (hne : ls ≠ []) (after : Nat) : segments ls after ≠ [] := by
  intro h
  have hfst := map_fst_segments ls after
  rw [h] at hfst
  exact hne hfst.symm

theorem newline_between (ls : List EnvLine) (after : Nat) : ∀ s ∈ (segments ls after).dropLast, s.2 ≠ 0 := by
  induction ls using envLines.induct with
  | case1 => simp [segments]
  | case2 l => simp [segments]
  | case3 l l' ls ih =>
    rw [segments, dropLast_cons_of_ne_nil (segments_ne_nil (by simp) after)]
    intro s hs
    rcases mem_cons.1 hs with rfl | hs
    · exact Nat.succ_ne_zero _
    · exact ih s hs

/-- A backslash at the end of a line takes the newline behind it into the value. -/
def Joined (s : EnvLine × Nat) : Prop := s.2 ≠ 0 ∧ s.1.var.2.bytes.getLast? = some chBackslash

instance decidableJoined (s : EnvLine × Nat) : Decidable (Joined s) := inferInstanceAs (Decidable (_ ∧ _))

/-- The value that a line is stored with. -/
def joinedValue (s : EnvLine × Nat) : CString :=
  if Joined s then
    ⟨s.1.var.2.bytes.dropLast ++ [chNewline], fun h => (mem_append.1 h).elim (fun h => s.1.var.2.nul_free (mem_of_mem_dropLast h)) (by decide)⟩
  else s.1.var.2

/-- The number of NULs behind a line. -/
def nuls (s : EnvLine × Nat) : Nat := if Joined s then s.2 - 1 else s.2

/-- What is stored for a line and the newlines behind it. -/
def segBytes (s : EnvLine × Nat) : List UInt8 := s.1.var.1.bytes ++ chEquals :: (joinedValue s).bytes ++ List.replicate (nuls s) 0

theorem length_segBytes (hs : s.1.Ok) : (segBytes s).length + (if Joined s then 1 else 0) = (segText s).length := by
  have hv := length_pos_of_ne_nil hs.value
  by_cases hj : Joined s
  · have hn := Nat.pos_of_ne_zero hj.1
    simp [segBytes, segText, EnvLine.text, joinedValue, nuls, hj]
    omega
  · simp [segBytes, segText, EnvLine.text, joinedValue, nuls, hj]

/-- Newlines behind a character other than a backslash become NULs. -/
theorem convertLoop_nuls (hhead : head.length = o.header) (hw : written ≠ [])
    (hfile : filebuf = pre ++ (List.replicate n chNewline ++ text)) (hpre : n ≠ 0 → ∃ b, pre.getLast? = some b ∧ b ≠ chBackslash)
    (hroom : n ≤ rest.length) :
    convertLoop o filebuf (List.replicate n chNewline ++ text) pre.length written.length (head ++ written ++ rest) =
      convertLoop o filebuf text (pre.length + n) (written ++ List.replicate n 0).length
        (head ++ (written ++ List.replicate n 0) ++ rest.drop n) := by
  induction n generalizing pre written rest with
  | zero => simp
  | succ n ih =>
    obtain ⟨x, rest, rfl⟩ := exists_cons_of_length_pos (Nat.lt_of_lt_of_le (Nat.succ_pos _) hroom)
    obtain ⟨b, hb, hslash⟩ := hpre (Nat.succ_ne_zero n)
    have hpre' : pre ≠ [] := by
      rintro rfl
      cases hb
    have hbefore := (getElem?_before hfile hpre').trans hb
    rw [replicate_succ, cons_append, convertLoop_newline hhead hw hbefore hslash, show pre.length + 1 = (pre ++ [chNewline]).length by simp,
      ih (by simp) (by rw [hfile, replicate_succ]; simp) (fun _ => ⟨chNewline, by simp, by decide⟩) (Nat.le_of_succ_le_succ hroom)]
    simp [replicate_succ, Nat.add_comm, Nat.add_left_comm]

/-- The first newline behind a backslash takes its place. -/
theorem convertLoop_joined (written : List UInt8) (hhead : head.length = o.header) (hfile : filebuf = pre ++ (List.replicate (n + 1) chNewline ++ text))
    (hpre : pre.getLast? = some chBackslash) (hroom : n ≤ rest.length) :
    convertLoop o filebuf (List.replicate (n + 1) chNewline ++ text) pre.length (written ++ [chBackslash]).length
        (head ++ (written ++ [chBackslash]) ++ rest) =
      convertLoop o filebuf text (pre.length + (n + 1)) (written ++ chNewline :: List.replicate n 0).length
        (head ++ (written ++ chNewline :: List.replicate n 0) ++ rest.drop n) := by
  have hpre' : pre ≠ [] := by
    rintro rfl
    cases hpre
  have hbefore := (getElem?_before hfile hpre').trans hpre
  have hput : putByte (head ++ (written ++ [chBackslash]) ++ rest) (o.header + written.length) chNewline =
      some (head ++ (written ++ [chNewline]) ++ rest) := by
    have h : putByte (head ++ written ++ chBackslash :: rest) (o.header + written.length) chNewline = _ :=
      putByte_written hhead chBackslash chNewline
    simpa using h
  have hfile' : filebuf = (pre ++ [chNewline]) ++ (List.replicate n chNewline ++ text) := by rw [hfile, replicate_succ]; simp
  have hnuls := convertLoop_nuls hhead (show written ++ [chNewline] ≠ [] by simp) hfile' (fun _ => ⟨chNewline, by simp, by decide⟩) hroom
  rw [replicate_succ, cons_append, convertLoop, if_pos rfl, if_neg (by simp), hbefore]
  simp only [if_true, length_append, length_singleton, Nat.add_sub_cancel] at hnuls ⊢
  rw [hput, bind_some, hnuls]
  simp [Nat.add_comm, Nat.add_left_comm]

/-- A line and the newlines behind it. -/
theorem convertLoop_segment (hhead : head.length = o.header) (hl : l.Ok)
    (hfile : filebuf = pre ++ (segText (l, n) ++ text)) (hroom : (segText (l, n)).length ≤ rest.length) :
    convertLoop o filebuf (segText (l, n) ++ text) pre.length written.length (head ++ written ++ rest) =
      convertLoop o filebuf text (pre ++ segText (l, n)).length (written ++ segBytes (l, n)).length
        (head ++ (written ++ segBytes (l, n)) ++ rest.drop (segBytes (l, n)).length) := by
  have htext : l.text ≠ [] := by simp [EnvLine.text]
  have hfile' : filebuf = (pre ++ l.text) ++ (List.replicate n chNewline ++ text) := by rw [hfile, segText]; simp
  have hlast : (pre ++ l.text).getLast? = l.var.2.bytes.getLast? := by rw [getLast?_append_of_ne_nil _ htext, getLast?_text hl]
  have hrooms : l.text.length ≤ rest.length ∧ n ≤ (rest.drop l.text.length).length := by
    simp only [segText, length_append, length_replicate] at hroom
    rw [length_drop]
    omega
  rw [segText, append_assoc, convertLoop_plain hhead (newline_notMem_text hl) hrooms.1, ← length_append]
  by_cases hj : Joined (l, n)
  · obtain ⟨n, rfl⟩ := Nat.exists_eq_succ_of_ne_zero hj.1
    obtain ⟨v, hv⟩ : ∃ v, l.text = v ++ [chBackslash] := by
      rw [← getLast?_eq_some_iff, getLast?_text hl]
      exact hj.2
    have hseg : segBytes (l, n + 1) = v ++ chNewline :: List.replicate n 0 := by
      have hdrop : l.text.dropLast = l.var.1.bytes ++ chEquals :: l.var.2.bytes.dropLast := by
        rw [EnvLine.text, dropLast_append_of_ne_nil (cons_ne_nil _ _), dropLast_cons_of_ne_nil hl.value]
      rw [hv, dropLast_concat] at hdrop
      rw [segBytes, joinedValue, nuls, if_pos hj, if_pos hj, hdrop]
      simp
    have hjoined := convertLoop_joined (written ++ v) hhead hfile' (hlast.trans hj.2) (Nat.le_of_succ_le hrooms.2)
    rw [append_assoc written, ← hv] at hjoined
    rw [hjoined, hseg]
    simp [hv, drop_drop, Nat.add_comm, Nat.add_left_comm]
  · have hseg : segBytes (l, n) = l.text ++ List.replicate n 0 := by simp [segBytes, joinedValue, nuls, hj, EnvLine.text]
    have hnuls := convertLoop_nuls hhead (show written ++ l.text ≠ [] by simp [htext]) hfile' (fun hn => ?_) hrooms.2
    · rw [hnuls, hseg]
      simp [drop_drop, Nat.add_assoc]
    · obtain ⟨b, hb⟩ := ne_none_iff_exists'.1 (mt getLast?_eq_none_iff.1 hl.value)
      refine ⟨b, hlast.trans hb, ?_⟩
      rintro rfl
      exact hj ⟨hn, hb⟩

/-- All lines. -/
theorem convertLoop_segments (written rest : List UInt8) (hhead : head.length = o.header) (hok : ∀ s ∈ S, s.1.Ok)
    (hfile : filebuf = pre ++ S.flatMap segText) (hroom : (S.flatMap segText).length ≤ rest.length) :
    convertLoop o filebuf (S.flatMap segText) pre.length written.length (head ++ written ++ rest) =
      some ((written ++ S.flatMap segBytes).length, head ++ (written ++ S.flatMap segBytes) ++ rest.drop (S.flatMap segBytes).length) := by
  induction S generalizing pre written rest with
  | nil => simp [convertLoop]
  | cons s S ih =>
    obtain ⟨l, n⟩ := s
    have hl : l.Ok := hok (l, n) mem_cons_self
    have hlen := length_segBytes (s := (l, n)) hl
    rw [flatMap_cons, length_append] at hroom
    rw [flatMap_cons] at hfile
    rw [flatMap_cons, convertLoop_segment hhead hl hfile (Nat.le_of_add_right_le hroom),
      ih _ _ (fun x hx => hok x (mem_cons_of_mem _ hx)) (by rw [hfile, append_assoc]) (by rw [length_drop]; omega)]
    simp [drop_drop]

/-! ## Entries -/

/-- No line is joined with the next, and no empty line is between two. -/
def Plain (S : List (EnvLine × Nat)) : Prop := (∀ s ∈ S, ¬Joined s) ∧ ∀ s ∈ S.dropLast, s.2 = 1

/-- The entries that an import finds in the stored lines and the NULs behind them. -/
structure Entries (S : List (EnvLine × Nat)) (z : List UInt8) (E : List (CString × CString)) : Prop where
  bytes : ∃ tail, S.flatMap segBytes ++ z = E.flatMap storedEntry ++ 0 :: tail
  ok : ∀ e ∈ E, NameOk 0 e.1 ∧ e.2.bytes ≠ []
  names : (E.map Prod.fst).Sublist (S.map fun s => s.1.var.1)
  plain : Plain S → E = S.map fun s => s.1.var
  kept : (∀ s ∈ S, s.1.var ∈ E.map importedEntry) → Plain S

theorem newline_mem_joinedValue (hj : Joined s) : chNewline ∈ (joinedValue s).bytes := by
  simp [joinedValue, hj]

theorem joinedValue_ne_nil (hs : s.1.Ok) : (joinedValue s).bytes ≠ [] := by
  by_cases hj : Joined s
  · simp [joinedValue, hj]
  · simpa [joinedValue, hj] using hs.value

theorem mem_unescape {c : UInt8} (hc : c ≠ chBackslash) {t : List UInt8} (h : c ∈ t) : c ∈ unescape t := by
  induction t using unescape.induct with
  | case1 => exact h
  | case2 d => simpa [unescape] using h
  | case3 d cs ih =>
    rw [unescape, if_pos rfl]
    simp only [mem_cons, hc, false_or] at h ⊢
    exact h.imp_right ih
  | case4 d e cs hd ih =>
    rw [unescape, if_neg hd]
    rw [mem_cons] at h ⊢
    exact h.imp_right ih

theorem importedEntry_eq_of_mem {k v : CString} (hk : k ∉ E.map Prod.fst)
    (h : (k, v) ∈ ((k, w) :: E).map importedEntry) : importedEntry (k, w) = (k, v) := by
  rcases mem_cons.1 h with h | h
  · exact h.symm
  · obtain ⟨e, he, heq⟩ := mem_map.1 h
    have hfst : e.1 = k := (Prod.mk.inj heq).1
    exact absurd (mem_map.2 ⟨e, he, hfst⟩) hk

theorem not_mem_of_newline (hl : l.Ok) (hk : l.var.1 ∉ E.map Prod.fst)
    (hw : chNewline ∈ w.bytes) : l.var ∉ ((l.var.1, w) :: E).map importedEntry := by
  intro h
  have heq := importedEntry_eq_of_mem (v := l.var.2) hk h
  have hmem : chNewline ∈ (importedEntry (l.var.1, w)).2.bytes := mem_unescape (by decide) hw
  rw [heq] at hmem
  exact hl.value_line hmem

theorem plain_cons : Plain (s :: s' :: S) ↔ ¬Joined s ∧ s.2 = 1 ∧ Plain (s' :: S) := by
  simp only [Plain, dropLast_cons_cons, forall_mem_cons]
  tauto

theorem entries_last (hs : s.1.Ok) (hz : ∃ tail, z = 0 :: tail)
    (hz2 : (segBytes s).getLast? ≠ some 0 → ∃ tail, z = 0 :: 0 :: tail) : Entries [s] z [(s.1.var.1, joinedValue s)] := by
  refine ⟨?_, by simpa using ⟨hs.name, joinedValue_ne_nil hs⟩, by simp, fun h => ?_, fun h => ?_⟩
  · obtain ⟨tail, htail⟩ : ∃ tail, List.replicate (nuls s) 0 ++ z = 0 :: 0 :: tail := by
      cases hn : nuls s with
      | zero =>
        refine hz2 ?_
        intro hlast
        have hmem := mem_of_getLast? hlast
        simp only [segBytes, hn, replicate_zero, append_nil, mem_append, mem_cons] at hmem
        rcases hmem with hmem | hmem | hmem
        · exact s.1.var.1.nul_free hmem
        · exact absurd hmem (by decide)
        · exact (joinedValue s).nul_free hmem
      | succ n =>
        obtain ⟨tail, rfl⟩ := hz
        cases n with
        | zero => exact ⟨tail, rfl⟩
        | succ n => exact ⟨_, rfl⟩
    refine ⟨tail, ?_⟩
    simp only [flatMap_singleton, segBytes, storedEntry, append_assoc, cons_append, htail]
    simp
  · have hj := h.1 s mem_cons_self
    simp [joinedValue, hj]
  · refine ⟨fun s' hs' hj => ?_, by simp⟩
    obtain rfl := mem_singleton.1 hs'
    exact not_mem_of_newline hs (by simp) (newline_mem_joinedValue hj) (h _ mem_cons_self)

/-- One line more in front. -/
theorem entries_cons (hs : s.1.Ok) (hn : s.2 ≠ 0)
    (hname : s.1.var.1 ∉ (s' :: S).map fun s => s.1.var.1) (hne : E ≠ [])
    (h : Entries (s' :: S) z E) : ∃ E', E' ≠ [] ∧ Entries (s :: s' :: S) z E' := by
  obtain ⟨e, E, rfl⟩ := exists_cons_of_ne_nil hne
  obtain ⟨tail, htail⟩ := h.bytes
  have hnot : s.1.var.1 ∉ (e :: E).map Prod.fst := fun hmem => hname (h.names.subset hmem)
  rcases Nat.lt_or_ge (nuls s) 1 with hzero | hpos
  · -- the line goes on in the next
    have hj : Joined s := by
      by_contra hj
      rw [nuls, if_neg hj] at hzero
      omega
    let w : CString := ⟨(joinedValue s).bytes ++ (e.1.bytes ++ chEquals :: e.2.bytes), by
      simp only [mem_append, mem_cons, not_or]
      exact ⟨(joinedValue s).nul_free, e.1.nul_free, by decide, e.2.nul_free⟩⟩
    have hE : s.1.var.1 ∉ E.map Prod.fst := fun hmem => hnot (mem_cons_of_mem _ hmem)
    refine ⟨(s.1.var.1, w) :: E, cons_ne_nil _ _, ⟨tail, ?_⟩, ?_, ?_, fun hp => absurd hj (plain_cons.1 hp).1, fun hall => ?_⟩
    · rw [flatMap_cons, append_assoc, htail, segBytes, Nat.lt_one_iff.1 hzero]
      simp [storedEntry, w]
    · intro x hx
      rcases mem_cons.1 hx with rfl | hx
      · exact ⟨hs.name, by simp [w]⟩
      · exact h.ok x (mem_cons_of_mem _ hx)
    · exact ((sublist_cons_self _ _).trans h.names).cons_cons _
    · exact absurd (hall s mem_cons_self) (not_mem_of_newline hs hE (mem_append_left _ (newline_mem_joinedValue hj)))
  rcases Nat.lt_or_ge 1 (nuls s) with hmany | hone
  · -- an empty line ends the environment
    obtain ⟨n, hn⟩ := Nat.exists_eq_add_of_lt hmany
    refine ⟨[(s.1.var.1, joinedValue s)], cons_ne_nil _ _, ⟨List.replicate n 0 ++ ((s' :: S).flatMap segBytes ++ z), ?_⟩,
      by simpa using ⟨hs.name, joinedValue_ne_nil hs⟩, by simp, fun hp => ?_, fun hall => ?_⟩
    · rw [flatMap_cons, append_assoc, segBytes, hn, show 1 + n + 1 = n + 1 + 1 by omega, replicate_succ, replicate_succ]
      simp [storedEntry]
    · obtain ⟨hj, hone, -⟩ := plain_cons.1 hp
      rw [nuls, if_neg hj] at hmany
      omega
    · have hmem := hall s' (mem_cons_of_mem _ mem_cons_self)
      rw [map_singleton, mem_singleton] at hmem
      exact absurd (mem_cons.2 (Or.inl (congrArg Prod.fst hmem).symm)) hname
  · have hnuls : nuls s = 1 := Nat.le_antisymm hone hpos
    refine ⟨(s.1.var.1, joinedValue s) :: e :: E, cons_ne_nil _ _, ⟨tail, ?_⟩, ?_, h.names.cons_cons _, fun hp => ?_, fun hall => ?_⟩
    · rw [flatMap_cons, append_assoc, htail, segBytes, hnuls]
      simp [storedEntry]
    · intro x hx
      rcases mem_cons.1 hx with rfl | hx
      · exact ⟨hs.name, joinedValue_ne_nil hs⟩
      · exact h.ok x hx
    · obtain ⟨hj, -, hp⟩ := plain_cons.1 hp
      rw [h.plain hp, joinedValue, if_neg hj]
      rfl
    · have hj : ¬Joined s := fun hj => not_mem_of_newline hs hnot (newline_mem_joinedValue hj) (hall s mem_cons_self)
      rw [nuls, if_neg hj] at hnuls
      refine plain_cons.2 ⟨hj, hnuls, h.kept fun x hx => ?_⟩
      refine (mem_cons.1 (hall x (mem_cons_of_mem _ hx))).resolve_left fun heq => ?_
      have hfst : x.1.var.1 = s.1.var.1 := by rw [heq]; rfl
      exact hname (mem_map.2 ⟨x, hx, hfst⟩)

theorem exists_entries (hne : S ≠ []) (hok : ∀ s ∈ S, s.1.Ok) (hnd : (S.map fun s => s.1.var.1).Nodup)
    (hn : ∀ s ∈ S.dropLast, s.2 ≠ 0) (hz : ∃ tail, z = 0 :: tail)
    (hz2 : (S.flatMap segBytes).getLast? ≠ some 0 → ∃ tail, z = 0 :: 0 :: tail) : ∃ E, E ≠ [] ∧ Entries S z E := by
  induction S with
  | nil => exact absurd rfl hne
  | cons s S ih =>
    cases S with
    | nil => exact ⟨_, cons_ne_nil _ _, entries_last (hok s mem_cons_self) hz (by simpa using hz2)⟩
    | cons s' S =>
      rw [map_cons, nodup_cons] at hnd
      rw [dropLast_cons_cons] at hn
      have hlast : ((s :: s' :: S).flatMap segBytes).getLast? = ((s' :: S).flatMap segBytes).getLast? := by
        rw [flatMap_cons, getLast?_append_of_ne_nil]
        simp [segBytes]
      obtain ⟨E, hE, hentries⟩ := ih (cons_ne_nil _ _) (fun x hx => hok x (mem_cons_of_mem _ hx)) hnd.2
        (fun x hx => hn x (mem_cons_of_mem _ hx)) (by rwa [← hlast])
      exact entries_cons (hok s mem_cons_self) (hn s mem_cons_self) hnd.1 hE hentries

theorem plain_segments (ls : List EnvLine) (after : Nat) : Plain (segments ls after) ↔
    (∀ l ∈ ls.tail, l.gap = 0) ∧ (∀ l ∈ ls.dropLast, l.Closed) ∧ (after ≠ 0 → ∀ l, ls.getLast? = some l → l.Closed) := by
  induction ls using envLines.induct with
  | case1 => simp [segments, Plain]
  | case2 l => simp [segments, Plain, Joined, EnvLine.Closed]
  | case3 l l' ls ih =>
    obtain ⟨s, S, hS⟩ := exists_cons_of_ne_nil (segments_ne_nil (cons_ne_nil l' ls) after)
    rw [segments, hS, plain_cons, ← hS, ih]
    simp only [Joined, Nat.add_eq_right, ne_eq, Nat.succ_ne_zero, not_false_eq_true, true_and, tail_cons, forall_mem_cons, dropLast_cons_cons,
      getLast?_cons_cons, EnvLine.Closed]
    tauto

theorem length_plain (hok : ∀ s ∈ S, s.1.Ok) (hp : ∀ s ∈ S, ¬Joined s) :
    (S.flatMap segBytes).length = (S.flatMap segText).length := by
  induction S with
  | nil => rfl
  | cons s S ih =>
    have hs := length_segBytes (hok s mem_cons_self)
    rw [if_neg (hp s mem_cons_self)] at hs
    rw [flatMap_cons, flatMap_cons, length_append, length_append, ← hs,
      ih (fun x hx => hok x (mem_cons_of_mem _ hx)) fun x hx => hp x (mem_cons_of_mem _ hx)]
    rfl

/-- The last byte that is stored is a NUL if the file ends in a newline. -/
theorem getLast?_plain (hne : ls ≠ []) (hp : ∀ s ∈ segments ls after, ¬Joined s) :
    ((segments ls after).flatMap segBytes).getLast? = some 0 ↔ after ≠ 0 := by
  induction ls using envLines.induct with
  | case1 => exact absurd rfl hne
  | case2 l =>
    have hj : ¬Joined (l, after) := hp _ (by simp [segments])
    have hvalue : (l.var.1.bytes ++ chEquals :: l.var.2.bytes).getLast? ≠ some 0 := by
      intro hlast
      have hmem := mem_of_getLast? hlast
      simp only [mem_append, mem_cons] at hmem
      rcases hmem with hmem | hmem | hmem
      · exact l.var.1.nul_free hmem
      · exact absurd hmem (by decide)
      · exact l.var.2.nul_free hmem
    cases after with
    | zero => simpa [segments, segBytes, joinedValue, nuls, hj] using hvalue
    | succ n => simp [segments, segBytes, joinedValue, nuls, hj, replicate_succ', ← append_assoc]
  | case3 l l' ls ih =>
    rw [segments] at hp ⊢
    rw [flatMap_cons, getLast?_append_of_ne_nil]
    · exact ih (by simp) fun s hs => hp s (mem_cons_of_mem _ hs)
    · obtain ⟨s, S, hS⟩ := exists_cons_of_ne_nil (segments_ne_nil (cons_ne_nil l' ls) after)
      simp [hS, segBytes]

/-! ## The end -/

theorem getElem?_last (hhead : head.length = o.header) :
    (head ++ written ++ rest)[o.header + written.length - 1]? = (head ++ written).getLast? := by
  have hpos : 0 < o.header := Nat.lt_of_lt_of_le (show 0 < CRC_SIZE by decide) (Nat.le_add_right _ _)
  obtain ⟨xs, x, hxs⟩ := (eq_nil_or_concat (head ++ written)).resolve_left fun h => by
    rw [(append_eq_nil_iff.1 h).1] at hhead
    exact absurd hhead (Nat.ne_of_lt hpos)
  have hlen := congrArg List.length hxs
  rw [length_append, hhead, length_concat] at hlen
  rw [hxs, hlen, concat_eq_append]
  simp

/-- The NULs that are put behind what is written, if they fit. -/
theorem endOfEnvironment_eq (written rest : List UInt8) (hhead : head.length = o.header) (hrest : rest ≠ []) (hsize : rest.length + written.length = o.envsize.toNat) :
    endOfEnvironment o written.length (head ++ written ++ rest) =
      if (head ++ written).getLast? = some 0 then some (some (head ++ (written ++ 0 :: rest.drop 1)))
      else if written.length + 2 ≤ o.envsize.toNat then some (some (head ++ (written ++ 0 :: 0 :: rest.drop 2)))
      else some none := by
  obtain ⟨x, rest, rfl⟩ := exists_cons_of_ne_nil hrest
  obtain ⟨b, hb⟩ : ∃ b, (head ++ written).getLast? = some b := by
    rw [← ne_none_iff_exists', Ne, getLast?_eq_none_iff]
    intro h
    rw [(append_eq_nil_iff.1 h).1] at hhead
    exact absurd hhead.symm (Nat.ne_of_gt (Nat.lt_of_lt_of_le (show 0 < CRC_SIZE by decide) (Nat.le_add_right _ _)))
  rw [length_cons] at hsize
  rw [endOfEnvironment, getElem?_last hhead, hb]
  simp only [some.injEq]
  by_cases hzero : b = 0
  · rw [if_neg (not_not.2 hzero), if_pos hzero, putByte_written hhead]
    simp
  · rw [if_pos hzero, if_neg hzero, putByte_written hhead, bind_some]
    cases rest with
    | nil =>
      rw [length_nil] at hsize
      rw [if_pos (by omega), if_neg (by omega)]
    | cons y rest =>
      have hput : putByte (head ++ (written ++ [0]) ++ y :: rest) (o.header + (written ++ [0]).length) 0 =
          some (head ++ (written ++ [0] ++ [0]) ++ rest) := putByte_written hhead y 0
      rw [length_append, length_singleton] at hput
      rw [length_cons] at hsize
      rw [if_neg (by omega), if_pos (by omega), hput]
      simp

/-! ## The header -/

/-- The header is the CRC of the rest in the order of the target, and the flag of a redundant image. -/
theorem putHeader_eq (hhead : head.length = o.header) (env : List UInt8) : putHeader o (head ++ env) =
      some (targetendianCrc o (crc32 0 env) ++ (if o.redundant then [1] else []) ++ env) := by
  have hcrc : (targetendianCrc o (crc32 0 env)).length = 4 := by
    unfold targetendianCrc
    split <;> simp [le32]
  have hdrop : (head ++ env).drop o.header = env := by rw [← hhead, drop_left]
  have hput := putBytes_append [] (head.take 4) (head.drop 4 ++ env) (targetendianCrc o (crc32 0 env))
    (by rw [length_take, hcrc, hhead, MkEnvOptions.header, CRC_SIZE]; omega)
  rw [nil_append, ← append_assoc, take_append_drop, nil_append, length_nil] at hput
  rw [putHeader, hdrop, hput, bind_some]
  cases hred : o.redundant with
  | false =>
    have hnil : head.drop 4 = [] := drop_eq_nil_of_le (by simp [hhead, MkEnvOptions.header, CRC_SIZE, hred])
    simp [hnil]
  | true =>
    obtain ⟨x, hx⟩ : ∃ x, head.drop 4 = [x] := by
      rw [← length_eq_one_iff, length_drop, hhead, MkEnvOptions.header, CRC_SIZE, hred]
      rfl
    have hbyte := putByte_append (targetendianCrc o (crc32 0 env)) env x 1
    rw [hcrc] at hbyte
    simp only [hx, if_true, cons_append, nil_append, CRC_SIZE, hbyte, append_assoc]

theorem envsize_toNat (o : MkEnvOptions) : o.envsize.toNat = (2 ^ 32 - o.header + o.datasize.toNat) % 2 ^ 32 := by
  have hheader : (UInt32.ofNat o.header).toNat = o.header := by
    cases hred : o.redundant <;> simp [MkEnvOptions.header, CRC_SIZE, hred]
  rw [MkEnvOptions.envsize, UInt32.toNat_sub, hheader]

theorem header_le (o : MkEnvOptions) : 4 ≤ o.header ∧ o.header ≤ 5 := by
  cases hred : o.redundant <;> simp [MkEnvOptions.header, CRC_SIZE, hred]

/-- What the tool tests before it converts the file. -/
theorem mkenvimage_eq {file : List UInt8} (hdata : dataptr.length = o.datasize.toNat) (hsize : file.length < 2 ^ 31) :
    if o.header + file.length + 1 ≤ o.datasize.toNat then
      mkenvimage o dataptr file = match convertLoop o file file 0 0 (dataptr.take o.header ++ List.replicate o.envsize.toNat o.padbyte) with
        | none => none
        | some (ep, data) =>
          match endOfEnvironment o ep data with
          | none => none
          | some none => some (.failure "The environment file is too large for the target environment storage")
          | some (some data) => (putHeader o data).map .success
    else ∀ image, mkenvimage o dataptr file ≠ some (.success image) := by
  have hlt := o.datasize.toNat_lt
  have hheader := header_le o
  have henv := envsize_toNat o
  have hfile : (UInt32.ofNat file.length).toNat = file.length := by
    rw [UInt32.toNat_ofNat']
    exact Nat.mod_eq_of_lt (by omega)
  have hsmall : o.envsize < UInt32.ofNat file.length + 1 ↔ o.envsize.toNat < file.length + 1 := by
    rw [UInt32.lt_iff_toNat_lt, UInt32.toNat_add, hfile, show (1 : UInt32).toNat = 1 from rfl, Nat.mod_eq_of_lt (by omega)]
  have hzero : o.datasize = 0 ↔ o.datasize.toNat = 0 := by rw [← UInt32.toNat_inj]; rfl
  unfold mkenvimage
  simp only [hfile, take_length, hsmall, hzero]
  split_ifs
  · omega
  · omega
  · omega
  · rfl
  · simp
  · simp
  · simp
  · omega

theorem length_segBytes_le (hok : ∀ s ∈ S, s.1.Ok) : (S.flatMap segBytes).length ≤ (S.flatMap segText).length := by
  induction S with
  | nil => exact Nat.le_refl 0
  | cons s S ih =>
    have hs := length_segBytes (hok s mem_cons_self)
    have ih' := ih fun x hx => hok x (mem_cons_of_mem _ hx)
    simp only [flatMap_cons, length_append]
    omega

theorem segments_ok (hok : ∀ l ∈ ls, l.Ok) (after : Nat) : ∀ s ∈ segments ls after, s.1.Ok := by
  intro s hs
  refine hok s.1 ?_
  rw [← map_fst_segments ls after]
  exact mem_map.2 ⟨s, hs, rfl⟩

theorem convertLoop_file (rest : List UInt8) (hhead : head.length = o.header) (hok : ∀ l ∈ ls, l.Ok)
    (hroom : (envFile ls after).length ≤ rest.length) :
    convertLoop o (envFile ls after) (envFile ls after) 0 0 (head ++ rest) =
        some (((segments ls after).flatMap segBytes).length,
          head ++ (segments ls after).flatMap segBytes ++ rest.drop ((segments ls after).flatMap segBytes).length) ∧
      ((segments ls after).flatMap segBytes).length ≤ (envFile ls after).length := by
  cases ls with
  | nil =>
    have hlead : convertLoop o (envFile [] after) (List.replicate after chNewline ++ []) 0 0 (head ++ rest) = _ :=
      convertLoop_leading after 0 (head ++ rest)
    rw [append_nil] at hlead
    exact ⟨by simpa [envFile, envLines, segments, convertLoop] using hlead, Nat.zero_le _⟩
  | cons l ls =>
    have hle := length_segBytes_le (segments_ok hok after)
    have hfile := envFile_cons l ls after
    have hlen : (envFile (l :: ls) after).length = l.gap + ((segments (l :: ls) after).flatMap segText).length := by
      rw [hfile, length_append, length_replicate]
    have hloop := convertLoop_segments [] rest hhead (segments_ok hok after) hfile (by omega)
    refine ⟨?_, by omega⟩
    rw [length_replicate, length_nil, append_nil, nil_append] at hloop
    rw [← hloop]
    nth_rewrite 2 [hfile]
    rw [convertLoop_leading, Nat.zero_add]

/-- What is stored for the lines of a file. -/
def lineBytes (ls : List EnvLine) (after : Nat) : List UInt8 := (segments ls after).flatMap segBytes

/-- One NUL is enough behind what is stored: the byte before is a NUL. -/
def EndsInNul (o : MkEnvOptions) (dataptr : List UInt8) (ls : List EnvLine) (after : Nat) : Prop :=
  (dataptr.take o.header ++ lineBytes ls after).getLast? = some 0

instance decidableEndsInNul (o : MkEnvOptions) (dataptr : List UInt8) (ls : List EnvLine) (after : Nat) :
    Decidable (EndsInNul o dataptr ls after) := inferInstanceAs (Decidable (_ = _))

/-- The NULs and the padding behind what is stored. -/
def endBytes (o : MkEnvOptions) (dataptr : List UInt8) (ls : List EnvLine) (after : Nat) : List UInt8 :=
  if EndsInNul o dataptr ls after then 0 :: List.replicate (o.envsize.toNat - (lineBytes ls after).length - 1) o.padbyte
  else 0 :: 0 :: List.replicate (o.envsize.toNat - (lineBytes ls after).length - 2) o.padbyte

/-- An environment with the header before it. -/
def envImage (o : MkEnvOptions) (env : List UInt8) : List UInt8 :=
  targetendianCrc o (crc32 0 env) ++ (if o.redundant then [1] else []) ++ env

theorem mkenvimage_run (hdata : dataptr.length = o.datasize.toNat) (hok : ∀ l ∈ ls, l.Ok) (hsize : (envFile ls after).length < 2 ^ 31) (image : List UInt8) :
    mkenvimage o dataptr (envFile ls after) = some (.success image) ↔
      o.header + (envFile ls after).length + 1 ≤ o.datasize.toNat ∧
        (EndsInNul o dataptr ls after ∨ (lineBytes ls after).length + 2 ≤ o.envsize.toNat) ∧
        image = envImage o (lineBytes ls after ++ endBytes o dataptr ls after) := by
  have heq := mkenvimage_eq hdata hsize
  by_cases hroom : o.header + (envFile ls after).length + 1 ≤ o.datasize.toNat
  · have hlt := o.datasize.toNat_lt
    have henv : o.envsize.toNat = o.datasize.toNat - o.header := by
      have := envsize_toNat o
      have := header_le o
      omega
    have hhead : (dataptr.take o.header).length = o.header := by rw [length_take, hdata]; omega
    obtain ⟨hconv, hle⟩ := convertLoop_file (List.replicate o.envsize.toNat o.padbyte) hhead hok
      (show (envFile ls after).length ≤ _ by rw [length_replicate]; omega)
    have hend := endOfEnvironment_eq (lineBytes ls after) (List.replicate (o.envsize.toNat - (lineBytes ls after).length) o.padbyte) hhead
      (ne_nil_of_length_pos (by rw [length_replicate, lineBytes]; omega)) (by rw [length_replicate, lineBytes]; omega)
    rw [← lineBytes] at hconv
    rw [if_pos hroom, hconv, drop_replicate] at heq
    rw [drop_replicate, drop_replicate] at hend
    dsimp only at heq
    rw [heq, hend, and_iff_right hroom, endBytes]
    by_cases hzero : (dataptr.take o.header ++ lineBytes ls after).getLast? = some 0
    · have hends : EndsInNul o dataptr ls after := hzero
      rw [if_pos hzero, if_pos hends, and_iff_right (Or.inl hends)]
      simp only [putHeader_eq hhead, Option.map_some, some.injEq, MkEnvExit.success.injEq]
      exact eq_comm
    · have hends : ¬EndsInNul o dataptr ls after := hzero
      rw [if_neg hzero, if_neg hends, or_iff_right hends]
      by_cases hmore : (lineBytes ls after).length + 2 ≤ o.envsize.toNat
      · rw [if_pos hmore, and_iff_right hmore]
        simp only [putHeader_eq hhead, Option.map_some, some.injEq, MkEnvExit.success.injEq]
        exact eq_comm
      · rw [if_neg hmore]
        simp [hmore]
  · rw [if_neg hroom] at heq
    exact iff_of_false (heq image) fun h => hroom h.1

theorem envImage_parts (hok : ∀ l ∈ ls, l.Ok)
    (hroom : o.header + (envFile ls after).length + 1 ≤ o.datasize.toNat)
    (hend : EndsInNul o dataptr ls after ∨ (lineBytes ls after).length + 2 ≤ o.envsize.toNat) {image : List UInt8}
    (henv : env = lineBytes ls after ++ endBytes o dataptr ls after) (himage : image = envImage o env) :
    image.length = o.datasize.toNat ∧ image.drop o.header = env ∧ image.take CRC_SIZE = targetendianCrc o (crc32 0 env) ∧
      env.length = o.envsize.toNat := by
  have hlt := o.datasize.toNat_lt
  have hsize := envsize_toNat o
  have hheader := header_le o
  have hle := (convertLoop_file (envFile ls after) (length_replicate (n := o.header) (a := 0)) hok (Nat.le_refl _)).2
  rw [← lineBytes] at hle
  have hlen : env.length = o.envsize.toNat := by
    rw [henv, endBytes]
    by_cases hzero : EndsInNul o dataptr ls after
    · rw [if_pos hzero, length_append, length_cons, length_replicate]
      omega
    · have hmore := hend.resolve_left hzero
      rw [if_neg hzero, length_append, length_cons, length_cons, length_replicate]
      omega
  have hcrc : (targetendianCrc o (crc32 0 env)).length = CRC_SIZE := by
    unfold targetendianCrc
    split <;> simp [le32, CRC_SIZE]
  have hhead : (targetendianCrc o (crc32 0 env) ++ (if o.redundant then [(1 : UInt8)] else [])).length = o.header := by
    rw [length_append, hcrc, MkEnvOptions.header]
    cases o.redundant <;> rfl
  rw [himage, envImage]
  refine ⟨?_, ?_, ?_, hlen⟩
  · rw [length_append, hhead, hlen]
    omega
  · rw [← hhead, drop_left]
  · rw [append_assoc, ← hcrc, take_left]

/-- What an import finds in the image of a file with variables. -/
theorem himportR_entries (o : MkEnvOptions) (dataptr : List UInt8) (after : Nat) (hne : ls ≠ []) (hok : ∀ l ∈ ls, l.Ok)
    (hnd : (ls.map fun l => l.var.1).Nodup) (henv : env = lineBytes ls after ++ endBytes o dataptr ls after) :
    ∃ E, Entries (segments ls after) (endBytes o dataptr ls after) E ∧ ∀ (apply : Option ApplyFn) (doApply : Bool) (old : Option Htab),
      Approves apply 0 doApply → ∀ t, hcreateR true (importEntries env.length) none = some t →
        ∃ h', (himportR true true apply old env 0 0 [] doApply = some (1, some h') ∧ E.length ≤ t.size ∧ h'.WF ∧
            ∀ k v, hfind h' k = some v ↔ (k, v) ∈ E.map importedEntry) ∨
          (himportR true true apply old env 0 0 [] doApply = some (0, some h') ∧ t.size < E.length) := by
  have hnames : (segments ls after).map (fun s => s.1.var.1) = ls.map fun l => l.var.1 := by
    nth_rewrite 2 [← map_fst_segments ls after]
    rw [List.map_map]
    rfl
  have hne' : lineBytes ls after ≠ [] := by
    obtain ⟨s, S, hS⟩ := exists_cons_of_ne_nil (segments_ne_nil hne after)
    simp [lineBytes, hS, segBytes]
  obtain ⟨E, hE, hentries⟩ := exists_entries (z := endBytes o dataptr ls after) (segments_ne_nil hne after) (segments_ok hok after)
    (by rw [hnames]; exact hnd) (newline_between ls after) (by unfold endBytes; split_ifs <;> exact ⟨_, rfl⟩) (by
      intro hlast
      have hno : ¬EndsInNul o dataptr ls after := by
        rw [EndsInNul, getLast?_append_of_ne_nil _ hne']
        exact hlast
      rw [endBytes, if_neg hno]
      exact ⟨_, rfl⟩)
  obtain ⟨tail, htail⟩ := hentries.bytes
  refine ⟨E, hentries, fun apply doApply old happ t ht => ?_⟩
  exact himportR_storedEntries (fun e he => (hentries.ok e he).1) (fun e he => (hentries.ok e he).2)
    (hentries.names.nodup (by rw [hnames]; exact hnd)) hE (henv.trans htail) happ ht old

theorem image_fits (hok : ∀ x ∈ l :: ls, x.Ok)
    (hplain : Plain (segments (l :: ls) after)) (hroom : o.header + (envFile (l :: ls) after).length + 1 ≤ o.datasize.toNat) :
    EndsInNul o dataptr (l :: ls) after ∨ (lineBytes (l :: ls) after).length + 2 ≤ o.envsize.toNat ↔
      (l.gap = 0 → after = 0 → o.header + (envFile (l :: ls) after).length + 2 ≤ o.datasize.toNat) := by
  have hlt := o.datasize.toNat_lt
  have hsize := envsize_toNat o
  have hheader := header_le o
  have hlen := length_plain (segments_ok hok after) hplain.1
  obtain ⟨s, S, hS⟩ := exists_cons_of_ne_nil (segments_ne_nil (cons_ne_nil l ls) after)
  have hlast : EndsInNul o dataptr (l :: ls) after ↔ after ≠ 0 := by
    rw [EndsInNul, lineBytes, getLast?_append_of_ne_nil _ (by simp [hS, segBytes]), getLast?_plain (cons_ne_nil l ls) hplain.1]
  rw [envFile_cons, length_append, length_replicate, ← hlen] at hroom ⊢
  rw [hlast, lineBytes]
  omega

theorem segments_vars (ls : List EnvLine) (after : Nat) : (segments ls after).map (fun s => s.1.var) = ls.map EnvLine.var := by
  nth_rewrite 2 [← map_fst_segments ls after]
  rw [List.map_map]
  rfl

end MkEnvAux

open MkEnvAux

/-- mkenvimage writes the environment of its text file. For lines of distinct variables with no empty line between them, none of
which but one at the end of the file ends in a backslash, and an image with room for the file: the image is written without an
access outside it, its CRC is that of its data part, and an import of the data part with room for the variables returns 1 and leaves
exactly these variables, with the escapes of their values removed. -/
theorem mkenvimage_imports (o : MkEnvOptions) (dataptr : List UInt8)
    (hdata : dataptr.length = o.datasize.toNat) (ls : List EnvLine) (after : Nat) (hne : ls ≠ []) (hok : ∀ l ∈ ls, l.Ok)
    (hnd : (ls.map fun l => l.var.1).Nodup) (hsize : (envFile ls after).length < 2 ^ 31) (hgap : ∀ l ∈ ls.tail, l.gap = 0)
    (hclosed : ∀ l ∈ ls.dropLast, l.Closed) (hlast : after ≠ 0 → ∀ l, ls.getLast? = some l → l.Closed)
    (hroom : o.header + (envFile ls after).length + 1 ≤ o.datasize.toNat)
    (hend : ∀ l, ls.head? = some l → l.gap = 0 → after = 0 → o.header + (envFile ls after).length + 2 ≤ o.datasize.toNat) :
    ∃ image, mkenvimage o dataptr (envFile ls after) = some (.success image) ∧ image.length = o.datasize.toNat ∧
      image.take CRC_SIZE = targetendianCrc o (crc32 0 (image.drop o.header)) ∧
      ∀ t, hcreateR true (importEntries (image.drop o.header).length) none = some t → ls.length ≤ t.size →
        ∀ (apply : Option ApplyFn) (doApply : Bool) (old : Option Htab), Approves apply 0 doApply →
          ∃ h, himportR true true apply old (image.drop o.header) 0 0 [] doApply = some (1, some h) ∧ h.WF ∧
            ∀ k v, hfind h k = some v ↔ (k, v) ∈ ls.map (fun l => importedEntry l.var) := by
  have hplain : Plain (segments ls after) := (plain_segments _ _).2 ⟨hgap, hclosed, hlast⟩
  have hfits : EndsInNul o dataptr ls after ∨ (lineBytes ls after).length + 2 ≤ o.envsize.toNat := by
    obtain ⟨l, ls, rfl⟩ := exists_cons_of_ne_nil hne
    exact (image_fits hok hplain hroom).2 (hend l rfl)
  obtain ⟨hlen, hdrop, hcrc, -⟩ := envImage_parts hok hroom hfits rfl rfl
  refine ⟨_, (mkenvimage_run hdata hok hsize _).2 ⟨hroom, hfits, rfl⟩, hlen, by rw [hdrop, hcrc], ?_⟩
  intro t ht hroom apply doApply old happ
  rw [hdrop] at ht ⊢
  obtain ⟨E, hentries, himport⟩ := himportR_entries o dataptr after hne hok hnd rfl
  have hE : E = ls.map EnvLine.var := (hentries.plain hplain).trans (segments_vars ls after)
  obtain ⟨h, ⟨himp, -, hwf, hfind⟩ | ⟨-, hno⟩⟩ := himport apply doApply old happ t ht
  · rw [hE, List.map_map] at hfind
    exact ⟨h, himp, hwf, hfind⟩
  · rw [hE, length_map] at hno
    exact absurd hroom (Nat.not_le.2 hno)

namespace MkEnvAux

/-! ## The padding as an environment -/

variable {after : Nat} {E : List (CString × CString)}

/-- An import of padding that is not NUL reads behind it. -/
theorem importEntry_pad {b : UInt8} (hb : b ≠ 0) (apply : Option ApplyFn) (doApply : Bool) (n : Nat) (h : Htab) (vars : List (Option CString)) :
    importEntry apply 0 0 doApply (List.replicate n b) h vars = none := by
  have hblanks (hblank : isblank b = true) (n : Nat) : skipBlanks (List.replicate n b) = none := by
    induction n with
    | zero => rfl
    | succ n ih => rw [replicate_succ, skipBlanks, if_pos hblank, ih]
  have hcomment (n : Nat) : skipComment 0 (List.replicate n b) = none := by
    induction n with
    | zero => rfl
    | succ n ih => rw [replicate_succ, skipComment, if_pos ⟨hb, hb⟩, ih]
  have hname (heq : b ≠ chEquals) (n : Nat) : parseName 0 (List.replicate n b) = none := by
    induction n with
    | zero => rfl
    | succ n ih => rw [replicate_succ, parseName, if_pos ⟨heq, hb, hb⟩, ih, Option.map_none]
  have hvalue (hslash : b ≠ chBackslash) (n : Nat) : parseValue 0 (List.replicate n b) = none := by
    induction n with
    | zero => rfl
    | succ n ih => rw [replicate_succ, parseValue_plain ⟨hb, hb⟩ hslash, ih, Option.map_none]
  rw [importEntry]
  by_cases hblank : isblank b = true
  · rw [hblanks hblank]
  cases n with
  | zero => rfl
  | succ n =>
    rw [show skipBlanks (List.replicate (n + 1) b) = some (List.replicate (n + 1) b) by rw [replicate_succ, skipBlanks, if_neg hblank]]
    dsimp only
    by_cases hhash : b = chHash
    · rw [if_pos (by rw [replicate_succ, hhash]; rfl), hcomment]
      rfl
    rw [if_neg (by simpa [replicate_succ] using hhash)]
    by_cases heq : b = chEquals
    · cases n with
      | zero => simp [parseName, isDeleteEntry, heq, show chEquals ≠ 0 by decide]
      | succ n =>
        have hparse := hvalue (by rw [heq]; decide) (n + 1)
        simp [replicate_succ, parseName, isDeleteEntry, heq, show chEquals ≠ 0 by decide] at hparse ⊢
        simp [hparse]
    · rw [hname heq]

/-- Without variables, the import of the image depends on the byte before the environment. -/
theorem importsFile_nil {dataptr : List UInt8} (hdata : dataptr.length = o.datasize.toNat)
    (hsize : (envFile [] after).length < 2 ^ 31) : ImportsFile o dataptr [] after ↔
      o.header + (envFile [] after).length + 1 ≤ o.datasize.toNat ∧ ∀ b, dataptr[o.header - 1]? = some b →
        if b = 0 then o.padbyte = 0 ∨ o.datasize.toNat = o.header + 1 else o.header + 2 ≤ o.datasize.toNat := by
  have hlt := o.datasize.toNat_lt
  have hsizeof := envsize_toNat o
  have hheader := header_le o
  by_cases hroom : o.header + (envFile [] after).length + 1 ≤ o.datasize.toNat
  · obtain ⟨b, hb⟩ : ∃ b, dataptr[o.header - 1]? = some b := ⟨_, getElem?_eq_getElem (by omega)⟩
    have hends : EndsInNul o dataptr [] after ↔ b = 0 := by
      have hlast : (dataptr.take o.header).getLast? = some b := by
        rw [getLast?_eq_getElem?, length_take, Nat.min_eq_left (by omega), getElem?_take_of_lt (by omega), hb]
      rw [EndsInNul, lineBytes, segments, flatMap_nil, append_nil, hlast, some.injEq]
    have hbounds := importEntries_bounds o.envsize.toNat
    obtain ⟨n, hn, hp, hle, -⟩ := hcreateR_spec (importEntries o.envsize.toNat) (by omega) (by omega)
    have hf := filled_fresh hp (by omega)
    -- an import begins with the NUL, and ends there if another follows or nothing
    have himport (rest : List UInt8) (hlen : (0 :: rest).length = o.envsize.toNat) (apply : Option ApplyFn) (doApply : Bool) (old : Option Htab) :
        (rest = [] ∨ rest.head? = some 0 → himportR true true apply old (0 :: rest) 0 0 [] doApply = some (1, some ⟨fun _ => Slot.zero, n, 0⟩)) ∧
          (¬(rest = [] ∨ rest.head? = some 0) → importLoop apply 0 0 doApply (0 :: rest).length rest ⟨fun _ => Slot.zero, n, 0⟩ [] = none →
            himportR true true apply old (0 :: rest) 0 0 [] doApply = none) := by
      have htab : importTable true 0 (0 :: rest).length old = some ⟨fun _ => Slot.zero, n, 0⟩ := by
        rw [hlen]
        simpa [importTable, noclear] using hn
      simp only [himportR, htab, Bool.not_true, if_false, Bool.false_eq_true, map_nil, importLoop_empty hf]
      constructor
      · intro hends
        rw [if_pos hends]
        rfl
      · intro hmore hnone
        rw [if_neg hmore, hnone]
    have hok : ∀ l ∈ ([] : List EnvLine), l.Ok := by simp
    have hbytes : lineBytes [] after ++ endBytes o dataptr [] after = 0 :: if b = 0 then List.replicate (o.envsize.toNat - 1) o.padbyte
        else 0 :: List.replicate (o.envsize.toNat - 2) o.padbyte := by
      rw [endBytes, lineBytes, segments, flatMap_nil, nil_append, length_nil, Nat.sub_zero]
      by_cases hzero : b = 0
      · rw [if_pos (hends.2 hzero), if_pos hzero]
      · rw [if_neg (mt hends.1 hzero), if_neg hzero]
    constructor
    · rintro ⟨image, himage, -, -, himp⟩
      obtain ⟨-, hfits, himage⟩ := (mkenvimage_run hdata hok hsize image).1 himage
      obtain ⟨-, hdrop, -, henv⟩ := envImage_parts hok hroom hfits rfl himage
      obtain ⟨h, hrun, -⟩ := himp none false none (by intro h; cases h)
      refine ⟨hroom, fun b' hb' => ?_⟩
      obtain rfl : b = b' := some.inj (hb.symm.trans hb')
      rw [hbytes] at henv
      rw [hdrop, hbytes] at hrun
      by_cases hzero : b = 0
      · simp only [if_pos hzero] at henv hrun ⊢
        by_contra hno
        rw [not_or] at hno
        have hpad : importLoop none 0 0 false (0 :: List.replicate (o.envsize.toNat - 1) o.padbyte).length
            (List.replicate (o.envsize.toNat - 1) o.padbyte) ⟨fun _ => Slot.zero, n, 0⟩ [] = none := by
          rw [length_cons, importLoop, importEntry_pad hno.1]
        rw [(himport _ henv none false none).2 ?_ hpad] at hrun
        · cases hrun
        · obtain ⟨k, hk⟩ : ∃ k, o.envsize.toNat - 1 = k + 1 := ⟨o.envsize.toNat - 2, by omega⟩
          simpa [hk, replicate_succ] using hno.1
      · rw [hends, lineBytes, segments, flatMap_nil, length_nil] at hfits
        have hmore := hfits.resolve_left hzero
        rw [if_neg hzero]
        omega
    · rintro ⟨-, hempty⟩
      have hb' := hempty b hb
      have hfits : EndsInNul o dataptr [] after ∨ (lineBytes [] after).length + 2 ≤ o.envsize.toNat := by
        rw [hends, lineBytes, segments, flatMap_nil, length_nil]
        by_cases hzero : b = 0
        · exact Or.inl hzero
        · rw [if_neg hzero] at hb'
          omega
      obtain ⟨hlen, hdrop, hcrc, henv⟩ := envImage_parts hok hroom hfits rfl rfl
      refine ⟨_, (mkenvimage_run hdata hok hsize _).2 ⟨hroom, hfits, rfl⟩, hlen, by rw [hdrop, hcrc], fun apply doApply old happ => ?_⟩
      rw [hbytes] at henv
      refine ⟨⟨fun _ => Slot.zero, n, 0⟩, ?_, hf.wf, hf.mem_iff⟩
      rw [hdrop, hbytes]
      refine (himport _ henv apply doApply old).1 ?_
      by_cases hzero : b = 0
      · rw [if_pos hzero] at hb' ⊢
        rcases hb' with hpad | hone
        · cases hk : o.envsize.toNat - 1 with
          | zero => exact Or.inl rfl
          | succ k => exact Or.inr (by rw [replicate_succ, hpad]; rfl)
        · exact Or.inl (by rw [show o.envsize.toNat - 1 = 0 by omega]; rfl)
      · rw [if_neg hzero]
        exact Or.inr rfl
  · refine iff_of_false ?_ fun h => hroom h.1
    rintro ⟨image, himage, -⟩
    exact hroom ((mkenvimage_run hdata (by simp) hsize image).1 himage).1

theorem kept_of_found {ls : List EnvLine} (hnd : (ls.map fun l => l.var.1).Nodup) {z : List UInt8} (hentries : Entries (segments ls after) z E) (hall : ∀ l ∈ ls, l.var ∈ E.map importedEntry) :
    Plain (segments ls after) ∧ E = ls.map EnvLine.var ∧ ∀ l ∈ ls, chBackslash ∉ l.var.2.bytes.dropLast := by
  have hplain : Plain (segments ls after) := by
    refine hentries.kept fun s hs => hall s.1 ?_
    rw [← map_fst_segments ls after]
    exact mem_map.2 ⟨s, hs, rfl⟩
  have hE : E = ls.map EnvLine.var := (hentries.plain hplain).trans (segments_vars ls after)
  refine ⟨hplain, hE, fun l hl => ?_⟩
  obtain ⟨e, he, heq⟩ := mem_map.1 (hall l hl)
  rw [hE] at he
  obtain ⟨x, hx, rfl⟩ := mem_map.1 he
  have hname : x.var.1 = l.var.1 := by rw [← heq]; rfl
  obtain rfl : x = l := inj_on_of_nodup_map hnd hx hl hname
  exact (importedEntry_eq_self_iff _ _).1 heq

end MkEnvAux

/-- mkenvimage writes an image that gives the variables of the file back, if and only if no value has a backslash but at the end of a file
without a last newline, no empty line is between two variables, and there is room. -/
theorem mkenvimage_imports_iff (o : MkEnvOptions) (dataptr : List UInt8) (hdata : dataptr.length = o.datasize.toNat) (ls : List EnvLine)
    (after : Nat) (hok : ∀ l ∈ ls, l.Ok) (hnd : (ls.map fun l => l.var.1).Nodup) (hsize : (envFile ls after).length < 2 ^ 31) :
    ImportsFile o dataptr ls after ↔ FileKept o dataptr ls after := by
  have hbounds := importEntries_bounds o.envsize.toNat
  obtain ⟨n, hn, -, -, -⟩ := hcreateR_spec (importEntries o.envsize.toNat) (by omega) (by omega)
  by_cases hne : ls = []
  · subst hne
    rw [importsFile_nil hdata hsize]
    refine ⟨fun h => ⟨h.1, by simp, by simp, by simp, by simp, by simp, ⟨_, hn, Nat.zero_le _⟩, fun _ => h.2⟩, fun h => ⟨h.room, h.empty rfl⟩⟩
  constructor
  · rintro ⟨image, himage, -, -, himp⟩
    obtain ⟨hroom, hfits, himage⟩ := (mkenvimage_run hdata hok hsize image).1 himage
    obtain ⟨-, hdrop, -, henv⟩ := envImage_parts hok hroom hfits rfl himage
    have happ : Approves none 0 false := by
      intro h
      cases h
    obtain ⟨h, hrun, -, hfind⟩ := himp none false none happ
    obtain ⟨E, hentries, himport⟩ := himportR_entries o dataptr after hne hok hnd rfl
    rw [hdrop] at hrun
    obtain ⟨h', ⟨himp', htable, -, hfind'⟩ | ⟨himp', -⟩⟩ := himport none false none happ _ (by rw [henv]; exact hn)
    · obtain rfl : h = h' := by
        rw [himp'] at hrun
        exact (some.inj (Prod.mk.inj (some.inj hrun)).2).symm
      obtain ⟨hplain, hE, hvalues⟩ := kept_of_found hnd hentries fun l hl => (hfind' _ _).1 ((hfind _ _).2 (mem_map.2 ⟨l, hl, rfl⟩))
      obtain ⟨hgaps, hclosed, hlast⟩ := (plain_segments ls after).1 hplain
      rw [hE, length_map] at htable
      refine ⟨hroom, ?_, hgaps, hvalues, hclosed, hlast, ⟨_, hn, htable⟩, fun h => absurd h hne⟩
      intro l hl
      obtain ⟨ls, rfl⟩ := head?_eq_some_iff.1 hl
      exact (image_fits hok hplain hroom).1 hfits
    · rw [himp'] at hrun
      cases (Prod.mk.inj (some.inj hrun)).1
  · intro hkept
    obtain ⟨image, himage, hlen, hcrc, himport⟩ := mkenvimage_imports o dataptr hdata ls after hne hok hnd hsize hkept.gaps hkept.closed
      hkept.last hkept.room hkept.ending
    refine ⟨image, himage, hlen, hcrc, fun apply doApply old happ => ?_⟩
    obtain ⟨t, ht, htable⟩ := hkept.table
    have hdrop : (image.drop o.header).length = o.envsize.toNat := by
      have := envsize_toNat o
      have := header_le o
      have := hkept.room
      have := o.datasize.toNat_lt
      rw [length_drop, hlen]
      omega
    obtain ⟨h, himp, hwf, hfind⟩ := himport t (by rw [hdrop]; exact ht) htable apply doApply old happ
    have hself : ls.map (fun l => importedEntry l.var) = ls.map EnvLine.var :=
      map_congr_left fun l hl => (importedEntry_eq_self_iff l.var.1 l.var.2).2 (hkept.values l hl)
    rw [hself] at hfind
    exact ⟨h, himp, hwf, hfind⟩

/-! ## Files -/

/-- A small image of a redundant environment. -/
def smallImage : MkEnvOptions := ⟨32, true, false, 0xff⟩

/-- An empty line, `a=1` and `b=2`. -/
def twoLines (gap : Nat) : List EnvLine := [⟨1, oneChar 0x61, oneChar 0x31⟩, ⟨gap, oneChar 0x62, oneChar 0x32⟩]

namespace MkEnvAux

theorem twoLines_ok : ∀ l ∈ twoLines 0, l.Ok := by
  intro l hl
  rcases mem_cons.1 hl with rfl | hl
  · exact ⟨oneChar_nameOk (by decide) (by decide) (by decide) (by decide), by decide, by decide, by decide⟩
  · obtain rfl := mem_singleton.1 hl
    exact ⟨oneChar_nameOk (by decide) (by decide) (by decide) (by decide), by decide, by decide, by decide⟩

theorem import_room (size n : Nat) (hn : n ≤ 64) : ∃ t, hcreateR true (importEntries size) none = some t ∧ n ≤ t.size := by
  have hb := importEntries_bounds size
  obtain ⟨m, hm, -, hle, -⟩ := hcreateR_spec (importEntries size) (by omega) (by omega)
  exact ⟨_, hm, Nat.le_trans hn (Nat.le_trans hb.1 hle)⟩

end MkEnvAux

/-- The image of a file that begins and ends with an empty line. -/
theorem mkenvimage_imports_two : ImportsFile smallImage (List.replicate 32 0) (twoLines 0) 2 :=
  (mkenvimage_imports_iff smallImage (List.replicate 32 0) (by decide) (twoLines 0) 2 MkEnvAux.twoLines_ok (by decide) (by decide)).2
    ⟨by decide, by decide, by decide, by decide, by simp [twoLines, EnvLine.Closed]; decide, by simp [twoLines, EnvLine.Closed]; decide,
      MkEnvAux.import_room _ 2 (by decide), fun h => by cases h⟩

/-- The value `x\y`. -/
def backslashValue : CString := CString.ofBytes [0x78, chBackslash, 0x79]

/-- `a=x\y` is imported with another value, and with an empty line between `a=1` and `b=2` the second variable is not imported. -/
theorem mkenvimage_imports_false :
    (∃ image h, mkenvimage smallImage (List.replicate 32 0) (envFile [⟨0, oneChar 0x61, backslashValue⟩] 1) = some (.success image) ∧
      himportR true true none none (image.drop 5) 0 0 [] false = some (1, some h) ∧
      hfind h (oneChar 0x61) ≠ some backslashValue) ∧
    ∃ image h, mkenvimage smallImage (List.replicate 32 0) (envFile (twoLines 1) 1) = some (.success image) ∧
      himportR true true none none (image.drop 5) 0 0 [] false = some (1, some h) ∧ hfind h (oneChar 0x62) = none := by
  have hname : NameOk 0 (oneChar 0x61) := oneChar_nameOk (by decide) (by decide) (by decide) (by decide)
  -- what an import of one stored entry finds
  have himport (v : CString) (hv : v.bytes ≠ []) {env tail : List UInt8} (henv : env = [(oneChar 0x61, v)].flatMap storedEntry ++ 0 :: tail) :
      ∃ h, himportR true true none none env 0 0 [] false = some (1, some h) ∧
        ∀ k u, hfind h k = some u ↔ (k, u) ∈ [importedEntry (oneChar 0x61, v)] := by
    obtain ⟨t, ht, hroom⟩ := MkEnvAux.import_room env.length 1 (by decide)
    have happ : Approves none 0 false := by
      intro h
      cases h
    obtain ⟨h, ⟨himp, -, -, hfind⟩ | ⟨-, hno⟩⟩ := himportR_storedEntries (by simpa using hname) (by simpa using hv) (by simp)
      (by simp) henv happ ht none
    · exact ⟨h, himp, hfind⟩
    · exact absurd hroom (Nat.not_le.2 hno)
  constructor
  · obtain ⟨image, himage, henv⟩ : ∃ image,
        mkenvimage smallImage (List.replicate 32 0) (envFile [⟨0, oneChar 0x61, backslashValue⟩] 1) = some (.success image) ∧
        image.drop 5 = [(oneChar 0x61, backslashValue)].flatMap storedEntry ++ 0 :: List.replicate 20 0xff := ⟨_, rfl, rfl⟩
    obtain ⟨h, himp, hfind⟩ := himport backslashValue (by decide) henv
    refine ⟨image, h, himage, himp, ?_⟩
    rw [Ne, hfind]
    decide
  · obtain ⟨image, himage, henv⟩ : ∃ image, mkenvimage smallImage (List.replicate 32 0) (envFile (twoLines 1) 1) = some (.success image) ∧
        image.drop 5 = [(oneChar 0x61, oneChar 0x31)].flatMap storedEntry ++ 0 ::
          ([0x62, 0x3d, 0x32, 0, 0] ++ List.replicate 17 0xff) := ⟨_, rfl, rfl⟩
    obtain ⟨h, himp, hfind⟩ := himport (oneChar 0x31) (by decide) henv
    refine ⟨image, h, himage, himp, ?_⟩
    rw [eq_none_iff_forall_ne_some]
    intro u hu
    have hname' := (Prod.mk.inj (mem_singleton.1 ((hfind _ _).1 hu))).1
    exact absurd hname' (by decide)

end

/-!
## Standard input of mkenvimage

What is read from standard input is what comes there just if a single `read` delivers all of it.
-/

section

namespace MkEnvStdin

variable {memory chunk : List UInt8} {chunks : List (List UInt8)}

theorem putBytes_first (hmemory : memory.length = READLEN) (hchunk : chunk.length ≤ READLEN) :
    putBytes memory 0 chunk = some (chunk ++ memory.drop chunk.length) := by
  have hput := putBytes_append [] (memory.take chunk.length) (memory.drop chunk.length) chunk (by rw [length_take]; omega)
  rw [nil_append, take_append_drop] at hput
  exact hput

theorem putBytes_behind {c : UInt8} (hmemory : memory.length = READLEN) : putBytes memory READLEN (c :: chunk) = none := by
  have hput : putByte memory READLEN c = none := if_neg (by omega)
  rw [putBytes, hput]
  rfl

theorem stdinLoop_first (hmemory : memory.length = READLEN) (hchunk : chunk.length ≤ READLEN) : stdinLoop (chunk :: chunks) memory 0 =
      if chunk.length = READLEN then stdinLoop chunks (chunk ++ memory.drop chunk.length) READLEN
      else some (chunk ++ memory.drop chunk.length, chunk.length) := by
  rw [stdinLoop, putBytes_first hmemory hchunk, bind_some, Nat.zero_add]
  split
  next hlen => rw [hlen]
  · rfl

theorem readStdin_one (hmemory : memory.length = READLEN) (hchunk : chunk.length ≤ READLEN) : readStdin memory [chunk] = some chunk := by
  unfold readStdin
  rw [stdinLoop_first hmemory hchunk]
  split
  next hlen =>
    rw [stdinLoop, ← hlen]
    exact congrArg some take_left
  · exact congrArg some take_left

theorem readStdin_more {second : List UInt8} (hmemory : memory.length = READLEN) (hchunk : chunk.length ≤ READLEN) (hsecond : second ≠ []) :
    readStdin memory (chunk :: second :: chunks) = if chunk.length = READLEN then none else some chunk := by
  obtain ⟨c, cs, rfl⟩ := exists_cons_of_ne_nil hsecond
  unfold readStdin
  rw [stdinLoop_first hmemory hchunk]
  split
  next hlen =>
    have hfull : (chunk ++ memory.drop chunk.length).length = READLEN := by
      rw [length_append, length_drop]
      omega
    rw [stdinLoop, putBytes_behind hfull]
    rfl
  · exact congrArg some take_left

end MkEnvStdin

open MkEnvStdin in
/-- What is read from standard input is what comes there just if it comes in one chunk, or there is nothing. -/
theorem mkenvimage_stdin_iff (memory : List UInt8) (hmemory : memory.length = READLEN) (chunks : List (List UInt8))
    (hchunks : ∀ chunk ∈ chunks, chunk ≠ [] ∧ chunk.length ≤ READLEN) :
    readStdin memory chunks = some chunks.flatten ↔ chunks.length ≤ 1 := by
  match chunks with
  | [] => exact iff_of_true rfl (by decide)
  | [chunk] =>
    rw [readStdin_one hmemory (hchunks chunk mem_cons_self).2, flatten_singleton]
    exact iff_of_true rfl (Nat.le_refl 1)
  | chunk :: second :: chunks =>
    have hsecond := (hchunks second (mem_cons_of_mem _ mem_cons_self)).1
    rw [readStdin_more hmemory (hchunks chunk mem_cons_self).2 hsecond]
    refine iff_of_false ?_ (by simp)
    intro h
    split at h
    · cases h
    · -- the second chunk is missing
      have hlen := congrArg List.length (some.inj h)
      have hpos := length_pos_of_ne_nil hsecond
      rw [flatten_cons, flatten_cons, length_append, length_append] at hlen
      omega

/-- `a=b` and a newline in one chunk. -/
theorem mkenvimage_stdin_line :
    readStdin (List.replicate READLEN 0) [[0x61, 0x3d, 0x62, 0x0a]] = some [0x61, 0x3d, 0x62, 0x0a] :=
  (mkenvimage_stdin_iff _ length_replicate [[0x61, 0x3d, 0x62, 0x0a]] (by decide)).2 (by decide)

/-- `a=b` and a newline from a pipe, in two chunks. -/
theorem mkenvimage_stdin_pipe :
    readStdin (List.replicate READLEN 0) [[0x61, 0x3d], [0x62, 0x0a]] ≠ some [[0x61, 0x3d], [0x62, 0x0a]].flatten := by
  rw [MkEnvStdin.readStdin_more length_replicate (by decide) (by decide)]
  decide

end

end UBoot
