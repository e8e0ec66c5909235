import UBoot.Vsprintf

/-!
# What bounded printf stores and returns

Every conversion is `ADDCH` of a list of characters that does not depend on the output (`formatLoop_text`), so the bounded output holds
what there is room for of the text. The NUL goes through `ADDCH` too and is counted.
-/

namespace UBoot

open List Option

/-- Memory after formatting into `buf[0..size-1]`: nothing else has changed, and the buffer holds the text as far as it fits before a
NUL, and the NUL. -/
structure OutputRight (mem mem' : UInt32 → UInt8) (buf size : UInt32) (text : List UInt8) : Prop where
  inside : ∀ a, size ≤ a - buf → mem' a = mem a
  shown : ∀ i (h : i < text.length), i < size.toNat - 1 → mem' (buf + UInt32.ofNat i) = text[i]
  nul : size ≠ 0 → mem' (buf + UInt32.ofNat (min text.length (size.toNat - 1))) = 0

namespace SnprintfAux

section
variable {σ : Type} (addch : σ → UInt8 → σ) (buf : σ)

theorem addchs_append (as bs : List UInt8) : addchs addch (addchs addch buf as) bs = addchs addch buf (as ++ bs) :=
  foldl_append.symm

theorem addchs_singleton (ch : UInt8) : addch buf ch = addchs addch buf [ch] := rfl

theorem addchs_text (text chs : List UInt8) : addchs addchText text chs = text ++ chs := by
  induction chs generalizing text with
  | nil => exact (append_nil text).symm
  | cons ch chs ih => exact (ih (text ++ [ch])).trans (append_assoc text [ch] chs)

theorem addchs_addchs (text more : List UInt8) : addchs addch (addchs addch buf text) more = addchs addch buf (addchs addchText text more) := by
  rw [addchs_append, addchs_text]

theorem addchs_ite (p : Prop) [Decidable p] (chs : List UInt8) :
    (if p then addchs addch buf chs else buf) = addchs addch buf (if p then chs else []) := by
  split
  · rfl
  · rfl

theorem addchs_ite_addchs (p : Prop) [Decidable p] (as bs : List UInt8) :
    (if p then addchs addch buf as else addchs addch buf bs) = addchs addch buf (if p then as else bs) := by
  split
  · rfl
  · rfl

/-! ### The conversions -/

theorem number_text (num : UInt64) (base : UInt8) (size precision : Int) (type : FmtFlags) :
    number addch buf num base size precision type = addchs addch buf (number addchText [] num base size precision type) := by
  simp only [number, addWhile, addchs_singleton addch, addchs_singleton addchText, addchs_append, addchs_ite, addchs_ite_addchs, addchs_text,
    nil_append]

theorem string_text (str : Option (List UInt8)) (fieldWidth precision : Int) (flags : FmtFlags) :
    string addch buf str fieldWidth precision flags = addchs addch buf (string addchText [] str fieldWidth precision flags) := by
  simp only [string, addchs_append, addchs_ite, addchs_text, nil_append]

theorem pointer_text (net : Bool) (fmt : List UInt8) (ptr : UInt32) (addr : Nat → UInt8) (fieldWidth precision : Int) (flags : FmtFlags) :
    pointer addch buf net fmt ptr addr fieldWidth precision flags =
      addchs addch buf (pointer addchText [] net fmt ptr addr fieldWidth precision flags) := by
  unfold pointer macAddressString ip6AddrString ip4AddrString
  dsimp only
  split
  · exact string_text addch buf _ _ _ _
  · split
    · exact string_text addch buf _ _ _ _
    · split
      · exact string_text addch buf _ _ _ _
      · split
        · exact string_text addch buf _ _ _ _
        · split
          · exact number_text addch buf _ _ _ _ _
          · exact number_text addch buf _ _ _ _ _

theorem charField_text (ch : UInt8) (fieldWidth : Int) (flags : FmtFlags) :
    charField addch buf ch fieldWidth flags = addchs addch buf (charField addchText [] ch fieldWidth flags) := by
  simp only [charField, addchs_singleton addch, addchs_singleton addchText, addchs_append, addchs_ite, addchs_text, nil_append]

/-! ### The directives and the loop -/

/-- A conversion adds the characters of its text to the output. -/
theorem convert_text (net : Bool) (r : FmtCursor) :
    convert net addch buf r = (convert net addchText [] r).map fun (text, left) => (addchs addch buf text, left) := by
  unfold convert
  split
  · rfl
  next _ c fmt _ =>
    split
    · rw [Option.map_map]
      exact Option.map_congr fun r _ => by cases r; exact Prod.ext (charField_text addch buf _ _ _) rfl
    · split
      · rw [Option.map_map]
        exact Option.map_congr fun r _ => by cases r; exact Prod.ext (string_text addch buf _ _ _ _) rfl
      · split
        · rw [Option.map_map]
          exact Option.map_congr fun r _ => by
            obtain ⟨⟨ptr, addr⟩, args⟩ := r
            exact Prod.ext (pointer_text addch buf _ _ _ _ _ _ _) rfl
        · split
          · rfl
          · split
            · rfl
            · cases numberFormat c r.flags with
              | none => rfl
              | some format =>
                dsimp only
                rw [Option.map_map]
                exact Option.map_congr fun r _ => by cases r; exact Prod.ext (number_text addch buf _ _ _ _ _) rfl

theorem directive_text (net : Bool) (fmt : List UInt8) (args : List VArg) : directive net addch buf fmt args =
      (directive net addchText [] fmt args).map fun (text, left) => (addchs addch buf text, left) := by
  unfold directive
  dsimp only
  rw [map_bind]
  exact congrArg _ (funext fun r => convert_text addch buf net r.readQualifier)

end

/-- A format adds the characters of its text to the output, whatever the output is. -/
theorem formatLoop_text {σ : Type} (net : Bool) (addch : σ → UInt8 → σ) (buf : σ) (fmt : List UInt8) (args : List VArg) :
    formatLoop net addch buf fmt args = (formatLoop net addchText [] fmt args).map (addchs addch buf) := by
  -- on the length of the format: a directive takes a `%` at least
  induction hn : fmt.length using Nat.strongRecOn generalizing σ addch buf fmt args with
  | ind n ih =>
    cases fmt with
    | nil =>
      rw [formatLoop_nil, formatLoop_nil]
      rfl
    | cons c fmt =>
      rw [length_cons] at hn
      by_cases hc : c = asc '%'
      · rw [hc, formatLoop_directive, formatLoop_directive, directive_text, map_bind]
        rw [bind_map]
        refine bind_congr fun (text, rest, args') hdir => ?_
        have hrest : rest.length < n := hn ▸ Nat.lt_succ_of_le (directive_length hdir)
        dsimp only [Function.comp]
        rw [ih rest.length hrest addch _ rest args' rfl, ih rest.length hrest addchText text rest args' rfl, Option.map_map]
        exact Option.map_congr fun more _ => addchs_addchs addch buf text more
      · rw [formatLoop_literal net addch buf args hc, formatLoop_literal net addchText [] args hc]
        have hfmt : fmt.length < n := hn ▸ Nat.lt_succ_self _
        rw [ih fmt.length hfmt addch (addch buf c) fmt args rfl, ih fmt.length hfmt addchText (addchText [] c) fmt args rfl, Option.map_map]
        exact Option.map_congr fun more _ => addchs_addchs addch buf [c] more

/-! ### The bounded output -/

section
variable (bound : UInt32)
variable {a : UInt32}

theorem addchs_str (out : FmtOut) (chs : List UInt8) : (addchs (addchMem bound) out chs).str = out.str + UInt32.ofNat chs.length := by
  induction chs generalizing out with
  | nil => exact (UInt32.add_zero out.str).symm
  | cons ch chs ih =>
    calc
      (addchs (addchMem bound) (addchMem bound out ch) chs).str = out.str + 1 + UInt32.ofNat chs.length := ih _
      _ = out.str + (UInt32.ofNat chs.length + 1) := by rw [UInt32.add_assoc, UInt32.add_comm 1]
      _ = out.str + UInt32.ofNat (ch :: chs).length := by rw [length_cons, UInt32.ofNat_add]; rfl

theorem sub_add_one {p : UInt32} (h : a ≠ p) : (a - p).toNat = (a - (p + 1)).toNat + 1 := by
  have hne : a.toNat ≠ p.toNat := fun h0 => h (UInt32.toNat_inj.1 h0)
  have ha := a.toNat_lt
  have hp := p.toNat_lt
  rw [UInt32.toNat_sub, UInt32.toNat_sub, UInt32.toNat_add, UInt32.toNat_one]
  omega

theorem sub_self_add_one (p : UInt32) : (p - (p + 1)).toNat = 2 ^ 32 - 1 := by
  have hp := p.toNat_lt
  rw [UInt32.toNat_sub, UInt32.toNat_add, UInt32.toNat_one]
  omega

theorem addchMem_mem_of_ne {out : FmtOut} (ch : UInt8) (h : a ≠ out.str) : (addchMem bound out ch).mem a = out.mem a := by
  unfold addchMem
  dsimp only
  split
  · exact if_neg h
  · rfl

/-- Nothing is stored from `end` on. -/
theorem addchs_mem_end (out : FmtOut) (chs : List UInt8) (h : ¬a < bound) :
    (addchs (addchMem bound) out chs).mem a = out.mem a := by
  induction chs generalizing out with
  | nil => rfl
  | cons ch chs ih =>
    refine (ih (addchMem bound out ch)).trans ?_
    by_cases ha : a = out.str
    · unfold addchMem
      rw [if_neg (ha ▸ h)]
    · exact addchMem_mem_of_ne bound ch ha

/-- Below `end` the memory shows the characters, as far as they reach. -/
theorem addchs_mem (out : FmtOut) (chs : List UInt8) (hlen : chs.length ≤ 2 ^ 32) (h : a < bound) :
    (addchs (addchMem bound) out chs).mem a = chs[(a - out.str).toNat]?.getD (out.mem a) := by
  induction chs generalizing out with
  | nil => rfl
  | cons ch chs ih =>
    rw [length_cons] at hlen
    refine (ih (addchMem bound out ch) (by omega)).trans ?_
    change chs[(a - (out.str + 1)).toNat]?.getD _ = _
    by_cases ha : a = out.str
    · -- the characters behind this one come round to its address only after all others
      have hfar : chs[(a - (out.str + 1)).toNat]? = none := by
        rw [ha, sub_self_add_one]
        exact getElem?_eq_none (by omega)
      have hstored : (addchMem bound out ch).mem a = ch := by
        unfold addchMem
        rw [if_pos (ha ▸ h)]
        exact if_pos ha
      rw [hfar, getD_none, hstored, ha, UInt32.sub_self]
      rfl
    · rw [sub_add_one ha, getElem?_cons_succ, addchMem_mem_of_ne bound ch ha]

end

/-! ### The result -/

section
variable {net : Bool} {fmt : CString} {args : List VArg} {text : List UInt8}

theorem vsnprintf_eq (htext : formatText net fmt args = some text) (mem : UInt32 → UInt8) (buf size : UInt32) :
    vsnprintf net mem buf size fmt args = some (formatFinish buf (outputEnd buf size).1 (outputEnd buf size).2
        (addchs (addchMem (outputEnd buf size).1) { mem := mem, str := buf } text)) := by
  unfold formatText at htext
  rw [vsnprintf, formatLoop_text, htext]
  rfl

end
variable {n : Nat}


/-- A number that the `int` of a word shows is the word. -/
theorem argInt_eq_iff {w : UInt32} : argInt w = n ↔ n < 2 ^ 31 ∧ w.toNat = n := by
  have hw := w.toNat_lt
  unfold argInt toLong
  split
  · omega
  · omega

theorem add_sub_self (a b : UInt32) : a + b - a = b := by rw [UInt32.add_comm, UInt32.add_sub_cancel]

theorem toNat_add_ofNat (buf : UInt32) (h : buf.toNat + n < 2 ^ 32) : (buf + UInt32.ofNat n).toNat = buf.toNat + n := by
  rw [UInt32.toNat_add, UInt32.toNat_ofNat', Nat.add_mod_mod, Nat.mod_eq_of_lt h]

/-- The result of `vsnprintf` counts the NUL. -/
theorem formatFinish_result (buf bound size : UInt32) (mem : UInt32 → UInt8) (text : List UInt8) :
    (formatFinish buf bound size (addchs (addchMem bound) { mem := mem, str := buf } text)).2 =
      argInt (UInt32.ofNat (text.length + if 0 < size then 1 else 0)) := by
  have hstr := addchs_str bound { mem := mem, str := buf } text
  unfold formatFinish
  split
  · show argInt ((addchs (addchMem bound) { mem := mem, str := buf } text).str + 1 - buf) = _
    rw [hstr, UInt32.add_assoc, add_sub_self, UInt32.ofNat_add]
    rfl
  · show argInt ((addchs (addchMem bound) { mem := mem, str := buf } text).str - buf) = _
    rw [hstr, add_sub_self]
    rfl

/-- The bound is the size behind the buffer, and a size that was cut ends at the top of memory. -/
theorem outputEnd_cases (buf size : UInt32) : (outputEnd buf size).1.toNat = buf.toNat + (outputEnd buf size).2.toNat ∧
      ((outputEnd buf size).2 = size ∨ (outputEnd buf size).2.toNat < size.toNat ∧ (outputEnd buf size).1.toNat = 2 ^ 32 - 1) := by
  have hbuf := buf.toNat_lt
  have hsize := size.toNat_lt
  unfold outputEnd
  split
  next h =>
    rw [UInt32.lt_iff_toNat_lt, UInt32.toNat_add] at h
    have htop : (0xffffffff : UInt32).toNat = 2 ^ 32 - 1 := rfl
    have hleft : (0xffffffff - buf).toNat = 2 ^ 32 - 1 - buf.toNat := by
      rw [UInt32.toNat_sub_of_le _ _ (UInt32.le_iff_toNat_le.2 (by omega)), htop]
    exact ⟨by dsimp only; omega, Or.inr ⟨by dsimp only; omega, htop⟩⟩
  next h =>
    rw [UInt32.lt_iff_toNat_lt, UInt32.toNat_add] at h
    refine ⟨?_, Or.inl rfl⟩
    dsimp only
    rw [UInt32.toNat_add]
    omega

section
variable {buf bound size : UInt32} {text : List UInt8}
variable {a : UInt32}

/-- Memory at the end, for a text that ends with its NUL before the top of memory. -/
theorem formatFinish_mem (mem : UInt32 → UInt8) (hbound : bound.toNat = buf.toNat + size.toNat) (hsize : 0 < size)
    (hfit : buf.toNat + text.length + 1 < 2 ^ 32) (a : UInt32) :
    (formatFinish buf bound size (addchs (addchMem bound) { mem := mem, str := buf } text)).1 a =
      if size.toNat ≤ text.length ∧ a = bound - 1 then 0
      else if a < bound then (text ++ [0])[(a - buf).toNat]?.getD (mem a) else mem a := by
  have hall : addchMem bound (addchs (addchMem bound) { mem := mem, str := buf } text) 0 =
      addchs (addchMem bound) { mem := mem, str := buf } (text ++ [0]) :=
    addchs_append (addchMem bound) { mem := mem, str := buf } text [0]
  have hlen : (text ++ [0]).length = text.length + 1 := length_append
  have hstr : (addchs (addchMem bound) { mem := mem, str := buf } (text ++ [0])).str.toNat = buf.toNat + text.length + 1 := by
    rw [addchs_str, hlen]
    exact toNat_add_ofNat buf hfit
  have hmem : (addchs (addchMem bound) { mem := mem, str := buf } (text ++ [0])).mem a =
      if a < bound then (text ++ [0])[(a - buf).toNat]?.getD (mem a) else mem a := by
    split
    next ha => exact addchs_mem bound _ _ (by omega) ha
    next ha => exact addchs_mem_end bound _ _ ha
  unfold formatFinish
  rw [if_pos hsize]
  dsimp only
  rw [hall]
  by_cases hcut : size.toNat ≤ text.length
  · rw [if_pos (UInt32.lt_iff_toNat_lt.2 (by omega)), storeByte, hmem]
    simp only [hcut, true_and]
  · rw [if_neg (fun h => hcut (by rw [UInt32.lt_iff_toNat_lt] at h; omega)), if_neg (fun h => hcut h.1), hmem]

theorem below_far (hfit : buf.toNat + text.length + 1 < 2 ^ 32) (ha : a.toNat < buf.toNat) : text.length + 1 < (a - buf).toNat := by
  have hbuf := buf.toNat_lt
  rw [UInt32.toNat_sub]
  omega

/-! The output has room for `left` bytes: for `size`, or for fewer, which then take the text and its NUL. -/

variable {left : UInt32} (hbound : bound.toNat = buf.toNat + left.toNat) (hpos : 0 < left.toNat)
  (hleft : left.toNat = size.toNat ∨ left.toNat < size.toNat ∧ text.length < left.toNat)
  (hfit : buf.toNat + text.length + 1 < 2 ^ 32) (mem : UInt32 → UInt8)
include hbound

theorem last_toNat (hpos : 0 < left.toNat) : (bound - 1).toNat = buf.toNat + left.toNat - 1 := by
  rw [UInt32.toNat_sub_of_le _ _ (UInt32.le_iff_toNat_le.2 (by rw [UInt32.toNat_one]; omega)), UInt32.toNat_one, hbound]

include hpos hleft hfit

/-- Memory outside the buffer is as it was. -/
theorem formatFinish_inside (ha : size ≤ a - buf) :
    (formatFinish buf bound left (addchs (addchMem bound) { mem := mem, str := buf } text)).1 a = mem a := by
  have hlt := a.toNat_lt
  have hsize := size.toNat_lt
  have hdist := UInt32.toNat_sub a buf
  have hlast := last_toNat hbound hpos
  rw [UInt32.le_iff_toNat_le] at ha
  rw [formatFinish_mem mem hbound (UInt32.lt_iff_toNat_lt.2 hpos) hfit, if_neg]
  · split
    next hb =>
      rw [UInt32.lt_iff_toNat_lt] at hb
      have hfar := below_far (a := a) hfit (by omega)
      rw [getElem?_eq_none (by rw [length_append, length_singleton]; omega), getD_none]
    next => rfl
  · rintro ⟨-, rfl⟩
    omega

theorem formatFinish_shown {i : Nat} (hi : i < text.length) (hroom : i < size.toNat - 1) :
    (formatFinish buf bound left (addchs (addchMem bound) { mem := mem, str := buf } text)).1 (buf + UInt32.ofNat i) = text[i] := by
  have hlast := last_toNat hbound hpos
  have hat := toNat_add_ofNat buf (Nat.lt_trans (Nat.add_lt_add_left hi _) (Nat.lt_of_succ_lt hfit))
  rw [formatFinish_mem mem hbound (UInt32.lt_iff_toNat_lt.2 hpos) hfit, if_neg, if_pos, add_sub_self, UInt32.toNat_ofNat',
    Nat.mod_eq_of_lt (by omega), getElem?_append_left hi, getElem?_eq_getElem hi, getD_some]
  · rw [UInt32.lt_iff_toNat_lt, hat]
    omega
  · rintro ⟨hshort, heq⟩
    have heq' := congrArg UInt32.toNat heq
    rw [hat] at heq'
    omega

theorem formatFinish_nul : (formatFinish buf bound left (addchs (addchMem bound) { mem := mem, str := buf } text)).1
      (buf + UInt32.ofNat (min text.length (size.toNat - 1))) = 0 := by
  have hlast := last_toNat hbound hpos
  have hle : min text.length (size.toNat - 1) ≤ text.length := Nat.min_le_left _ _
  have hat := toNat_add_ofNat buf (Nat.lt_of_le_of_lt (Nat.add_le_add_left hle _) (Nat.lt_of_succ_lt hfit))
  rw [formatFinish_mem mem hbound (UInt32.lt_iff_toNat_lt.2 hpos) hfit]
  by_cases hshort : left.toNat ≤ text.length
  · rw [if_pos ⟨hshort, UInt32.toNat_inj.1 (by omega)⟩]
  · rw [if_neg (fun h => hshort h.1), if_pos (UInt32.lt_iff_toNat_lt.2 (by omega)), add_sub_self, Nat.min_eq_left (by omega),
      UInt32.toNat_ofNat', Nat.mod_eq_of_lt (by omega), getElem?_concat_length, getD_some]

end
variable {size : UInt32}


/-- The memory that `vsnprintf` leaves is right for every text that ends with its NUL before the top of memory. -/
theorem formatFinish_right {buf : UInt32} {text : List UInt8} (hfit : buf.toNat + text.length + 1 < 2 ^ 32) (mem : UInt32 → UInt8) :
    OutputRight mem (formatFinish buf (outputEnd buf size).1 (outputEnd buf size).2
      (addchs (addchMem (outputEnd buf size).1) { mem := mem, str := buf } text)).1 buf size text := by
  obtain ⟨hbound, hcut⟩ := outputEnd_cases buf size
  generalize (outputEnd buf size).1 = bound at *
  generalize (outputEnd buf size).2 = left at *
  -- a size that was cut has room for the text and its NUL
  have hleft : left.toNat = size.toNat ∨ left.toNat < size.toNat ∧ text.length < left.toNat :=
    hcut.imp (congrArg UInt32.toNat) fun h => ⟨h.1, by omega⟩
  by_cases hpos : 0 < left
  · have hpos' : 0 < left.toNat := UInt32.lt_iff_toNat_lt.1 hpos
    exact ⟨fun a ha => formatFinish_inside hbound hpos' hleft hfit mem ha,
      fun i hi hroom => formatFinish_shown hbound hpos' hleft hfit mem hi hroom,
      fun _ => formatFinish_nul hbound hpos' hleft hfit mem⟩
  · -- only a size of 0 leaves no room
    have hsize : size.toNat = 0 := by
      rw [UInt32.lt_iff_toNat_lt, UInt32.toNat_zero] at hpos
      omega
    refine ⟨fun a ha => ?_, fun i hi hroom => by omega, fun h => absurd (UInt32.toNat_inj.1 hsize) h⟩
    unfold formatFinish
    rw [if_neg hpos]
    dsimp only
    by_cases hb : a < bound
    · rw [UInt32.lt_iff_toNat_lt] at hb
      have hfar := below_far (a := a) hfit (by omega)
      rw [addchs_mem bound _ text (by omega) (UInt32.lt_iff_toNat_lt.2 hb), getElem?_eq_none (Nat.le_of_lt (Nat.lt_of_succ_lt hfar)), getD_none]
    · exact addchs_mem_end bound _ text hb

/-- The word of the `int` that a word shows. -/
theorem ofInt_argInt (w : UInt32) : UInt32.ofInt (argInt w) = w := by
  have hw := w.toNat_lt
  have hmod : (argInt w % 2 ^ 32).toNat = w.toNat := by
    unfold argInt toLong
    split
    · omega
    · omega
  rw [UInt32.ofInt, hmod, UInt32.ofNat_toNat]

theorem succ_ne (v : UInt8) : v + 1 ≠ v := fun h => by
  have hv := v.toNat_lt
  have h' := congrArg UInt8.toNat h
  rw [UInt8.toNat_add, UInt8.toNat_one] at h'
  omega

theorem first_byte (buf : UInt32) (hsize : size ≠ 0) (text : List UInt8) :
    ∃ v, ∀ mem mem', OutputRight mem mem' buf size text → mem' buf = v := by
  have hzero : buf + UInt32.ofNat 0 = buf := UInt32.add_zero buf
  by_cases h : 0 < text.length ∧ 0 < size.toNat - 1
  · obtain ⟨hlen, hroom⟩ := h
    exact ⟨text[0], fun mem mem' hout => hzero ▸ hout.shown 0 hlen hroom⟩
  · refine ⟨0, fun mem mem' hout => ?_⟩
    have hnul := hout.nul hsize
    rwa [show min text.length (size.toNat - 1) = 0 by omega, hzero] at hnul

theorem outputEnd_zero (buf : UInt32) : outputEnd buf 0 = (buf, 0) := by
  unfold outputEnd
  rw [UInt32.add_zero, if_neg (UInt32.lt_irrefl buf)]

theorem formatFinish_zero (buf bound : UInt32) (out : FmtOut) : formatFinish buf bound 0 out = (out.mem, argInt (out.str - buf)) :=
  if_neg (by decide)

end SnprintfAux

open SnprintfAux

/-- Bounded printf does what is said of it: it leaves the right memory and returns the length of the text, and `vscnprintf` returns the
number of characters in the buffer. -/
def SnprintfRight (net : Bool) (buf size : UInt32) (fmt : CString) (args : List VArg) (text : List UInt8) : Prop :=
  ∀ mem, ∃ mem', vsnprintf net mem buf size fmt args = some (mem', (text.length : Int)) ∧ OutputRight mem mem' buf size text ∧
    vscnprintf net mem buf size fmt args = some (mem', ((min text.length (size.toNat - 1) : Nat) : Int))

namespace SnprintfAux

section
variable {net : Bool} {buf size : UInt32} {fmt : CString} {args : List VArg} {text : List UInt8}

/-- With a size the NUL is counted, or there is no room for it. -/
theorem size_eq_zero_of_right (htext : formatText net fmt args = some text) (h : SnprintfRight net buf size fmt args text) : size = 0 := by
  refine Classical.not_not.1 fun hsize => ?_
  by_cases hpos : 0 < (outputEnd buf size).2
  · obtain ⟨mem', hret, -, -⟩ := h fun _ => 0
    rw [vsnprintf_eq htext] at hret
    have hres := congrArg Prod.snd (some.inj hret)
    rw [formatFinish_result, if_pos hpos, argInt_eq_iff] at hres
    obtain ⟨hlt, heq⟩ := hres
    rw [UInt32.toNat_ofNat', Nat.mod_eq_of_lt (by omega)] at heq
    omega
  · -- the buffer is the last byte of memory, which is not below `end`
    obtain ⟨v, hv⟩ := first_byte buf hsize text
    obtain ⟨mem', hret, hout, -⟩ := h fun _ => v + 1
    rw [vsnprintf_eq htext, formatFinish, if_neg hpos] at hret
    have hmem := congrFun (congrArg Prod.fst (some.inj hret)) buf
    have hbuf : ¬buf < (outputEnd buf size).1 := fun hlt => by
      have hbound := (outputEnd_cases buf size).1
      rw [UInt32.lt_iff_toNat_lt] at hlt hpos
      rw [UInt32.toNat_zero] at hpos
      omega
    dsimp only at hmem
    rw [addchs_mem_end _ _ _ hbuf, hv _ _ hout] at hmem
    exact succ_ne v hmem

theorem vsnprintf_zero (htext : formatText net fmt args = some text) (mem : UInt32 → UInt8) : vsnprintf net mem buf 0 fmt args =
      some ((addchs (addchMem buf) { mem := mem, str := buf } text).mem, argInt (UInt32.ofNat text.length)) := by
  rw [vsnprintf_eq htext, outputEnd_zero]
  dsimp only
  rw [formatFinish_zero, addchs_str, add_sub_self]

theorem scnResult_zero (i : Int) : scnResult 0 i = 0 := by
  unfold scnResult
  rw [if_neg UInt32.not_lt_zero]
  rfl

/-- With a size of 0 nothing is stored as long as the text does not come round to the addresses below the buffer. -/
theorem zero_inside_iff (hlen : text.length < 2 ^ 31) : (∀ mem a, (addchs (addchMem buf) { mem := mem, str := buf } text).mem a = mem a) ↔
      buf = 0 ∨ buf.toNat + text.length ≤ 2 ^ 32 := by
  have hbuf := buf.toNat_lt
  constructor
  · intro h
    refine Classical.not_not.1 fun hnot => ?_
    rw [not_or] at hnot
    obtain ⟨hne, hfar⟩ := hnot
    have hpos : 0 < buf.toNat := Nat.pos_of_ne_zero fun h0 => hne (UInt32.toNat_inj.1 h0)
    have hbelow : (0 : UInt32) < buf := UInt32.lt_iff_toNat_lt.2 hpos
    have hdist : (0 - buf).toNat = 2 ^ 32 - buf.toNat := by
      rw [UInt32.toNat_sub, UInt32.toNat_zero]
      omega
    have hidx : (0 - buf).toNat < text.length := by omega
    have hmem := h (fun _ => text[(0 - buf).toNat] + 1) 0
    rw [addchs_mem buf _ text (by omega) hbelow, getElem?_eq_getElem hidx, getD_some] at hmem
    exact succ_ne _ hmem.symm
  · intro h mem a
    by_cases ha : a < buf
    · have hlt := a.toNat_lt
      have hdist := UInt32.toNat_sub a buf
      rw [UInt32.lt_iff_toNat_lt] at ha
      have hne : buf ≠ 0 := fun h0 => by
        rw [h0] at ha
        exact Nat.not_lt_zero _ ha
      have hfit := h.resolve_left hne
      rw [addchs_mem buf _ text (by omega) (UInt32.lt_iff_toNat_lt.2 ha)]
      dsimp only
      rw [getElem?_eq_none (by omega), getD_none]
    · exact addchs_mem_end buf _ text ha

/-- The whole contract, for a size of 0. -/
theorem right_zero_iff (htext : formatText net fmt args = some text) :
    SnprintfRight net buf 0 fmt args text ↔ text.length < 2 ^ 31 ∧ (buf = 0 ∨ buf.toNat + text.length ≤ 2 ^ 32) := by
  constructor
  · intro h
    have hlen : text.length < 2 ^ 31 := by
      obtain ⟨mem', hret, -, -⟩ := h fun _ => 0
      rw [vsnprintf_zero htext] at hret
      exact (argInt_eq_iff.1 (congrArg Prod.snd (some.inj hret))).1
    refine ⟨hlen, (zero_inside_iff hlen).1 fun mem a => ?_⟩
    obtain ⟨mem', hret, hout, -⟩ := h mem
    rw [vsnprintf_zero htext] at hret
    exact (congrFun (congrArg Prod.fst (some.inj hret)) a).trans (hout.inside a UInt32.zero_le)
  · rintro ⟨hlen, hfit⟩ mem
    have hret : argInt (UInt32.ofNat text.length) = text.length :=
      argInt_eq_iff.2 ⟨hlen, UInt32.toNat_ofNat'.trans (Nat.mod_eq_of_lt (by omega))⟩
    refine ⟨_, by rw [vsnprintf_zero htext, hret], ⟨fun a _ => (zero_inside_iff hlen).2 hfit mem a, ?_, nofun⟩, ?_⟩
    · exact fun i _ hroom => absurd hroom (Nat.not_lt_zero i)
    · rw [vscnprintf, vsnprintf_zero htext, map_some]
      dsimp only
      rw [scnResult_zero, UInt32.toNat_zero, Nat.zero_sub, Nat.min_zero]
      rfl

/-- `vsnprintf` for a text that ends with its NUL before the top of memory. -/
theorem vsnprintf_fits (size : UInt32) (htext : formatText net fmt args = some text)
    (hfit : buf.toNat + text.length + 1 < 2 ^ 32) (mem : UInt32 → UInt8) :
    vsnprintf net mem buf size fmt args = some ((formatFinish buf (outputEnd buf size).1 (outputEnd buf size).2
        (addchs (addchMem (outputEnd buf size).1) { mem := mem, str := buf } text)).1,
        argInt (UInt32.ofNat (text.length + if size = 0 then 0 else 1))) := by
  have hpos : 0 < (outputEnd buf size).2 ↔ ¬size = 0 := by
    obtain ⟨hbound, hcut⟩ := outputEnd_cases buf size
    rw [UInt32.lt_iff_toNat_lt, UInt32.toNat_zero, ← UInt32.toNat_inj, UInt32.toNat_zero]
    rcases hcut with heq | ⟨hlt, htop⟩
    · rw [heq]
      omega
    · omega
  have hcount : (if 0 < (outputEnd buf size).2 then 1 else 0) = if size = 0 then 0 else 1 := by
    by_cases hsize : size = 0
    · rw [if_pos hsize, if_neg (fun h => hpos.1 h hsize)]
    · rw [if_neg hsize, if_pos (hpos.2 hsize)]
  rw [vsnprintf_eq htext, ← hcount, ← formatFinish_result buf (outputEnd buf size).1 (outputEnd buf size).2 mem text]

/-- `vscnprintf` for the length of a text that was counted with its NUL. -/
theorem scnResult_eq_iff {n : Nat} (hn : n + 1 < 2 ^ 32) (hsize : size ≠ 0) :
    scnResult size (argInt (UInt32.ofNat (n + 1))) = ((min n (size.toNat - 1) : Nat) : Int) ↔ size.toNat ≤ n + 1 ∧ size.toNat ≤ 2 ^ 31 := by
  have hword : (UInt32.ofNat (n + 1)).toNat = n + 1 := UInt32.toNat_ofNat'.trans (Nat.mod_eq_of_lt hn)
  have hlt := size.toNat_lt
  have hpos : 0 < size.toNat := Nat.pos_of_ne_zero fun h0 => hsize (UInt32.toNat_inj.1 h0)
  unfold scnResult
  rw [ofInt_argInt]
  by_cases hroom : n + 1 < size.toNat
  · rw [if_pos (UInt32.lt_iff_toNat_lt.2 (hword.symm ▸ hroom)), argInt_eq_iff, hword]
    omega
  · have hsub : (size - 1).toNat = size.toNat - 1 := UInt32.toNat_sub_of_le _ _ (UInt32.le_iff_toNat_le.2 hpos)
    rw [if_neg (fun h => hroom (hword ▸ UInt32.lt_iff_toNat_lt.1 h)), if_pos hsize, argInt_eq_iff, hsub]
    omega

end

end SnprintfAux

/-- With a size other than 0 the result of bounded printf is not the length of the text: the NUL is counted. What it leaves in memory is
the text cut to the size for every text that ends with its NUL before the top of memory, and `vscnprintf` returns what is in the buffer
for a text that fills it. -/
theorem vsnprintf_right_iff {net : Bool} (buf size : UInt32) {fmt : CString} {args : List VArg} {text : List UInt8}
    (htext : formatText net fmt args = some text) :
    (SnprintfRight net buf size fmt args text ↔ size = 0 ∧ text.length < 2 ^ 31 ∧ (buf = 0 ∨ buf.toNat + text.length ≤ 2 ^ 32)) ∧
    (buf.toNat + text.length + 1 < 2 ^ 32 → ∀ mem, ∃ mem',
      vsnprintf net mem buf size fmt args = some (mem', argInt (UInt32.ofNat (text.length + if size = 0 then 0 else 1))) ∧
      OutputRight mem mem' buf size text ∧
      (vscnprintf net mem buf size fmt args = some (mem', ((min text.length (size.toNat - 1) : Nat) : Int)) ↔
        size.toNat ≤ text.length + 1 ∧ size.toNat ≤ 2 ^ 31)) := by
  constructor
  · constructor
    · intro h
      obtain rfl := size_eq_zero_of_right htext h
      exact ⟨rfl, (right_zero_iff htext).1 h⟩
    · rintro ⟨rfl, h⟩
      exact (right_zero_iff htext).2 h
  · intro hfit mem
    have hrun := vsnprintf_fits size htext hfit mem
    refine ⟨_, hrun, formatFinish_right hfit mem, ?_⟩
    rw [vscnprintf, hrun, map_some, some.injEq, Prod.mk.injEq, eq_self, true_and]
    by_cases hsize : size = 0
    · rw [hsize, scnResult_zero, UInt32.toNat_zero, Nat.zero_sub, Nat.min_zero]
      exact iff_of_true rfl ⟨Nat.zero_le _, Nat.zero_le _⟩
    · rw [if_neg hsize]
      exact scnResult_eq_iff (by omega) hsize

/-- `"%d"` -/
def fmtDecimal : CString := ⟨[asc '%', asc 'd'], by decide⟩

/-- With a size of 0 the length of the text is returned. -/
theorem vsnprintf_right_decimal : SnprintfRight false 0x1000 0 fmtDecimal [.word 42] [asc '4', asc '2'] :=
  (vsnprintf_right_iff 0x1000 0 (by decide +kernel)).1.2 ⟨rfl, by decide, Or.inr (by decide)⟩

/-- `"42"` in a buffer of 16 bytes: the result is 3, and 3 again for the two characters that `vscnprintf` stores. -/
theorem vsnprintf_counts_nul : formatText false fmtDecimal [.word 42] = some [asc '4', asc '2'] ∧
    (vsnprintf false (fun _ => 0) 0x1000 16 fmtDecimal [.word 42]).map Prod.snd = some 3 ∧
    (vscnprintf false (fun _ => 0) 0x1000 16 fmtDecimal [.word 42]).map Prod.snd = some 3 ∧
    ¬SnprintfRight false 0x1000 16 fmtDecimal [.word 42] [asc '4', asc '2'] := by
  have hthree : (vsnprintf false (fun _ => 0) 0x1000 16 fmtDecimal [.word 42]).map Prod.snd = some 3 := by decide +kernel
  refine ⟨by decide +kernel, hthree, by decide +kernel, fun h => ?_⟩
  obtain ⟨mem', hret, -, -⟩ := h fun _ => 0
  rw [hret] at hthree
  have htwo : (2 : Int) = 3 := some.inj hthree
  exact absurd htwo (by decide)

end UBoot
