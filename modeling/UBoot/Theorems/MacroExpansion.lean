import UBoot.RunCommand

/-!
# What macro expansion leaves in its output

A character changes the mode of the state machine and adds some bytes to the output, whatever the output is (`macroSwitch_ok`).
-/

namespace UBoot

open List Option

namespace MacroAux
variable {input : CString} {r : MacroCursor}


/-- The cursor is inside an input of `n` characters, and a name that has begun lies before it. -/
structure CursorOk (n : Nat) (r : MacroCursor) : Prop where
  count : r.input + r.inputcnt = n
  name : r.state = .waitClose → r.varnameStart ≤ r.input

theorem data_get (input : CString) (i : Nat) (h : i < input.bytes.length) : ∃ c, (input.bytes ++ [0])[i]? = some c ∧ c ≠ 0 := by
  refine ⟨input.bytes[i], ?_, ?_⟩
  · rw [getElem?_append_left h, getElem?_eq_getElem h]
  · intro h0
    exact input.nul_free (h0 ▸ getElem_mem h)

/-- Taking a character, where there is one, stays before the NUL. -/
theorem macroChar_ok (h : CursorOk input.bytes.length r) (hcnt : r.inputcnt ≠ 0) :
    macroChar (input.bytes ++ [0]) r = some none ∨
      ∃ c r', macroChar (input.bytes ++ [0]) r = some (some (c, r')) ∧ c ≠ 0 ∧ r'.input + r'.inputcnt = input.bytes.length ∧
        r'.inputcnt < r.inputcnt ∧ (r'.state = .waitClose → r'.varnameStart < r'.input) := by
  have hcount := h.count
  obtain ⟨c, hget, hc⟩ := data_get input r.input (by omega)
  have hname : r.state = .waitClose → r.varnameStart < r.input + 1 := fun hs => Nat.lt_succ_of_le (h.name hs)
  unfold macroChar
  rw [hget]
  dsimp only
  split
  · split
    · exact Or.inl rfl
    next hleft =>
      -- the escaped character is before the NUL as well
      obtain ⟨c', hget', hc'⟩ := data_get input (r.input + 1) (by omega)
      rw [hget']
      exact Or.inr ⟨c', _, rfl, hc', by dsimp only; omega, by dsimp only; omega, fun hs => Nat.lt_succ_of_lt (hname hs)⟩
  · exact Or.inr ⟨c, _, rfl, hc, by dsimp only; omega, by dsimp only; omega, hname⟩

/-! ### The variable name -/

theorem macroName_some (envname data : List UInt8) (start envcnt : Nat) (hdata : start + envcnt ≤ data.length)
    (hname : envcnt < envname.length) : ∃ name, macroName envname data start envcnt = some name := by
  have hlen : ((data.drop start).take envcnt).length = envcnt := by
    rw [length_take, length_drop]
    omega
  obtain ⟨buf, hbuf, hbuflen⟩ := putBytes_some envname ((data.drop start).take envcnt) 0 (by omega)
  rw [macroName, if_pos hdata, hbuf, bind_some, putByte, if_pos (by omega)]
  exact ⟨_, rfl⟩

/-! ### A character, for every output -/

theorem macroValue_one {σ : Type} {sink : MacroSink σ} {out : σ} (hroom : sink.room out = true) (c : UInt8) :
    macroValue sink out [c] = sink.put out c := by
  rw [macroValue, if_pos hroom]
  cases sink.put out c with
  | none => rfl
  | some out' => rfl

/-- A character changes the cursor and adds bytes to the output, the same ones for every output with room. -/
theorem macroSwitch_ok (getenv : CString → Option CString) {envname : List UInt8} {c : UInt8}
    (hcount : r.input + r.inputcnt = input.bytes.length) (hstart : r.state = .waitClose → r.varnameStart < r.input)
    (hc : c ≠ 0) (hname : input.bytes.length < envname.length) :
    ∃ (r' : MacroCursor) (bytes : List UInt8), (0 : UInt8) ∉ bytes ∧ CursorOk input.bytes.length r' ∧ r'.inputcnt = r.inputcnt ∧
      ∀ (σ : Type) (sink : MacroSink σ) (out : σ), sink.room out = true →
        macroSwitch sink getenv envname (input.bytes ++ [0]) r out c = (macroValue sink out bytes).map fun out => (r', out) := by
  have hsingle : (0 : UInt8) ∉ [c] := by simpa using hc.symm
  unfold macroSwitch
  cases hstate : r.state with
  | waitDollar =>
    dsimp only
    split
    · exact ⟨{ r with state := .waitQuote }, [], not_mem_nil, ⟨hcount, nofun⟩, rfl, fun σ sink out _ => rfl⟩
    · split
      · exact ⟨{ r with state := .waitOpen }, [], not_mem_nil, ⟨hcount, nofun⟩, rfl, fun σ sink out _ => rfl⟩
      · refine ⟨r, [c], hsingle, ⟨hcount, fun h => nomatch hstate.symm.trans h⟩, rfl, fun σ sink out hroom => ?_⟩
        rw [macroValue_one hroom]
  | waitOpen =>
    dsimp only
    split
    · exact ⟨{ r with state := .waitClose, varnameStart := r.input }, [], not_mem_nil, ⟨hcount, fun _ => Nat.le_refl _⟩, rfl,
        fun σ sink out _ => rfl⟩
    · refine ⟨{ r with state := .waitDollar }, [chDollar, c], ?_, ⟨hcount, nofun⟩, rfl, fun σ sink out hroom => ?_⟩
      · simpa [chDollar] using hc.symm
      · rw [macroValue, if_pos hroom]
        cases hput : sink.put out chDollar with
        | none => rfl
        | some out' =>
          simp only [bind_some, macroValue]
          cases hroom' : sink.room out' with
          | false => rfl
          | true =>
            cases hput' : sink.put out' c with
            | none => rfl
            | some out'' => rfl
  | waitClose =>
    have hlt := hstart hstate
    dsimp only
    split
    · obtain ⟨name, hn⟩ := macroName_some envname (input.bytes ++ [0]) r.varnameStart (r.input - r.varnameStart - 1)
        (by rw [length_append]; omega) (by omega)
      rw [hn]
      dsimp only
      cases getenv name with
      | none => exact ⟨{ r with state := .waitDollar }, [], not_mem_nil, ⟨hcount, nofun⟩, rfl, fun σ sink out _ => rfl⟩
      | some envval =>
        exact ⟨{ r with state := .waitDollar }, envval.bytes, envval.nul_free, ⟨hcount, nofun⟩, rfl, fun σ sink out _ => rfl⟩
    · exact ⟨r, [], not_mem_nil, ⟨hcount, fun _ => Nat.le_of_lt hlt⟩, rfl, fun σ sink out _ => rfl⟩
  | waitQuote =>
    dsimp only
    split
    · exact ⟨{ r with state := .waitDollar }, [], not_mem_nil, ⟨hcount, nofun⟩, rfl, fun σ sink out _ => rfl⟩
    · refine ⟨r, [c], hsingle, ⟨hcount, fun h => nomatch hstate.symm.trans h⟩, rfl, fun σ sink out hroom => ?_⟩
      rw [macroValue_one hroom]

/-! ### The outputs -/

theorem macroValue_text (text bytes : List UInt8) : macroValue textOut text bytes = some (text ++ bytes) := by
  induction bytes generalizing text with
  | nil => rw [macroValue, append_nil]
  | cons b bs ih =>
    show macroValue textOut (text ++ [b]) bs = some (text ++ b :: bs)
    rw [ih, append_assoc, singleton_append]

/-- The output buffer shows the text, cut to `cbsize` bytes, and holds what it did behind it. -/
structure Shows (cbsize : Nat) (output : List UInt8) (out : MacroOut) (text : List UInt8) : Prop where
  buf : out.buf = text.take cbsize ++ output.drop (text.take cbsize).length
  pos : out.output = (text.take cbsize).length
  left : out.outputcnt = cbsize - (text.take cbsize).length

section
variable {cbsize : Nat} {output : List UInt8} {out : MacroOut} {text : List UInt8}

theorem Shows.room_iff (h : Shows cbsize output out text) : boundedOut.room out = true ↔ text.length < cbsize := by
  have hleft := h.left
  rw [length_take] at hleft
  simp only [boundedOut, decide_eq_true_eq]
  omega

theorem Shows.full (h : Shows cbsize output out text) (hroom : boundedOut.room out ≠ true) (more : List UInt8) :
    Shows cbsize output out (text ++ more) := by
  have hlen : cbsize ≤ text.length := Nat.le_of_not_lt fun hlt => hroom (h.room_iff.2 hlt)
  have htake : (text ++ more).take cbsize = text.take cbsize := take_append_of_le_length hlen
  exact ⟨by rw [htake, h.buf], by rw [htake, h.pos], by rw [htake, h.left]⟩

/-- A byte that there is room for is shown next. -/
theorem Shows.put (h : Shows cbsize output out text) (houtput : cbsize ≤ output.length) (hroom : boundedOut.room out = true) (b : UInt8) :
    ∃ out', boundedOut.put out b = some out' ∧ Shows cbsize output out' (text ++ [b]) := by
  have hlt := h.room_iff.1 hroom
  obtain ⟨hbuf, hpos, hleft⟩ := h
  have htake : text.take cbsize = text := take_of_length_le (Nat.le_of_lt hlt)
  have htake' : (text ++ [b]).take cbsize = text ++ [b] := take_of_length_le (by rw [length_append]; exact hlt)
  rw [htake] at hbuf hpos hleft
  obtain ⟨x, rest, hdrop⟩ : ∃ x rest, output.drop text.length = x :: rest :=
    exists_cons_of_length_pos (by rw [length_drop]; omega)
  have hrest : rest = output.drop (text.length + 1) := by
    rw [← drop_drop, hdrop, drop_one, tail_cons]
  have hput : putByte out.buf out.output b = some (text ++ b :: rest) := by
    rw [hbuf, hpos, hdrop, putByte_append]
  refine ⟨⟨text ++ b :: rest, out.output + 1, out.outputcnt - 1⟩, ?_, ?_, ?_, ?_⟩
  · simp only [boundedOut, hput, map_some]
  · rw [htake', length_append, length_singleton, ← hrest, append_assoc, singleton_append]
  · rw [htake', hpos, length_append, length_singleton]
  · rw [htake', length_append, length_singleton]
    dsimp only
    omega

theorem Shows.value (h : Shows cbsize output out text) (houtput : cbsize ≤ output.length) (bytes : List UInt8) :
    ∃ out', macroValue boundedOut out bytes = some out' ∧ Shows cbsize output out' (text ++ bytes) := by
  induction bytes generalizing out text with
  | nil => exact ⟨out, rfl, by rwa [append_nil]⟩
  | cons b bs ih =>
    rw [macroValue]
    by_cases hroom : boundedOut.room out = true
    · obtain ⟨out', hput, h'⟩ := h.put houtput hroom b
      rw [if_pos hroom, hput, bind_some, ← singleton_append, ← append_assoc]
      exact ih h'
    · rw [if_neg hroom]
      exact ⟨out, rfl, h.full hroom (b :: bs)⟩

end

/-! ### The loop -/

section
variable (getenv : CString → Option CString) {envname : List UInt8} {input : CString} (hname : input.bytes.length < envname.length)
variable {r : MacroCursor}
include hname

/-- Without a limit the loop comes to its end, and the text only grows, by bytes that are not NUL. -/
theorem macroLoop_text (rounds : Nat) (h : CursorOk input.bytes.length r) (text : List UInt8) :
    ∃ more, (0 : UInt8) ∉ more ∧ macroLoop textOut getenv envname (input.bytes ++ [0]) rounds r text = some (text ++ more) := by
  induction rounds generalizing r text with
  | zero => exact ⟨[], not_mem_nil, by rw [macroLoop, append_nil]⟩
  | succ rounds ih =>
    rw [macroLoop]
    by_cases hcnt : r.inputcnt = 0
    · exact ⟨[], not_mem_nil, by rw [if_pos (Or.inl hcnt), append_nil]⟩
    · rw [if_neg (by simp [hcnt, textOut])]
      rcases macroChar_ok h hcnt with hchar | ⟨c, r', hchar, hc, hcount, _, hstart⟩
      · exact ⟨[], not_mem_nil, by rw [hchar, append_nil]⟩
      · obtain ⟨r'', bytes, hbytes, hok, _, hswitch⟩ := macroSwitch_ok getenv hcount hstart hc hname
        obtain ⟨more, hmore, hloop⟩ := ih (r := { r'' with prev := c }) ⟨hok.count, hok.name⟩ (text ++ bytes)
        refine ⟨bytes ++ more, by simp [hbytes, hmore], ?_⟩
        rw [hchar]
        dsimp only
        rw [hswitch _ textOut text rfl, macroValue_text, map_some]
        dsimp only
        rw [hloop, append_assoc]

/-- The loop on the buffer shows what the loop without a limit produces. -/
theorem macroLoop_shows {cbsize : Nat} {output : List UInt8} (houtput : cbsize ≤ output.length) (rounds : Nat)
    (h : CursorOk input.bytes.length r) {out : MacroOut} {text : List UInt8} (hs : Shows cbsize output out text) :
    ∃ out' text', macroLoop boundedOut getenv envname (input.bytes ++ [0]) rounds r out = some out' ∧
      macroLoop textOut getenv envname (input.bytes ++ [0]) rounds r text = some text' ∧ Shows cbsize output out' text' := by
  induction rounds generalizing r out text with
  | zero => exact ⟨out, text, rfl, rfl, hs⟩
  | succ rounds ih =>
    by_cases hroom : boundedOut.room out = true
    · rw [macroLoop, macroLoop]
      by_cases hcnt : r.inputcnt = 0
      · rw [if_pos (Or.inl hcnt), if_pos (Or.inl hcnt)]
        exact ⟨out, text, rfl, rfl, hs⟩
      · rw [if_neg (by simp [hcnt, hroom]), if_neg (by simp [hcnt, textOut])]
        rcases macroChar_ok h hcnt with hchar | ⟨c, r', hchar, hc, hcount, _, hstart⟩
        · rw [hchar]
          exact ⟨out, text, rfl, rfl, hs⟩
        · obtain ⟨r'', bytes, _, hok, _, hswitch⟩ := macroSwitch_ok getenv hcount hstart hc hname
          obtain ⟨out', hvalue, hs'⟩ := hs.value houtput bytes
          rw [hchar]
          dsimp only
          rw [hswitch _ boundedOut out hroom, hswitch _ textOut text rfl, hvalue, macroValue_text, map_some, map_some]
          exact ih (r := { r'' with prev := c }) ⟨hok.count, hok.name⟩ hs'
    · -- the buffer is full: its loop stops, the other one goes on
      obtain ⟨more, _, hmore⟩ := macroLoop_text getenv hname (rounds + 1) h text
      refine ⟨out, text ++ more, ?_, hmore, hs.full hroom more⟩
      rw [macroLoop, if_pos (Or.inr hroom)]

end

/-- The last byte of what is shown gives way to the NUL, unless there is room for it. -/
theorem Shows.terminated {cbsize : Nat} {output : List UInt8} {out : MacroOut} {text : List UInt8} (h : Shows cbsize output out text)
    (hpos : 0 < cbsize) (houtput : cbsize ≤ output.length) :
    (if out.outputcnt ≠ 0 then putByte out.buf out.output 0 else putByte out.buf (out.output - 1) 0) =
      some (text.take (cbsize - 1) ++ 0 :: output.drop ((text.take (cbsize - 1)).length + 1)) := by
  by_cases hroom : boundedOut.room out = true
  · have hlt := h.room_iff.1 hroom
    obtain ⟨out', hput, h'⟩ := h.put houtput hroom 0
    have htake : text.take (cbsize - 1) = text := take_of_length_le (by omega)
    have htake' : (text ++ [0]).take cbsize = text ++ [0] := take_of_length_le (by rw [length_append]; exact hlt)
    have hcnt : out.outputcnt ≠ 0 := by simpa [boundedOut] using hroom
    rw [if_pos hcnt, htake]
    simp only [boundedOut, map_eq_some_iff] at hput
    obtain ⟨buf, hbuf, rfl⟩ := hput
    have hshown : buf = text ++ 0 :: output.drop (text.length + 1) := by
      have := h'.buf
      rwa [htake', length_append, length_singleton, append_assoc, singleton_append] at this
    rw [hbuf, hshown]
  · have hlen : cbsize ≤ text.length := Nat.le_of_not_lt fun hlt => hroom (h.room_iff.2 hlt)
    have hcnt : ¬out.outputcnt ≠ 0 := by simpa [boundedOut] using hroom
    -- the bytes shown are all but the last one, and the last one
    obtain ⟨x, hx⟩ : ∃ x, text.take cbsize = text.take (cbsize - 1) ++ [x] := by
      refine ⟨text.get ⟨cbsize - 1, by omega⟩, ?_⟩
      have := take_append_getElem (l := text) (i := cbsize - 1) (by omega)
      rw [show cbsize - 1 + 1 = cbsize by omega] at this
      exact this.symm
    have hbuf := h.buf
    have hpos' := h.pos
    rw [hx, length_append, length_singleton, append_assoc, singleton_append] at hbuf
    rw [hx, length_append, length_singleton] at hpos'
    rw [if_neg hcnt, hbuf, hpos', Nat.add_sub_cancel, putByte_append]

end MacroAux

open MacroAux

/-- Macro expansion reads the input up to its NUL and writes only the first `cbsize` bytes of its two buffers. It leaves the text that
the state machine produces without a limit, cut to `cbsize - 1` bytes, and a NUL. -/
theorem processMacros_truncates (cbsize : Nat) (getenv : CString → Option CString) (envname : List UInt8) (input : CString)
    (output : List UInt8) (hinput : input.bytes.length < cbsize) (henvname : envname.length = cbsize) (houtput : cbsize ≤ output.length) :
    ∃ text, macroText getenv envname input = some text ∧ (0 : UInt8) ∉ text ∧
      ∃ output', processMacros cbsize getenv envname input output = some output' ∧
        output' = text.take (cbsize - 1) ++ 0 :: output.drop ((text.take (cbsize - 1)).length + 1) ∧
        (CString.ofBytes output').bytes = text.take (cbsize - 1) := by
  have hname : input.bytes.length < envname.length := henvname ▸ hinput
  have hstart : CursorOk input.bytes.length ⟨0, input.bytes.length, 0, .waitDollar, 0⟩ := ⟨Nat.zero_add _, nofun⟩
  have hs : MacroAux.Shows cbsize output ⟨output, 0, cbsize⟩ [] := by
    constructor <;> simp
  obtain ⟨text, hnul, htext⟩ := macroLoop_text getenv hname input.bytes.length hstart []
  obtain ⟨out', text', hout, htext', hs'⟩ := macroLoop_shows getenv hname houtput input.bytes.length hstart hs
  rw [nil_append] at htext
  obtain rfl : text' = text := some.inj (htext'.symm.trans htext)
  refine ⟨text', htext, hnul, _, ?_, rfl, ?_⟩
  · unfold processMacros macroRun
    rw [hout]
    exact hs'.terminated (Nat.zero_lt_of_lt hinput) houtput
  · have hcut : (0 : UInt8) ∉ text'.take (cbsize - 1) := fun h => hnul (mem_of_mem_take h)
    rw [CString.ofBytes_terminated ⟨text'.take (cbsize - 1), hcut⟩]

/-- A variable with eleven bytes. -/
def helloEnv (name : CString) : Option CString :=
  if name.bytes = [0x76] then some ⟨[0x68, 0x65, 0x6c, 0x6c, 0x6f, 0x20, 0x77, 0x6f, 0x72, 0x6c, 0x64], by decide⟩ else none

/-- `a${v}b` where the value of `v` is longer than the buffer of eight bytes: the rest of it and the `b` are cut off. -/
theorem processMacros_truncates_three :
    processMacros 8 helloEnv (replicate 8 7) ⟨[0x61, 0x24, 0x7b, 0x76, 0x7d, 0x62], by decide⟩ (replicate 10 8) =
      some [0x61, 0x68, 0x65, 0x6c, 0x6c, 0x6f, 0x20, 0, 8, 8] := by
  obtain ⟨text, htext, -, output', hout, heq, -⟩ := processMacros_truncates 8 helloEnv (replicate 8 7)
    ⟨[0x61, 0x24, 0x7b, 0x76, 0x7d, 0x62], by decide⟩ (replicate 10 8) (by decide) rfl (by decide)
  have hvalue : macroText helloEnv (replicate 8 7) ⟨[0x61, 0x24, 0x7b, 0x76, 0x7d, 0x62], by decide⟩ =
      some [0x61, 0x68, 0x65, 0x6c, 0x6c, 0x6f, 0x20, 0x77, 0x6f, 0x72, 0x6c, 0x64, 0x62] := by decide
  obtain rfl := some.inj (htext.symm.trans hvalue)
  rw [hout, heq]
  rfl

end UBoot
