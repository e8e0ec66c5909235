import UBoot.Lemmas.PxeLex

/-!
# Where the parse of a PXE file reads

The parse ends, whatever the files are that it includes. It goes right just if each turn of its loops finds what it needs in the file.
-/

namespace UBoot

open List Option

namespace Pxe

variable {files : List UInt8 → Option (List UInt8)} {st st' : PxeState} {f : PxeFrame} {rest : List PxeFrame}
variable {mem : Nat → UInt8}

/-! ## Turns of the machine -/

theorem view_length (mem : Nat → UInt8) (a nul : Nat) : (view mem a nul).length = nul + 1 - a := by
  rw [view, length_map, length_range]

theorem view_getElem {a nul i : Nat} (h : i < (view mem a nul).length) : (view mem a nul)[i] = mem (a + i) := by
  simp only [view, getElem_map, getElem_range]

/-- How much is left to do with a file. -/
def PxeFrame.weight (f : PxeFrame) : Nat := 2 * (f.nul + 1 - f.p) + if f.mode = .top then 0 else 1

theorem PxeFrame.weight_at {mode : PxeMode} {p : List UInt8} (hp : p <:+ view mem f.p f.nul)
    (h : Pxe.weight mode p < Pxe.weight f.mode (view mem f.p f.nul)) : (f.at mode p).weight < f.weight := by
  have hle := hp.length_le
  unfold Pxe.weight at h
  rw [view_length] at h hle
  unfold PxeFrame.weight PxeFrame.at
  simp only
  rwa [show f.nul + 1 - (f.nul + 1 - p.length) = p.length by omega]

/-- What a turn does: it returns to the file below, goes on in the file, or begins with a file that is included. -/
theorem goes_cases (h : Lib.Goes (round files) st st') : ∃ f rest, st.stack = f :: rest ∧
      ((st.turn f = some .done ∧ st' = ⟨st.mem, rest, st.cfg⟩) ∨
        (∃ mode cfg p, st.turn f = some (.next mode cfg p) ∧ st' = ⟨st.mem, f.at mode p :: rest, cfg⟩) ∨
        ∃ offset path mode p content, st.turn f = some (.include offset path mode p) ∧ files path = some content ∧
          st.stack.length + 1 ≤ MAX_NEST_LEVEL ∧ st' = load st.mem (f.at mode p :: rest) st.cfg (f.b + offset) content) := by
  have hround : round files st = some (.inr st') := h
  unfold round at hround
  split at hround
  · cases hround
  next f rest hstack =>
    refine ⟨f, rest, hstack, ?_⟩
    split at hround
    · cases hround
    · cases hround
    next hturn =>
      cases hround
      exact Or.inl ⟨hturn, rfl⟩
    next mode cfg p hturn =>
      cases hround
      exact Or.inr (Or.inl ⟨mode, cfg, p, hturn, rfl⟩)
    next offset path mode p hturn =>
      split at hround
      · cases hround
      next content hfile =>
        split at hround
        · cases hround
        next hnest =>
          cases hround
          exact Or.inr (Or.inr ⟨offset, path, mode, p, content, hturn, hfile, Nat.not_lt.1 hnest, rfl⟩)

theorem nested_comes {b : Nat} {content : List UInt8} (h : Lib.Comes (round files) (start mem b content) st) :
    st.stack.length ≤ MAX_NEST_LEVEL := by
  induction h with
  | refl => exact show 1 ≤ 16 by decide
  | tail _ hgoes ih =>
    obtain ⟨f, rest, hstack, ⟨-, rfl⟩ | ⟨mode, cfg, p, -, rfl⟩ | ⟨offset, path, mode, p, content, -, -, hnest, rfl⟩⟩ := goes_cases hgoes
    · rw [hstack] at ih
      exact Nat.le_of_succ_le ih
    · rwa [hstack] at ih
    · rwa [hstack] at hnest

/-! ## The parse ends -/

/-- A file is done with at some time, or the run ends: by induction on the nesting that is left, then on what is left of the file. -/
theorem unwinds (hstack : st.stack = f :: rest) : Lib.Halts (round files) st ∨ ∃ st', Lib.Comes (round files) st st' ∧ st'.stack = rest := by
  induction hleft : MAX_NEST_LEVEL - rest.length using Nat.strongRecOn generalizing st f rest with
  | ind left ihleft =>
    induction hweight : f.weight using Nat.strongRecOn generalizing st f with
    | ind w ihweight =>
      match hround : round files st with
      | none => exact Or.inl ⟨1, none, by rw [Lib.machine, hround]⟩
      | some (.inl r) => exact Or.inl ⟨1, some r, by rw [Lib.machine, hround]⟩
      | some (.inr st1) =>
        have hgoes : Lib.Goes (round files) st st1 := hround
        have hcomes := Relation.ReflTransGen.single hgoes
        obtain ⟨f', rest', hstack', hcase⟩ := goes_cases hgoes
        rw [hstack] at hstack'
        cases hstack'
        rcases hcase with ⟨-, rfl⟩ | ⟨mode, cfg, p, hturn, rfl⟩ | ⟨offset, path, mode, p, content, hturn, -, hnest, rfl⟩
        · exact Or.inr ⟨_, hcomes, rfl⟩
        · obtain ⟨hsuffix, hless⟩ := parseLine_rest hturn rfl
          subst hweight
          have hstack1 : (⟨st.mem, f.at mode p :: rest, cfg⟩ : PxeState).stack = f.at mode p :: rest := rfl
          rcases ihweight _ (f.weight_at hsuffix hless) hstack1 rfl with hhalts | ⟨st2, hcomes2, hstack2⟩
          · exact Or.inl (Lib.halts_of_comes hcomes hhalts)
          · exact Or.inr ⟨st2, hcomes.trans hcomes2, hstack2⟩
        · -- the included file is done with first, then the rest of this one
          obtain ⟨hsuffix, hless⟩ := parseLine_rest hturn rfl
          subst hweight
          rw [hstack, length_cons] at hnest
          have hstack1 : (load st.mem (f.at mode p :: rest) st.cfg (f.b + offset) content).stack =
            ⟨f.b + offset, f.b + offset + textLength content, f.b + offset, .top⟩ :: f.at mode p :: rest := rfl
          rcases ihleft (MAX_NEST_LEVEL - (rest.length + 1)) (by omega) hstack1 rfl with hhalts | ⟨st2, hcomes2, hstack2⟩
          · exact Or.inl (Lib.halts_of_comes hcomes hhalts)
          · rcases ihweight _ (f.weight_at hsuffix hless) hstack2 rfl with hhalts | ⟨st3, hcomes3, hstack3⟩
            · exact Or.inl (Lib.halts_of_comes (hcomes.trans hcomes2) hhalts)
            · exact Or.inr ⟨st3, (hcomes.trans hcomes2).trans hcomes3, hstack3⟩

theorem halts (st : PxeState) : Lib.Halts (round files) st := by
  induction hstack : st.stack generalizing st with
  | nil =>
    refine ⟨1, some (.ok st.cfg), ?_⟩
    rw [Lib.machine, round, hstack]
  | cons f rest ih =>
    rcases unwinds hstack with hhalts | ⟨st', hcomes, hstack'⟩
    · exact hhalts
    · exact Lib.halts_of_comes hcomes (ih st' hstack')

end Pxe

/-! ## What a turn needs -/

namespace Pxe
variable {set : List UInt8 → PxeMenu}


/-- What a turn of a loop needs. -/
structure LineOk (len : Option Nat) (mode : PxeMode) (cfg : PxeMenu) (p : List UInt8) : Prop where
  /-- The line ends. -/
  ends : Ends p
  /-- Behind a `menu` with nothing else on its line, the next line ends as well. -/
  menu : ∀ p1 p2, mode ≠ .menu → Starts p .menu p1 → LineOver p1 p2 → Ends p2
  /-- In a label, so it does behind a `menu label` with nothing else on its line. -/
  menuLabel : ∀ p1 p2 p3, mode = .label → Starts p .menu p1 → Starts p1 .label p2 → LineOver p2 p3 → Ends p3
  /-- A `default` has its argument. -/
  default : ∀ p1 p2, mode = .top → Starts p .default p1 → ¬LineOver p1 p2
  /-- An `append` in a label that has no `initrd` has its argument, or there was one before, and there an `initrd=` ends. -/
  append : ∀ p1 p2 val, mode = .label → Starts p .append p1 → parseSliteral p1 = some (val, p2) → cfg.label.initrd = none →
    ∃ a, (val <|> cfg.label.append) = some a ∧ InitrdEnds a
  /-- The NUL of a file that includes another one is still there. -/
  nul : ∀ p1 p2, mode = .top → (Starts p .include p1 ∨ (Starts p .menu p1 ∧ Starts p1 .include p2)) → len ≠ none

variable {len offset : Option Nat} {mode : PxeMode} {cfg : PxeMenu} {p p' : List UInt8} {t : Token}

theorem appendInitrd_ne_none {a : List UInt8} : appendInitrd a ≠ none ↔ InitrdEnds a := by
  unfold appendInitrd InitrdEnds
  cases strstrAt a initrdText with
  | none => exact iff_of_true nofun nofun
  | some i =>
    simp only [some.injEq, forall_eq']
    by_cases hs : chSpace ∈ a.drop (i + 7)
    · exact iff_of_true (by rw [if_pos hs]; nofun) hs
    · exact iff_of_false (fun h => h (by rw [if_neg hs])) hs

theorem ends_of_sliteral {val : Option (List UInt8)} (h : parseSliteral p = some (val, p')) : Ends p := by
  by_contra hends
  rw [parseSliteral_eq_none.2 hends] at h
  cases h

theorem exists_sliteral (h : Ends p) : ∃ val p', parseSliteral p = some (val, p') := by
  match hget : parseSliteral p with
  | none => exact absurd h (parseSliteral_eq_none.1 hget)
  | some (val, p') => exact ⟨val, p', rfl⟩

theorem ends_of_string {s : List UInt8} (h : parseSliteral p = some (some s, p')) : Ends p' := by
  obtain ⟨-, c, e, rfl, hc⟩ := parseSliteral_string h
  exact ⟨c, mem_cons_self, hc⟩

theorem restOfLine_ne_none : restOfLine mode cfg p ≠ none ↔ Ends p := by
  unfold restOfLine
  rw [ne_eq, map_eq_none_iff, eolOrEof_eq_none, not_not]

theorem parseString_ne_none : parseString mode set p ≠ none ↔ Ends p := by
  rw [← not_iff_not, not_not, ← parseSliteral_eq_none]
  unfold parseString
  match parseSliteral p with
  | none => exact iff_of_true rfl rfl
  | some (none, _) => exact iff_of_false nofun nofun
  | some (some s, _) => exact iff_of_false nofun nofun

theorem parseNumber_ne_none {set : Int → PxeMenu} : parseNumber mode set p ≠ none ↔ Ends p := by
  rw [← not_iff_not, not_not, ← parseSliteral_eq_none]
  unfold parseNumber parseInteger
  match parseSliteral p with
  | none => exact iff_of_true rfl rfl
  | some (val, _) =>
    refine iff_of_false ?_ nofun
    simp only
    split <;> simp_all

theorem handleInclude_ne_none : handleInclude offset mode p ≠ none ↔ offset ≠ none ∧ Ends p := by
  unfold handleInclude
  cases offset with
  | none => exact iff_of_false (fun h => h rfl) fun h => h.1 rfl
  | some n =>
    match hget : parseSliteral p with
    | none => exact iff_of_false (fun h => h rfl) fun h => parseSliteral_eq_none.1 hget h.2
    | some (none, _) => exact iff_of_true nofun ⟨nofun, ends_of_sliteral hget⟩
    | some (some s, _) => exact iff_of_true nofun ⟨nofun, ends_of_sliteral hget⟩

theorem not_ends_of_none (hget : getToken p .keyword = none) : ¬Ends p := by
  intro h
  obtain ⟨t, p', hsome⟩ := getToken_isSome h .keyword
  rw [hget] at hsome
  cases hsome

theorem ends_left_iff (hget : getToken p .keyword = some (t, p')) :
    Ends p' ↔ Ends p ∧ ∀ p2, (t.type = .eol ∨ t.type = .eof) ∧ p2 = p' → Ends p2 := by
  constructor
  · intro h
    refine ⟨ends_of_keyword hget h, ?_⟩
    rintro _ ⟨-, rfl⟩
    exact h
  · rintro ⟨h, hover⟩
    by_cases htype : t.type = .eol ∨ t.type = .eof
    · exact hover p' ⟨htype, rfl⟩
    · exact (ends_of_getToken hget htype).2 h

theorem parseMenu_ne_none : parseMenu len cfg p ≠ none ↔ Ends p ∧ (∀ p2, LineOver p p2 → Ends p2) ∧ ∀ p2, Starts p .include p2 → len ≠ none := by
  match hget : getToken p .keyword with
  | none =>
    exact iff_of_false (fun h => h (by rw [parseMenu, hget])) fun h => not_ends_of_none hget h.1
  | some (t, p') =>
    simp only [over_iff hget, starts_iff hget]
    unfold parseMenu
    simp only [hget]
    have hends := ends_of_getToken hget
    unfold menuSwitch
    split
    next htype =>
      rw [htype] at hends ⊢
      constructor
      · intro h
        refine ⟨(hends nofun).1 ?_, nofun, nofun⟩
        by_contra hno
        rw [parseSliteral_eq_none.2 hno] at h
        exact h rfl
      · rintro ⟨h, -⟩
        obtain ⟨val, p2, hlit⟩ := exists_sliteral ((hends nofun).2 h)
        rw [hlit]
        cases val with
        | none => exact nofun
        | some s => exact restOfLine_ne_none.2 (ends_of_string hlit)
    next htype =>
      rw [htype] at hends ⊢
      rw [handleInclude_ne_none, hends nofun, ne_eq, map_eq_none_iff]
      constructor
      · rintro ⟨hlen, h⟩
        exact ⟨h, nofun, fun _ _ => hlen⟩
      · rintro ⟨h, -, hlen⟩
        exact ⟨hlen p' ⟨rfl, rfl⟩, h⟩
    next htitle hinclude =>
      rw [restOfLine_ne_none, ends_left_iff hget]
      exact ⟨fun h => ⟨h.1, h.2, fun _ hp => absurd hp.1 hinclude⟩, fun h => ⟨h.1, h.2.1⟩⟩

theorem parseLabelMenu_ne_none : parseLabelMenu cfg p ≠ none ↔
      Ends p ∧ (∀ p2, LineOver p p2 → Ends p2) ∧ ∀ p2 p3, Starts p .label p2 → LineOver p2 p3 → Ends p3 := by
  match hget : getToken p .keyword with
  | none =>
    exact iff_of_false (fun h => h (by rw [parseLabelMenu, hget])) fun h => not_ends_of_none hget h.1
  | some (t, p') =>
    simp only [over_iff hget, starts_iff hget]
    unfold parseLabelMenu
    simp only [hget]
    have hends := ends_of_getToken hget
    unfold labelMenuSwitch
    split
    next htype =>
      rw [htype] at hends ⊢
      rw [restOfLine_ne_none, hends nofun]
      exact ⟨fun h => ⟨h, nofun, nofun⟩, fun h => h.1⟩
    next htype =>
      rw [htype] at hends ⊢
      constructor
      · intro h
        split at h
        · exact absurd rfl h
        next hlit =>
          refine ⟨(hends nofun).1 (ends_of_sliteral hlit), nofun, ?_⟩
          rintro _ p3 ⟨-, rfl⟩ hover
          have hlit' := parseSliteral_over.2 hover
          rw [hlit] at hlit'
          cases hlit'
          exact restOfLine_ne_none.1 h
        next hlit =>
          refine ⟨(hends nofun).1 (ends_of_sliteral hlit), nofun, ?_⟩
          rintro _ p3 ⟨-, rfl⟩ hover
          have hlit' := parseSliteral_over.2 hover
          rw [hlit] at hlit'
          cases hlit'
      · rintro ⟨h, -, hover⟩
        obtain ⟨val, p2, hlit⟩ := exists_sliteral ((hends nofun).2 h)
        rw [hlit]
        cases val with
        | none => exact restOfLine_ne_none.2 (hover p' p2 ⟨rfl, rfl⟩ (parseSliteral_over.1 hlit))
        | some s => exact restOfLine_ne_none.2 (ends_of_string hlit)
    next hdefault hlabel =>
      rw [restOfLine_ne_none, ends_left_iff hget]
      exact ⟨fun h => ⟨h.1, h.2, fun _ _ hp => absurd hp.1 hlabel⟩, fun h => ⟨h.1, h.2.1⟩⟩

theorem parseAppend_ne_none : parseAppend cfg p ≠ none ↔ Ends p ∧ ∀ val p2, parseSliteral p = some (val, p2) → cfg.label.initrd = none →
        ∃ a, (val <|> cfg.label.append) = some a ∧ InitrdEnds a := by
  unfold parseAppend
  match hlit : parseSliteral p with
  | none => exact iff_of_false (fun h => h rfl) fun h => parseSliteral_eq_none.1 hlit h.1
  | some (val, p') =>
    have hends := ends_of_sliteral hlit
    simp only [some.injEq, Prod.mk.injEq, hends, true_and, and_imp]
    by_cases hinitrd : cfg.label.initrd = none
    · rw [if_neg (not_not.2 hinitrd)]
      constructor
      · rintro h _ _ rfl rfl -
        match happend : (val <|> cfg.label.append) with
        | none =>
          rw [happend] at h
          exact absurd rfl h
        | some a =>
          refine ⟨a, rfl, appendInitrd_ne_none.1 fun hnone => ?_⟩
          simp only [happend, bind_some, hnone] at h
          exact h rfl
      · intro h
        obtain ⟨a, happend, ha⟩ := h val p' rfl rfl hinitrd
        simp only [happend, bind_some]
        match hi : appendInitrd a with
        | none => exact absurd hi (appendInitrd_ne_none.2 ha)
        | some none => exact nofun
        | some (some s) => exact nofun
    · rw [if_pos hinitrd]
      exact iff_of_true nofun fun _ _ _ _ hno => absurd hno hinitrd

theorem topSwitch_ends {type : TokenType} (h : topSwitch len cfg p type ≠ none) : (type = .eol ∨ type = .eof) ∨ Ends p := by
  unfold topSwitch at h
  split at h
  · exact Or.inr (parseMenu_ne_none.1 h).1
  · exact Or.inr (parseNumber_ne_none.1 h)
  · exact Or.inr (parseString_ne_none.1 h)
  · split at h
    · exact absurd rfl h
    · exact absurd rfl h
    next hlit => exact Or.inr (ends_of_sliteral hlit)
  · exact Or.inr (handleInclude_ne_none.1 h).2
  · exact Or.inr (parseNumber_ne_none.1 h)
  · exact Or.inl (Or.inl rfl)
  · exact Or.inl (Or.inr rfl)
  · exact Or.inr (restOfLine_ne_none.1 h)

/-- A turn of the loop of `parse_pxefile_top` goes right just if it has what it needs. -/
theorem parseTopLine_ne_none : parseTopLine len cfg p ≠ none ↔ LineOk len .top cfg p := by
  match hget : getToken p .keyword with
  | none =>
    exact iff_of_false (fun h => h (by rw [parseTopLine, hget])) fun h => not_ends_of_none hget h.ends
  | some (t, p') =>
    have hends := ends_of_getToken hget
    have hturn : parseTopLine len cfg p = topSwitch len cfg p' t.type := by rw [parseTopLine, hget]
    rw [hturn]
    constructor
    · intro h
      refine ⟨?_, ?_, nofun, ?_, nofun, ?_⟩
      · by_cases htype : t.type = .eol ∨ t.type = .eof
        · exact ((getToken_over hget).1 htype).ends
        · exact (hends htype).1 ((topSwitch_ends h).resolve_left htype)
      · intro p1 p2 _ hs hover
        obtain ⟨htype, rfl⟩ := (starts_iff hget).1 hs
        rw [htype] at h
        exact (parseMenu_ne_none.1 h).2.1 p2 hover
      · intro p1 p2 _ hs hover
        obtain ⟨htype, rfl⟩ := (starts_iff hget).1 hs
        rw [htype] at h
        simp only [topSwitch, parseSliteral_over.2 hover] at h
        exact h rfl
      · rintro p1 p2 - (hs | ⟨hs, hs2⟩)
        · obtain ⟨htype, rfl⟩ := (starts_iff hget).1 hs
          rw [htype] at h
          have hlen := (handleInclude_ne_none.1 h).1
          rwa [ne_eq, map_eq_none_iff] at hlen
        · obtain ⟨htype, rfl⟩ := (starts_iff hget).1 hs
          rw [htype] at h
          exact (parseMenu_ne_none.1 h).2.2 p2 hs2
    · intro h
      have hstarts : Starts p t.type p' := ⟨t, hget, rfl⟩
      have hrest (htype : ¬(t.type = .eol ∨ t.type = .eof)) : Ends p' := (hends htype).2 h.ends
      generalize t.type = type at hstarts hrest ⊢
      unfold topSwitch
      split
      · exact parseMenu_ne_none.2 ⟨hrest nofun, fun p2 => h.menu p' p2 nofun hstarts, fun p2 hs => h.nul p' p2 rfl (Or.inr ⟨hstarts, hs⟩)⟩
      · exact parseNumber_ne_none.2 (hrest nofun)
      · exact parseString_ne_none.2 (hrest nofun)
      · obtain ⟨val, p2, hlit⟩ := exists_sliteral (hrest nofun)
        rw [hlit]
        cases val with
        | none => exact absurd (parseSliteral_over.1 hlit) (h.default p' p2 rfl hstarts)
        | some val => exact nofun
      · refine handleInclude_ne_none.2 ⟨?_, hrest nofun⟩
        rw [ne_eq, map_eq_none_iff]
        exact h.nul p' p' rfl (Or.inl hstarts)
      · exact parseNumber_ne_none.2 (hrest nofun)
      · exact nofun
      · exact nofun
      next heol heof => exact restOfLine_ne_none.2 (hrest (not_or.2 ⟨heol, heof⟩))

theorem parseLabelLine_eq (hget : getToken p .keyword = some (t, p')) : parseLabelLine cfg p = labelSwitch cfg p p' t.type := by
  rw [parseLabelLine, hget]

/-- A turn of the loop of `parse_label` goes right if it has what it needs. -/
theorem parseLabelLine_of_ok (h : LineOk len .label cfg p) : parseLabelLine cfg p ≠ none := by
  obtain ⟨t, p', hget⟩ := getToken_isSome h.ends .keyword
  have hstarts : Starts p t.type p' := ⟨t, hget, rfl⟩
  have hrest (htype : ¬(t.type = .eol ∨ t.type = .eof)) : Ends p' := (ends_of_getToken hget htype).2 h.ends
  rw [parseLabelLine_eq hget]
  generalize t.type = type at hstarts hrest ⊢
  unfold labelSwitch
  split
  · exact parseLabelMenu_ne_none.2 ⟨hrest nofun, fun p2 => h.menu p' p2 nofun hstarts, fun p2 p3 => h.menuLabel p' p2 p3 rfl hstarts⟩
  · exact parseString_ne_none.2 (hrest nofun)
  · exact parseString_ne_none.2 (hrest nofun)
  · exact parseAppend_ne_none.2 ⟨hrest nofun, fun val p2 => h.append p' p2 val rfl hstarts⟩
  · split
    · exact parseString_ne_none.2 (hrest nofun)
    · exact nofun
  · split
    · exact parseString_ne_none.2 (hrest nofun)
    · exact nofun
  · exact parseNumber_ne_none.2 (hrest nofun)
  · exact nofun
  · exact nofun

/-- A turn of the loop of `parse_label` that goes right had what it needs, if the line ends. -/
theorem lineOk_label (h : parseLabelLine cfg p ≠ none) (hends : Ends p) : LineOk len .label cfg p := by
  have hswitch {type : TokenType} {p1 : List UInt8} (hs : Starts p type p1) : labelSwitch cfg p p1 type ≠ none := by
    obtain ⟨t, hget, rfl⟩ := hs
    rwa [parseLabelLine_eq hget] at h
  refine ⟨hends, ?_, ?_, nofun, ?_, nofun⟩
  · intro p1 p2 _ hs
    exact (parseLabelMenu_ne_none.1 (hswitch hs)).2.1 p2
  · intro p1 p2 p3 _ hs
    exact (parseLabelMenu_ne_none.1 (hswitch hs)).2.2 p2 p3
  · intro p1 p2 val _ hs
    exact (parseAppend_ne_none.1 (hswitch hs)).2 val p2

theorem parseLabelLine_ends {x : Parsed} (h : parseLabelLine cfg p = some x) : Ends p ∨ ∃ mode' cfg' p', x = .next mode' cfg' p' := by
  match hget : getToken p .keyword with
  | none =>
    rw [parseLabelLine, hget] at h
    cases h
  | some (t, p') =>
    by_cases htype : t.type = .eol ∨ t.type = .eof
    · exact Or.inl ((getToken_over hget).1 htype).ends
    · have hends := (ends_of_getToken hget htype).1
      rw [parseLabelLine_eq hget] at h
      unfold labelSwitch at h
      split at h
      · exact Or.inl (hends (parseLabelMenu_ne_none.1 (by rw [h]; nofun)).1)
      · exact Or.inl (hends (parseString_ne_none.1 (by rw [h]; nofun)))
      · exact Or.inl (hends (parseString_ne_none.1 (by rw [h]; nofun)))
      · exact Or.inl (hends (parseAppend_ne_none.1 (by rw [h]; nofun)).1)
      · split at h
        · exact Or.inl (hends (parseString_ne_none.1 (by rw [h]; nofun)))
        · exact Or.inr ⟨_, _, _, (some.inj h).symm⟩
      · split at h
        · exact Or.inl (hends (parseString_ne_none.1 (by rw [h]; nofun)))
        · exact Or.inr ⟨_, _, _, (some.inj h).symm⟩
      · exact Or.inl (hends (parseNumber_ne_none.1 (by rw [h]; nofun)))
      · exact Or.inr ⟨_, _, _, (some.inj h).symm⟩
      · exact Or.inr ⟨_, _, _, (some.inj h).symm⟩

/-! ## The run -/

/-- In the file on top the turn has what it needs. -/
def LineSound (st : PxeState) : Prop :=
  ∀ f rest, st.stack = f :: rest → LineOk (strlen (view st.mem f.b f.nul)) f.mode st.cfg (view st.mem f.p f.nul)

theorem turn_ne_none (hround : round files st ≠ none) (hstack : st.stack = f :: rest) : st.turn f ≠ none := by
  intro hturn
  apply hround
  unfold round
  rw [hstack]
  simp only [hturn]

theorem round_ne_none (h : LineSound st) : round files st ≠ none := by
  intro hround
  match hstack : st.stack with
  | [] =>
    rw [round, hstack] at hround
    cases hround
  | f :: rest =>
    have hok := h f rest hstack
    have hturn : st.turn f ≠ none := by
      unfold PxeState.turn parseLine
      cases hmode : f.mode with
      | top => exact parseTopLine_ne_none.2 (hmode ▸ hok)
      | label => exact parseLabelLine_of_ok (hmode ▸ hok)
      | menu => exact restOfLine_ne_none.2 hok.ends
    unfold round at hround
    rw [hstack] at hround
    simp only at hround
    split at hround
    next hnone => exact hturn hnone
    · cases hround
    · cases hround
    · cases hround
    · split at hround
      · cases hround
      · split at hround
        · cases hround
        · cases hround

theorem view_at {mem : Nat → UInt8} {a nul : Nat} (h : p <:+ view mem a nul) : view mem (nul + 1 - p.length) nul = p := by
  obtain ⟨q, hq⟩ := h
  have hlen := congrArg List.length hq
  rw [length_append, view_length] at hlen
  have hp : p = (view mem a nul).drop q.length := by rw [← hq, drop_left]
  refine ext_getElem (by rw [view_length]; omega) fun i h1 h2 => ?_
  rw [getElem_of_eq hp, getElem_drop, view_getElem, view_getElem]
  exact congrArg mem (by omega)

theorem goes_next (files : List UInt8 → Option (List UInt8)) (hstack : st.stack = f :: rest)
    (hturn : st.turn f = some (.next mode cfg p)) :
    Lib.Goes (round files) st ⟨st.mem, f.at mode p :: rest, cfg⟩ ∧ p <:+ view st.mem f.p f.nul ∧
      view st.mem (f.at mode p).p (f.at mode p).nul = p ∧ (f.at mode p).weight < f.weight := by
  obtain ⟨hsuffix, hless⟩ := parseLine_rest hturn rfl
  refine ⟨?_, hsuffix, view_at hsuffix, f.weight_at hsuffix hless⟩
  unfold Lib.Goes round
  rw [hstack]
  simp only [hturn]

/-- In a run that goes right, the line of each file that comes on top ends: by induction on what is left of the file. -/
theorem ends_of_right (hright : ∀ st', Lib.Comes (round files) st st' → round files st' ≠ none) (hstack : st.stack = f :: rest) :
    Ends (view st.mem f.p f.nul) := by
  induction hweight : f.weight using Nat.strongRecOn generalizing st f with
  | ind w ih =>
    subst hweight
    have hturn := turn_ne_none (hright st Relation.ReflTransGen.refl) hstack
    cases hmode : f.mode with
    | top =>
      unfold PxeState.turn parseLine at hturn
      rw [hmode] at hturn
      exact (parseTopLine_ne_none.1 hturn).ends
    | menu =>
      unfold PxeState.turn parseLine at hturn
      rw [hmode] at hturn
      exact restOfLine_ne_none.1 hturn
    | label =>
      obtain ⟨x, hx⟩ := ne_none_iff_exists'.1 hturn
      have hline := hx
      unfold PxeState.turn parseLine at hline
      rw [hmode] at hline
      rcases parseLabelLine_ends hline with hends | ⟨mode', cfg', p', rfl⟩
      · exact hends
      · obtain ⟨hgoes, hsuffix, hview, hless⟩ := goes_next files hstack hx
        obtain ⟨c, hc, hend⟩ := hview ▸ ih _ hless (fun st' hst' => hright st' (Relation.ReflTransGen.head hgoes hst')) rfl rfl
        exact ⟨c, hsuffix.subset hc, hend⟩

end Pxe

open Pxe in
/-- The parse of a file ends with at most `MAX_NEST_LEVEL` files open, reads no byte behind the NUL of one and uses no string that was not set,
just if each turn of its loops has what it needs. -/
theorem pxe_parse_inside_iff (files : List UInt8 → Option (List UInt8)) (mem : Nat → UInt8) (b : Nat) (content : List UInt8) :
    (Lib.Returns (round files) (start mem b content) ∧
        ∀ st, Lib.Comes (round files) (start mem b content) st → st.stack.length ≤ MAX_NEST_LEVEL) ↔
      ∀ st, Lib.Comes (round files) (start mem b content) st → LineSound st := by
  rw [Lib.returns_iff_of_halts (halts _)]
  constructor
  · rintro ⟨hright, -⟩ st hst f rest hstack
    have hright' : ∀ st', Lib.Comes (round files) st st' → round files st' ≠ none := fun st' hst' => hright st' (hst.trans hst')
    have hends := ends_of_right hright' hstack
    have hturn := turn_ne_none (hright st hst) hstack
    unfold PxeState.turn Pxe.parseLine at hturn
    cases hmode : f.mode with
    | top =>
      rw [hmode] at hturn
      exact parseTopLine_ne_none.1 hturn
    | label =>
      rw [hmode] at hturn
      exact lineOk_label hturn hends
    | menu => exact ⟨hends, fun _ _ h => absurd rfl h, nofun, nofun, nofun, nofun⟩
  · intro h
    exact ⟨fun st hst => round_ne_none (h st hst), fun st hst => nested_comes hst⟩

/-- The text `menu`. -/
theorem pxe_parse_outside : ¬(Lib.Returns (Pxe.round fun _ => none) (Pxe.start (fun _ => 0) 0 ("menu".toList.map asc)) ∧
        ∀ st, Lib.Comes (Pxe.round fun _ => none) (Pxe.start (fun _ => 0) 0 ("menu".toList.map asc)) st →
          st.stack.length ≤ Pxe.MAX_NEST_LEVEL) := by
  have hwrong : Pxe.round (fun _ => none) (Pxe.start (fun _ => 0) 0 ("menu".toList.map asc)) = none := by rfl
  intro h
  exact (Lib.sound_of_returns h.1).1 _ Relation.ReflTransGen.refl hwrong

end UBoot
